import Mathlib.Data.List.Forall2
import Stepwise.Proofs.Adapter.Answers
import Stepwise.Proofs.Adapter.Relay

/-! Two servers that differ in nothing but their past and the path of the program that was read
last. What the one does in a step, the other does too; they send the same, but for the numbers of
the messages and for the paths in a stack. Only a request to launch makes them read a program or
begin a run. -/

namespace Stepwise

def Server.stackBody (path : Option String) (highlight : Range) (stack : List StackEntry) : Json :=
  let frames := stack.zipIdx.map fun (e, i) => frameBody path highlight i e
  .obj [("stackFrames", .arr frames), ("totalFrames", Json.nat frames.length)]

namespace Message

/-- The same, unless it is a stack that the one tells with the path `p` and the other with `q`. -/
inductive Content.Alike (p q : Option String) : Content → Content → Prop
  | same (c : Content) : Alike p q c c
  | stack (answered : Nat) (command : String) (highlight : Range) (stack : List StackEntry) :
    Alike p q (.response answered true command none (some (Server.stackBody p highlight stack)))
      (.response answered true command none (some (Server.stackBody q highlight stack)))

theorem Content.Alike.eq {p : Option String} {c d : Content} (h : c.Alike p p d) : d = c := by
  cases h <;> rfl

/-- Messages that may have different numbers. -/
structure Alike (p q : Option String) (m n : Message) : Prop where
  type : n.type = m.type
  content : m.content.Alike p q n.content

theorem Alike.of_eq {p q p' q' : Option String} {m n : Message} (h : m.Alike p q n)
    (hpq : p = q) : m.Alike p' q' n := by
  subst hpq
  refine ⟨h.type, ?_⟩
  rw [h.content.eq]
  exact .same _

theorem Alike.toFields {p : Option String} {m n : Message} (h : m.Alike p p n) :
    n.toFields = m.toFields := by
  rw [Message.toFields, h.type, h.content.eq, Message.toFields]

end Message

namespace Server

variable {s t s' t' s'' t'' : Server} {S : Session} {seq : Nat} {command : String}

structure Twins (s t : Server) : Prop where
  settings : t.settings = s.settings
  session : t.session = s.session
  forwarded : t.forwarded = s.forwarded

structure Tandem (s t s' t' : Server) : Prop where
  twins : s'.Twins t'
  path : s'.programPath = s.programPath ∧ t'.programPath = t.programPath
  unused : s.session = none → s'.session = none
  sends : ∃ ms ns, s.Sends s' ms ∧ t.Sends t' ns ∧
    List.Forall₂ (Message.Alike s.programPath t.programPath) ms ns

theorem Twins.refl (s : Server) : s.Twins s :=
  ⟨rfl, rfl, rfl⟩

theorem Twins.isActive (h : s.Twins t) : t.isActive = s.isActive := by
  rw [Server.isActive, h.session, Server.isActive]

theorem Twins.pause? (h : s.Twins t) : t.pause? = s.pause? := by
  rw [Server.pause?, h.session, Server.pause?]

theorem Twins.unsent? (h : s.Twins t) : t.unsent? = s.unsent? := by
  rw [Server.unsent?, h.session, h.forwarded, Server.unsent?]

namespace Tandem

theorem quiet (h : s'.Twins t')
    (path : s'.programPath = s.programPath ∧ t'.programPath = t.programPath)
    (unused : s.session = none → s'.session = none) (sent : s'.sent = s.sent)
    (sent' : t'.sent = t.sent) : Tandem s t s' t' :=
  ⟨h, path, unused, [], [], .none sent, .none sent', .nil⟩

theorem refl (h : s.Twins t) : Tandem s t s t :=
  .quiet h ⟨rfl, rfl⟩ id rfl rfl

theorem trans (h : Tandem s t s' t') (h' : Tandem s' t' s'' t'') : Tandem s t s'' t'' := by
  obtain ⟨ms, ns, hms, hns, halike⟩ := h.sends
  obtain ⟨ms', ns', hms', hns', halike'⟩ := h'.sends
  rw [h.path.1, h.path.2] at halike'
  exact ⟨h'.twins, ⟨h'.path.1.trans h.path.1, h'.path.2.trans h.path.2⟩,
    fun hs => h'.unused (h.unused hs), ms ++ ms', ns ++ ns', hms.append hms', hns.append hns',
    List.rel_append halike halike'⟩

end Tandem

namespace Twins

variable (h : s.Twins t)
include h

theorem send (type : String) {c d : Message.Content}
    (hc : c.Alike s.programPath t.programPath d) :
    Tandem s t (s.send type c) (t.send type d) :=
  ⟨⟨h.settings, h.session, h.forwarded⟩, ⟨rfl, rfl⟩, id, _, _, s.sends_send type c,
    t.sends_send type d, .cons ⟨rfl, hc⟩ .nil⟩

theorem respond (seq : Nat) (command : String) (body : Option Json) :
    Tandem s t (s.respond seq command body) (t.respond seq command body) :=
  h.send _ (.same _)

theorem announce (name : String) (body : Option Json) :
    Tandem s t (s.announce name body) (t.announce name body) :=
  h.send _ (.same _)

theorem warn (message : String) (details : List Log.Detail) :
    Tandem s t (s.warn message details) (t.warn message details) :=
  .quiet ⟨h.settings, h.session, h.forwarded⟩ ⟨rfl, rfl⟩ id rfl rfl

theorem refuse (seq : Nat) (command reason : String) :
    Tandem s t (s.refuse seq command reason) (t.refuse seq command reason) :=
  (h.warn _ _).trans ((h.warn _ _).twins.send _ (.same _))

theorem withSession {S' : Session} (hS : s.session = some S) :
    Tandem s t (s.withSession S') (t.withSession S') :=
  .quiet ⟨h.settings, rfl, h.forwarded⟩ ⟨rfl, rfl⟩ (by simp [hS]) rfl rfl

theorem mapSession (f : Session → Session) :
    Tandem s t { s with session := s.session.map f } { t with session := t.session.map f } :=
  .quiet ⟨h.settings, congrArg (Option.map f) h.session, h.forwarded⟩ ⟨rfl, rfl⟩
    (fun hs => by simp [hs]) rfl rfl

/-! Telling the client of the run. -/

theorem forwardNext (d : Display) : Tandem s t (s.forwardNext d) (t.forwardNext d) := by
  have hforward : Tandem s t (s.forward d) (t.forward d) := by
    cases d with
    | text text => exact h.announce _ _
    | cursor visible => exact .refl h
  refine hforward.trans (.quiet ?_ ⟨rfl, rfl⟩ id rfl rfl)
  exact ⟨hforward.twins.settings, hforward.twins.session, congrArg (· + 1) h.forwarded⟩

theorem tell_paused (p : Pause) : Tandem s t (s.tell (.paused p)) (t.tell (.paused p)) :=
  h.announce _ _

theorem conclude (o : Outcome) : Tandem s t (s.conclude o) (t.conclude o) :=
  (h.announce _ _).trans ((h.announce _ _).twins.announce _ _)

theorem telling (l : Telling) :
    (l.step t).1 = (l.step s).1 ∧ Tandem s t (l.step s).2 (l.step t).2 := by
  cases l with
  | flushing =>
    rw [Telling.step, Telling.step, h.unsent?]
    cases s.unsent? with
    | some d => exact ⟨rfl, h.forwardNext d⟩
    | none => exact ⟨rfl, .refl h⟩
  | concluding o =>
    rw [Telling.step, Telling.step, h.unsent?]
    cases s.unsent? with
    | some d => exact ⟨rfl, h.forwardNext d⟩
    | none => exact ⟨rfl, h.conclude o⟩
  | polling =>
    rw [Telling.step, Telling.step, h.session]
    cases hS : s.session with
    | none => exact ⟨rfl, .refl h⟩
    | some S =>
      rw [Option.map_some]
      cases S.poll with
      | error e => exact ⟨rfl, .refl h⟩
      | ok x =>
        obtain ⟨_ | e, S'⟩ := x
        · exact ⟨rfl, .refl h⟩
        · cases e with
          | paused p =>
            exact ⟨rfl, (h.withSession hS).trans ((h.withSession hS).twins.tell_paused p)⟩
          | terminated o => exact ⟨rfl, h.withSession hS⟩

/-! Requests. -/

theorem greet (seq : Nat) (command : String) :
    Tandem s t (s.greet seq command) (t.greet seq command) :=
  (h.respond _ _ _).trans ((h.respond _ _ _).twins.announce _ _)

theorem interrupt : Tandem s t s.interrupt t.interrupt := by
  unfold Server.interrupt
  rw [h.isActive]
  split
  · exact h.mapSession _
  · exact .refl h

theorem terminate (seq : Nat) (command : String) :
    Tandem s t (s.terminate seq command) (t.terminate seq command) := by
  unfold Server.terminate
  rw [h.isActive]
  split
  · exact h.interrupt.trans (h.interrupt.twins.respond _ _ _)
  · exact h.refuse _ _ _

theorem stackTrace (seq : Nat) (command : String) :
    Tandem s t (s.stackTrace seq command) (t.stackTrace seq command) := by
  unfold Server.stackTrace
  rw [h.pause?]
  split
  · exact h.refuse _ _ _
  · split
    · exact h.refuse _ _ _
    · exact h.send _ (.stack _ _ _ _)

theorem variableList (seq : Nat) (command : String) (arguments : Option Json) :
    Tandem s t (s.variableList seq command arguments) (t.variableList seq command arguments) := by
  unfold Server.variableList
  rw [h.pause?]
  dsimp only
  split
  · exact h.refuse _ _ _
  · split
    · exact h.refuse _ _ _
    · exact h.respond _ _ _

end Twins

end Server

namespace Relay

structure Twins (r r' : Relay) : Prop where
  server : r.server.Twins r'.server
  task : r'.task = r.task

structure Tandem (r r' u u' : Relay) : Prop where
  server : Server.Tandem r.server r'.server u.server u'.server
  task : u'.task = u.task

def Move.isLaunch : Move → Bool
  | handle _ m => m.asked?.any fun asked => asked.2 = "launch"
  | _ => false

section Tandem

variable {s t : Server} {task : Task}

variable (h : s.Twins t)
include h

theorem tandem_ask (seq : Nat) (command : String) (d : Decision) :
    Tandem ⟨s, .idle⟩ ⟨t, .idle⟩ (ask s seq command d) (ask t seq command d) := by
  unfold ask
  rw [h.session]
  cases hS : s.session with
  | none => exact ⟨h.refuse _ _ _, rfl⟩
  | some S =>
    cases hstate : S.state with
    | paused p =>
      simp only [hstate]
      exact ⟨h.withSession hS, rfl⟩
    | idle | running | terminated =>
      simp only [hstate]
      exact ⟨h.refuse _ _ _, rfl⟩

theorem tandem_type (seq : Nat) (command : String) (arguments : Option Json) :
    Tandem ⟨s, .idle⟩ ⟨t, .idle⟩ (type s seq command arguments)
      (type t seq command arguments) := by
  unfold type
  rw [h.session]
  cases hS : s.session with
  | some S => exact ⟨.refl h, rfl⟩
  | none =>
    unfold Server.terminalInput
    rw [h.session, hS]
    exact ⟨h.refuse _ _ _, rfl⟩

theorem tandem_take (fs : FileSystem) (seq : Nat) {command : String} (hc : command ≠ "launch")
    (arguments : Option Json) :
    Tandem ⟨s, .idle⟩ ⟨t, .idle⟩ (take fs s seq command arguments)
      (take fs t seq command arguments) := by
  unfold take
  split
  · exact tandem_ask h _ _ _
  · exact tandem_ask h _ _ _
  · exact tandem_ask h _ _ _
  · exact tandem_type h _ _ _
  · exact ⟨h.interrupt, rfl⟩
  · refine ⟨?_, rfl⟩
    dsimp only
    unfold Server.request
    split
    · exact h.greet _ _
    · contradiction
    · exact h.respond _ _ _
    · exact h.respond _ _ _
    · exact h.stackTrace _ _
    · exact h.respond _ _ _
    · exact h.variableList _ _ _
    · contradiction
    · contradiction
    · contradiction
    · exact h.terminate _ _
    · exact h.terminate _ _
    · contradiction
    · contradiction
    · exact (h.warn _ _).trans ((h.warn _ _).twins.refuse _ _ _)

theorem tandem_askGate (seq : Nat) (command : String) (p : Pause) (d : Decision) :
    Tandem ⟨s, task⟩ ⟨t, task⟩ (askGate s seq command p d) (askGate t seq command p d) := by
  unfold askGate
  rw [h.session]
  cases hS : s.session with
  | none => exact ⟨.refl h, rfl⟩
  | some S =>
    cases hg : S.shared.gate.resolve p.seq with
    | error e =>
      simp only [hg]
      exact ⟨h.refuse _ _ _, rfl⟩
    | ok gate =>
      simp only [hg]
      exact ⟨h.withSession hS, rfl⟩

theorem tandem_sendAnswer (seq : Nat) (command : String) (d : Decision) :
    Tandem ⟨s, task⟩ ⟨t, task⟩ (sendAnswer s seq command d) (sendAnswer t seq command d) := by
  unfold sendAnswer
  rw [h.session]
  cases hS : s.session with
  | none => exact ⟨.refl h, rfl⟩
  | some S => exact ⟨(h.withSession hS).trans ((h.withSession hS).twins.respond _ _ _), rfl⟩

theorem tandem_typeNext (seq : Nat) (command : String) (d : Option Delivery) (keys : List Key) :
    Tandem ⟨s, task⟩ ⟨t, task⟩ (typeNext s seq command d keys)
      (typeNext t seq command d keys) := by
  unfold typeNext
  rw [h.session]
  cases hS : s.session with
  | none => exact ⟨.refl h, rfl⟩
  | some S =>
    cases d with
    | none =>
      cases keys with
      | nil => exact ⟨h.respond _ _ _, rfl⟩
      | cons key keys => exact ⟨.refl h, rfl⟩
    | some d =>
      cases hd : d.step S.shared.console with
      | none =>
        simp only [hd]
        exact ⟨.refl h, rfl⟩
      | some x =>
        simp only [hd]
        exact ⟨h.withSession hS, rfl⟩

theorem tandem_leave (seq : Nat) (command : String) :
    Tandem ⟨s, task⟩ ⟨t, task⟩ (leave s seq command) (leave t seq command) := by
  unfold leave
  rw [h.isActive]
  split
  · exact ⟨.refl h, rfl⟩
  · exact ⟨h.respond _ _ _, rfl⟩

theorem tandem_telling (l : Telling) (wrap : Telling → Task) (after : Server → Relay)
    (hafter : ∀ {s t : Server}, s.Twins t → Tandem ⟨s, task⟩ ⟨t, task⟩ (after s) (after t)) :
    Tandem ⟨s, task⟩ ⟨t, task⟩
      (match l.step s with
      | (some l, s) => ⟨s, wrap l⟩
      | (none, s) => after s)
      (match l.step t with
      | (some l, t) => ⟨t, wrap l⟩
      | (none, t) => after t) := by
  obtain ⟨hl, hstep⟩ := h.telling l
  rcases hs : l.step s with ⟨_ | l', s'⟩ <;> rcases ht : l.step t with ⟨l'', t'⟩ <;>
    rw [hs, ht] at hl hstep <;> obtain rfl := hl
  · have hlast := hafter hstep.twins
    exact ⟨hstep.trans hlast.server, hlast.task⟩
  · exact ⟨hstep, rfl⟩

theorem tandem_proceed (task : Task) :
    Tandem ⟨s, task⟩ ⟨t, task⟩ (proceed ⟨s, task⟩) (proceed ⟨t, task⟩) := by
  cases task with
  | idle => exact ⟨.refl h, rfl⟩
  | pumping l => exact tandem_telling h l .pumping (⟨·, .idle⟩) fun h => ⟨.refl h, rfl⟩
  | asking seq command p d => exact tandem_askGate h _ _ _ _
  | sending seq command p d => exact tandem_sendAnswer h _ _ _
  | typing seq command d keys => exact tandem_typeNext h _ _ _ _
  | leaving seq command l =>
    cases l with
    | none => exact ⟨.refl h, rfl⟩
    | some l =>
      exact tandem_telling h l (.leaving seq command ∘ some) (leave · seq command)
        fun h => tandem_leave h _ _

end Tandem

theorem Twins.act {r r' : Relay} (h : r.Twins r') {m : Move}
    (hm : r.task = .idle → m.isLaunch = false) : Tandem r r' (r.act m) (r'.act m) := by
  obtain ⟨s, before⟩ := r
  obtain ⟨t, task⟩ := r'
  obtain ⟨h, rfl : task = before⟩ := h
  cases m with
  | work => exact ⟨h.mapSession _, rfl⟩
  | pump => cases task <;> exact ⟨.refl h, rfl⟩
  | proceed => exact tandem_proceed h task
  | handle fs m =>
    obtain ⟨seq, type, content⟩ := m
    cases task with
    | idle =>
      cases content with
      | response | event => exact ⟨.refl h, rfl⟩
      | request command arguments =>
        refine tandem_take h fs seq ?_ arguments
        rintro rfl
        cases hm rfl
    | _ => exact ⟨.refl h, rfl⟩
  | giveUp =>
    cases task with
    | leaving seq command l =>
      cases l with
      | none => exact ⟨(h.warn _ _).trans ((h.warn _ _).twins.respond _ _ _), rfl⟩
      | some l => exact ⟨.refl h, rfl⟩
    | _ => exact ⟨.refl h, rfl⟩

end Relay

end Stepwise
