import Mathlib.Logic.Relation
import Stepwise.Adapter.Server
import Stepwise.Proofs.Session.Output

/-! A server in single steps, between which the run of its session may move. What a call does is
taken apart where it looks twice at something that the run may change meanwhile: it forwards the
output text by text, takes the events one by one, answers a pause and types keys in the steps that
these take, and before it lets its client go it tells of the run again and again. Undisturbed, the
steps come to what the calls come to. -/

namespace Stepwise

def Session.step (s : Session) : Session :=
  match s.worker with
  | some (b, w) =>
    { s with worker := some (b, (w.step b s.shared).1), shared := (w.step b s.shared).2 }
  | none => s

def Session.withGate (s : Session) (gate : Gate) : Session :=
  { s with shared := { s.shared with gate } }

def Session.deliver (s : Session) (d : Decision) : Session :=
  { s with
    state := .running (d = .continueStepping)
    worker := s.worker.map fun w => (w.1, w.2.deliver d) }

namespace Server

def unsent? (s : Server) : Option Display :=
  s.session.bind fun session => session.shared.console.output[s.forwarded]?

def withForwarded (s : Server) (n : Nat) : Server :=
  { s with forwarded := n }

def forwardNext (s : Server) (d : Display) : Server :=
  (s.forward d).withForwarded (s.forwarded + 1)

def withSession (s : Server) (session : Session) : Server :=
  { s with session := some session }

def conclude (s : Server) (o : Outcome) : Server :=
  (s.announce "terminated" (some o.toJson)).announce "exited"
    (some (.obj [("exitCode", Json.nat o.exitCode)]))

end Server

/-- It forwards the output, takes the events, or forwards the rest of the output before it tells of
the end. -/
inductive Telling
  | flushing
  | polling
  | concluding (o : Outcome)

def Telling.step (t : Telling) (s : Server) : Option Telling × Server :=
  match t with
  | flushing =>
    match s.unsent? with
    | some d => (some flushing, s.forwardNext d)
    | none => (some polling, s)
  | polling =>
    match s.session.map Session.poll with
    | some (.ok (some (.paused p), session)) =>
      (some polling, (s.withSession session).tell (.paused p))
    | some (.ok (some (.terminated o), session)) => (some (concluding o), s.withSession session)
    | _ => (none, s)
  | concluding o =>
    match s.unsent? with
    | some d => (some (concluding o), s.forwardNext d)
    | none => (some polling, s.conclude o)

/-- What a server is in the middle of. While it is `asking` the snapshot of the pause is released
and the gate is asked next; while it is `sending` the answer is accepted and sent next. `typing`
holds the key that is on its way and the keys behind it, and `leaving` the place in telling of the
run, without which the server waits for the end of that. -/
inductive Task
  | idle
  | pumping (t : Telling)
  | asking (seq : Nat) (command : String) (p : Pause) (d : Decision)
  | sending (seq : Nat) (command : String) (p : Pause) (d : Decision)
  | typing (seq : Nat) (command : String) (d : Option Delivery) (keys : List Key)
  | leaving (seq : Nat) (command : String) (t : Option Telling)

structure Relay where
  server : Server
  task : Task

namespace Relay

def new (settings : Settings) : Relay :=
  ⟨.new settings, .idle⟩

/-- The run takes a step, or the server does: it is called to tell of the run or to handle a
message, goes on with what it is in the middle of, or stops waiting for the end of the run. -/
inductive Move
  | work
  | pump
  | handle (fs : FileSystem) (m : Message)
  | proceed
  | giveUp

def ask (s : Server) (seq : Nat) (command : String) (d : Decision) : Relay :=
  match s.session with
  | none => ⟨s.refuse seq command SessionFault.notActive.message, .idle⟩
  | some session =>
    match session.state with
    | .paused p =>
      ⟨s.withSession (session.withGallery (session.gallery.release p.snapshot)),
        .asking seq command p d⟩
    | _ => ⟨s.refuse seq command SessionFault.notPaused.message, .idle⟩

def type (s : Server) (seq : Nat) (command : String) (arguments : Option Json) : Relay :=
  match s.session with
  | none => ⟨s.terminalInput seq command arguments, .idle⟩
  | some _ =>
    ⟨s, .typing seq command none
      (Key.decode ((Server.textArgument? arguments "data").getD "").toList)⟩

/-- Begins to handle a request; all that is not taken apart is done at once. -/
def take (fs : FileSystem) (s : Server) (seq : Nat) (command : String) (arguments : Option Json) :
    Relay :=
  match command with
  | "next" | "stepIn" => ask s seq command .continueStepping
  | "continue" => ask s seq command .stopDebugging
  | "terminalInput" => type s seq command arguments
  | "disconnect" => ⟨s.interrupt, .leaving seq command (some .flushing)⟩
  | _ => ⟨s.request fs 0 seq command arguments, .idle⟩

def askGate (s : Server) (seq : Nat) (command : String) (p : Pause) (d : Decision) : Relay :=
  match s.session with
  | none => ⟨s, .idle⟩
  | some session =>
    match session.shared.gate.resolve p.seq with
    | .error e => ⟨s.refuse seq command (SessionFault.debug e).message, .idle⟩
    | .ok gate => ⟨s.withSession (session.withGate gate), .sending seq command p d⟩

def answerBody : Decision → Option Json
  | .stopDebugging => some (.obj [("allThreadsContinued", .bool true)])
  | .continueStepping => none

def sendAnswer (s : Server) (seq : Nat) (command : String) (d : Decision) : Relay :=
  match s.session with
  | none => ⟨s, .idle⟩
  | some session =>
    ⟨(s.withSession (session.deliver d)).respond seq command (answerBody d), .idle⟩

def typeNext (s : Server) (seq : Nat) (command : String) (d : Option Delivery) (keys : List Key) :
    Relay :=
  match s.session with
  | none => ⟨s, .idle⟩
  | some session =>
    match d with
    | some d =>
      match d.step session.shared.console with
      | some (d', c) =>
        ⟨s.withSession (session.mapConsole fun _ => c), .typing seq command (some d') keys⟩
      | none => ⟨s, .typing seq command none keys⟩
    | none =>
      match keys with
      | key :: keys => ⟨s, .typing seq command (some (.new session.shared.console key)) keys⟩
      | [] => ⟨s.respond seq command none, .idle⟩

def leave (s : Server) (seq : Nat) (command : String) : Relay :=
  if s.isActive then ⟨s, .leaving seq command none⟩ else ⟨s.respond seq command none, .idle⟩

def proceed (r : Relay) : Relay :=
  match r.task with
  | .idle => r
  | .pumping t =>
    match t.step r.server with
    | (some t, s) => ⟨s, .pumping t⟩
    | (none, s) => ⟨s, .idle⟩
  | .asking seq command p d => askGate r.server seq command p d
  | .sending seq command _ d => sendAnswer r.server seq command d
  | .typing seq command d keys => typeNext r.server seq command d keys
  | .leaving seq command none => ⟨r.server, .leaving seq command (some .flushing)⟩
  | .leaving seq command (some t) =>
    match t.step r.server with
    | (some t, s) => ⟨s, .leaving seq command (some t)⟩
    | (none, s) => leave s seq command

/-- Does what the move says where that is possible, and else nothing. -/
def act (r : Relay) : Move → Relay
  | .work => { r with server := { r.server with session := r.server.session.map Session.step } }
  | .pump =>
    match r.task with
    | .idle => ⟨r.server, .pumping .flushing⟩
    | _ => r
  | .handle fs m =>
    match r.task, m.content with
    | .idle, .request command arguments => take fs r.server m.seq command arguments
    | _, _ => r
  | .proceed => r.proceed
  | .giveUp =>
    match r.task with
    | .leaving seq command none =>
      ⟨(r.server.warn "run did not stop before disconnect" []).respond seq command none, .idle⟩
    | _ => r

def acts (r : Relay) (ms : List Move) : Relay :=
  ms.foldl act r

def Leads (kinds : Move → Prop) (r r' : Relay) : Prop :=
  ∃ ms, (∀ m ∈ ms, kinds m) ∧ r.acts ms = r'

variable {kinds : Move → Prop} {r r' r'' : Relay}

theorem Leads.refl : r.Leads kinds r :=
  ⟨[], nofun, rfl⟩

theorem Leads.move {m : Move} (hm : kinds m) (h : (r.act m).Leads kinds r') : r.Leads kinds r' := by
  obtain ⟨ms, hms, h⟩ := h
  exact ⟨m :: ms, List.forall_mem_cons.2 ⟨hm, hms⟩, h⟩

theorem Leads.trans (h : r.Leads kinds r') (h' : r'.Leads kinds r'') : r.Leads kinds r'' := by
  obtain ⟨ms, hms, rfl⟩ := h
  obtain ⟨ms', hms', rfl⟩ := h'
  exact ⟨ms ++ ms', List.forall_mem_append.2 ⟨hms, hms'⟩, List.foldl_append⟩

end Relay

/-! The calls of a server, in steps. -/

namespace Server

variable {s : Server}

def InBounds (s : Server) : Prop :=
  ∀ session, s.session = some session → s.forwarded ≤ session.shared.console.output.size

theorem session_forward (s : Server) (d : Display) : (s.forward d).session = s.session := by
  cases d <;> rfl

theorem session_foldl_forward (ds : List Display) (s : Server) :
    (ds.foldl forward s).session = s.session := by
  induction ds generalizing s with
  | nil => rfl
  | cons d ds ih => exact (ih _).trans (s.session_forward d)

theorem session_flush (s : Server) : s.flush.session = s.session := by
  unfold flush
  split
  · rfl
  · exact session_foldl_forward _ s

theorem forwarded_flush {session : Session} (h : s.session = some session) :
    s.flush.forwarded = session.shared.console.output.size := by
  rw [flush, h]

theorem inBounds_flush (s : Server) : s.flush.InBounds := by
  intro session h
  rw [session_flush] at h
  exact Nat.le_of_eq (forwarded_flush h)

theorem foldl_forward_withForwarded (ds : List Display) (s : Server) (n : Nat) :
    ds.foldl forward (s.withForwarded n) = (ds.foldl forward s).withForwarded n := by
  induction ds generalizing s with
  | nil => rfl
  | cons d ds ih =>
    rw [List.foldl_cons, List.foldl_cons, ← ih]
    cases d <;> rfl

theorem flush_eq {session : Session} (h : s.session = some session) :
    s.flush = ((session.shared.console.output.toList.drop s.forwarded).foldl forward
      s).withForwarded session.shared.console.output.size := by
  rw [flush, h]
  rfl

theorem flush_forwardNext {d : Display} (h : s.unsent? = some d) :
    (s.forwardNext d).flush = s.flush := by
  obtain ⟨session, hsession, hd⟩ := Option.bind_eq_some_iff.1 h
  have hnext : (s.forwardNext d).session = some session := (s.session_forward d).trans hsession
  rw [← Array.getElem?_toList] at hd
  obtain ⟨hlt, hget⟩ := List.getElem?_eq_some_iff.1 hd
  rw [flush_eq hsession, flush_eq hnext, List.drop_eq_getElem_cons hlt, hget, List.foldl_cons,
    forwardNext, foldl_forward_withForwarded]
  rfl

theorem flush_of_unsent?_eq_none (hs : s.InBounds) (h : s.unsent? = none) : s.flush = s := by
  cases hsession : s.session with
  | none => rw [flush, hsession]
  | some session =>
    have hle := hs session hsession
    rw [unsent?, hsession, Option.bind_some, Array.getElem?_eq_none_iff] at h
    rw [flush_eq hsession, List.drop_eq_nil_of_le (by simpa using h), List.foldl_nil,
      Nat.le_antisymm h hle]
    rfl

def backlog (s : Server) : Nat :=
  (s.session.map fun session => session.shared.console.output.size - s.forwarded).getD 0

theorem forwardNext_inBounds {d : Display} (h : s.unsent? = some d) :
    (s.forwardNext d).InBounds ∧ (s.forwardNext d).backlog < s.backlog := by
  obtain ⟨session, hsession, hd⟩ := Option.bind_eq_some_iff.1 h
  have hnext : (s.forwardNext d).session = some session := (s.session_forward d).trans hsession
  obtain ⟨hlt, -⟩ := Array.getElem?_eq_some_iff.1 hd
  refine ⟨fun session' h' => ?_, ?_⟩
  · obtain rfl := Option.some.inj (hnext.symm.trans h')
    exact hlt
  · rw [backlog, backlog, hnext, hsession, Option.map_some, Option.map_some, Option.getD_some,
      Option.getD_some]
    exact Nat.sub_succ_lt_self _ _ hlt

theorem eventCount_withSession {session session' : Session} {e : SessionEvent}
    (h : s.session = some session) (he : session.poll = .ok (some e, session')) :
    (s.withSession session').eventCount < s.eventCount ∧
      session'.shared.console = session.shared.console := by
  unfold Session.poll at he
  split at he
  · cases he
  · cases he
  · next first rest hevents =>
    obtain ⟨rfl, rfl⟩ : first = e ∧ _ = session' := by simpa using he
    rw [eventCount, eventCount, h]
    cases first with
    | paused p => exact ⟨by simp [withSession, Session.receive, hevents], rfl⟩
    | terminated o => exact ⟨by simp [withSession, Session.receive, hevents], rfl⟩

theorem inBounds_tell (hs : s.InBounds) (e : SessionEvent) : (s.tell e).InBounds := by
  cases e with
  | paused p => exact hs
  | terminated o => exact s.inBounds_flush

theorem session_tell (s : Server) (e : SessionEvent) : (s.tell e).session = s.session := by
  cases e with
  | paused p => rfl
  | terminated o => exact s.session_flush

theorem withSession_self {session : Session} (h : s.session = some session) :
    s.withSession session = s := by
  rw [withSession, ← h]

theorem withSession_inBounds {session session' : Session} (hs : s.InBounds)
    (h : s.session = some session)
    (hc : session.shared.console.Extends session'.shared.console) :
    (s.withSession session').InBounds := by
  rintro _ ⟨⟩
  have hle := hc.length_le
  rw [Array.length_toList, Array.length_toList] at hle
  exact Nat.le_trans (hs session h) hle

end Server

namespace Telling

variable {s : Server}

def Leads : Telling × Server → Telling × Server → Prop :=
  Relation.ReflTransGen fun x y => x.1.step x.2 = (some y.1, y.2)

theorem leads_flush {t : Telling}
    (ht : ∀ s d, s.unsent? = some d → t.step s = (some t, s.forwardNext d)) (hs : s.InBounds) :
    Leads (t, s) (t, s.flush) ∧ s.flush.unsent? = none := by
  induction hn : s.backlog using Nat.strongRecOn generalizing s with
  | ind n ih =>
    cases h : s.unsent? with
    | none =>
      rw [Server.flush_of_unsent?_eq_none hs h]
      exact ⟨.refl, h⟩
    | some d =>
      obtain ⟨hbounds, hlt⟩ := Server.forwardNext_inBounds h
      obtain ⟨hleads, hnone⟩ := ih _ (hn ▸ hlt) hbounds rfl
      rw [Server.flush_forwardNext h] at hleads hnone
      exact ⟨.head (ht s d h) hleads, hnone⟩

theorem step_flushing {d : Display} (h : s.unsent? = some d) :
    flushing.step s = (some flushing, s.forwardNext d) := by
  rw [step, h]

theorem step_concluding {o : Outcome} {d : Display} (h : s.unsent? = some d) :
    (concluding o).step s = (some (concluding o), s.forwardNext d) := by
  rw [step, h]

theorem step_polling (s : Server) :
    (polling.step s = (none, s) ∧ ∀ n, Server.tellAll n s = s) ∨
      ∃ session session' e, s.session = some session ∧ session.poll = .ok (some e, session') ∧
        (∀ n, Server.tellAll (n + 1) s = Server.tellAll n ((s.withSession session').tell e)) ∧
        polling.step s =
          match e with
          | .paused p => (some polling, (s.withSession session').tell (.paused p))
          | .terminated o => (some (concluding o), s.withSession session') := by
  cases hsession : s.session with
  | none =>
    refine .inl ⟨?_, fun n => by cases n <;> simp [Server.tellAll, hsession]⟩
    rw [step, hsession]
    rfl
  | some session =>
    cases hpoll : session.poll with
    | error e =>
      refine .inl ⟨?_, fun n => by cases n <;> simp [Server.tellAll, hsession, hpoll]⟩
      simp only [step, hsession, Option.map_some, hpoll]
    | ok x =>
      obtain ⟨_ | e, session'⟩ := x
      · refine .inl ⟨?_, fun n => by cases n <;> simp [Server.tellAll, hsession, hpoll]⟩
        simp only [step, hsession, Option.map_some, hpoll]
      · refine .inr ⟨session, session', e, rfl, hpoll, fun n => ?_, ?_⟩
        · simp only [Server.tellAll, hsession, Option.map_some, hpoll]
          rfl
        · simp only [step, hsession, Option.map_some, hpoll]
          cases e <;> rfl

theorem leads_tellAll {n : Nat} (hs : s.InBounds) (hn : s.eventCount ≤ n) :
    Leads (polling, s) (polling, Server.tellAll n s) ∧
      polling.step (Server.tellAll n s) = (none, Server.tellAll n s) := by
  induction n generalizing s with
  | zero =>
    obtain ⟨hstep, htell⟩ | ⟨session, session', e, hsession, hpoll, -⟩ := step_polling s
    · rw [htell]
      exact ⟨.refl, hstep⟩
    · exact absurd (Server.eventCount_withSession hsession hpoll).1 (by omega)
  | succ n ih =>
    obtain ⟨hstep, htell⟩ | ⟨session, session', e, hsession, hpoll, htell, hstep⟩ := step_polling s
    · rw [htell]
      exact ⟨.refl, hstep⟩
    · obtain ⟨hcount, hconsole⟩ := Server.eventCount_withSession hsession hpoll
      have hbounds : (s.withSession session').InBounds :=
        Server.withSession_inBounds hs hsession (.of_eq (congrArg Console.output hconsole))
      have hsame : ((s.withSession session').tell e).eventCount =
          (s.withSession session').eventCount := by
        rw [Server.eventCount, Server.session_tell]
        rfl
      obtain ⟨hleads, hlast⟩ := ih (Server.inBounds_tell hbounds e) (by omega)
      rw [htell]
      refine ⟨?_, hlast⟩
      cases e with
      | paused p => exact .head hstep hleads
      | terminated o =>
        obtain ⟨hflush, hnone⟩ :=
          leads_flush (t := concluding o) (fun _ _ => step_concluding) hbounds
        have hconclude : (concluding o).step (s.withSession session').flush =
            (some polling, (s.withSession session').tell (.terminated o)) := by
          rw [step, hnone]
          rfl
        exact .head hstep (hflush.trans (.head hconclude hleads))

theorem leads_pump (hs : s.InBounds) :
    Leads (flushing, s) (polling, s.pump) ∧ polling.step s.pump = (none, s.pump) := by
  obtain ⟨hflush, hnone⟩ := leads_flush (t := flushing) (fun _ _ => step_flushing) hs
  have hpoll : flushing.step s.flush = (some polling, s.flush) := by rw [step, hnone]
  have hcount : s.flush.eventCount = s.eventCount := by
    rw [Server.eventCount, Server.session_flush]
    rfl
  obtain ⟨htell, hlast⟩ := leads_tellAll s.inBounds_flush (Nat.le_of_eq hcount)
  exact ⟨hflush.trans (.head hpoll htell), hlast⟩

theorem inBounds_step (t : Telling) (hs : s.InBounds) : (t.step s).2.InBounds := by
  cases t with
  | flushing =>
    cases h : s.unsent? with
    | none => simpa only [step, h] using hs
    | some d => simpa only [step, h] using (Server.forwardNext_inBounds h).1
  | concluding o =>
    cases h : s.unsent? with
    | none =>
      simp only [step, h]
      exact hs
    | some d => simpa only [step, h] using (Server.forwardNext_inBounds h).1
  | polling =>
    obtain ⟨hstep, -⟩ | ⟨session, session', e, hsession, hpoll, -, hstep⟩ := step_polling s
    · rw [hstep]
      exact hs
    · have hconsole := (Server.eventCount_withSession hsession hpoll).2
      have hbounds : (s.withSession session').InBounds :=
        Server.withSession_inBounds hs hsession (.of_eq (congrArg Console.output hconsole))
      rw [hstep]
      cases e with
      | paused p => exact hbounds
      | terminated o => exact hbounds

theorem Leads.inBounds {x y : Telling × Server} (h : Leads x y) (hx : x.2.InBounds) :
    y.2.InBounds := by
  induction h with
  | refl => exact hx
  | @tail y z _ hstep ih =>
    have hz := y.1.inBounds_step ih
    rw [hstep] at hz
    exact hz

end Telling

theorem Server.InBounds.pump {s : Server} (hs : s.InBounds) : s.pump.InBounds :=
  (Telling.leads_pump hs).1.inBounds hs

namespace Relay

variable {s : Server} {seq : Nat} {command : String}

theorem leads_work {kinds : Move → Prop} (hw : kinds .work) (s : Server) (task : Task)
    (patience : Nat) : Leads kinds ⟨s, task⟩ ⟨s.work patience, task⟩ := by
  have hrest {s : Server} (n : Nat) (h : s.session.map (·.work Shared.hasEvent n) = s.session) :
      Leads kinds ⟨s, task⟩ ⟨s.work n, task⟩ := by
    rw [Server.work, h]
    exact .refl
  cases h : s.session with
  | none => exact hrest _ (by rw [h]; rfl)
  | some session =>
    obtain ⟨limit, rules, files, state, shared, _ | ⟨b, w⟩⟩ := session
    · exact hrest _ (by rw [h]; rfl)
    · induction patience generalizing s shared w with
      | zero => exact hrest _ (by rw [h]; rfl)
      | succ n ih =>
        by_cases hstop : (shared.hasEvent || w.isIdle shared) = true
        · refine hrest _ ?_
          rw [h, Option.map_some, Session.work, Worker.work, if_pos hstop]
        · refine .move hw ?_
          have hwork : s.work (n + 1) =
              Server.work { s with session := s.session.map Session.step } n := by
            rw [Server.work, Server.work, h, Option.map_some, Option.map_some, Option.map_some,
              Session.work, Worker.work, if_neg hstop]
            rfl
          rw [hwork]
          exact ih _ _ _ (by rw [h]; rfl)

theorem inBounds_work (hs : s.InBounds) (patience : Nat) : (s.work patience).InBounds := by
  intro session' h'
  obtain ⟨session, h, rfl⟩ := Option.map_eq_some_iff.1 h'
  have hextends : session.shared.console.Extends
      (session.work Shared.hasEvent patience).shared.console := by
    obtain ⟨limit, rules, files, state, shared, _ | ⟨b, w⟩⟩ := session
    · exact .of_eq rfl
    · exact Worker.extends_work b _ _ _ _
  exact Server.withSession_inBounds hs h hextends _ rfl

section Proceed

variable {kinds : Move → Prop} (hk : kinds .proceed)
include hk

theorem Leads.proceed {r r' : Relay} (h : r.proceed.Leads kinds r') : r.Leads kinds r' :=
  .move hk h

theorem leads_of_telling (task : Telling → Task)
    (htask : ∀ t u t' u', Telling.step t u = (some t', u') →
      (⟨u, task t⟩ : Relay).proceed = ⟨u', task t'⟩)
    {x y : Telling × Server} (h : Telling.Leads x y) :
    Leads kinds ⟨x.2, task x.1⟩ ⟨y.2, task y.1⟩ := by
  induction h with
  | refl => exact .refl
  | tail _ hstep ih =>
    refine ih.trans (.proceed hk ?_)
    rw [htask _ _ _ _ hstep]
    exact .refl

theorem leads_pump (hs : s.InBounds) :
    Leads kinds ⟨s, .pumping .flushing⟩ ⟨s.pump, .idle⟩ := by
  obtain ⟨hleads, hlast⟩ := Telling.leads_pump hs
  have hsteps := leads_of_telling hk .pumping
    (fun t u t' u' h => by simp only [Relay.proceed, h]) hleads
  refine hsteps.trans (.proceed hk ?_)
  simp only [Relay.proceed, hlast]
  exact .refl

theorem leads_leaving (hs : s.InBounds) :
    Leads kinds ⟨s, .leaving seq command (some .flushing)⟩ (leave s.pump seq command) := by
  obtain ⟨hleads, hlast⟩ := Telling.leads_pump hs
  have hsteps := leads_of_telling hk (fun t => .leaving seq command (some t))
    (fun t u t' u' h => by simp only [Relay.proceed, h]) hleads
  refine hsteps.trans (.proceed hk ?_)
  simp only [Relay.proceed, hlast]
  exact .refl

theorem leads_resume (s : Server) (seq : Nat) (command : String) (d : Decision) :
    Leads kinds (ask s seq command d) ⟨s.resume seq command d, .idle⟩ := by
  cases hsession : s.session with
  | none =>
    simp only [ask, Server.resume, hsession, Option.map_none]
    exact .refl
  | some session =>
    have hs : s = s.withSession session := by rw [Server.withSession, ← hsession]
    cases hstate : session.state with
    | paused p =>
      simp only [ask, hsession, hstate]
      refine .proceed hk ?_
      cases hg : (session.withGallery (session.gallery.release p.snapshot)).shared.gate.resolve
        p.seq with
      | error e =>
        simp only [Relay.proceed, askGate, Server.withSession, Server.resume, hsession, hstate,
          Option.map_some, Session.resume, hg]
        exact .refl
      | ok gate =>
        simp only [Relay.proceed, askGate, Server.withSession, Server.resume, hsession, hstate,
          Option.map_some, Session.resume, hg]
        refine .proceed hk ?_
        cases d <;> exact .refl
    | idle | running | terminated =>
      simp only [ask, Server.resume, hsession, hstate, Option.map_some, Session.resume]
      rw [← hsession]
      exact .refl

theorem leads_delivery {session : Session} (h : s.session = some session) (d : Delivery)
    (keys : List Key) :
    Leads kinds ⟨s, .typing seq command (some d) keys⟩
      ⟨s.withSession (session.mapConsole d.finish), .typing seq command none keys⟩ := by
  have hconsole (s : Server) (session : Session) (d : Delivery) (c : Console)
      (h : s.session = some session) (hc : session.shared.console = c) :
      Leads kinds ⟨s, .typing seq command (some d) keys⟩
        ⟨s.withSession (session.mapConsole fun _ => d.finish c),
          .typing seq command none keys⟩ := by
    induction d, c using Delivery.finish.induct generalizing s session with
    | case1 d c hd =>
      have hs : s.withSession (session.mapConsole fun _ => c) = s :=
        hc ▸ Server.withSession_self h
      refine .proceed hk ?_
      rw [Delivery.finish, hd]
      simp only [Relay.proceed, typeNext, h, hc, hd]
      rw [hs]
      exact .refl
    | case2 d c d' c' hd ih =>
      refine .proceed hk ?_
      rw [Delivery.finish, hd]
      simp only [Relay.proceed, typeNext, h, hc, hd]
      exact ih _ (session.mapConsole fun _ => c') rfl rfl
  exact hconsole s session d _ h rfl

theorem leads_typing {session : Session} (h : s.session = some session) (keys : List Key) :
    Leads kinds ⟨s, .typing seq command none keys⟩
      ⟨(s.withSession (session.mapConsole (keys.foldl Console.type))).respond seq command none,
        .idle⟩ := by
  induction keys generalizing s session with
  | nil =>
    have hs : s.withSession (session.mapConsole ([].foldl Console.type)) = s :=
      Server.withSession_self h
    refine .proceed hk ?_
    simp only [Relay.proceed, typeNext, h]
    rw [hs]
    exact .refl
  | cons key keys ih =>
    refine .proceed hk ?_
    simp only [Relay.proceed, typeNext, h]
    have htyped : (s.withSession (session.mapConsole (Console.type · key))).session =
        some (session.mapConsole (Console.type · key)) := rfl
    exact (leads_delivery hk h _ keys).trans (ih htyped)

theorem leads_type (s : Server) (seq : Nat) (command : String) (arguments : Option Json) :
    Leads kinds (type s seq command arguments)
      ⟨s.terminalInput seq command arguments, .idle⟩ := by
  unfold type Server.terminalInput
  cases h : s.session with
  | none => exact .refl
  | some session => exact leads_typing hk h _

theorem leads_drain (hw : kinds .work) (hg : kinds .giveUp) (hs : s.InBounds)
    (patience fuel : Nat) :
    Leads kinds ⟨s, .leaving seq command (some .flushing)⟩
      ⟨(Server.drain patience fuel s).respond seq command none, .idle⟩ := by
  induction fuel generalizing s with
  | zero =>
    refine (leads_leaving hk hs).trans ?_
    unfold leave Server.drain
    dsimp only
    split
    · exact .move hg .refl
    · exact .refl
  | succ fuel ih =>
    refine (leads_leaving hk hs).trans ?_
    unfold leave Server.drain
    dsimp only
    split
    · exact (leads_work hw s.pump _ patience).trans
        (.proceed hk (ih (inBounds_work hs.pump patience)))
    · exact .refl

end Proceed

/-- Whether this may happen in the middle of a call. -/
def Move.IsInner (m : Move) : Prop :=
  m = .proceed ∨ m = .work ∨ m = .giveUp

theorem request_patience (fs : FileSystem) (patience : Nat) (s : Server) (seq : Nat)
    {command : String} (h : command ≠ "disconnect") (arguments : Option Json) :
    s.request fs 0 seq command arguments = s.request fs patience seq command arguments := by
  unfold Server.request
  split <;> first | rfl | exact absurd rfl h

theorem leads_call (hs : s.InBounds) :
    Leads (· = .proceed) ((⟨s, .idle⟩ : Relay).act .pump) ⟨s.pump, .idle⟩ ∧
      ∀ fs patience m, Leads Move.IsInner ((⟨s, .idle⟩ : Relay).act (.handle fs m))
        ⟨(s.handle fs patience m).2, .idle⟩ := by
  have hp : Move.IsInner .proceed := .inl rfl
  refine ⟨leads_pump rfl hs, fun fs patience m => ?_⟩
  obtain ⟨seq, type, content⟩ := m
  cases content with
  | response | event => exact .refl
  | request command arguments =>
    change Leads _ (take fs s seq command arguments)
      ⟨s.request fs patience seq command arguments, .idle⟩
    unfold take
    split
    · exact leads_resume hp s _ _ _
    · exact leads_resume hp s _ _ _
    · exact leads_resume hp s _ _ _
    · exact leads_type hp s _ _ _
    · have hbounds : s.interrupt.InBounds := by
        unfold Server.interrupt
        split
        · intro session' h'
          obtain ⟨session, h, rfl⟩ := Option.map_eq_some_iff.1 h'
          exact hs session h
        · exact hs
      exact leads_drain hp (.inr (.inl rfl)) (.inr (.inr rfl)) hbounds _ _
    · next h =>
      rw [request_patience fs patience s seq h]
      exact .refl

end Relay

end Stepwise
