import Stepwise.Proofs.Adapter.Answers
import Stepwise.Proofs.Adapter.Relay
import Stepwise.Proofs.Session.Protocol

/-! What one move of a server in single steps does: to its session, to the messages, and to what
it is in the middle of. -/

namespace Stepwise

def Message.runEvents : List String :=
  ["output", "stopped", "terminated", "exited"]

def Message.isAside (m : Message) : Bool :=
  match m.content with
  | .event name _ => !runEvents.contains name
  | _ => true

/-! The session of a server is one that its controller and its run can have come to. -/

def Action.isOuter : Action → Bool
  | start _ | work => false
  | _ => true

namespace Session

def Comes (S : Session) (e : Errand) (es : List SessionEvent) : Prop :=
  ∃ sys : System, sys.Reached ∧ sys.session = S ∧ sys.errand = e ∧
    es.map SessionEvent.note = sys.log.filter Note.isTold

theorem comes_launched (limit : Nat) (rules : Hint.Rules) (job : Job) :
    Comes (System.launched limit rules job).session .none [] :=
  ⟨_, System.reached_launched limit rules job, rfl, rfl, rfl⟩

section Comes

variable {S S' : Session} {e e' : Errand} {es : List SessionEvent} {a : Action}

/-- The controller does something that leads from the one to the other, and neither starts a run
nor moves it. -/
structure Steered (S : Session) (e : Errand) (S' : Session) (e' : Errand) (a : Action) : Prop where
  outer : a.isOuter = true
  act : ∀ sys : System, sys.session = S → sys.errand = e →
    (sys.act a).session = S' ∧ (sys.act a).errand = e'

theorem Comes.steered (h : S.Comes e es) (hs : S.Steered e S' e' a) :
    S'.Comes e' es ∧ ∀ b w, S.worker = some (b, w) →
      ∃ w', S'.worker = some (b, w') ∧ w.Touched w' := by
  obtain ⟨sys, hreached, hS, he, hnotes⟩ := h
  obtain ⟨hS', he'⟩ := hs.act sys hS he
  have hstart : ∀ job, a ≠ .start job := by
    rintro job rfl
    cases hs.outer
  have hwork : a ≠ .work := by
    rintro rfl
    cases hs.outer
  obtain ⟨notes, hlog, hnone⟩ := System.log_outside (s := sys) hstart hwork
  obtain ⟨⟨f, htouched, hworker⟩, -⟩ := System.worker_outside (s := sys) hstart hwork
  refine ⟨⟨sys.act a, hreached.act a, hS', he', ?_⟩, fun b w hw => ⟨f w, ?_, htouched w⟩⟩
  · have houtside : notes.filter Note.isTold = [] :=
      List.filter_eq_nil_iff.2 fun n hn => by
        have := hnone n hn
        cases n <;> first | exact Bool.false_ne_true | cases this
    rw [hlog, List.filter_append, houtside, List.append_nil, hnotes]
  · rw [← hS', hworker, hS, hw]
    rfl

theorem Comes.step (h : S.Comes e es) {b : Brief} {w : Worker} (hw : S.worker = some (b, w))
    (hlistens : S.shared.events.isSome = true ∨ ∃ arena, w = .finished arena) :
    S.step.Comes e (es ++ w.tells) := by
  obtain ⟨sys, hreached, rfl, rfl, hnotes⟩ := h
  have hact : sys.act .work = sys.worked b w := by
    simp only [System.act, System.work, hw]
    rfl
  refine ⟨sys.act .work, hreached.act .work, ?_, ?_, ?_⟩
  · rw [hact, Session.step, hw]
    rfl
  · rw [hact]
    rfl
  · have htells : w.tells.map SessionEvent.note =
        (w.notes sys.session.shared).filter Note.isTold := by
      rcases hlistens with hs | ⟨arena, rfl⟩
      · exact Worker.map_note_tells b hs
      · rfl
    rw [hact, List.map_append, hnotes, htells, ← List.filter_append]
    rfl

theorem Comes.numbered (h : S.Comes e es) {ps : List Pause}
    (hes : es = ps.map .paused ∨ ∃ o, es = ps.map .paused ++ [.terminated o]) :
    ps.map Pause.seq = List.range' 1 ps.length := by
  obtain ⟨sys, hreached, -, -, hnotes⟩ := h
  obtain ⟨n, hn⟩ := hreached.orderly.kept.current.numbered
  have hpublished : (sys.log.filter Note.isTold).filterMap Note.published? =
      sys.log.filterMap Note.published? := by
    rw [List.filterMap_filter]
    refine congrArg (List.filterMap · _) (funext fun n => ?_)
    cases n <;> rfl
  have hseq (ps : List Pause) :
      ((ps.map SessionEvent.paused).map SessionEvent.note).filterMap Note.published? =
        ps.map Pause.seq := by
    rw [List.map_map, List.filterMap_map]
    exact congrFun List.filterMap_eq_map ps
  have hall : (es.map SessionEvent.note).filterMap Note.published? = ps.map Pause.seq := by
    rcases hes with rfl | ⟨o, rfl⟩
    · exact hseq ps
    · rw [List.map_append, List.filterMap_append, hseq]
      exact List.append_nil _
  rw [hnotes, hpublished, hn] at hall
  have hlength : ps.length = n := by simpa using (congrArg List.length hall).symm
  rw [← hall, hlength]

end Comes

end Session

namespace Telling

def outcome? : Telling → Option Outcome
  | concluding o => some o
  | _ => none

end Telling

namespace Task

def errand : Task → Errand
  | asking _ _ p d => .asking p d
  | sending _ _ p d => .sending p d
  | _ => .none

def outcome? : Task → Option Outcome
  | pumping t | leaving _ _ (some t) => t.outcome?
  | _ => none

def echo : Task → List Char
  | typing _ _ (some d) _ => d.echo
  | _ => []

def isIdle : Task → Bool
  | idle => true
  | _ => false

theorem eq_idle {task : Task} (h : task.isIdle = true) : task = idle := by
  cases task <;> first | rfl | cases h

structure Calm (task : Task) : Prop where
  errand : task.errand = .none
  outcome : task.outcome? = none
  echo : task.echo = []

theorem calm_idle : Calm idle := ⟨rfl, rfl, rfl⟩

end Task

namespace Server

variable {r s t u : Server} {ms : List Message} {seq : Nat} {command : String}

theorem Sends.congr (h : s.Sends t ms) (hr : s.sent = r.sent) (hu : t.sent = u.sent) :
    r.Sends u ms :=
  ⟨hr ▸ hu ▸ h.sent, hr ▸ h.numbers⟩

structure Aside (s t : Server) : Prop where
  session : t.session = s.session
  forwarded : t.forwarded = s.forwarded
  sends : ∃ ms, s.Sends t ms ∧ ∀ m ∈ ms, m.isAside = true

theorem Aside.of_eq (hsession : t.session = s.session) (hforwarded : t.forwarded = s.forwarded)
    (hsent : t.sent = s.sent) : s.Aside t :=
  ⟨hsession, hforwarded, [], .none hsent, List.forall_mem_nil _⟩

theorem Aside.refl (s : Server) : s.Aside s :=
  .of_eq rfl rfl rfl

theorem Aside.trans (h : s.Aside t) (h' : t.Aside u) : s.Aside u := by
  obtain ⟨ms, hsends, hms⟩ := h.sends
  obtain ⟨ms', hsends', hms'⟩ := h'.sends
  exact ⟨h'.session.trans h.session, h'.forwarded.trans h.forwarded, ms ++ ms',
    hsends.append hsends', List.forall_mem_append.2 ⟨hms, hms'⟩⟩

theorem aside_send (s : Server) {type : String} {content : Message.Content}
    (h : Message.isAside ⟨s.sent.size + 1, type, content⟩ = true) :
    s.Aside (s.send type content) :=
  ⟨rfl, rfl, _, s.sends_send type content, List.forall_mem_singleton.2 h⟩

theorem aside_respond (s : Server) (seq : Nat) (command : String) (body : Option Json) :
    s.Aside (s.respond seq command body) :=
  s.aside_send rfl

theorem aside_warn (s : Server) (message : String) (details : List Log.Detail) :
    s.Aside (s.warn message details) :=
  .of_eq rfl rfl rfl

theorem aside_refuse (s : Server) (seq : Nat) (command reason : String) :
    s.Aside (s.refuse seq command reason) :=
  (s.aside_warn _ _).trans (aside_send _ rfl)

theorem aside_greet (s : Server) (seq : Nat) (command : String) :
    s.Aside (s.greet seq command) :=
  (s.aside_respond _ _ _).trans (aside_send _ rfl)

theorem aside_stackTrace (s : Server) (seq : Nat) (command : String) :
    s.Aside (s.stackTrace seq command) := by
  unfold stackTrace
  split
  · exact s.aside_refuse _ _ _
  · split
    · exact s.aside_refuse _ _ _
    · exact s.aside_respond _ _ _

theorem aside_variableList (s : Server) (seq : Nat) (command : String)
    (arguments : Option Json) : s.Aside (s.variableList seq command arguments) := by
  unfold variableList
  dsimp only
  split
  · exact s.aside_refuse _ _ _
  · split
    · exact s.aside_refuse _ _ _
    · exact s.aside_respond _ _ _

end Server

namespace Relay

variable {r r' : Relay}

/-- The controller acts, or a key goes on. Messages are sent aside, and the client has nothing to
be told of. -/
structure Steers (r : Relay) (s : Server) (task : Task) (S S' : Session) (a : Action) : Prop where
  session : r.server.session = some S
  aside : (r.server.withSession S').Aside s
  steered : S.Steered r.task.errand S' task.errand a
  outcome : r.task.outcome? = none
  outcome' : task.outcome? = none
  events : S'.shared.events = S.shared.events
  keeps : S.shared.console.Keeps S'.shared.console
  written : S.shared.console.Extends S'.shared.console
  active : S.isActive = true → S'.isActive = true
  calm : S.isActive = false → r.task.Calm → S.shared.console.slot = none →
    S'.isActive = false ∧ task.Calm ∧ S'.shared.console.output = S.shared.console.output

inductive Does (r : Relay) : Relay → Prop
  | same : Does r r
  | rest {s : Server} {task : Task} (aside : r.server.Aside s) (outcome : r.task.outcome? = none)
    (outcome' : task.outcome? = none)
    (errand : r.server.session.isSome = true → task.errand = r.task.errand)
    (calm : r.task.Calm → task.Calm) : Does r ⟨s, task⟩
  | steer {s : Server} {task : Task} {S S' : Session} {a : Action} (h : r.Steers s task S S' a) :
    Does r ⟨s, task⟩
  | work : Does r { r with
      server := { r.server with session := r.server.session.map Session.step } }
  | forward {d : Display} (unsent : r.server.unsent? = some d) :
    Does r { r with server := r.server.forwardNext d }
  | take {task : Task} {S : Session} {p : Pause} {rest : List SessionEvent}
    (session : r.server.session = some S) (events : S.shared.events = some (.paused p :: rest))
    (calm : r.task.Calm) (calm' : task.Calm) :
    Does r ⟨(r.server.withSession
      ({ S with shared := { S.shared with events := some rest } }.receive (.paused p))).tell
        (.paused p), task⟩
  | finish {task : Task} {S : Session} {o : Outcome} {rest : List SessionEvent}
    (session : r.server.session = some S)
    (events : S.shared.events = some (.terminated o :: rest))
    (calm : r.task.Calm) (errand : task.errand = .none) (outcome : task.outcome? = some o) :
    Does r ⟨r.server.withSession
      ({ S with shared := { S.shared with events := some rest } }.receive (.terminated o)), task⟩
  | conclude {task : Task} {o : Outcome} (unsent : r.server.unsent? = none)
    (outcome : r.task.outcome? = some o) (calm : task.Calm) : Does r ⟨r.server.conclude o, task⟩

structure Launches (r r' : Relay) : Prop where
  idle : r.task = .idle
  inactive : r.server.isActive = false
  begins : ∃ limit rules job, Server.Aside
    ((r.server.withSession (System.launched limit rules job).session).withForwarded 0) r'.server
  task : r'.task = .idle

section Does

variable {s s' : Server} {task task' : Task} {S : Session} {seq : Nat} {command : String}

theorem Does.sending (aside : s.Aside s') (calm : task.Calm) (calm' : task'.Calm) :
    Does ⟨s, task⟩ ⟨s', task'⟩ :=
  .rest aside calm.outcome calm'.outcome (fun _ => calm'.errand.trans calm.errand.symm)
    fun _ => calm'

theorem Does.idling (hS : s.session = none) (outcome : task.outcome? = none) :
    Does ⟨s, task⟩ ⟨s, .idle⟩ :=
  .rest (.refl s) outcome rfl (fun h => by simp [hS] at h) fun _ => Task.calm_idle

theorem Does.controlling {S' : Session} {a : Action} (hS : s.session = some S)
    (aside : (s.withSession S').Aside s') (steered : S.Steered task.errand S' task'.errand a)
    (outcome : task.outcome? = none) (outcome' : task'.outcome? = none)
    (events : S'.shared.events = S.shared.events)
    (console : S'.shared.console = S.shared.console)
    (active : S.isActive = true → S'.isActive = true)
    (calm : S.isActive = false → task.Calm → S'.isActive = false ∧ task'.Calm) :
    Does ⟨s, task⟩ ⟨s', task'⟩ := by
  refine .steer ⟨hS, aside, steered, outcome, outcome', events, ?_, ?_, active,
    fun h ht _ => ⟨(calm h ht).1, (calm h ht).2, congrArg _ console⟩⟩
  · rw [console]
    exact .of_slot_eq rfl rfl
  · rw [console]
    exact .of_eq rfl

theorem does_interrupt (aside : s.interrupt.Aside s') (calm : task.Calm) (calm' : task'.Calm) :
    Does ⟨s, task⟩ ⟨s', task'⟩ := by
  unfold Server.interrupt at aside
  split at aside
  · cases hS : s.session with
    | none =>
      have hinterrupt : s.Aside { s with session := s.session.map Session.interrupt } :=
        .of_eq (by rw [hS]; rfl) rfl rfl
      exact .sending (hinterrupt.trans aside) calm calm'
    | some S =>
      rw [hS] at aside
      refine .controlling hS aside (a := .interrupt) ⟨rfl, ?_⟩ calm.outcome
        calm'.outcome rfl rfl id fun h _ => ⟨h, calm'⟩
      rintro sys rfl he
      exact ⟨rfl, (show sys.errand = _ from he).trans (calm.errand.trans calm'.errand.symm)⟩
  · exact .sending aside calm calm'

theorem does_ask (s : Server) (seq : Nat) (command : String) (d : Decision) :
    Does ⟨s, .idle⟩ (ask s seq command d) := by
  unfold ask
  split
  · exact .sending (s.aside_refuse _ _ _) Task.calm_idle Task.calm_idle
  · next S hS =>
    split
    · next p hp =>
      have hactive : S.isActive = true := by rw [Session.isActive, hp]; rfl
      refine .controlling hS (.refl _) (a := .resume d) ⟨rfl, ?_⟩ rfl rfl rfl rfl id
        fun h => by cases hactive.symm.trans h
      rintro sys rfl he
      have he : sys.errand = .none := he
      simp only [System.act, he, hp]
      exact ⟨trivial, rfl⟩
    · exact .sending (s.aside_refuse _ _ _) Task.calm_idle Task.calm_idle

theorem does_beginRun (hidle : r.task = .idle) (hs : r.server.Aside s) (job : Job) :
    r.Does ⟨s.beginRun seq command job, .idle⟩ ∨
      r.Launches ⟨s.beginRun seq command job, .idle⟩ := by
  obtain ⟨server, task⟩ := r
  obtain rfl : task = .idle := hidle
  unfold Server.beginRun
  split
  · exact .inl (.sending (hs.trans (s.aside_refuse _ _ _)) Task.calm_idle Task.calm_idle)
  · next hactive =>
    have hactive : server.isActive = false := by
      rw [Server.isActive, ← hs.session]
      exact Bool.eq_false_iff.2 hactive
    refine .inr ⟨rfl, hactive, ⟨s.settings.recursionLimit, Hint.standard, job, ?_⟩, rfl⟩
    obtain ⟨ms, hsends, hms⟩ := hs.sends
    refine Server.Aside.trans
      (t := { s with
        session := some (System.launched s.settings.recursionLimit Hint.standard job).session
        forwarded := 0 })
      ⟨rfl, rfl, ms, hsends.congr rfl rfl, hms⟩ (Server.aside_respond _ _ _ _)

theorem does_telling (t : Telling) (wrap : Telling → Task) (after : Server → Relay)
    (hwrap : ∀ t, (wrap t).errand = .none ∧ (wrap t).outcome? = t.outcome? ∧ (wrap t).echo = [])
    (hafter : s.Aside (after s).server ∧ (after s).task.Calm) :
    Does ⟨s, wrap t⟩
      (match t.step s with
      | (some t, s) => ⟨s, wrap t⟩
      | (none, s) => after s) := by
  have hcalm {t : Telling} (ht : t.outcome? = none) : (wrap t).Calm :=
    ⟨(hwrap t).1, (hwrap t).2.1.trans ht, (hwrap t).2.2⟩
  cases t with
  | flushing =>
    cases h : s.unsent? with
    | some d => simpa only [Telling.step, h] using Does.forward (r := ⟨s, _⟩) h
    | none => simpa only [Telling.step, h] using .sending (.refl s) (hcalm rfl) (hcalm rfl)
  | concluding o =>
    cases h : s.unsent? with
    | some d => simpa only [Telling.step, h] using Does.forward (r := ⟨s, _⟩) h
    | none =>
      simpa only [Telling.step, h] using Does.conclude (r := ⟨s, _⟩) h (hwrap _).2.1 (hcalm rfl)
  | polling =>
    obtain ⟨hstep, -⟩ | ⟨S, S', e, hS, hpoll, -, hstep⟩ := Telling.step_polling s
    · rw [hstep]
      exact .sending hafter.1 (hcalm rfl) hafter.2
    · unfold Session.poll at hpoll
      split at hpoll
      · cases hpoll
      · cases hpoll
      · next first rest hevents =>
        obtain ⟨rfl, rfl⟩ : first = e ∧ _ = S' := by simpa using hpoll
        rw [hstep]
        cases first with
        | paused p => exact .take hS hevents (hcalm rfl) (hcalm rfl)
        | terminated o => exact .finish hS hevents (hcalm rfl) (hwrap _).1 (hwrap _).2.1

theorem does_typeNext (s : Server) (seq : Nat) (command : String) (d : Option Delivery)
    (keys : List Key) : Does ⟨s, .typing seq command d keys⟩ (typeNext s seq command d keys) := by
  have hcalm : (Task.typing seq command none keys).Calm := ⟨rfl, rfl, rfl⟩
  unfold typeNext
  cases hS : s.session with
  | none => exact .idling hS rfl
  | some S =>
    cases d with
    | none =>
      cases keys with
      | nil => exact .sending (s.aside_respond _ _ _) hcalm Task.calm_idle
      | cons key keys => exact .sending (.refl s) hcalm ⟨rfl, rfl, rfl⟩
    | some d =>
      cases hd : d.step S.shared.console with
      | none =>
        simp only [hd]
        exact .rest (.refl s) rfl rfl (fun _ => rfl) fun _ => hcalm
      | some x =>
        obtain ⟨d', c⟩ := x
        have hsteps := Delivery.step_steps hd
        simp only [hd]
        have hsteered : S.Steered .none (S.mapConsole fun _ => c) .none (.terminal fun _ => c) := by
          refine ⟨rfl, ?_⟩
          rintro sys rfl he
          exact ⟨rfl, he⟩
        exact .steer ⟨hS, .refl _, hsteered, rfl, rfl, rfl, hsteps.keeps, hsteps.extends, id,
          fun h ht hslot =>
            ⟨h, ⟨rfl, rfl, hsteps.echo_eq ht.echo hslot⟩, hsteps.output_eq ht.echo⟩⟩

theorem does_askGate (s : Server) (seq : Nat) (command : String) (p : Pause) (d : Decision) :
    Does ⟨s, .asking seq command p d⟩ (askGate s seq command p d) := by
  unfold askGate
  cases hS : s.session with
  | none => exact .idling hS rfl
  | some S =>
    cases hg : S.shared.gate.resolve p.seq with
    | error e =>
      simp only [hg]
      have hself : s.withSession S = s := Server.withSession_self hS
      refine .controlling hS (hself.symm ▸ s.aside_refuse _ _ _) (a := .proceed)
        ⟨rfl, ?_⟩ rfl rfl rfl rfl id fun h _ => ⟨h, Task.calm_idle⟩
      rintro sys rfl he
      have he : sys.errand = .asking p d := he
      simp only [System.act, System.proceed, he, hg]
      exact ⟨rfl, rfl⟩
    | ok gate =>
      simp only [hg]
      refine .controlling hS (.refl _) (a := .proceed) ⟨rfl, ?_⟩ rfl rfl rfl rfl id
        fun _ ht => by cases ht.errand
      rintro sys rfl he
      have he : sys.errand = .asking p d := he
      simp only [System.act, System.proceed, he, hg]
      exact ⟨rfl, rfl⟩

theorem does_sendAnswer (s : Server) (seq : Nat) (command : String) (p : Pause) (d : Decision) :
    Does ⟨s, .sending seq command p d⟩ (sendAnswer s seq command d) := by
  unfold sendAnswer
  cases hS : s.session with
  | none => exact .idling hS rfl
  | some S =>
    refine .controlling hS (Server.aside_respond _ _ _ _) (a := .proceed) ⟨rfl, ?_⟩
      rfl rfl rfl rfl (fun _ => rfl) fun _ ht => by cases ht.errand
    rintro sys rfl he
    have he : sys.errand = .sending p d := he
    simp only [System.act, System.proceed, he]
    exact ⟨rfl, rfl⟩

theorem does_proceed (r : Relay) : r.Does r.proceed := by
  obtain ⟨s, task⟩ := r
  cases task with
  | idle => exact .same
  | pumping t =>
    exact does_telling t .pumping (⟨·, .idle⟩) (fun _ => ⟨rfl, rfl, rfl⟩)
      ⟨.refl s, Task.calm_idle⟩
  | asking seq command p d => exact does_askGate s seq command p d
  | sending seq command p d => exact does_sendAnswer s seq command p d
  | typing seq command d keys => exact does_typeNext s seq command d keys
  | leaving seq command t =>
    cases t with
    | none => exact .sending (.refl s) ⟨rfl, rfl, rfl⟩ ⟨rfl, rfl, rfl⟩
    | some t =>
      refine does_telling t (.leaving seq command ∘ some) (leave · seq command)
        (fun _ => ⟨rfl, rfl, rfl⟩) ?_
      unfold leave
      split
      · exact ⟨.refl s, rfl, rfl, rfl⟩
      · exact ⟨s.aside_respond _ _ _, Task.calm_idle⟩

theorem does_take (fs : FileSystem) (s : Server) (seq : Nat) (command : String)
    (arguments : Option Json) : Does ⟨s, .idle⟩ (take fs s seq command arguments) ∨
      Launches ⟨s, .idle⟩ (take fs s seq command arguments) := by
  have hsend {t : Server} (h : s.Aside t) : Does ⟨s, .idle⟩ ⟨t, .idle⟩ ∨
      Launches ⟨s, .idle⟩ ⟨t, .idle⟩ := .inl (.sending h Task.calm_idle Task.calm_idle)
  have hterminate (seq : Nat) (command : String) :
      Does ⟨s, .idle⟩ ⟨s.terminate seq command, .idle⟩ ∨
        Launches ⟨s, .idle⟩ ⟨s.terminate seq command, .idle⟩ := by
    unfold Server.terminate
    split
    · exact .inl (does_interrupt (Server.aside_respond _ _ _ _) Task.calm_idle Task.calm_idle)
    · exact hsend (s.aside_refuse _ _ _)
  unfold take
  split
  · exact .inl (does_ask s _ _ _)
  · exact .inl (does_ask s _ _ _)
  · exact .inl (does_ask s _ _ _)
  · unfold type
    split
    · next hS =>
      unfold Server.terminalInput
      rw [hS]
      exact hsend (s.aside_refuse _ _ _)
    · exact .inl (.sending (.refl s) Task.calm_idle ⟨rfl, rfl, rfl⟩)
  · exact .inl (does_interrupt (.refl _) Task.calm_idle ⟨rfl, rfl, rfl⟩)
  · unfold Server.request
    split
    · exact hsend (s.aside_greet _ _)
    · unfold Server.launch
      dsimp only
      split
      · exact does_beginRun (r := ⟨s, .idle⟩) rfl (.refl s) _
      · split
        · refine does_beginRun (r := ⟨s, .idle⟩) rfl ?_ _
          exact .of_eq rfl rfl rfl
        · exact hsend (s.aside_refuse _ _ _)
      · exact hsend (s.aside_refuse _ _ _)
    · exact hsend (s.aside_respond _ _ _)
    · exact hsend (s.aside_respond _ _ _)
    · exact hsend (s.aside_stackTrace _ _)
    · exact hsend (s.aside_respond _ _ _)
    · exact hsend (s.aside_variableList _ _ _)
    · contradiction
    · contradiction
    · contradiction
    · exact hterminate _ _
    · exact hterminate _ _
    · contradiction
    · contradiction
    · exact hsend ((s.aside_warn _ _).trans (Server.aside_refuse _ _ _ _))

theorem act_cases (r : Relay) (m : Move) :
    r.Does (r.act m) ∨ (∃ fs message, m = .handle fs message) ∧ r.Launches (r.act m) := by
  obtain ⟨s, task⟩ := r
  cases m with
  | work => exact .inl .work
  | pump =>
    cases task with
    | idle => exact .inl (.sending (.refl s) Task.calm_idle ⟨rfl, rfl, rfl⟩)
    | _ => exact .inl .same
  | handle fs m =>
    cases task with
    | idle =>
      obtain ⟨seq, type, content⟩ := m
      cases content with
      | response | event => exact .inl .same
      | request command arguments =>
        exact (does_take fs s seq command arguments).imp id fun h => ⟨⟨fs, _, rfl⟩, h⟩
    | _ => exact .inl .same
  | proceed => exact .inl (does_proceed _)
  | giveUp =>
    cases task with
    | leaving seq command t =>
      cases t with
      | none =>
        exact .inl (.sending ((s.aside_warn _ _).trans (Server.aside_respond _ _ _ _))
          ⟨rfl, rfl, rfl⟩ Task.calm_idle)
      | some t => exact .inl .same
    | _ => exact .inl .same

end Does

end Relay

end Stepwise
