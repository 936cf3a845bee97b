import Stepwise.Proofs.Machine.Path
import Stepwise.Session.Controller

/-! A session and its run as two sides that move in turn, in any order. The run moves in the
steps of its worker; the controller starts runs, takes events and answers pauses, which takes it
three steps, between which the run may move. Interrupts come at any time, and so do changes of
the terminal. What happened in the runs is noted. -/

namespace Stepwise

/-- What is noted of a run. A pause is `published` when it is told to the controller, `accepted`
when its answer is, `consumed` when it ends with that, `withdrawn` when it ends as cancelled, and
`broken` if it could not be offered. An instruction is `executed` at some depth of activations, and
the run is `terminated` when its end is told. -/
inductive Note
  | did (x : Host.Interaction)
  | executed (i : Code.Instr) (depth : Nat)
  | raised (cause : Exception.Cause)
  | published (seq : Nat)
  | accepted (seq : Nat) (d : Decision)
  | refused (e : DebugFault)
  | consumed (seq : Nat) (d : Decision)
  | withdrawn (seq : Nat)
  | broken (e : DebugFault)
  | interrupted
  | terminated (o : Outcome)

def Run.raisedNotes (before after : Run) : List Note :=
  match before.phase, after.phase with
  | .leave _, _ => []
  | _, .leave (.error (.exception e)) => [.raised e.cause]
  | _, _ => []

def Run.executedNotes (r : Run) : List Note :=
  match r.phase with
  | .execute => (r.current.chunk.code[r.current.pc]?.map fun i => Note.executed i r.height).toList
  | _ => []

namespace Suspension

def notes (seq : Nat) (listening interrupted : Bool) (g : Gate) : Suspension → List Note
  | arriving =>
    match g.install seq with
    | .ok _ => []
    | .error e => [.broken e]
  | publishing _ => if listening then [.published seq] else [.broken .controllerGone]
  | waiting (some d) => [.consumed seq d]
  | checking _ => if interrupted then [.withdrawn seq] else []
  | _ => []

/-- Whether the next step looks for an answer or at the interrupt cell. -/
def isLook : Suspension → Bool
  | waiting none | checking _ => true
  | _ => false

end Suspension

namespace Worker

def notes (w : Worker) (s : Shared) : List Note :=
  match w with
  | running run _ =>
    match run.need with
    | .nothing => run.executedNotes ++ run.raisedNotes run.advance
    | .write text => [.did (.wrote text)]
    | .clear => [.did .cleared]
    | _ => []
  | suspended _ _ pause wait => wait.notes pause.seq s.events.isSome s.cell.isSet s.gate
  | reading run _ r =>
    match r.outcome? with
    | some o =>
      let line := lineOf o s.cell.isSet
      .did (.asked line) :: run.raisedNotes (run.received line)
    | none => []
  | announcing _ o => if s.events.isSome then [.terminated o] else []
  | _ => []

/-- Whether the next step looks for something to come, or there is none. -/
def isLook : Worker → Bool
  | suspended _ _ _ wait => wait.isLook
  | reading _ _ r =>
    match r.stage with
    | .waiting | .checking => true
    | _ => false
  | finished _ => true
  | _ => false

end Worker

def SessionEvent.note : SessionEvent → Note
  | paused p => .published p.seq
  | terminated o => .terminated o

def Note.isTold : Note → Bool
  | published _ | terminated _ => true
  | _ => false

def Note.isOutside : Note → Bool
  | accepted _ _ | refused _ | interrupted => true
  | _ => false

namespace Worker

def pause? : Worker → Option Pause
  | suspended _ _ p _ => some p
  | _ => none

theorem filter_raisedNotes (before after : Run) :
    (before.raisedNotes after).filter Note.isTold = [] := by
  unfold Run.raisedNotes
  split <;> rfl

theorem filter_executedNotes (r : Run) : r.executedNotes.filter Note.isTold = [] := by
  unfold Run.executedNotes
  split
  · cases r.current.chunk.code[r.current.pc]? <;> rfl
  · rfl

theorem filter_notes_running (run : Run) (tracer : Tracer) (s : Shared) :
    (notes (running run tracer) s).filter Note.isTold = [] := by
  simp only [notes]
  split
  · rw [List.filter_append, filter_executedNotes, filter_raisedNotes]
    rfl
  · rfl
  · rfl
  · rfl

theorem events_move (b : Brief) (run : Run) (tracer : Tracer) (s : Shared) :
    (move b run tracer s).2.events = s.events := by
  unfold move
  split
  · rfl
  · split
    · rfl
    · split <;> rfl
  all_goals rfl

theorem cell_step (b : Brief) (w : Worker) (s : Shared) : (w.step b s).2.cell = s.cell := by
  cases w with
  | loading | announcing | finished => rfl
  | running run tracer =>
    simp only [step, move]
    split
    · rfl
    · split
      · rfl
      · split <;> rfl
    all_goals rfl
  | suspended run tracer pause wait => cases wait <;> rfl
  | reading run tracer r =>
    simp only [step, read]
    split <;> rfl
  | concluding arena o => cases o <;> rfl

theorem events_step (b : Brief) (w : Worker) (s : Shared) :
    ∃ told, (w.step b s).2.events = s.events.map (· ++ told) ∧
      (∀ p, .paused p ∈ told → w.pause? = some p) ∧
      (s.events.isSome = true → told.map SessionEvent.note = (w.notes s).filter Note.isTold) := by
  have hnone {w : Worker} (he : (w.step b s).2.events = s.events)
      (hn : (w.notes s).filter Note.isTold = []) :
      ∃ told, (w.step b s).2.events = s.events.map (· ++ told) ∧
        (∀ p, .paused p ∈ told → w.pause? = some p) ∧
        (s.events.isSome = true →
          told.map SessionEvent.note = (w.notes s).filter Note.isTold) :=
    ⟨[], by simp [he], by simp, fun _ => hn.symm⟩
  cases w with
  | loading | finished => exact hnone rfl rfl
  | running run tracer =>
    exact hnone (events_move b run tracer s) (filter_notes_running run tracer s)
  | suspended run tracer pause wait =>
    cases wait with
    | publishing mail =>
      refine ⟨[.paused pause], rfl, ?_, fun hs => ?_⟩
      · intro p hp
        cases List.mem_singleton.1 hp
        rfl
      · simp only [notes, Suspension.notes, hs]
        rfl
    | arriving =>
      refine hnone rfl ?_
      simp only [notes, Suspension.notes]
      split <;> rfl
    | waiting mail => cases mail <;> exact hnone rfl rfl
    | checking mail =>
      refine hnone rfl ?_
      simp only [notes, Suspension.notes]
      split <;> rfl
    | leaving result | left result => exact hnone rfl rfl
  | reading run tracer r =>
    cases ho : r.outcome? with
    | none =>
      exact hnone (by simp only [step, read, ho]) (by simp only [notes, ho, List.filter_nil])
    | some o =>
      refine hnone (by simp only [step, read, ho]) ?_
      simp only [notes, ho]
      exact filter_raisedNotes run _
  | concluding arena o => cases o <;> exact hnone rfl rfl
  | announcing arena o =>
    refine ⟨[.terminated o], rfl, ?_, fun hs => ?_⟩
    · intro p hp
      cases List.mem_singleton.1 hp
    · simp only [notes, hs]
      rfl

/-- What others than the run itself may do to it: they change pins, or put an answer into its
mail. -/
inductive Touched (w : Worker) : Worker → Prop
  | same : Touched w w
  | pins (arena : Arena) : Touched w (w.withArena arena)
  | mail (d : Decision) : Touched w (w.deliver d)

end Worker

/-- What the controller is in the middle of. The snapshot of the pause is released and the gate is
asked next, or the answer is accepted and sent next. -/
inductive Errand
  | none
  | asking (p : Pause) (d : Decision)
  | sending (p : Pause) (d : Decision)

/-- A session and what its controller is in the middle of, with the notes of the current run, or
else of the last one, those of the runs before it, latest first, and the number of steps of the
current run that did not just look for something to come. -/
structure System where
  session : Session
  errand : Errand
  log : List Note
  past : List (List Note)
  effort : Nat

/-- What may happen next. `resume` begins to answer the pause, `proceed` goes on with what the
controller is in the middle of, `work` is a step of the run, and `terminal` a change of the terminal
by keys or by reads of others. -/
inductive Action
  | start (job : Job)
  | poll
  | resume (d : Decision)
  | proceed
  | interrupt
  | work
  | terminal (f : Console → Console)

namespace System

def new (recursionLimit : Nat) (rules : Hint.Rules) : System :=
  ⟨.new recursionLimit rules, .none, [], [], 0⟩

def note (s : System) (notes : List Note) : System :=
  { s with log := s.log ++ notes }

def proceed (s : System) : System :=
  match s.errand with
  | .none => s
  | .asking p d =>
    match s.session.shared.gate.resolve p.seq with
    | .error e => { s with errand := .none }.note [.refused e]
    | .ok gate =>
      { s with
        session := { s.session with shared := { s.session.shared with gate } }
        errand := .sending p d }.note [.accepted p.seq d]
  | .sending _ d =>
    { s with
      session := { s.session with
        state := .running (d = .continueStepping)
        worker := s.session.worker.map fun w => (w.1, w.2.deliver d) }
      errand := .none }

def work (s : System) : System :=
  match s.session.worker with
  | none => s
  | some (b, w) =>
    let (w', shared) := w.step b s.session.shared
    { s with
      session := { s.session with worker := some (b, w'), shared }
      effort := if w.isLook then s.effort else s.effort + 1 }.note (w.notes s.session.shared)

/-- Does what the action says where that is possible, and else nothing. -/
def act (s : System) : Action → System
  | .start job =>
    match s.errand, s.session.start job with
    | .none, .ok session =>
      { session
        errand := .none
        log := []
        past := if s.session.worker.isSome then s.log :: s.past else s.past
        effort := 0 }
    | _, _ => s
  | .poll =>
    match s.errand, s.session.poll with
    | .none, .ok (_, session) => { s with session }
    | _, _ => s
  | .resume d =>
    match s.errand, s.session.state with
    | .none, .paused p =>
      { s with
        session := s.session.withGallery (s.session.gallery.release p.snapshot)
        errand := .asking p d }
    | _, _ => s
  | .proceed => s.proceed
  | .interrupt => { s with session := s.session.interrupt }.note [.interrupted]
  | .work => s.work
  | .terminal f => { s with session := s.session.mapConsole f }

def acts (s : System) (as : List Action) : System :=
  as.foldl act s

/-- What actions, in any order, come to. -/
def Reached (s : System) : Prop :=
  ∃ recursionLimit rules as, s = (new recursionLimit rules).acts as

theorem Reached.induction {P : System → Prop} (hnew : ∀ limit rules, P (new limit rules))
    (hact : ∀ s a, P s → P (s.act a)) {s : System} (h : s.Reached) : P s := by
  obtain ⟨limit, rules, as, rfl⟩ := h
  suffices hs : ∀ s, P s → P (s.acts as) from hs _ (hnew limit rules)
  induction as with
  | nil => exact fun s hs => hs
  | cons a as ih => exact fun s hs => ih _ (hact s a hs)

theorem Reached.act {s : System} (h : s.Reached) (a : Action) : (s.act a).Reached := by
  obtain ⟨limit, rules, as, rfl⟩ := h
  exact ⟨limit, rules, as ++ [a], by rw [acts, acts, List.foldl_append]; rfl⟩

theorem Reached.acts {s : System} (h : s.Reached) (as : List Action) : (s.acts as).Reached := by
  induction as generalizing s with
  | nil => exact h
  | cons a as ih => exact ih (h.act a)

theorem reached_new (recursionLimit : Nat) (rules : Hint.Rules) :
    (new recursionLimit rules).Reached :=
  ⟨recursionLimit, rules, [], rfl⟩

section Effects

variable (s : System)

def started (job : Job) : System :=
  let files := s.session.files.insert job.name job.source
  { session := { s.session with
      files
      state := .running (job.mode = .debug)
      shared := { s.session.shared with cell := .clear, events := some [] }
      worker := some (⟨job, files, s.session.rules, s.session.recursionLimit⟩, .loading) }
    errand := .none
    log := []
    past := if s.session.worker.isSome then s.log :: s.past else s.past
    effort := 0 }

def taken (e : SessionEvent) (rest : List SessionEvent) : System :=
  { s with session :=
      { s.session with shared := { s.session.shared with events := some rest } }.receive e }

def asked (p : Pause) (d : Decision) : System :=
  { s with
    session := s.session.withGallery (s.session.gallery.release p.snapshot)
    errand := .asking p d }

def refused (e : DebugFault) : System :=
  { s with errand := .none, log := s.log ++ [.refused e] }

def accepted (p : Pause) (d : Decision) (gate : Gate) : System :=
  { s with
    session := { s.session with shared := { s.session.shared with gate } }
    errand := .sending p d
    log := s.log ++ [.accepted p.seq d] }

def sent (d : Decision) : System :=
  { s with
    session := { s.session with
      state := .running (d = .continueStepping)
      worker := s.session.worker.map fun w => (w.1, w.2.deliver d) }
    errand := .none }

def worked (b : Brief) (w : Worker) : System :=
  { s with
    session := { s.session with
      worker := some (b, (w.step b s.session.shared).1)
      shared := (w.step b s.session.shared).2 }
    log := s.log ++ w.notes s.session.shared
    effort := if w.isLook then s.effort else s.effort + 1 }

theorem act_start (job : Job) : s.act (.start job) = s ∨
    s.session.state.isActive = false ∧ s.act (.start job) = s.started job := by
  simp only [act]
  split
  · next session _ hstart =>
    unfold Session.start at hstart
    split at hstart
    · cases hstart
    · next hactive =>
      cases hstart
      exact .inr ⟨Bool.eq_false_iff.2 hactive, rfl⟩
  · exact .inl rfl

theorem act_poll : s.act .poll = s ∨ ∃ e rest,
    s.errand = .none ∧ s.session.shared.events = some (e :: rest) ∧
      s.act .poll = s.taken e rest := by
  simp only [act]
  split
  · next session herrand hpoll =>
    unfold Session.poll at hpoll
    split at hpoll
    · cases hpoll
    · cases hpoll
      exact .inl rfl
    · next e rest he =>
      cases hpoll
      exact .inr ⟨e, rest, herrand, he, rfl⟩
  · exact .inl rfl

theorem act_resume (d : Decision) : s.act (.resume d) = s ∨ ∃ p,
    s.errand = .none ∧ s.session.state = .paused p ∧ s.act (.resume d) = s.asked p d := by
  simp only [act]
  split
  · next p herrand hs => exact .inr ⟨p, herrand, hs, rfl⟩
  · exact .inl rfl

theorem act_proceed : s.act .proceed = s ∨
    (∃ p d e, s.errand = .asking p d ∧ s.session.shared.gate.resolve p.seq = .error e ∧
      s.act .proceed = s.refused e) ∨
    (∃ p d gate, s.errand = .asking p d ∧ s.session.shared.gate.resolve p.seq = .ok gate ∧
      s.act .proceed = s.accepted p d gate) ∨
    ∃ p d, s.errand = .sending p d ∧ s.act .proceed = s.sent d := by
  simp only [act, proceed]
  cases herrand : s.errand with
  | none => exact .inl rfl
  | asking p d =>
    cases hg : s.session.shared.gate.resolve p.seq with
    | error e =>
      refine .inr (.inl ⟨p, d, e, rfl, hg, ?_⟩)
      simp only [hg]
      rfl
    | ok gate =>
      refine .inr (.inr (.inl ⟨p, d, gate, rfl, hg, ?_⟩))
      simp only [hg]
      rfl
  | sending p d => exact .inr (.inr (.inr ⟨p, d, rfl, rfl⟩))

theorem act_work : s.act .work = s ∨ ∃ b w,
    s.session.worker = some (b, w) ∧ s.act .work = s.worked b w := by
  change s.work = s ∨ ∃ b w, _ ∧ s.work = s.worked b w
  unfold work
  split
  · exact .inl rfl
  · next b w hw => exact .inr ⟨b, w, hw, rfl⟩

theorem act_work_eq {s : System} {b : Brief} {w : Worker} (h : s.session.worker = some (b, w)) :
    s.act .work = s.worked b w := by
  simp only [act, work, h]
  rfl

end Effects

section Outside

variable {s : System} {a : Action} (hstart : ∀ job, a ≠ .start job) (hwork : a ≠ .work)
include hstart hwork

theorem log_outside :
    ∃ notes, (s.act a).log = s.log ++ notes ∧ ∀ n ∈ notes, n.isOutside = true := by
  have hsame : ∃ notes, s.log = s.log ++ notes ∧ ∀ n ∈ notes, n.isOutside = true :=
    ⟨[], by simp, by simp⟩
  cases a with
  | start job => exact (hstart job rfl).elim
  | work => exact (hwork rfl).elim
  | poll =>
    obtain he | ⟨e, rest, -, -, he⟩ := s.act_poll <;> rw [he] <;> exact hsame
  | resume d =>
    obtain he | ⟨p, -, -, he⟩ := s.act_resume d <;> rw [he] <;> exact hsame
  | proceed =>
    obtain he | ⟨p, d, e, -, -, he⟩ | ⟨p, d, gate, -, -, he⟩ | ⟨p, d, -, he⟩ :=
      s.act_proceed <;> rw [he]
    · exact hsame
    · exact ⟨[.refused e], rfl, by simp [Note.isOutside]⟩
    · exact ⟨[.accepted p.seq d], rfl, by simp [Note.isOutside]⟩
    · exact hsame
  | interrupt => exact ⟨[.interrupted], rfl, by simp [Note.isOutside]⟩
  | terminal f => exact hsame

theorem worker_outside :
    (∃ f : Worker → Worker, (∀ w : Worker, w.Touched (f w)) ∧
      (s.act a).session.worker = s.session.worker.map fun w => (w.1, f w.2)) ∧
      (s.session.shared.cell.isSet = true → (s.act a).session.shared.cell.isSet = true) := by
  have hsame : (∃ f : Worker → Worker, (∀ w : Worker, w.Touched (f w)) ∧
      s.session.worker = s.session.worker.map fun w => (w.1, f w.2)) ∧
      (s.session.shared.cell.isSet = true → s.session.shared.cell.isSet = true) :=
    ⟨⟨id, fun _ => .same, (Option.map_id_apply ..).symm⟩, id⟩
  cases a with
  | start job => exact (hstart job rfl).elim
  | work => exact (hwork rfl).elim
  | poll =>
    obtain he | ⟨e, rest, -, -, he⟩ := s.act_poll
    · rw [he]
      exact hsame
    · rw [he]
      cases e <;> exact hsame
  | resume d =>
    obtain he | ⟨p, -, -, he⟩ := s.act_resume d
    · rw [he]
      exact hsame
    · rw [he]
      exact ⟨⟨_, fun _ => .pins _, rfl⟩, id⟩
  | proceed =>
    obtain he | ⟨p, d, e, -, -, he⟩ | ⟨p, d, gate, -, -, he⟩ | ⟨p, d, -, he⟩ :=
      s.act_proceed <;> rw [he]
    · exact hsame
    · exact hsame
    · exact hsame
    · exact ⟨⟨_, fun _ => .mail _, rfl⟩, id⟩
  | interrupt => exact ⟨hsame.1, fun _ => rfl⟩
  | terminal f => exact hsame

end Outside

/-- What holds of no notes, of the notes of every step of the run from a system that was reached,
and is kept by notes of others than the run, holds of all that is noted of it. -/
theorem Reached.log_induction {s : System} {P : List Note → Prop} (h : s.Reached) (hnil : P [])
    (hwork : ∀ s : System, s.Reached → ∀ b w, s.session.worker = some (b, w) → P s.log →
      P (s.log ++ w.notes s.session.shared))
    (houtside : ∀ log notes, P log → (∀ n ∈ notes, n.isOutside = true) → P (log ++ notes)) :
    P s.log := by
  refine (h.induction (P := fun s => s.Reached ∧ P s.log)
    (fun limit rules => ⟨reached_new limit rules, hnil⟩) ?_).2
  rintro s a ⟨hreached, hs⟩
  refine ⟨hreached.act a, ?_⟩
  by_cases hstart : ∃ job, a = .start job
  · obtain ⟨job, rfl⟩ := hstart
    obtain he | ⟨-, he⟩ := s.act_start job
    · rwa [he]
    · rw [he]
      exact hnil
  · have hstart : ∀ job, a ≠ .start job := fun job he => hstart ⟨job, he⟩
    by_cases ha : a = .work
    · subst ha
      obtain he | ⟨b, w, hw, he⟩ := s.act_work
      · rwa [he]
      · rw [he]
        exact hwork s hreached b w hw hs
    · obtain ⟨notes, hlog, hnotes⟩ := log_outside (s := s) hstart ha
      rw [hlog]
      exact houtside s.log notes hs hnotes

theorem worker_act {s : System} {b : Brief} {w : Worker} (hw : s.session.worker = some (b, w))
    {a : Action} (ha : ∀ job, a ≠ .start job) : ∃ w', (s.act a).session.worker = some (b, w') := by
  by_cases hwork : a = .work
  · subst hwork
    obtain he | ⟨b', w', hw', he⟩ := s.act_work
    · exact ⟨w, by rwa [he]⟩
    · cases hw.symm.trans hw'
      exact ⟨_, by rw [he]; rfl⟩
  · obtain ⟨⟨f, -, hw'⟩, -⟩ := worker_outside (s := s) ha hwork
    rw [hw] at hw'
    exact ⟨f w, hw'⟩

theorem worker_acts {s : System} {b : Brief} {w : Worker} (hw : s.session.worker = some (b, w))
    {as : List Action} (ha : ∀ job, .start job ∉ as) :
    ∃ w', (s.acts as).session.worker = some (b, w') := by
  induction as generalizing s w with
  | nil => exact ⟨w, hw⟩
  | cons a as ih =>
    obtain ⟨w', hw'⟩ := worker_act hw fun job he => ha job (he ▸ List.mem_cons_self)
    exact ih hw' fun job hmem => ha job (List.mem_cons_of_mem _ hmem)

def launched (limit : Nat) (rules : Hint.Rules) (job : Job) : System :=
  (new limit rules).act (.start job)

section Launched

variable (limit : Nat) (rules : Hint.Rules) (job : Job)

theorem reached_launched : (launched limit rules job).Reached :=
  (reached_new limit rules).act _

theorem worker_launched : (launched limit rules job).session.worker =
    some (⟨job, .insert .empty job.name job.source, rules, limit⟩, .loading) := rfl

end Launched

/-- The steps of an answer, one after the other, are an answer. -/
theorem resume_eq {s : System} (h : s.errand = .none) (d : Decision) :
    (((s.act (.resume d)).act .proceed).act .proceed).session = (s.session.resume d).2 := by
  obtain ⟨session, errand, log, past, effort⟩ := s
  obtain rfl : errand = .none := h
  cases hs : session.state with
  | paused p =>
    simp only [act, hs, Session.resume, proceed]
    cases hg : (session.withGallery (session.gallery.release p.snapshot)).shared.gate.resolve
      p.seq <;> rfl
  | idle | running | terminated => simp only [act, hs, Session.resume, proceed]

end System

end Stepwise
