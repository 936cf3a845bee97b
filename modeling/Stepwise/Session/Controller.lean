import Stepwise.Session.Worker

/-! The side of a session that controls runs, one after the other. Its state changes when it
takes an event of the run or answers a pause, and at no other time. -/

namespace Stepwise

inductive SessionFault
  | alreadyActive
  | notActive
  | notPaused
  | debug (e : DebugFault)
deriving DecidableEq, Repr

def SessionFault.message : SessionFault → String
  | alreadyActive => "a run is already active"
  | notActive => "no run is active"
  | notPaused => "the session is not paused"
  | debug e => e.message

inductive SessionState
  | idle
  | running (traced : Bool)
  | paused (p : Pause)
  | terminated (o : Outcome)

namespace SessionState

def isActive : SessionState → Bool
  | running _ | paused _ => true
  | _ => false

def pause? : SessionState → Option Pause
  | paused p => some p
  | _ => none

end SessionState

/-- The worker is that of the current run, or else of the last one. -/
structure Session where
  recursionLimit : Nat
  rules : Hint.Rules
  files : Files
  state : SessionState
  shared : Shared
  worker : Option (Brief × Worker)

namespace Session

def new (recursionLimit : Nat) (rules : Hint.Rules) : Session :=
  ⟨recursionLimit, rules, .empty, .idle, .new, none⟩

def isActive (s : Session) : Bool :=
  s.state.isActive

/-- The frames of the current run and the snapshots of all. A snapshot of an earlier run is
released. -/
def gallery (s : Session) : Gallery :=
  ⟨(s.worker.map fun w => w.2.arena).getD (.new .empty), s.shared.pinnings⟩

def withGallery (s : Session) (g : Gallery) : Session :=
  { s with
    shared := { s.shared with pinnings := g.pinnings }
    worker := s.worker.map fun w => (w.1, w.2.withArena g.arena) }

def mapConsole (s : Session) (f : Console → Console) : Session :=
  { s with shared := { s.shared with console := f s.shared.console } }

/-- Opens the text and starts its run, with the interrupt cell clear. -/
def start (s : Session) (job : Job) : Except SessionFault Session :=
  if s.isActive then .error .alreadyActive
  else
    let files := s.files.insert job.name job.source
    .ok { s with
      files
      state := .running (job.mode = .debug)
      shared := { s.shared with cell := .clear, events := some [] }
      worker := some (⟨job, files, s.rules, s.recursionLimit⟩, .loading) }

def work (s : Session) (stop : Shared → Bool) (fuel : Nat) : Session :=
  match s with
  | { worker := some (b, w), shared, recursionLimit, rules, files, state } =>
    let (w, shared) := w.work b stop fuel shared
    { worker := some (b, w), shared, recursionLimit, rules, files, state }
  | s => s

def isIdle (s : Session) : Bool :=
  s.worker.all fun w => w.2.isIdle s.shared

/-- The state after an event; a session does not listen beyond the end of a run. -/
def receive (s : Session) (e : SessionEvent) : Session :=
  match e with
  | .paused p => { s with state := .paused p }
  | .terminated o => { s with state := .terminated o, shared := { s.shared with events := none } }

/-- Takes the first event that waits, if there is one. -/
def poll (s : Session) : Except SessionFault (Option SessionEvent × Session) :=
  match s.shared.events with
  | none => .error .notActive
  | some [] => .ok (none, s)
  | some (e :: rest) =>
    .ok (some e, { s with shared := { s.shared with events := some rest } }.receive e)

def await (s : Session) (fuel : Nat) : Except SessionFault (Option SessionEvent × Session) :=
  (s.work Shared.hasEvent fuel).poll

/-- Answers the pause; its snapshot is released even if the answer comes too late. -/
def resume (s : Session) (d : Decision) : Except SessionFault Unit × Session :=
  match s.state with
  | .paused p =>
    let s := s.withGallery (s.gallery.release p.snapshot)
    match s.shared.gate.resolve p.seq with
    | .error e => (.error (.debug e), s)
    | .ok gate =>
      (.ok (), { s with
        state := .running (d = .continueStepping)
        shared := { s.shared with gate }
        worker := s.worker.map fun w => (w.1, w.2.deliver d) })
  | _ => (.error .notPaused, s)

def interrupt (s : Session) : Session :=
  { s with shared := { s.shared with cell := .signalled } }

def keep (s : Session) : Option Snapshot × Session :=
  match s.state.pause? with
  | some p => (some p.snapshot, s.withGallery (s.gallery.clone p.snapshot))
  | none => (none, s)

/-- Answers every pause until the run ends, or until `fuel` events have come. Between two
events the run moves at most `patience` steps. -/
def conduct {σ : Type} (decide : Session → Pause → σ → Decision × σ) (patience : Nat) :
    Nat → Session → σ → Except SessionFault (Option Outcome × Session × σ)
  | 0, s, a => .ok (none, s, a)
  | fuel + 1, s, a =>
    match s.await patience with
    | .error e => .error e
    | .ok (none, s) => .ok (none, s, a)
    | .ok (some (.terminated o), s) => .ok (some o, s, a)
    | .ok (some (.paused p), s) =>
      let (d, a) := decide s p a
      match s.resume d with
      | (.error e, _) => .error e
      | (.ok (), s) => conduct decide patience fuel s a

end Session

end Stepwise
