import Stepwise.Code.Assembly
import Stepwise.Debug.Tracer
import Stepwise.Machine.Step
import Stepwise.Session.Shared

/-! The side of a session that runs the program. It moves in single steps, each of which looks
at no more than one of the things it shares with its controller: what it tells or reads in a
step, it tells or reads at once. -/

namespace Stepwise

structure Brief where
  job : Job
  files : Files
  rules : Hint.Rules
  recursionLimit : Nat

/-- What a run does next: compile its text, move, wait at the gate or for a line, show its failure
on the terminal, tell the controller of its end. -/
inductive Worker
  | loading
  | running (run : Run) (tracer : Tracer)
  | suspended (run : Run) (tracer : Tracer) (pause : Pause) (wait : Suspension)
  | reading (run : Run) (tracer : Tracer) (read : Reader)
  | concluding (arena : Arena) (outcome : Outcome)
  | announcing (arena : Arena) (outcome : Outcome)
  | finished (arena : Arena)

namespace Worker

/-- Clears the screen and what was scrolled off it, and puts the cursor into the corner. -/
def clearScreen : String :=
  "\x1b[2J\x1b[3J\x1b[H"

def load (b : Brief) : Worker :=
  match Code.compile b.job.name b.job.source with
  | .error e => concluding (.new .empty) (.failed (.ofSyntaxError e b.job.name b.files))
  | .ok chunk =>
    let machine := { Machine.new b.recursionLimit 1 with tracing := b.job.mode = .debug }
    let lineCount := (b.files.lineCount? b.job.name).getD 0
    running (.start machine chunk) (.new b.job.name lineCount b.rules)

/-- What a read gives the program. A set interrupt cell outweighs all but a line. -/
def lineOf (o : ReadOutcome) (interrupted : Bool) : Except Unwind String :=
  match o with
  | .line text => .ok text
  | o =>
    if interrupted then .error .cancelled
    else
      .error <| .raise <|
        match o with
        | .endOfInput => .endOfInput
        | .cancelled => .superseded
        | _ => .interrupted

def move (b : Brief) (run : Run) (tracer : Tracer) (s : Shared) : Worker × Shared :=
  match run.need with
  | .nothing => (running run.advance tracer, s)
  | .control event _ =>
    match tracer.consider event s.cell.isSet run.current run.machine.arena with
    | (.answer c, tracer) => (running (run.control c) tracer, s)
    | (.offer highlight hint, tracer) =>
      match tracer.pauseAt highlight hint run.current ⟨run.machine.arena, s.pinnings⟩ with
      | .error e => (running (run.control (.abort e.message)) tracer, s)
      | .ok (pause, g, tracer) =>
        (suspended (run.withArena g.arena) tracer pause .arriving, { s with pinnings := g.pinnings })
  | .cell => (running (run.polled s.cell.isSet) tracer, s)
  | .write text => (running run.shown tracer, s.write (Text.normalizeLineEnds text))
  | .clear => (running run.shown tracer, s.write clearScreen)
  | .line =>
    let (read, console) := Reader.new s.console
    (reading run tracer read, { s with console })
  | .done ending => (concluding run.machine.arena (.ofEnding b.files ending), s)

/-- One step of a wait at the gate. However it ends, the snapshot is released after it. -/
def wait (run : Run) (tracer : Tracer) (pause : Pause) (w : Suspension) (s : Shared) :
    Worker × Shared :=
  match w with
  | .left result =>
    let g := Gallery.release ⟨run.machine.arena, s.pinnings⟩ pause.snapshot
    (running ((run.withArena g.arena).control (Tracer.answer result)) tracer,
      { s with pinnings := g.pinnings })
  | w =>
    let (w', gate) := w.step pause.seq s.events.isSome s.cell.isSet s.gate
    let s := match w with
      | .publishing _ => s.tell (.paused pause)
      | _ => s
    (suspended run tracer pause w', { s with gate })

def read (run : Run) (tracer : Tracer) (r : Reader) (s : Shared) : Worker × Shared :=
  match r.outcome? with
  | some o => (running (run.received (lineOf o s.cell.isSet)) tracer, s)
  | none =>
    let (r, console) := r.step s.cell.isSet s.console
    (reading run tracer r, { s with console })

def step (b : Brief) (w : Worker) (s : Shared) : Worker × Shared :=
  match w with
  | loading => (load b, s)
  | running run tracer => move b run tracer s
  | suspended run tracer pause w => wait run tracer pause w s
  | reading run tracer r => read run tracer r s
  | concluding arena o =>
    (announcing arena o,
      match o with
      | .failed r => s.write (Text.paintError r.message)
      | _ => s)
  | announcing arena o => (finished arena, s.tell (.terminated o))
  | finished arena => (finished arena, s)

def isIdle (w : Worker) (s : Shared) : Bool :=
  match w with
  | suspended _ _ _ w => w.isIdle s.cell.isSet
  | reading _ _ r => r.isIdle s.cell.isSet s.console
  | finished _ => true
  | _ => false

/-- Steps until `stop` holds or it can only wait, but at most `fuel` times. -/
def work (b : Brief) (stop : Shared → Bool) : Nat → Worker → Shared → Worker × Shared
  | 0, w, s => (w, s)
  | fuel + 1, w, s =>
    if stop s || w.isIdle s then (w, s)
    else
      let (w, s) := w.step b s
      work b stop fuel w s

def arena : Worker → Arena
  | loading => .new .empty
  | running run _ | suspended run _ _ _ | reading run _ _ => run.machine.arena
  | concluding arena _ | announcing arena _ | finished arena => arena

def withArena (w : Worker) (arena : Arena) : Worker :=
  match w with
  | loading => loading
  | running run t => running (run.withArena arena) t
  | suspended run t p w => suspended (run.withArena arena) t p w
  | reading run t r => reading (run.withArena arena) t r
  | concluding _ o => concluding arena o
  | announcing _ o => announcing arena o
  | finished _ => finished arena

/-- Puts an accepted answer into the mail of the pause that waits. -/
def deliver (d : Decision) : Worker → Worker
  | suspended run t p w => suspended run t p (w.deliver d)
  | w => w

end Worker

end Stepwise
