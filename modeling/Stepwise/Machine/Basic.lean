import Stepwise.Machine.Frame
import Stepwise.Value.Builtin

/-! The machine and what it is in the middle of. A run is a stack of activations and a phase,
which says what the innermost one does next. Where the next thing needs an answer from
outside (a trace event, the interrupt cell, the console) the run waits in that phase until it
is given one; everything else it does by itself. -/

namespace Stepwise

/-- What the observer of a traced run is told about an activation: that it is about to start, that
its next instruction is on another line, that it is about to execute an instruction or to return. -/
inductive TraceEvent
  | call
  | line
  | opcode
  | ret
deriving DecidableEq, Repr

def TraceEvent.name : TraceEvent → String
  | .call => "call"
  | .line => "line"
  | .opcode => "opcode"
  | .ret => "return"

/-- What the observer answers: to proceed, to tell no more events, or to end the run as cancelled or
as faulty. -/
inductive Control
  | proceed
  | untrace
  | cancel
  | abort (reason : String)
deriving DecidableEq, Repr

abbrev Ending := Except Unwind Value

/-- Here `pc` is the index of the next instruction, `lasti` and `line` are the offset and the line
of the one fetched last, and `lastLine` is the line announced last, zero before the first. The stack
has its topmost value first. -/
structure Activation where
  frame : FrameId
  chunk : Chunk
  pc : Nat
  lasti : Nat
  line : Nat
  lastLine : Nat
  stack : List Value

def Activation.new (frame : FrameId) (chunk : Chunk) : Activation :=
  ⟨frame, chunk, 0, 0, chunk.firstLine, 0, []⟩

inductive Phase
  | call
  | fetch
  | line
  | opcode
  | poll
  | execute
  | write (text : String) (thenRead : Bool)
  | clear
  | read
  | leave (ending : Ending)
  | ended (ending : Ending)

/-- Here `nextIdent` is the number that the next function object bears, `depth` counts the
activations of the run. -/
structure Machine where
  arena : Arena
  recursionLimit : Nat
  nextIdent : Nat
  tracing : Bool
  depth : Nat

def builtinScope : Scope :=
  .ofList (Builtin.all.map fun b => (b.name, .builtin b))

def Machine.new (recursionLimit nextIdent : Nat) : Machine :=
  ⟨.new builtinScope, recursionLimit, nextIdent, false, 0⟩

structure Run where
  machine : Machine
  current : Activation
  callers : List Activation
  phase : Phase

inductive Need
  | nothing
  | control (event : TraceEvent) (aux : Option Value)
  | cell
  | write (text : String)
  | clear
  | line
  | done (ending : Ending)

namespace Run

/-- Starts the execution of a chunk as a module. -/
def start (m : Machine) (chunk : Chunk) : Run :=
  let (id, arena) := m.arena.alloc (.new chunk none .empty)
  ⟨{ m with arena, depth := 1 }, .new id chunk, [], .call⟩

def need (r : Run) : Need :=
  let told (event : TraceEvent) (aux : Option Value) : Need :=
    if r.machine.tracing then .control event aux else .nothing
  match r.phase with
  | .call => told .call none
  | .fetch => .nothing
  | .line => told .line none
  | .opcode => told .opcode none
  | .poll => .cell
  | .execute => .nothing
  | .write text _ => .write text
  | .clear => .clear
  | .read => .line
  | .leave ending => told .ret ending.toOption
  | .ended ending => .done ending

def withPhase (r : Run) (phase : Phase) : Run :=
  { r with phase }

def withArena (r : Run) (arena : Arena) : Run :=
  { r with machine := { r.machine with arena } }

def fail (r : Run) (u : Unwind) : Run :=
  r.withPhase (.leave (.error u))

def raise (r : Run) (cause : Exception.Cause) : Run :=
  r.fail (.raise cause)

/-- Goes on in the current activation with this stack. -/
def next (r : Run) (stack : List Value) : Run :=
  { r with current := { r.current with stack }, phase := .fetch }

def push (r : Run) (v : Value) : Run :=
  r.next (v :: r.current.stack)

def jump (r : Run) (pc : Nat) (stack : List Value) : Run :=
  { r with current := { r.current with pc, stack }, phase := .fetch }

end Run

end Stepwise
