import Stepwise.Debug.Gate
import Stepwise.Machine.Basic

/-! The observer of a debug run: it offers a pause at instructions of one file whose line the
file has. -/

namespace Stepwise

/-- The field `last` is the range offered last, `seq` the number of pauses offered so far. -/
structure Tracer where
  file : String
  lineCount : Nat
  rules : Hint.Rules
  last : Option Range
  seq : Nat

namespace Tracer

def new (file : String) (lineCount : Nat) (rules : Hint.Rules) : Tracer :=
  ⟨file, lineCount, rules, none, 0⟩

inductive Verdict
  | answer (c : Control)
  | offer (highlight : Range) (hint : Hint)

def offer? (t : Tracer) (a : Activation) (arena : Arena) : Option (Range × Hint) × Tracer :=
  match a.chunk.instrAt? a.lasti with
  | none => (none, t)
  | some i =>
    let (hint, shouldPause) := Hint.resolve t.rules i a.chunk (arena.lookup a.frame)
    let range := Range.at? a.chunk a.lasti a.line
    let (offered, last) := offers t.last shouldPause range
    (if offered then range.map (·, hint) else none, { t with last })

def consider (t : Tracer) (event : TraceEvent) (interrupted : Bool) (a : Activation)
    (arena : Arena) : Verdict × Tracer :=
  if event ≠ .opcode ∨ a.chunk.file ≠ t.file then (.answer .proceed, t)
  else if interrupted then (.answer .cancel, t)
  else if a.line < 1 ∨ t.lineCount < a.line then (.answer .proceed, t)
  else
    match t.offer? a arena with
    | (none, t) => (.answer .proceed, t)
    | (some (highlight, hint), t) => (.offer highlight hint, t)

def pauseAt (t : Tracer) (highlight : Range) (hint : Hint) (a : Activation) (g : Gallery) :
    Except DebugFault (Pause × Gallery × Tracer) :=
  match g.capture a.frame a.chunk a.lasti a.line with
  | .error e => .error e
  | .ok (snapshot, g) =>
    .ok (⟨t.seq + 1, snapshot, highlight, hint⟩, g, { t with seq := t.seq + 1 })

def answer : Except DebugFault Resumption → Control
  | .ok (.resumed .continueStepping) => .proceed
  | .ok (.resumed .stopDebugging) => .untrace
  | .ok .cancelled => .cancel
  | .error e => .abort e.message

end Tracer

end Stepwise
