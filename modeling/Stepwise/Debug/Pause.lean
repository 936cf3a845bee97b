import Stepwise.Debug.Hint
import Stepwise.Debug.Range
import Stepwise.Debug.Snapshot

/-! A pause of a run, and what may be decided about it. -/

namespace Stepwise

inductive RunMode
  | normal
  | debug
deriving DecidableEq, Repr

/-- To go on to the next pause, or to run on without one. -/
inductive Decision
  | continueStepping
  | stopDebugging
deriving DecidableEq, Repr

namespace Decision

def name : Decision → String
  | continueStepping => "continueStepping"
  | stopDebugging => "stopDebugging"

/-- The decision that a command word stands for; the empty word steps. -/
def ofCommand? (word : String) : Option Decision :=
  if ["", "n", "next", "s", "step", "stepIn"].contains word then some continueStepping
  else if ["c", "continue"].contains word then some stopDebugging
  else none

end Decision

structure Pause where
  seq : Nat
  snapshot : Snapshot
  highlight : Range
  hint : Hint

end Stepwise
