import Stepwise.Number.Integer

/-! How much is logged. A level stands for itself and all more severe ones. -/

namespace Stepwise.Log

inductive Level
  | error
  | warn
  | info
  | debug
  | trace
deriving DecidableEq, Repr

namespace Level

def all : List Level :=
  [error, warn, info, debug, trace]

def name : Level → String
  | error => "error"
  | warn => "warn"
  | info => "info"
  | debug => "debug"
  | trace => "trace"

def rank : Level → Nat
  | error => 1
  | warn => 2
  | info => 3
  | debug => 4
  | trace => 5

/-- A level is written as its rank or as its name in any case. Nothing else is relied on where
levels are compared. -/
def ofText? (text : String) : Option Level :=
  match Number.readCount? text.toList with
  | some n => all.find? fun l => l.rank = n
  | none => all.find? fun l => l.name = text.toLower

/-- Whether a threshold lets a record of this level through. -/
def admits (threshold level : Level) : Bool :=
  level.rank ≤ threshold.rank

end Level

end Stepwise.Log
