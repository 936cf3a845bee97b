import Stepwise.Dictionary
import Stepwise.Text.Blank

/-! Named texts. The texts that are open can change at any time; a run sees them as they were
when it started, which is the same type of value, kept. -/

namespace Stepwise

abbrev Files := Dictionary String

namespace Files

/-- A line of a text, counted from one, without its end. -/
def line? (files : Files) (name : String) (line : Nat) : Option String :=
  if line = 0 then none else (files.get? name).bind fun text => (Text.linesOf text)[line - 1]?

def lineCount? (files : Files) (name : String) : Option Nat :=
  (files.get? name).map fun text => (Text.linesOf text).length

def parts (path : String) : List String :=
  (path.splitOn "/").filter fun p => p ≠ "" && p ≠ "."

def lastName? (path : String) : Option String :=
  (parts path).getLast?.filter (· ≠ "..")

end Files

end Stepwise
