import Stepwise.Number.Shortest
import Stepwise.Text.Quoted
import Stepwise.Value.Basic

/-! The text of a value: as it is printed, and as it is shown, where a string is quoted. A
floating-point number is written with the fewest digits that read back, a tie going up, and
never with an exponent; a whole number below ten to the sixteenth has one place. -/

namespace Stepwise

def wholeBound : Float := 1e16

def floatText (x : Float) : String :=
  if x.isNaN then "nan"
  else
    let sign := if Number.isNegative x then "-" else ""
    if x.isInf then sign ++ "inf"
    else
      let digits := String.ofList (Number.shortest .upper (Number.magnitude x)).plain
      sign ++ digits ++ if x.floor == x && x.abs < wholeBound then ".0" else ""

namespace Value

def text : Value → String
  | none => "None"
  | bool true => "True"
  | bool false => "False"
  | int n => toString n.toInt
  | float x => floatText x
  | str s => s
  | function _ c => "<function " ++ c.name ++ ">"
  | builtin b => "<built-in function " ++ b.name ++ ">"
  | code _ c => "<code object " ++ c.name ++ ">"

def repr : Value → String
  | str s => Text.quote s
  | v => v.text

end Value

end Stepwise
