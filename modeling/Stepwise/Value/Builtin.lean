import Stepwise.Text.Blank
import Stepwise.Value.Arithmetic

/-! The built-in functions. A call gives a value at once or asks the console. -/

namespace Stepwise.Builtin

inductive Effect
  | give (v : Value)
  | write (text : String)
  | ask (prompt : Option String)
  | clear

abbrev Result := Except Exception.Cause Effect

def atMost (b : Builtin) (most : Nat) (args : List Value) (r : Result) : Result :=
  if most < args.length then .error (.atMost b.name most args.length) else r

def ofFloat (x : Float) : Except Exception.Cause Value :=
  if -9223372036854775808.0 ≤ x && x < 9223372036854775808.0 then .ok (.int x.toInt64)
  else .error (.outsideIntegers (floatText x))

/-- Blanks around the digits and underscores between them are skipped. -/
def ofText (s : String) : Except Exception.Cause Value :=
  match Number.readWord? ((Text.trim s.toList).filter (· != '_')) with
  | some n => .ok (.int n)
  | none => .error (.notInteger (Text.quote s))

def toInteger : Value → Except Exception.Cause Value
  | .int n => .ok (.int n)
  | .bool b => .ok (.int (if b then 1 else 0))
  | .float x => ofFloat x
  | .str s => ofText s
  | v => .error (.notNumeric v.typeName)

def length : Value → Except Exception.Cause Value
  | .str s => .ok (.int (Int64.ofNat s.length))
  | v => .error (.noLength v.typeName)

def call (b : Builtin) (args : List Value) : Result :=
  match b with
  | print => .ok (.write (String.intercalate " " (args.map Value.text) ++ "\n"))
  | input => b.atMost 1 args (.ok (.ask (args.head?.map Value.text)))
  | str => b.atMost 1 args (.ok (.give (.str ((args.head?.map Value.text).getD ""))))
  | int =>
    b.atMost 1 args (match args.head? with
      | none => .ok (.give (.int 0))
      | some v => (toInteger v).map .give)
  | len =>
    match args with
    | [v] => (length v).map .give
    | _ => .error (.notOneArgument b.name args.length)
  | clear => b.atMost 0 args (.ok .clear)

end Stepwise.Builtin
