import Stepwise.Code.Chunk
import Stepwise.Number.Double

/-! Values of a running program. Functions and code objects are told apart by identity: two
of them are the same object exactly if they bear the same number. -/

namespace Stepwise

inductive Builtin
  | print | input | str | int | len | clear
deriving DecidableEq, Repr

namespace Builtin

def all : List Builtin :=
  [print, input, str, int, len, clear]

def name : Builtin → String
  | print => "print"
  | input => "input"
  | str => "str"
  | int => "int"
  | len => "len"
  | clear => "clear"

end Builtin

inductive Value
  | none
  | bool (b : Bool)
  | int (n : Int64)
  | float (x : Float)
  | str (s : String)
  | function (ident : Nat) (chunk : Code.ChunkOf Value)
  | builtin (b : Builtin)
  | code (ident : Nat) (chunk : Code.ChunkOf Value)

instance : Inhabited Value := ⟨.none⟩

abbrev Chunk := Code.ChunkOf Value

namespace Value

def typeName : Value → String
  | none => "NoneType"
  | bool _ => "bool"
  | int _ => "int"
  | float _ => "float"
  | str _ => "str"
  | function _ _ => "function"
  | builtin _ => "builtin_function_or_method"
  | code _ _ => "code"

def truthy : Value → Bool
  | none => false
  | bool b => b
  | int n => n != 0
  | float x => x != 0.0
  | str s => !s.isEmpty
  | function _ _ | builtin _ | code _ _ => true

/-- The number that a truth value or an integer stands for. -/
def asInt? : Value → Option Int64
  | bool b => some (if b then 1 else 0)
  | int n => some n
  | _ => Option.none

def asFloat? : Value → Option Float
  | float x => some x
  | v => v.asInt?.map fun n => Number.ofInt n.toInt

/-- Equality as programs see it: integers are compared exactly, other numbers as
floating-point ones. -/
def equal : Value → Value → Bool
  | none, none => true
  | str s, str t => s == t
  | function i _, function j _ => i == j
  | builtin a, builtin b => a == b
  | code i _, code j _ => i == j
  | v, w =>
    match v.asInt?, w.asInt? with
    | some m, some n => m == n
    | _, _ =>
      match v.asFloat?, w.asFloat? with
      | some x, some y => x == y
      | _, _ => false

def ofLiteral : Source.Literal → Value
  | .none => none
  | .bool b => bool b
  | .int n => int n
  | .float x => float x
  | .str s => str s

end Value

end Stepwise
