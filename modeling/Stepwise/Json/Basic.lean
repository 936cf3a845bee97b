/-! JSON data. An object keeps its fields as they were written, in order and with repetitions;
its canonical form has the last field of every name, ordered by names. -/

namespace Stepwise

inductive Json.Number
  | int (n : Int)
  | float (x : Float)
deriving Repr

inductive Json
  | null
  | bool (b : Bool)
  | number (n : Json.Number)
  | str (s : String)
  | arr (items : List Json)
  | obj (fields : List (String × Json))
deriving Repr, Inhabited

namespace Json

def int (n : Int) : Json := .number (.int n)

def nat (n : Nat) : Json := .int n

def optional {α : Type} (f : α → Json) : Option α → Json
  | some a => f a
  | none => null

def isNull : Json → Bool
  | null => true
  | _ => false

def asBool? : Json → Option Bool
  | bool b => some b
  | _ => none

def asInt? : Json → Option Int
  | number (.int n) => some n
  | _ => none

def asNat? (j : Json) : Option Nat :=
  j.asInt?.bind fun n => if 0 ≤ n then some n.toNat else none

def asStr? : Json → Option String
  | str s => some s
  | _ => none

def asArr? : Json → Option (List Json)
  | arr items => some items
  | _ => none

def asObj? : Json → Option (List (String × Json))
  | obj fields => some fields
  | _ => none

def field? (j : Json) (name : String) : Option Json :=
  j.asObj?.bind fun fields => (fields.reverse.find? fun f => f.1 == name).map Prod.snd

def present? (j : Json) (name : String) : Option Json :=
  (j.field? name).filter fun v => !v.isNull

/-- The field of this name; the outer value is missing if there are several. -/
def single? (fields : List (String × Json)) (name : String) : Option (Option Json) :=
  match fields.filter fun f => f.1 == name with
  | [] => some none
  | [f] => some (some f.2)
  | _ => none

/-- The name of a case without data, which may stand as the name of a null field. -/
def asCase? : Json → Option String
  | str s => some s
  | obj [(name, null)] => some name
  | _ => none

def insertField (name : String) (v : Json) : List (String × Json) → List (String × Json)
  | [] => [(name, v)]
  | f :: rest =>
    if name = f.1 then (name, v) :: rest
    else if name < f.1 then (name, v) :: f :: rest
    else f :: insertField name v rest

mutual

def canonical : Json → Json
  | arr items => .arr (canonicalItems items)
  | obj fields => .obj (canonicalFields [] fields)
  | j => j

def canonicalItems : List Json → List Json
  | [] => []
  | j :: rest => canonical j :: canonicalItems rest

def canonicalFields (done : List (String × Json)) : List (String × Json) → List (String × Json)
  | [] => done
  | (name, j) :: rest => canonicalFields (insertField name (canonical j) done) rest

end

end Json

end Stepwise
