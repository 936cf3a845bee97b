import Stepwise.Number.Integer
import Stepwise.Value.Exception

/-! The operators on values. Integers are computed exactly and refused where they do not
fit; a remainder is refused where its quotient does not fit. As soon as one operand is a
floating-point number both are. -/

namespace Stepwise

namespace Value

abbrev Result := Except Exception.Cause Value

def ofInt (n : Int) : Result :=
  match Number.word? n with
  | some w => .ok (int w)
  | Option.none => .error .integerOverflow

/-- Quotients round toward minus infinity, and remainders have the sign of the divisor: what a
division that cuts off at the point gives is one off where there is a remainder and the signs
differ. -/
def intArith (op : Source.Arith) (x y : Int64) : Result :=
  match op with
  | .add => ofInt (x.toInt + y.toInt)
  | .sub => ofInt (x.toInt - y.toInt)
  | .mul => ofInt (x.toInt * y.toInt)
  | .div =>
    if y = 0 then .error .divisionByZero
    else .ok (float (Number.ofInt x.toInt / Number.ofInt y.toInt))
  | .floorDiv =>
    if y = 0 then .error .integerDivisionByZero
    else
      match Number.quotient? x y with
      | some q => .ok (int (if x % y != 0 && (x < 0) != (y < 0) then q - 1 else q))
      | Option.none => .error .integerOverflow
  | .mod =>
    if y = 0 then .error .integerDivisionByZero
    else
      match Number.remainder? x y with
      | some r => .ok (int (if r != 0 && (r < 0) != (y < 0) then r + y else r))
      | Option.none => .error .integerOverflow

def floatArith (op : Source.Arith) (x y : Float) : Result :=
  match op with
  | .add => .ok (float (x + y))
  | .sub => .ok (float (x - y))
  | .mul => .ok (float (x * y))
  | .div => if y == 0.0 then .error .floatDivisionByZero else .ok (float (x / y))
  | .floorDiv => if y == 0.0 then .error .floatFloorByZero else .ok (float (x / y).floor)
  | .mod =>
    if y == 0.0 then .error .floatModuloByZero
    else
      let r := Number.remainder x y
      .ok (float (if r != 0.0 && (r < 0.0) != (y < 0.0) then r + y else r))

def maxStringSize : Nat := 0x10000000

def repeated (s : String) (n : Nat) : String :=
  if n = 0 || s.isEmpty then ""
  else
    let half := repeated s (n / 2)
    if n % 2 = 0 then half ++ half else half ++ half ++ s
termination_by n
decreasing_by
  have : n ≠ 0 := by simp_all
  omega

def joinStr (s t : String) : Result :=
  if maxStringSize < s.utf8ByteSize + t.utf8ByteSize then .error .joinedTooLong
  else .ok (str (s ++ t))

def repeatStr (s : String) (count : Int64) : Result :=
  let n := count.toInt.toNat
  if maxStringSize < s.utf8ByteSize * n then .error .repeatedTooLong
  else .ok (str (repeated s n))

def arith (op : Source.Arith) (v w : Value) : Result :=
  match v.asInt?, w.asInt? with
  | some x, some y => intArith op x y
  | m?, n? =>
    match v.asFloat?, w.asFloat? with
    | some x, some y => floatArith op x y
    | _, _ =>
      match op, v, w, m?, n? with
      | .add, str s, str t, _, _ => joinStr s t
      | .mul, str s, _, _, some n => repeatStr s n
      | .mul, _, str s, some n, _ => repeatStr s n
      | _, _, _, _, _ => .error (.operands op.symbol v.typeName w.typeName)

def lessThan (op : Source.Relation) (less equal greater : Bool) : Bool :=
  match op with
  | .equal => equal
  | .unequal => !equal
  | .less => less
  | .lessEqual => less || equal
  | .greater => greater
  | .greaterEqual => greater || equal

/-- Strings are ordered by code points, numbers as floating-point ones. -/
def compare (op : Source.Relation) (v w : Value) : Result :=
  match op with
  | .equal => .ok (bool (v.equal w))
  | .unequal => .ok (bool (!v.equal w))
  | _ =>
    match v, w with
    | str s, str t => .ok (bool (lessThan op (s < t) (s == t) (t < s)))
    | _, _ =>
      match v.asFloat?, w.asFloat? with
      | some x, some y => .ok (bool (lessThan op (x < y) (x == y) (y < x)))
      | _, _ => .error (.unordered op.symbol v.typeName w.typeName)

def unary (op : Source.UnaryOp) (v : Value) : Result :=
  match op with
  | .not => .ok (bool !v.truthy)
  | .neg =>
    match v with
    | float x => .ok (float (-x))
    | _ =>
      match v.asInt? with
      | some n => ofInt (-n.toInt)
      | Option.none => .error (.negation v.typeName)

end Value

end Stepwise
