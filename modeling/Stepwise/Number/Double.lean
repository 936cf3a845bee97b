import Stepwise.Number.Nearest

/-! The parts of a double-precision number, the number nearest to an integer, and the exact
remainder of two numbers. -/

namespace Stepwise.Number

structure Magnitude where
  mantissa : Nat
  exponent : Int
deriving DecidableEq, Repr

def signBit : Nat := 0x8000000000000000

def isNegative (x : Float) : Bool :=
  0x8000000000000000 ≤ x.toBits

def withSign (negative : Bool) (bits : Nat) : Float :=
  Float.ofBits ((if negative then bits + signBit else bits).toUInt64)

/-- The number nearest to an integer, a half going to the even neighbour. -/
def ofInt (n : Int) : Float :=
  withSign (n < 0) (nearestBits n.natAbs 1)

def magnitude (x : Float) : Magnitude :=
  let bits : Nat := x.toBits.toNat % signBit
  let fraction : Nat := bits % leadingBit
  if bits < leadingBit then ⟨fraction, -1074⟩
  else ⟨fraction + leadingBit, ((bits / leadingBit : Nat) : Int) - 1075⟩

def Magnitude.toBits (a : Magnitude) : Nat :=
  if 0 ≤ a.exponent then nearestBits (a.mantissa <<< a.exponent.toNat) 1
  else nearestBits a.mantissa (1 <<< (-a.exponent).toNat)

/-- What is left of the first magnitude after taking away the second as often as it goes. -/
def Magnitude.remainder (a b : Magnitude) : Magnitude :=
  let e := min a.exponent b.exponent
  ⟨(a.mantissa <<< (a.exponent - e).toNat) % (b.mantissa <<< (b.exponent - e).toNat), e⟩

/-- The remainder of `x` by `y`, exact and with the sign of `x`. It is not a number if `x` is
infinite or `y` is zero, and `x` itself if `y` is infinite. -/
def remainder (x y : Float) : Float :=
  if x.isNaN || y.isNaN || x.isInf || y == 0.0 then 0.0 / 0.0
  else if y.isInf then x
  else withSign (isNegative x) ((magnitude x).remainder (magnitude y)).toBits

end Stepwise.Number
