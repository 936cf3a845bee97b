import Stepwise.Number.Double

/-! The fewest decimal digits that read back as a given number. The numbers that round to a
magnitude form an interval, which holds its ends if the mantissa is even. For one, two and
more digits the two neighbours of the magnitude on that decimal grid are tried; the first grid
with a neighbour inside the interval wins, and of two the nearer. Which of two equally near is
taken is up to the caller. -/

namespace Stepwise.Number

/-- A magnitude and the ends of its interval, over a common denominator. -/
structure Interval where
  low : Nat
  value : Nat
  high : Nat
  den : Nat
  closed : Bool
deriving Repr

/-- Half a unit of the last place to each side; a quarter below a power of two, where the
numbers lie twice as dense. -/
def Magnitude.interval (a : Magnitude) : Interval :=
  let below := if a.mantissa = leadingBit ∧ -1074 < a.exponent then 1 else 2
  let scale := 1 <<< (a.exponent - 2).toNat
  { low := (4 * a.mantissa - below) * scale
    value := 4 * a.mantissa * scale
    high := (4 * a.mantissa + 2) * scale
    den := 1 <<< (2 - a.exponent).toNat
    closed := a.mantissa % 2 = 0 }

inductive Tie
  | upper
  | even
deriving DecidableEq, Repr

def Tie.isLower : Tie → Nat → Bool
  | upper, _ => false
  | even, d => d % 2 = 0

structure Decimal where
  digits : Nat
  exponent : Int
deriving DecidableEq, Repr

/-- The neighbour of the value on the grid of multiples of `10 ^ k` that reads back. -/
def Interval.neighbour? (tie : Tie) (i : Interval) (k : Int) : Option Decimal :=
  let up := tenTo (-k).toNat
  let unit := i.den * tenTo k.toNat
  let d := i.value * up / unit
  let inside (n : Nat) : Bool :=
    if i.closed then i.low * up ≤ n * unit && n * unit ≤ i.high * up
    else i.low * up < n * unit && n * unit < i.high * up
  let gap := 2 * (i.value * up - d * unit)
  let takesLower := gap < unit || gap = unit && tie.isLower d
  if inside d && (takesLower || !inside (d + 1)) then some ⟨d, k⟩
  else if inside (d + 1) then some ⟨d + 1, k⟩
  else none

/-- The count of digits before the point, zero or less for a number below one tenth. -/
def Interval.pointPlace (i : Interval) : Int :=
  let atLeast (p : Int) : Bool :=
    i.den * tenTo p.toNat ≤ i.value * tenTo (-p).toNat
  let guess := ((i.value.log2 : Int) - i.den.log2 - 1) * 30103 / 100000
  ((List.range 4).map fun (j : Nat) => guess + (j : Int)).foldl (fun p q => if atLeast q then q + 1 else p) guess

def Decimal.trimmed (d : Decimal) : Decimal :=
  let zeros := ((Nat.toDigits 10 d.digits).reverse.takeWhile (· == '0')).length
  ⟨d.digits / tenTo zeros, d.exponent + zeros⟩

def shortest (tie : Tie) (a : Magnitude) : Decimal :=
  let i := a.interval
  let p := i.pointPlace
  if a.mantissa = 0 then ⟨0, 0⟩
  else
    match (List.range 17).findSome? fun (n : Nat) => i.neighbour? tie (p - (n + 1 : Nat)) with
    | some d => d.trimmed
    | none => ⟨0, 0⟩

def Decimal.plain (d : Decimal) : List Char :=
  let ds := Nat.toDigits 10 d.digits
  if 0 ≤ d.exponent then ds ++ List.replicate d.exponent.toNat '0'
  else
    let places := (-d.exponent).toNat
    let padded := List.replicate (places + 1 - ds.length) '0' ++ ds
    padded.take (padded.length - places) ++ '.' :: padded.drop (padded.length - places)

example : (shortest .upper ⟨0x1999999999999A, -56⟩).plain = "0.1".toList := by decide +kernel
example : (shortest .even ⟨1, -1074⟩) = ⟨5, -324⟩ := by decide +kernel
example : (shortest .upper ⟨leadingBit, -77⟩) = ⟨29802322387695313, -24⟩ := by decide +kernel
example : (shortest .even ⟨leadingBit, -77⟩) = ⟨29802322387695312, -24⟩ := by decide +kernel

end Stepwise.Number
