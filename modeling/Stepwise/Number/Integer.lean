import Stepwise.Number.Nearest

/-! Integers in the range of 64-bit words, and their reading from text. -/

namespace Stepwise.Number

def leastInt : Int := -0x8000000000000000

def greatestInt : Int := 0x7FFFFFFFFFFFFFFF

def word? (n : Int) : Option Int64 :=
  if leastInt ≤ n ∧ n ≤ greatestInt then some (Int64.ofInt n) else none

theorem toInt_of_word? {n : Int} {w : Int64} (h : word? n = some w) : w.toInt = n := by
  unfold word? at h
  split at h
  · next hr =>
    cases h
    simp only [leastInt, greatestInt] at hr
    exact Int64.toInt_ofInt_of_le (by omega) (by omega)
  · cases h

/-- The quotient cut off at the point, as a word, if it fits. -/
def quotient? (x y : Int64) : Option Int64 :=
  word? (x.toInt.tdiv y.toInt)

/-- What is left of `x` behind that quotient, which has the sign of `x`. It is missing where the
quotient does not fit, although it would fit itself. -/
def remainder? (x y : Int64) : Option Int64 :=
  (quotient? x y).map fun _ => x % y

def readInt? : List Char → Option Int
  | [] => none
  | c :: cs =>
    let (negative, ds) :=
      if c = '-' then (true, cs) else if c = '+' then (false, cs) else (false, c :: cs)
    if ds.isEmpty || !ds.all Char.isDigit then none
    else some (if negative then -(ofDigits ds : Int) else ofDigits ds)

def greatestCount : Nat := 0xFFFFFFFFFFFFFFFF

/-- Digits with a plus sign before them, if any, as far as 64 bits reach. -/
def readCount? (cs : List Char) : Option Nat :=
  let ds := match cs with
    | '+' :: ds => ds
    | ds => ds
  if ds.isEmpty || !ds.all Char.isDigit then none
  else if ofDigits ds ≤ greatestCount then some (ofDigits ds)
  else none

def readWord? (cs : List Char) : Option Int64 :=
  (readInt? cs).bind word?

end Stepwise.Number
