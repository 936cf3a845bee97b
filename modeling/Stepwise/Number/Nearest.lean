/-! The double-precision number nearest to a positive fraction, a half going to the even
neighbour. A finite number of this format is `m * 2 ^ e` with `m < 2 ^ 53` and
`-1074 ≤ e ≤ 971`; its bits, sign aside, are `(e + 1074) * 2 ^ 52 + m` where `m` has its
leading bit or `e = -1074`, so that rounding up to the next power of two needs no care. -/

namespace Stepwise.Number

/-- `num / den` rounded to a natural number, a half to the even neighbour. -/
def roundHalfEven (num den : Nat) : Nat :=
  let q := num / den
  let r := num % den
  if 2 * r < den then q
  else if den < 2 * r then q + 1
  else if q % 2 = 0 then q else q + 1

def scaled (num den : Nat) (e : Int) : Nat :=
  if 0 ≤ e then roundHalfEven num (den <<< e.toNat)
  else roundHalfEven (num <<< (-e).toNat) den

/-- The exponent `e` for which `num / den * 2 ^ (-e)` has 53 bits, or the least one. -/
def exponentOf (num den : Nat) : Int :=
  let e := (num.log2 : Int) - den.log2 - 53
  let below :=
    if 0 ≤ e then num < (den <<< e.toNat) <<< 53 else (num <<< (-e).toNat) < den <<< 53
  max (-1074) (if below then e else e + 1)

def leadingBit : Nat := 0x10000000000000

def infinityBits : Nat := 0x7FF0000000000000

def nearestBits (num den : Nat) : Nat :=
  if num = 0 then 0
  else
    let e := exponentOf num den
    min infinityBits ((e + 1074).toNat * leadingBit + scaled num den e)

def tenTo (n : Nat) : Nat := Nat.pow 10 n

/-- The number nearest to `digits * 10 ^ exponent`. Beyond the first bounds it is infinite,
below the second it is zero, whatever the digits. -/
def toFloat (digits : Nat) (exponent : Int) : Float :=
  let size : Int := (Nat.toDigits 10 digits).length
  if digits = 0 then 0.0
  else if 400 < exponent + size then Float.ofBits infinityBits.toUInt64
  else if exponent + size < -400 then 0.0
  else if 0 ≤ exponent then
    Float.ofBits (nearestBits (digits * tenTo exponent.toNat) 1).toUInt64
  else Float.ofBits (nearestBits digits (tenTo (-exponent).toNat)).toUInt64

/-- The number that a run of digits spells, most significant first. -/
def ofDigits (cs : List Char) : Nat :=
  cs.foldl (fun n c => 10 * n + (c.toNat - '0'.toNat)) 0

/-- Reads an unsigned decimal: digits with at most one point, then perhaps an exponent.
At least one digit stands before the exponent, and one in it. -/
def readUnsigned? (cs : List Char) : Option Float :=
  let whole := cs.takeWhile Char.isDigit
  let afterWhole := cs.dropWhile Char.isDigit
  let (fraction, tail) := match afterWhole with
    | '.' :: r => (r.takeWhile Char.isDigit, r.dropWhile Char.isDigit)
    | r => ([], r)
  if whole.isEmpty && fraction.isEmpty then none
  else
    let digits := ofDigits (whole ++ fraction)
    let shift : Int := -fraction.length
    match tail with
    | [] => some (toFloat digits shift)
    | e :: r =>
      if e ≠ 'e' && e ≠ 'E' then none
      else
        let (negative, ds) := match r with
          | '-' :: ds => (true, ds)
          | '+' :: ds => (false, ds)
          | ds => (false, ds)
        if ds.isEmpty || !ds.all Char.isDigit then none
        else
          let n : Int := ofDigits ds
          some (toFloat digits (shift + if negative then -n else n))

example : nearestBits 1 10 = 0x3FB999999999999A := by decide
example : nearestBits (2 * leadingBit + 1) 1 = nearestBits (2 * leadingBit) 1 := by decide

end Stepwise.Number
