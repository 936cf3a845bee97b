import Stepwise.Json.Basic
import Stepwise.Number.Nearest

/-! Reading JSON. Numbers without point and exponent are integers as far as 64 bits reach. All
others are a significand, of which as many digits are kept as fit 64 bits, times or divided by
a power of ten, each rounded.

A text can be well formed and still hold what has no value: a number that is too large, a string
with half a pair of units, or an object with such a name. A strict reader refuses it, and more
than 127 values inside each other; a lenient one is for texts of which parts are ignored. -/

namespace Stepwise.Json

def isSpace (c : Char) : Bool :=
  c == ' ' || c == '\n' || c == '\t' || c == '\r'

def skipSpace (cs : List Char) : List Char :=
  cs.dropWhile isSpace

def maxSignificand : Nat := 0xFFFFFFFFFFFFFFFF

def keepDigits (significand : Nat) : List Char → Nat × List Char
  | [] => (significand, [])
  | c :: cs =>
    let next := 10 * significand + (c.toNat - '0'.toNat)
    if c.isDigit && next ≤ maxSignificand then keepDigits next cs else (significand, c :: cs)

def powerOfTen (e : Nat) : Float :=
  Number.toFloat 1 e

/-- Divides by a power of ten, which may be beyond the range of numbers. -/
def scaleDown (x : Float) (e : Nat) : Float :=
  if e ≤ 308 then x / powerOfTen e
  else if x == 0.0 then x
  else scaleDown (x / powerOfTen 308) (e - 308)
termination_by e

/-- `significand * 10 ^ exponent`, which is infinite if it is too large. -/
def ofParts (negative : Bool) (significand : Nat) (exponent : Int) : Number :=
  let x := Number.toFloat significand 0
  let y :=
    if exponent < 0 then scaleDown x (-exponent).toNat
    else if exponent ≤ 308 then x * powerOfTen exponent.toNat
    else if significand = 0 then x
    else 1.0 / 0.0
  .float (if negative then -y else y)

def Number.isInfinite : Number → Bool
  | .int _ => false
  | .float x => x.isInf

def readExponent? (cs : List Char) : Option (Int × List Char) :=
  let (negative, ds) := match cs with
    | '-' :: ds => (true, ds)
    | '+' :: ds => (false, ds)
    | ds => (false, ds)
  let digits := ds.takeWhile Char.isDigit
  if digits.isEmpty then none
  else
    let e : Int := Number.ofDigits digits
    some (if negative then -e else e, ds.dropWhile Char.isDigit)

def isExponentMark (c : Char) : Bool :=
  c == 'e' || c == 'E'

def readScale? (negative : Bool) (significand : Nat) (exponent : Int) (cs : List Char) :
    Option (Number × List Char) :=
  match cs with
  | c :: rest =>
    if isExponentMark c then do
      let (e, rest) ← readExponent? rest
      return (ofParts negative significand (exponent + e), rest)
    else some (ofParts negative significand exponent, cs)
  | [] => some (ofParts negative significand exponent, [])

def ofInteger (negative : Bool) (significand : Nat) : Number :=
  if !negative then .int significand
  else if 0 < significand && significand ≤ 0x8000000000000000 then .int (-significand)
  else .float (-Number.toFloat significand 0)

def readUnsigned? (negative : Bool) (cs : List Char) : Option (Number × List Char) :=
  let digits := cs.takeWhile Char.isDigit
  let afterDigits := cs.dropWhile Char.isDigit
  let (significand, dropped) := keepDigits 0 digits
  if digits.isEmpty || (digits.head? == some '0' && 1 < digits.length) then none
  else
    match afterDigits with
    | '.' :: rest =>
      let places := rest.takeWhile Char.isDigit
      if places.isEmpty then none
      else
        let (significand, unused) := keepDigits significand places
        readScale? negative significand (dropped.length - (places.length - unused.length : Nat))
          (rest.dropWhile Char.isDigit)
    | rest =>
      if dropped.isEmpty && !rest.head?.any isExponentMark then
        some (ofInteger negative significand, rest)
      else readScale? negative significand dropped.length rest

def readNumber? : List Char → Option (Number × List Char)
  | '-' :: cs => readUnsigned? true cs
  | cs => readUnsigned? false cs

def hexDigit? (c : Char) : Option Nat :=
  if c.isDigit then some (c.toNat - '0'.toNat)
  else if 'a' ≤ c ∧ c ≤ 'f' then some (c.toNat - 'a'.toNat + 10)
  else if 'A' ≤ c ∧ c ≤ 'F' then some (c.toNat - 'A'.toNat + 10)
  else none

def hexUnit? (a b c d : Char) : Option Nat := do
  return 4096 * (← hexDigit? a) + 256 * (← hexDigit? b) + 16 * (← hexDigit? c) + (← hexDigit? d)

def isHighSurrogate (n : Nat) : Bool := 0xD800 ≤ n && n < 0xDC00

def isLowSurrogate (n : Nat) : Bool := 0xDC00 ≤ n && n < 0xE000

def simpleEscape? (c : Char) : Option Char :=
  match c with
  | '"' => some '"'
  | '\\' => some '\\'
  | '/' => some '/'
  | 'b' => some '\x08'
  | 'f' => some '\x0c'
  | 'n' => some '\n'
  | 'r' => some '\r'
  | 't' => some '\t'
  | _ => none

/-- The characters of a string behind its opening mark, before those of `done`. -/
def readString? (done : List Char) : List Char → Option (String × List Char)
  | [] => none
  | '"' :: rest => some (String.ofList done.reverse, rest)
  | '\\' :: 'u' :: a :: b :: c :: d :: '\\' :: 'u' :: e :: f :: g :: h :: rest => do
    let unit ← hexUnit? a b c d
    if isHighSurrogate unit then
      let low ← hexUnit? e f g h
      if isLowSurrogate low then
        readString? (Char.ofNat (0x10000 + (unit - 0xD800) * 0x400 + (low - 0xDC00)) :: done) rest
      else none
    else if isLowSurrogate unit then none
    else readString? (Char.ofNat unit :: done) ('\\' :: 'u' :: e :: f :: g :: h :: rest)
  | '\\' :: 'u' :: a :: b :: c :: d :: rest => do
    let unit ← hexUnit? a b c d
    if isHighSurrogate unit || isLowSurrogate unit then none
    else readString? (Char.ofNat unit :: done) rest
  | '\\' :: c :: rest => do
    let e ← simpleEscape? c
    readString? (e :: done) rest
  | c :: rest => if c.toNat < 0x20 || c == '\\' then none else readString? (c :: done) rest

/-- What follows the closing mark of a string whose form is right. -/
def skipString? : List Char → Option (List Char)
  | [] => none
  | '"' :: rest => some rest
  | '\\' :: 'u' :: a :: b :: c :: d :: rest => do
    let _ ← hexUnit? a b c d
    skipString? rest
  | '\\' :: c :: rest => do
    let _ ← simpleEscape? c
    skipString? rest
  | c :: rest => if c.toNat < 0x20 || c == '\\' then none else skipString? rest

def valueless : Json := .number (.float (0.0 / 0.0))

def readText? (strict : Bool) (cs : List Char) : Option (Option String × List Char) :=
  match readString? [] cs with
  | some (s, rest) => some (some s, rest)
  | none => if strict then none else (skipString? cs).map (none, ·)

def namedField? : Option String × Json → Option (String × Json)
  | (some name, j) => some (name, j)
  | (none, _) => none

def ofFields (fields : List (Option String × Json)) : Json :=
  match fields.mapM namedField? with
  | some fields => .obj fields
  | none => valueless

def maxDepth : Nat := 128

mutual

/-- The value ahead. `fuel` bounds the steps, `depth` the nesting that is left. -/
def readValue? (strict : Bool) : Nat → Nat → List Char → Option (Json × List Char)
  | 0, _, _ => none
  | fuel + 1, depth, cs =>
    match skipSpace cs with
    | 'n' :: 'u' :: 'l' :: 'l' :: rest => some (.null, rest)
    | 't' :: 'r' :: 'u' :: 'e' :: rest => some (.bool true, rest)
    | 'f' :: 'a' :: 'l' :: 's' :: 'e' :: rest => some (.bool false, rest)
    | '"' :: rest =>
      (readText? strict rest).map fun (s, rest) => (s.elim valueless .str, rest)
    | '[' :: rest =>
      if depth ≤ 1 then none
      else
        match skipSpace rest with
        | ']' :: rest => some (.arr [], rest)
        | rest => (readItems? strict fuel (depth - 1) rest).map fun (items, rest) => (.arr items, rest)
    | '\x7b' :: rest =>
      if depth ≤ 1 then none
      else
        match skipSpace rest with
        | '\x7d' :: rest => some (.obj [], rest)
        | rest =>
          (readFields? strict fuel (depth - 1) rest).map fun (fields, rest) =>
            (ofFields fields, rest)
    | rest => do
      let (n, rest) ← readNumber? rest
      if strict && n.isInfinite then none else some (.number n, rest)

def readItems? (strict : Bool) : Nat → Nat → List Char → Option (List Json × List Char)
  | 0, _, _ => none
  | fuel + 1, depth, cs => do
    let (j, rest) ← readValue? strict fuel depth cs
    match skipSpace rest with
    | ',' :: rest =>
      let (items, rest) ← readItems? strict fuel depth rest
      return (j :: items, rest)
    | ']' :: rest => return ([j], rest)
    | _ => none

def readFields? (strict : Bool) :
    Nat → Nat → List Char → Option (List (Option String × Json) × List Char)
  | 0, _, _ => none
  | fuel + 1, depth, cs =>
    match skipSpace cs with
    | '"' :: rest => do
      let (name, rest) ← readText? strict rest
      match skipSpace rest with
      | ':' :: rest =>
        let (j, rest) ← readValue? strict fuel depth rest
        match skipSpace rest with
        | ',' :: rest =>
          let (fields, rest) ← readFields? strict fuel depth rest
          return ((name, j) :: fields, rest)
        | '\x7d' :: rest => return ([(name, j)], rest)
        | _ => none
      | _ => none
    | _ => none

end

def readAll? (strict : Bool) (depth : Nat) (text : List Char) : Option Json := do
  let (j, rest) ← readValue? strict (2 * text.length + 2) depth text
  if (skipSpace rest).isEmpty then some j else none

/-- Reads a text that holds one value and blanks around it. -/
def read? (text : List Char) : Option Json :=
  readAll? true maxDepth text

def readLenient? (text : List Char) : Option Json :=
  readAll? false (text.length + 2) text

end Stepwise.Json
