import Stepwise.Json.Basic
import Stepwise.Number.Shortest

/-! Writing JSON without blanks. Strings escape quotation marks, backslashes and control
characters. Floating-point numbers have the fewest digits that read back, a tie going to the even
neighbour; sixteen places before the point and five behind it are written out, all others have
an exponent with its sign. -/

namespace Stepwise.Json

def hexDigits : List Char := "0123456789abcdef".toList

def escape (c : Char) : List Char :=
  match c with
  | '"' => ['\\', '"']
  | '\\' => ['\\', '\\']
  | '\x08' => ['\\', 'b']
  | '\x0c' => ['\\', 'f']
  | '\n' => ['\\', 'n']
  | '\r' => ['\\', 'r']
  | '\t' => ['\\', 't']
  | c =>
    if c.toNat < 0x20 then
      ['\\', 'u', '0', '0', hexDigits.getD (c.toNat / 16) '0', hexDigits.getD (c.toNat % 16) '0']
    else [c]

def quoteOnto (acc s : String) : String :=
  (s.foldl (fun acc c => (escape c).foldl String.push acc) (acc.push '"')).push '"'

def exponentText (e : Int) : List Char :=
  (if e < 0 then '-' else '+') :: Nat.toDigits 10 e.natAbs

def floatText (x : Float) : String :=
  if x.isNaN || x.isInf then "null"
  else
    let sign := if Number.isNegative x then "-" else ""
    let d := Number.shortest .even (Number.magnitude x)
    let ds := Nat.toDigits 10 d.digits
    let point : Int := ds.length + d.exponent
    let body :=
      if d.digits = 0 then ['0', '.', '0']
      else if -5 < point ∧ point ≤ 16 then
        if 0 ≤ d.exponent then d.plain ++ ['.', '0'] else d.plain
      else
        (match ds with
          | [c] => [c]
          | c :: cs => c :: '.' :: cs
          | [] => []) ++ 'e' :: exponentText (point - 1)
    sign ++ String.ofList body

def Number.text : Number → String
  | .int n => toString n
  | .float x => floatText x

mutual

def writeOnto (acc : String) : Json → String
  | null => acc ++ "null"
  | bool b => acc ++ (if b then "true" else "false")
  | number n => acc ++ n.text
  | str s => quoteOnto acc s
  | arr [] => acc ++ "[]"
  | arr (j :: rest) => (writeItemsOnto (writeOnto (acc.push '[') j) rest).push ']'
  | obj [] => acc ++ "\x7b\x7d"
  | obj ((name, j) :: rest) =>
    (writeFieldsOnto (writeOnto ((quoteOnto (acc.push '\x7b') name).push ':') j) rest).push '\x7d'

def writeItemsOnto (acc : String) : List Json → String
  | [] => acc
  | j :: rest => writeItemsOnto (writeOnto (acc.push ',') j) rest

def writeFieldsOnto (acc : String) : List (String × Json) → String
  | [] => acc
  | (name, j) :: rest =>
    writeFieldsOnto (writeOnto ((quoteOnto (acc.push ',') name).push ':') j) rest

end

def text (j : Json) : String :=
  writeOnto "" j

end Stepwise.Json
