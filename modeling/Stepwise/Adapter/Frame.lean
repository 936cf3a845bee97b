import Stepwise.Adapter.Message
import Stepwise.Number.Integer
import Stepwise.Text.Blank

/-! Messages in a stream of bytes. Before each message stand header lines, one of which tells
its length in bytes, and an empty line. Header lines of other names are passed over, as are
empty lines before the length is known; of several lengths the last counts. -/

namespace Stepwise

namespace Frame

inductive Fault
  | badLength (value : String)
  | notText
  | notMessage
  | truncated
deriving DecidableEq, Repr

def Fault.message : Fault → String
  | badLength value => "bad Content-Length: " ++ value
  | notText => "stream did not contain valid UTF-8"
  | notMessage => "not a message"
  | truncated => "failed to fill whole buffer"

def lineFeed : UInt8 := 10

def splitLine : List UInt8 → List UInt8 × List UInt8
  | [] => ([], [])
  | b :: bs =>
    if b = lineFeed then ([b], bs)
    else
      let (line, rest) := splitLine bs
      (b :: line, rest)

theorem splitLine_append (bs : List UInt8) : (splitLine bs).1 ++ (splitLine bs).2 = bs := by
  induction bs with
  | nil => rfl
  | cons b bs ih =>
    rw [splitLine]
    split
    · rfl
    · simpa using ih

theorem splitLine_ne_nil (b : UInt8) (bs : List UInt8) : (splitLine (b :: bs)).1 ≠ [] := by
  rw [splitLine]
  split <;> simp

theorem length_splitLine_lt (b : UInt8) (bs : List UInt8) :
    (splitLine (b :: bs)).2.length < (b :: bs).length := by
  have h := congrArg List.length (splitLine_append (b :: bs))
  have hp := List.length_pos_iff.2 (splitLine_ne_nil b bs)
  rw [List.length_append] at h
  omega

def text? (bytes : List UInt8) : Option String :=
  String.fromUTF8? ⟨bytes.toArray⟩

def isLineEnd (c : Char) : Bool :=
  c == '\r' || c == '\n'

def withoutEnd (line : String) : List Char :=
  (line.toList.reverse.dropWhile isLineEnd).reverse

def lengthName : String := "content-length"

inductive Header
  | blank
  | length (n : Nat)
  | other

def Header.ofLine (line : String) : Except Fault Header :=
  match withoutEnd line with
  | [] => .ok .blank
  | cs =>
    let name := String.ofList (Text.trim (cs.takeWhile (· ≠ ':')))
    match cs.dropWhile (· ≠ ':') with
    | _ :: value =>
      let value := Text.trim value
      if name.toLower = lengthName then
        match Number.readCount? value with
        | some n => .ok (.length n)
        | none => .error (.badLength (String.ofList value))
      else .ok .other
    | [] => .ok .other

/-- The length that the header lines tell, which is missing if they end with the stream, and
what follows the empty line. -/
def readHeader (length : Option Nat) (bytes : List UInt8) :
    Except Fault (Option Nat) × List UInt8 :=
  match bytes with
  | [] => (.ok none, [])
  | b :: bs =>
    let rest := (splitLine (b :: bs)).2
    match (text? (splitLine (b :: bs)).1).elim (.error .notText) Header.ofLine with
    | .error e => (.error e, rest)
    | .ok .blank => if length.isSome then (.ok length, rest) else readHeader none rest
    | .ok (.length n) => readHeader (some n) rest
    | .ok .other => readHeader length rest
termination_by bytes.length
decreasing_by all_goals exact length_splitLine_lt b bs

def decode (body : List UInt8) : Except Fault Message :=
  (((text? body).bind fun text => Json.read? text.toList).bind Message.ofJson?).elim
    (.error .notMessage) .ok

/-- The first message of a stream, which is missing if the stream ends before it, and what
follows it. -/
def read (bytes : List UInt8) : Except Fault (Option Message) × List UInt8 :=
  match readHeader none bytes with
  | (.error e, rest) => (.error e, rest)
  | (.ok none, rest) => (.ok none, rest)
  | (.ok (some n), rest) =>
    if rest.length < n then (.error .truncated, [])
    else ((decode (rest.take n)).map some, rest.drop n)

def write (m : Message) : String :=
  let body := m.toJson.text
  "Content-Length: " ++ toString body.utf8ByteSize ++ "\r\n\r\n" ++ body

end Frame

end Stepwise
