/-! The keys of a terminal, and how its raw data is divided into them. A carriage return takes a
line feed behind it along. An escape sequence runs up to its final character; one that is cut
off runs up to the end of the data. -/

namespace Stepwise

/-- The key `interrupt` is Control-C, `endOfInput` Control-D, `control` any other control character,
and `unknown` an escape sequence that means nothing here. -/
inductive Key
  | char (c : Char)
  | enter
  | backspace
  | delete
  | left
  | right
  | home
  | lineEnd
  | interrupt
  | endOfInput
  | control (c : Char)
  | unknown (sequence : String)
deriving DecidableEq, Repr

namespace Key

def escape : Char := '\x1b'

/-- Whether a character ends the sequence that a bracket began. -/
def isFinal (c : Char) : Bool :=
  '@' ≤ c && c ≤ '~'

/-- The key of an escape sequence with a bracket, by what follows the bracket. -/
def ofBracketed : List Char → Key
  | ['D'] => left
  | ['C'] => right
  | ['H'] | ['1', '~'] => home
  | ['F'] | ['4', '~'] => lineEnd
  | ['3', '~'] => delete
  | body => unknown (String.ofList (escape :: '[' :: body))

/-- The key of an escape sequence with the letter O, by the character behind it. -/
def ofLettered : Char → Key
  | 'H' => home
  | 'F' => lineEnd
  | 'D' => left
  | 'C' => right
  | c => unknown (String.ofList [escape, 'O', c])

def ofChar (c : Char) : Key :=
  match c with
  | '\n' | '\r' => enter
  | '\x7f' | '\x08' => backspace
  | '\x03' => interrupt
  | '\x04' => endOfInput
  | c => if c < ' ' then control c else char c

def bracketed (cs : List Char) : Key × List Char :=
  let body := cs.takeWhile fun c => !isFinal c
  match cs.dropWhile fun c => !isFinal c with
  | final :: rest => (ofBracketed (body ++ [final]), rest)
  | [] => (ofBracketed body, [])

/-- The key that begins with a character, and what follows it. -/
def next (c : Char) (cs : List Char) : Key × List Char :=
  match c, cs with
  | '\r', '\n' :: rest => (enter, rest)
  | '\x1b', '[' :: rest => bracketed rest
  | '\x1b', ['O'] => (unknown (String.ofList [escape, 'O']), [])
  | '\x1b', 'O' :: final :: rest => (ofLettered final, rest)
  | c, cs => (ofChar c, cs)

theorem length_dropWhile_le (p : Char → Bool) (cs : List Char) :
    (cs.dropWhile p).length ≤ cs.length :=
  (List.dropWhile_sublist p).length_le

theorem bracketed_length_le (cs : List Char) : (bracketed cs).2.length ≤ cs.length := by
  have h := length_dropWhile_le (fun c => !isFinal c) cs
  unfold bracketed
  cases hd : cs.dropWhile fun c => !isFinal c with
  | nil => simp
  | cons final rest =>
    simp only [hd, List.length_cons] at h ⊢
    omega

theorem next_length_le (c : Char) (cs : List Char) : (next c cs).2.length ≤ cs.length := by
  unfold next
  split
  · simp
  · have := bracketed_length_le (by assumption)
    simp only [List.length_cons]
    omega
  · simp
  · simp only [List.length_cons]
    omega
  · simp

def decode : List Char → List Key
  | [] => []
  | c :: cs => (next c cs).1 :: decode (next c cs).2
termination_by cs => cs.length
decreasing_by
  have := next_length_le c cs
  simp only [List.length_cons]
  omega

end Key

end Stepwise
