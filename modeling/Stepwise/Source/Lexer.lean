import Stepwise.Number.Nearest
import Stepwise.Source.SyntaxError
import Stepwise.Source.Token
import Stepwise.Text.Letter

/-! From text to tokens. The scanner stands either at the start of a line, where it measures
the indentation, or inside one, where it takes the piece that begins with the next character.
Every piece is a non-empty run of characters directly ahead, so scanning ends. Line ends count
only outside parentheses. -/

namespace Stepwise.Source.Lexer

def isWordStart (c : Char) : Bool :=
  Text.isLetter c || c == '_'

def isWordPart (c : Char) : Bool :=
  Text.isLetter c || Text.isNumeral c || c == '_'

def isDigitPart (c : Char) : Bool :=
  c.isDigit || c == '_'

def mantissa (point : Bool) : List Char → List Char
  | [] => []
  | c :: cs =>
    if isDigitPart c then c :: mantissa point cs
    else if c == '.' && !point then c :: mantissa true cs
    else []

def sign : List Char → List Char
  | c :: _ => if c == '+' || c == '-' then [c] else []
  | [] => []

/-- The exponent directly ahead: `e`, a sign perhaps, and at least one digit. -/
def exponent : List Char → List Char
  | [] => []
  | e :: cs =>
    let s := sign cs
    let body := cs.drop s.length
    if (e == 'e' || e == 'E') && body.head?.any Char.isDigit then
      e :: (s ++ body.takeWhile isDigitPart)
    else []

def maxInt : Nat := 0x7FFFFFFFFFFFFFFF

def numeral (lexeme : List Char) : Except SyntaxError.Cause Token.Kind :=
  let digits := lexeme.filter (· != '_')
  if lexeme.all isDigitPart then
    let n := Number.ofDigits digits
    if n ≤ maxInt then .ok (.int (Int64.ofNat n)) else .error .integerTooLarge
  else
    match Number.readUnsigned? digits with
    | some x => .ok (.float x)
    | none => .error .invalidDecimal

structure StringScan where
  value : List Char
  taken : List Char
  closed : Bool
deriving DecidableEq, Repr

def StringScan.after (s : StringScan) (value taken : List Char) : StringScan :=
  ⟨value ++ s.value, taken ++ s.taken, s.closed⟩

/-- What an escape stands for; a backslash before any other character stands for itself. -/
def unescape (c : Char) : List Char :=
  if c = 'n' then ['\n']
  else if c = 't' then ['\t']
  else if c = 'r' then ['\r']
  else if c = '0' then ['\x00']
  else if c = '\\' ∨ c = '\'' ∨ c = '"' then [c]
  else ['\\', c]

def scanString (mark : Char) : List Char → StringScan
  | [] => ⟨[], [], false⟩
  | ['\\'] => ⟨[], ['\\'], false⟩
  | '\\' :: c :: cs => (scanString mark cs).after (unescape c) ['\\', c]
  | c :: cs =>
    if c = mark then ⟨[], [c], true⟩
    else if c = '\n' then ⟨[], [], false⟩
    else (scanString mark cs).after [c] [c]

def markAt? (c : Char) (cs : List Char) : Option Mark :=
  match c, cs.head? with
  | '(', _ => some .openParen
  | ')', _ => some .closeParen
  | ',', _ => some .comma
  | ':', _ => some .colon
  | '=', some '=' => some .equal
  | '=', _ => some .assign
  | '!', some '=' => some .unequal
  | '<', some '=' => some .lessEqual
  | '<', _ => some .less
  | '>', some '=' => some .greaterEqual
  | '>', _ => some .greater
  | '+', _ => some .plus
  | '-', _ => some .minus
  | '*', _ => some .star
  | '/', some '/' => some .doubleSlash
  | '/', _ => some .slash
  | '%', _ => some .percent
  | _, _ => none

inductive Piece
  | skipped
  | lineEnd
  | token (kind : Token.Kind)
  | fault (cause : SyntaxError.Cause)

/-- The piece that begins with `c`, and its characters behind `c`. -/
def pieceAt (c : Char) (cs : List Char) : Piece × List Char :=
  if c == ' ' || c == '\t' || c == '\r' then (.skipped, [])
  else if c == '\n' then (.lineEnd, [])
  else if c == '#' then (.skipped, cs.takeWhile (· != '\n'))
  else if c == '\\' && cs.head? == some '\n' then (.skipped, ['\n'])
  else if c.isDigit || (c == '.' && cs.head?.any Char.isDigit) then
    let body := mantissa (c == '.') cs
    let more := body ++ exponent (cs.drop body.length)
    if (cs.drop more.length).head?.any isWordStart then (.fault .invalidDecimal, more)
    else
      match numeral (c :: more) with
      | .ok kind => (.token kind, more)
      | .error cause => (.fault cause, more)
  else if c == '"' || c == '\'' then
    let s := scanString c cs
    if s.closed then (.token (.str (String.ofList s.value)), s.taken)
    else (.fault .unterminatedString, s.taken)
  else if isWordStart c then
    let more := cs.takeWhile isWordPart
    let word := String.ofList (c :: more)
    (.token ((Keyword.ofWord? word).elim (.name word) .keyword), more)
  else
    match markAt? c cs with
    | some m => (.token (.mark m), m.spelling.drop 1)
    | none => (.fault (.invalidCharacter c), [])

/-- The widths of the open blocks and the open parentheses are listed innermost first, the tokens
latest first. -/
structure State where
  rest : List Char
  place : Point
  indents : List Nat
  parens : List Span
  tokens : List Token
  lineStart : Bool

def State.start (text : List Char) : State :=
  ⟨text, ⟨1, 0⟩, [], [], [], true⟩

def State.push (s : State) (kind : Token.Kind) (span : Span) : State :=
  { s with tokens := ⟨kind, span⟩ :: s.tokens }

def State.newline (s : State) (span : Span) : State :=
  if s.tokens.head?.any fun t => !t.kind.isLayout then s.push .newline span else s

def State.skip (s : State) (taken : List Char) : State :=
  { s with rest := s.rest.drop taken.length, place := s.place.past taken }

def isIndentation (c : Char) : Bool :=
  c == ' ' || c == '\t' || c == '\x0c'

/-- A tab goes to the next multiple of eight; a form feed starts again. Widths are unbounded here
and stand for 32 bits. -/
def indentWidth (cs : List Char) : Nat :=
  cs.foldl (fun w c =>
    if c = '\t' then w + (8 - w % 8) else if c = '\x0c' then 0 else w + 1) 0

/-- Opens a block if the line is indented deeper than the innermost one, else closes the
blocks that are deeper than the line. -/
def State.indentTo (s : State) (width : Nat) : Except SyntaxError State :=
  if s.indents.headD 0 < width then
    .ok ({ s with indents := width :: s.indents, lineStart := false }.push .indent (.point s.place))
  else
    let kept := s.indents.dropWhile (width < ·)
    let closed := List.replicate (s.indents.length - kept.length) (Token.mk .dedent (.point s.place))
    if kept.headD 0 = width then
      .ok { s with indents := kept, tokens := closed ++ s.tokens, lineStart := false }
    else .error (.onLine .unmatchedUnindent s.place.line)

def throughLineEnd (cs : List Char) : List Char :=
  cs.takeWhile (· != '\n') ++ (cs.dropWhile (· != '\n')).take 1

/-- Measures the line ahead. A line that holds nothing but blanks or a comment is skipped. -/
def State.openLine (s : State) : Except SyntaxError State :=
  let margin := s.rest.takeWhile isIndentation
  let s := s.skip margin
  match s.rest with
  | [] => .ok { s with lineStart := false }
  | c :: _ =>
    if c == '\n' || c == '\r' || c == '#' then .ok (s.skip (throughLineEnd s.rest))
    else s.indentTo (indentWidth margin)

/-- Takes the piece that begins with `c`, where `c :: cs` is ahead. -/
def State.takePiece (s : State) (c : Char) (cs : List Char) : Except SyntaxError State :=
  let (piece, more) := pieceAt c cs
  let next := s.skip (c :: more)
  let span := Span.between s.place next.place
  match piece with
  | .skipped => .ok next
  | .lineEnd =>
    if s.parens.isEmpty then .ok { next.newline (.point s.place) with lineStart := true } else .ok next
  | .fault cause => .error (.spanning cause span)
  | .token (.mark .openParen) =>
    .ok ({ next with parens := span :: s.parens }.push (.mark .openParen) span)
  | .token (.mark .closeParen) =>
    match s.parens with
    | [] => .error (.spanning .unmatchedParen span)
    | _ :: outer => .ok ({ next with parens := outer }.push (.mark .closeParen) span)
  | .token kind => .ok (next.push kind span)

/-- All tokens in order, after the text has ended. -/
def State.finish (s : State) : Except SyntaxError (List Token) :=
  match s.parens with
  | span :: _ => .error (.spanning .unclosedParen span)
  | [] =>
    let here := Span.point s.place
    let s := s.newline here
    .ok (s.tokens.reverse ++ List.replicate s.indents.length ⟨.dedent, here⟩ ++ [⟨.eof, here⟩])

def State.measure (s : State) : Nat :=
  2 * s.rest.length + s.lineStart.toNat

@[simp] theorem State.push_rest (s : State) (k : Token.Kind) (sp : Span) :
    (s.push k sp).rest = s.rest := rfl

@[simp] theorem State.push_lineStart (s : State) (k : Token.Kind) (sp : Span) :
    (s.push k sp).lineStart = s.lineStart := rfl

@[simp] theorem State.newline_rest (s : State) (sp : Span) : (s.newline sp).rest = s.rest := by
  unfold State.newline; split <;> rfl

@[simp] theorem State.newline_lineStart (s : State) (sp : Span) :
    (s.newline sp).lineStart = s.lineStart := by
  unfold State.newline; split <;> rfl

@[simp] theorem State.skip_rest (s : State) (cs : List Char) :
    (s.skip cs).rest = s.rest.drop cs.length := rfl

@[simp] theorem State.skip_lineStart (s : State) (cs : List Char) :
    (s.skip cs).lineStart = s.lineStart := rfl

theorem State.indentTo_measure {s t : State} {width : Nat} (h : s.indentTo width = .ok t) :
    t.rest = s.rest ∧ t.lineStart = false := by
  unfold State.indentTo at h
  split at h
  · cases h; exact ⟨rfl, rfl⟩
  · dsimp only at h
    split at h
    · cases h; exact ⟨rfl, rfl⟩
    · cases h

theorem length_throughLineEnd_pos (c : Char) (cs : List Char) :
    0 < (throughLineEnd (c :: cs)).length := by
  unfold throughLineEnd
  by_cases h : c = '\n' <;> simp [h]

theorem State.openLine_measure {s t : State} (hs : s.lineStart = true) (h : s.openLine = .ok t) :
    t.measure < s.measure := by
  unfold State.openLine at h
  dsimp only at h
  have hlen : (s.skip (s.rest.takeWhile isIndentation)).rest.length ≤ s.rest.length := by
    simp
  split at h
  · next hr =>
    cases h
    simp_all [State.measure]
  · next c cs hr =>
    split at h
    · cases h
      have := length_throughLineEnd_pos c cs
      simp only [State.measure, State.skip_rest, State.skip_lineStart, hs] at *
      rw [hr] at hlen ⊢
      simp only [List.length_drop, List.length_cons] at *
      omega
    · obtain ⟨h1, h2⟩ := State.indentTo_measure h
      simp only [State.measure, h1, h2, hs] at *
      simp only [Bool.toNat_false, Bool.toNat_true]
      omega

theorem State.takePiece_measure {s t : State} {c : Char} {cs : List Char}
    (hs : s.lineStart = false) (hr : s.rest = c :: cs) (h : s.takePiece c cs = .ok t) :
    t.measure < s.measure := by
  unfold State.takePiece at h
  dsimp only at h
  have key : ∀ u : State, u.rest = s.rest.drop ((pieceAt c cs).2.length + 1) →
      u.measure < s.measure := by
    intro u hu
    simp only [State.measure, hu, hr, hs, List.length_drop, List.length_cons]
    have := Bool.toNat_le u.lineStart
    simp only [Bool.toNat_false]
    omega
  split at h
  all_goals first
    | (cases h; apply key; simp)
    | (split at h <;> first | (cases h; apply key; simp) | cases h)
    | cases h

def State.run (s : State) : Except SyntaxError (List Token) :=
  if _hs : s.lineStart = true then
    match _h : s.openLine with
    | .error e => .error e
    | .ok t => t.run
  else
    match _hr : s.rest with
    | [] => s.finish
    | c :: cs =>
      match _h : s.takePiece c cs with
      | .error e => .error e
      | .ok t => t.run
termination_by s.measure
decreasing_by
  · exact State.openLine_measure _hs _h
  · exact State.takePiece_measure (by simpa using _hs) _hr _h

/-- The scanner ends where the text does, inside a line, in a state that has what each of its steps
keeps. -/
theorem State.finish_of_run {P : State → Prop}
    (hline : ∀ s t : State, s.lineStart = true → s.openLine = .ok t → P s → P t)
    (hpiece : ∀ (s t : State) c cs, s.lineStart = false → s.rest = c :: cs →
      s.takePiece c cs = .ok t → P s → P t)
    {s : State} {ts : List Token} (h : P s) (hrun : s.run = .ok ts) :
    ∃ t, P t ∧ t.rest = [] ∧ t.finish = .ok ts := by
  fun_induction State.run s with
  | case1 => cases hrun
  | case2 s hs t ht ih => exact ih (hline s t hs ht h) hrun
  | case3 s hs hr => exact ⟨s, h, hr, hrun⟩
  | case4 => cases hrun
  | case5 s hs c cs hr t ht ih => exact ih (hpiece s t c cs (by simpa using hs) hr ht h) hrun

def tokenize (text : String) : Except SyntaxError (List Token) :=
  (State.start text.toList).run

end Stepwise.Source.Lexer
