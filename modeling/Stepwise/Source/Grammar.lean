import Stepwise.Source.Lexer
import Stepwise.Source.Tree

/-! From tokens to trees. One function per form of the grammar, each taking the tokens ahead
and giving a tree and the tokens behind it. The tightness of the binary operators is one
table. The first argument bounds the depth of the descent; `parse` gives a bound that no
list of tokens reaches, since sixteen steps of descent take a token at least. -/

namespace Stepwise.Source

/-- The tokens ahead, and the end of the text behind them. -/
structure Tokens where
  ahead : List Token
  final : Token
deriving Inhabited

namespace Tokens

def ofList (ts : List Token) : Tokens :=
  ⟨ts.dropLast, ts.getLastD default⟩

def peek (s : Tokens) : Token :=
  s.ahead.headD s.final

def bump (s : Tokens) : Tokens :=
  { s with ahead := s.ahead.tail }

def atMark (s : Tokens) (m : Mark) : Bool :=
  match s.peek.kind with
  | .mark n => n = m
  | _ => false

def atKeyword (s : Tokens) (k : Keyword) : Bool :=
  match s.peek.kind with
  | .keyword l => l = k
  | _ => false

def atNewline (s : Tokens) : Bool :=
  s.peek.kind matches .newline

def atIndent (s : Tokens) : Bool :=
  s.peek.kind matches .indent

def atDedent (s : Tokens) : Bool :=
  s.peek.kind matches .dedent

def atEnd (s : Tokens) : Bool :=
  s.peek.kind matches .eof

def fault (s : Tokens) (cause : SyntaxError.Cause) : SyntaxError :=
  .spanning cause s.peek.span

def misplaced (s : Tokens) : SyntaxError :=
  s.fault (if s.atIndent then .unexpectedIndent else .invalid)

end Tokens

namespace Grammar

abbrev Parsed := Except SyntaxError

def expect (m : Mark) (s : Tokens) : Parsed (Span × Tokens) :=
  if s.atMark m then .ok (s.peek.span, s.bump)
  else .error (s.fault (.expected (String.ofList m.spelling)))

/-- The end of a simple statement: the end of its line, or of the text. -/
def endLine (s : Tokens) : Parsed (Unit × Tokens) :=
  if s.atNewline then .ok ((), s.bump)
  else if s.atEnd then .ok ((), s)
  else .error s.misplaced

/-- The binary operators that bind equally tight, loosest first. -/
inductive Level
  | disjunction | conjunction | comparison | sum | product
deriving DecidableEq

def Level.operator? : Level → Token.Kind → Option BinaryOp
  | .disjunction, .keyword .or => some (.logic .or)
  | .conjunction, .keyword .and => some (.logic .and)
  | .comparison, .mark .equal => some (.compare .equal)
  | .comparison, .mark .unequal => some (.compare .unequal)
  | .comparison, .mark .less => some (.compare .less)
  | .comparison, .mark .lessEqual => some (.compare .lessEqual)
  | .comparison, .mark .greater => some (.compare .greater)
  | .comparison, .mark .greaterEqual => some (.compare .greaterEqual)
  | .sum, .mark .plus => some (.arith .add)
  | .sum, .mark .minus => some (.arith .sub)
  | .product, .mark .star => some (.arith .mul)
  | .product, .mark .slash => some (.arith .div)
  | .product, .mark .doubleSlash => some (.arith .floorDiv)
  | .product, .mark .percent => some (.arith .mod)
  | _, _ => none

def atom? (t : Token) : Option Expr :=
  match t.kind with
  | .int n => some (.literal (.int n) t.span)
  | .float x => some (.literal (.float x) t.span)
  | .str s => some (.literal (.str s) t.span)
  | .keyword .true => some (.literal (.bool true) t.span)
  | .keyword .false => some (.literal (.bool false) t.span)
  | .keyword .none => some (.literal .none t.span)
  | .name w => some (.name w t.span)
  | _ => none

mutual

def expression : Nat → Tokens → Parsed (Expr × Tokens)
  | 0, s => .error s.misplaced
  | n + 1, s => chain n .disjunction s

def chain : Nat → Level → Tokens → Parsed (Expr × Tokens)
  | 0, _, s => .error s.misplaced
  | n + 1, level, s => do
    let (left, s) ← operand n level s
    more n level left s

def more : Nat → Level → Expr → Tokens → Parsed (Expr × Tokens)
  | 0, _, _, s => .error s.misplaced
  | n + 1, level, left, s =>
    match level.operator? s.peek.kind with
    | none => .ok (left, s)
    | some op => do
      let (right, s) ← operand n level s.bump
      more n level (.joined op left right) s

def operand : Nat → Level → Tokens → Parsed (Expr × Tokens)
  | 0, _, s => .error s.misplaced
  | n + 1, .disjunction, s => chain n .conjunction s
  | n + 1, .conjunction, s => negation n s
  | n + 1, .comparison, s => chain n .sum s
  | n + 1, .sum, s => chain n .product s
  | n + 1, .product, s => signed n s

def negation : Nat → Tokens → Parsed (Expr × Tokens)
  | 0, s => .error s.misplaced
  | n + 1, s =>
    if s.atKeyword .not then do
      let (e, rest) ← negation n s.bump
      .ok (.unary .not e (s.peek.span.to e.span), rest)
    else chain n .comparison s

def signed : Nat → Tokens → Parsed (Expr × Tokens)
  | 0, s => .error s.misplaced
  | n + 1, s =>
    if s.atMark .minus then do
      let (e, rest) ← signed n s.bump
      .ok (.unary .neg e (s.peek.span.to e.span), rest)
    else if s.atMark .plus then signed n s.bump
    else do
      let (e, s) ← primary n s
      calls n e s

def primary : Nat → Tokens → Parsed (Expr × Tokens)
  | 0, s => .error s.misplaced
  | n + 1, s =>
    match atom? s.peek with
    | some e => .ok (e, s.bump)
    | none =>
      if s.atMark .openParen then do
        let (e, rest) ← expression n s.bump
        let (close, rest) ← expect .closeParen rest
        .ok (e.withSpan (s.peek.span.to close), rest)
      else .error s.misplaced

def calls : Nat → Expr → Tokens → Parsed (Expr × Tokens)
  | 0, _, s => .error s.misplaced
  | n + 1, callee, s =>
    if s.atMark .openParen then do
      let (args, s) ← if s.bump.atMark .closeParen then .ok ([], s.bump) else arguments n s.bump
      let (close, s) ← expect .closeParen s
      calls n (.call callee args (callee.span.to close)) s
    else .ok (callee, s)

def arguments : Nat → Tokens → Parsed (List Expr × Tokens)
  | 0, s => .error s.misplaced
  | n + 1, s => do
    let (e, s) ← expression n s
    if s.atMark .comma && !s.bump.atMark .closeParen then do
      let (es, s) ← arguments n s.bump
      .ok (e :: es, s)
    else .ok ([e], if s.atMark .comma then s.bump else s)

end

def parameters (seen : List String) : Nat → Tokens → Parsed (List String × Tokens)
  | 0, s => .error s.misplaced
  | n + 1, s =>
    match s.peek.kind with
    | .name p =>
      if seen.contains p then .error (s.fault (.duplicateParameter p))
      else
        let seen := seen ++ [p]
        let s := s.bump
        if !s.atMark .comma then .ok (seen, s)
        else if s.bump.atMark .closeParen then .ok (seen, s.bump)
        else parameters seen n s.bump
    | _ => .error (s.fault .invalid)

def assignment (n : Nat) (s : Tokens) : Parsed (Stmt × Tokens) := do
  let (e, s) ← expression n s
  if s.atMark .assign then
    match e with
    | .name target span => do
      let (value, rest) ← expression n s.bump
      .ok (.assign target value (span.to value.span), rest)
    | _ => .error (.spanning .cannotAssign (e.span.to s.peek.span))
  else .ok (.expr e, s)

def simple (n : Nat) (s : Tokens) : Parsed (Stmt × Tokens) :=
  if s.atKeyword .pass then .ok (.pass s.peek.span, s.bump)
  else if s.atKeyword .return then
    if s.bump.atNewline || s.bump.atEnd then .ok (.ret none s.peek.span, s.bump)
    else do
      let (value, rest) ← expression n s.bump
      .ok (.ret (some value) (s.peek.span.to value.span), rest)
  else if s.atIndent then .error s.misplaced
  else assignment n s

def simpleLine (n : Nat) (s : Tokens) : Parsed (Stmt × Tokens) := do
  let (st, s) ← simple n s
  let (_, s) ← endLine s
  .ok (st, s)

def signature (n : Nat) (s : Tokens) : Parsed ((String × List String × Span) × Tokens) :=
  match s.peek.kind with
  | .name name => do
    let (_, s) ← expect .openParen s.bump
    let (params, s) ← if s.atMark .closeParen then .ok ([], s) else parameters [] n s
    let (close, s) ← expect .closeParen s
    .ok ((name, params, close), s)
  | _ => .error (s.fault .invalid)

mutual

def statement : Nat → Tokens → Parsed (Stmt × Tokens)
  | 0, s => .error s.misplaced
  | n + 1, s =>
    if s.atKeyword .if then do
      let (test, rest) ← expression n s.bump
      let header := s.peek.span.to test.span
      let (body, rest) ← block n rest
      let (others, rest) ← branches n rest
      .ok (.choose test header body others, rest)
    else if s.atKeyword .while then do
      let (test, rest) ← expression n s.bump
      let (body, rest) ← block n rest
      .ok (.loop test (s.peek.span.to test.span) body, rest)
    else if s.atKeyword .define then do
      let ((name, params, close), rest) ← signature n s.bump
      let (body, rest) ← block n rest
      .ok (.define name params (s.peek.span.to close) body, rest)
    else simpleLine n s

def branches : Nat → Tokens → Parsed (Choice × Tokens)
  | 0, s => .error s.misplaced
  | n + 1, s =>
    if s.atKeyword .elif then do
      let (test, rest) ← expression n s.bump
      let header := s.peek.span.to test.span
      let (body, rest) ← block n rest
      let (others, rest) ← branches n rest
      .ok (.branch test header body others, rest)
    else if s.atKeyword .else then do
      let (body, rest) ← block n s.bump
      .ok (.otherwise body, rest)
    else .ok (.otherwise [], s)

/-- A colon, then one simple statement on the same line or indented lines. -/
def block : Nat → Tokens → Parsed (List Stmt × Tokens)
  | 0, s => .error s.misplaced
  | n + 1, s => do
    let (_, s) ← expect .colon s
    if s.atNewline then
      if s.bump.atIndent then statements n s.bump.bump
      else .error (s.bump.fault .expectedBlock)
    else
      let (st, s) ← simpleLine n s
      .ok ([st], s)

def statements : Nat → Tokens → Parsed (List Stmt × Tokens)
  | 0, s => .error s.misplaced
  | n + 1, s =>
    if s.atDedent then .ok ([], s.bump)
    else if s.atEnd then .ok ([], s)
    else if s.atNewline then statements n s.bump
    else do
      let (st, s) ← statement n s
      let (sts, s) ← statements n s
      .ok (st :: sts, s)

end

def program : Nat → Tokens → Parsed (List Stmt × Tokens)
  | 0, s => .error s.misplaced
  | n + 1, s =>
    if s.atEnd then .ok ([], s)
    else if s.atNewline then program n s.bump
    else do
      let (st, s) ← statement n s
      let (sts, s) ← program n s
      .ok (st :: sts, s)

/-- More than the depth of the descent on a list of tokens. -/
def depthBound (s : Tokens) : Nat :=
  16 * (s.ahead.length + 1)

end Grammar

def parse (text : String) : Except SyntaxError (List Stmt) := do
  let tokens := Tokens.ofList (← Lexer.tokenize text)
  let (body, _) ← Grammar.program (Grammar.depthBound tokens) tokens
  .ok body

end Stepwise.Source
