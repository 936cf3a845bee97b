import Stepwise.Source.Grammar
import Stepwise.Value.Basic

/-! From syntax trees to chunks. The code of a form depends on the index of its first
instruction, which jumps are computed from, and on the tables filled so far. An instruction
bears the span of its statement, for compound statements of the header; operators and calls
bear the span of their own expression. -/

namespace Stepwise.Code

open Source

/-- An instruction and the span it is attributed to. -/
structure Line where
  instr : Instr
  span : Option Span

def line (op : Opcode) (arg : Nat) (span : Span) : Line :=
  ⟨⟨op, arg⟩, some span⟩

structure Tables where
  constants : Array Value
  names : Array String

namespace Tables

def empty : Tables := ⟨#[], #[]⟩

/-- Constants of one type that compare equal are one constant; code objects never are. -/
def sameConstant : Value → Value → Bool
  | .code _ _, _ | _, .code _ _ => false
  | v, w => v.typeName == w.typeName && v.equal w

def constant (t : Tables) (v : Value) : Nat × Tables :=
  match t.constants.findIdx? (sameConstant · v) with
  | some i => (i, t)
  | none => (t.constants.size, { t with constants := t.constants.push v })

def name (t : Tables) (word : String) : Nat × Tables :=
  match t.names.findIdx? (· == word) with
  | some i => (i, t)
  | none => (t.names.size, { t with names := t.names.push word })

end Tables

def assemble (file name : String) (firstLine : Nat) (params : List String)
    (lines : List Line) (t : Tables) : Chunk :=
  { file, name, firstLine, params
    code := (lines.map Line.instr).toArray
    positions := (lines.map fun l => l.span.elim .unknown .ofSpan).toArray
    constants := t.constants
    names := t.names }

mutual

def expr (tag : Span) : Expr → Nat → Tables → List Line × Tables
  | .literal v _, _, t =>
    let (i, t) := t.constant (.ofLiteral v)
    ([line .loadConst i tag], t)
  | .name w _, _, t =>
    let (i, t) := t.name w
    ([line .loadName i tag], t)
  | .unary op e s, base, t =>
    let (code, t) := expr tag e base t
    (code ++ [line .unaryOp (unaryOps.idxOf op) s], t)
  | .binary (.logic op) l r _, base, t =>
    let (left, t) := expr tag l base t
    let (right, t) := expr tag r (base + left.length + 1) t
    let opcode := match op with
      | .and => Opcode.jumpIfFalseOrPop
      | .or => Opcode.jumpIfTrueOrPop
    (left ++ line opcode (base + left.length + 1 + right.length) tag :: right, t)
  | .binary (.arith op) l r s, base, t =>
    let (left, t) := expr tag l base t
    let (right, t) := expr tag r (base + left.length) t
    (left ++ right ++ [line .binaryOp (arithOps.idxOf op) s], t)
  | .binary (.compare op) l r s, base, t =>
    let (left, t) := expr tag l base t
    let (right, t) := expr tag r (base + left.length) t
    (left ++ right ++ [line .compareOp (compareOps.idxOf op) s], t)
  | .call f args s, base, t =>
    let (callee, t) := expr tag f (base + 1) t
    let (operands, t) := exprs tag args (base + 1 + callee.length) t
    (line .pushNull 0 tag :: callee ++ operands ++ [line .call args.length s], t)

def exprs (tag : Span) : List Expr → Nat → Tables → List Line × Tables
  | [], _, t => ([], t)
  | e :: es, base, t =>
    let (first, t) := expr tag e base t
    let (others, t) := exprs tag es (base + first.length) t
    (first ++ others, t)

end

mutual

/-- The span of the simple statement reached last on the way out of a statement. -/
def lastSpan : Stmt → Span
  | .choose _ header body rest => (lastOfChoice (lastOfBody body) rest).getD header
  | st => st.span

def lastOfChoice (before : Option Span) : Choice → Option Span
  | .branch _ _ body rest => lastOfChoice (lastOfBody body) rest
  | .otherwise body => (lastOfBody body).or before

def lastOfBody : List Stmt → Option Span
  | [] => none
  | [st] => some (lastSpan st)
  | _ :: rest => lastOfBody rest

end

def close (body : List Stmt) (t : Tables) : List Line × Tables :=
  let (i, t) := t.constant .none
  let span := lastOfBody body
  ([⟨⟨.loadConst, i⟩, span⟩, ⟨⟨.returnValue, 0⟩, span⟩], t)

mutual

def stmt (file : String) (inFunction : Bool) :
    Stmt → Nat → Tables → Except SyntaxError (List Line × Tables)
  | .assign target value span, base, t =>
    let (code, t) := expr span value base t
    let (i, t) := t.name target
    .ok (code ++ [line .storeName i span], t)
  | .expr e, base, t =>
    let (code, t) := expr e.span e base t
    .ok (code ++ [line .popTop 0 e.span], t)
  | .pass span, _, t => .ok ([line .nop 0 span], t)
  | .ret value span, base, t =>
    if inFunction then
      let (code, t) := expr span (value.getD (.literal .none span)) base t
      .ok (code ++ [line .returnValue 0 span], t)
    else .error (.spanning .returnOutside span)
  | .loop test header body, base, t => do
    let (cond, t) := expr header test base t
    let start := base + cond.length + 1
    let (inner, t) ← stmts file inFunction body start t
    .ok (cond ++ line .popJumpIfFalse (start + inner.length + 1) header ::
      (inner ++ [line .jump base header]), t)
  | .choose test header body rest, base, t => do
    let (cond, t) := expr header test base t
    let start := base + cond.length + 1
    let (inner, t) ← stmts file inFunction body start t
    let next := start + inner.length + 1
    let (others, t) ← choice file inFunction rest next t
    .ok (cond ++ line .popJumpIfFalse next header :: (inner ++
      line .jump (next + others.length) ((lastOfBody body).getD header) :: others), t)
  | .define name params header body, _, t => do
    let (inner, u) ← stmts file true body 0 .empty
    let (ending, u) := close body u
    let (i, t) := t.constant (.code 0 (assemble file name header.line params (inner ++ ending) u))
    let (j, t) := t.name name
    .ok ([line .makeFunction i header, line .storeName j header], t)

def choice (file : String) (inFunction : Bool) :
    Choice → Nat → Tables → Except SyntaxError (List Line × Tables)
  | .branch test header body rest, base, t => do
    let (cond, t) := expr header test base t
    let start := base + cond.length + 1
    let (inner, t) ← stmts file inFunction body start t
    let next := start + inner.length + 1
    let (others, t) ← choice file inFunction rest next t
    .ok (cond ++ line .popJumpIfFalse next header :: (inner ++
      line .jump (next + others.length) ((lastOfBody body).getD header) :: others), t)
  | .otherwise body, base, t => stmts file inFunction body base t

def stmts (file : String) (inFunction : Bool) :
    List Stmt → Nat → Tables → Except SyntaxError (List Line × Tables)
  | [], _, t => .ok ([], t)
  | st :: rest, base, t => do
    let (first, t) ← stmt file inFunction st base t
    let (others, t) ← stmts file inFunction rest (base + first.length) t
    .ok (first ++ others, t)

end

def ofModule (file : String) (body : List Stmt) : Except SyntaxError Chunk := do
  let (inner, t) ← stmts file false body 0 .empty
  let (ending, t) := close body t
  .ok (assemble file moduleName 1 [] (inner ++ ending) t)

def compile (file text : String) : Except SyntaxError Chunk := do
  ofModule file (← parse text)

end Stepwise.Code
