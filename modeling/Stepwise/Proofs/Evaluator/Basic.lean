import Stepwise.Machine.Basic
import Stepwise.Proofs.Machine.Path
import Stepwise.Source.Tree

/-! The meaning of a program, read off its tree. Operands are evaluated from left to right. A
function object keeps its definition; the operators and the console see of it no more than its
number and its name. Calls and rounds of loops take fuel, so that the evaluator is total: where
the fuel is gone it is unfinished. -/

namespace Stepwise.Evaluator

open Source

structure Definition where
  name : String
  params : List String
  header : Span
  body : List Stmt

def Definition.face (d : Definition) : Chunk :=
  { file := "", name := d.name, firstLine := d.header.line, params := d.params
    code := #[], positions := #[], constants := #[], names := #[] }

inductive Object
  | function (ident : Nat) (d : Definition)
  | plain (v : Value)

namespace Object

def view : Object → Value
  | function n d => .function n d.face
  | plain v => v

end Object

abbrev Names := Dictionary Object

/-- The local names are missing at the level of the module, where names are global. -/
structure Store (σ : Type) where
  locals : Option Names
  globals : Names
  nextIdent : Nat
  console : σ

namespace Store

variable {σ : Type}

def lookup (s : Store σ) (name : String) : Option Object :=
  ((s.locals.bind (·.get? name)).or (s.globals.get? name)).or
    ((builtinScope.get? name).map .plain)

def assign (s : Store σ) (name : String) (o : Object) : Store σ :=
  match s.locals with
  | some names => { s with locals := some (names.insert name o) }
  | none => { s with globals := s.globals.insert name o }

@[simp] theorem console_assign (s : Store σ) (name : String) (o : Object) :
    (s.assign name o).console = s.console := by
  unfold assign
  split <;> rfl

def withConsole (s : Store σ) (console : σ) : Store σ :=
  { s with console }

def withLocals (s : Store σ) (locals : Option Names) : Store σ :=
  { s with locals }

def define (s : Store σ) (d : Definition) : Store σ :=
  { s with nextIdent := s.nextIdent + 1 }.assign d.name (.function s.nextIdent d)

end Store

inductive Stop
  | exception (cause : Exception.Cause)
  | cancelled
  | fault (reason : String)
deriving DecidableEq, Repr

/-- How an unwinding reads apart from where it came from and passed by. -/
def Stop.ofUnwind : Unwind → Stop
  | .exception e => exception e.cause
  | .cancelled => cancelled
  | .fault reason => fault reason

inductive Outcome (σ α : Type)
  | value (a : α) (s : Store σ)
  | stopped (u : Stop) (s : Store σ)
  | unfinished

namespace Outcome

variable {σ α β : Type}

def andThen (o : Outcome σ α) (f : α → Store σ → Outcome σ β) : Outcome σ β :=
  match o with
  | value a s => f a s
  | stopped u s => stopped u s
  | unfinished => unfinished

def raise (cause : Exception.Cause) (s : Store σ) : Outcome σ α :=
  stopped (.exception cause) s

def ofResult (r : Value.Result) (s : Store σ) : Outcome σ Object :=
  match r with
  | .ok v => value (.plain v) s
  | .error cause => raise cause s

def isFinished : Outcome σ α → Bool
  | unfinished => false
  | _ => true

end Outcome

/-- What calls of a function object come down to. -/
abbrev Caller (σ : Type) := Object → List Object → Store σ → Outcome σ Object

def decides (op : Connective) (o : Object) : Bool :=
  match op with
  | .and => !o.view.truthy
  | .or => o.view.truthy

section Expressions

variable {σ : Type} (call : Caller σ)

mutual

def expr : Expr → Store σ → Outcome σ Object
  | .literal v _, s => .value (.plain (.ofLiteral v)) s
  | .name w _, s =>
    match s.lookup w with
    | some o => .value o s
    | none => .raise (.unbound w) s
  | .unary op e _, s => (expr e s).andThen fun o s => .ofResult (Value.unary op o.view) s
  | .binary (.logic op) l r _, s =>
    (expr l s).andThen fun o s => if decides op o then .value o s else expr r s
  | .binary (.arith op) l r _, s =>
    (expr l s).andThen fun x s => (expr r s).andThen fun y s =>
      .ofResult (Value.arith op x.view y.view) s
  | .binary (.compare op) l r _, s =>
    (expr l s).andThen fun x s => (expr r s).andThen fun y s =>
      .ofResult (Value.compare op x.view y.view) s
  | .call f args _, s =>
    (expr f s).andThen fun f s => (exprs args s).andThen fun args s => call f args s

def exprs : List Expr → Store σ → Outcome σ (List Object)
  | [], s => .value [] s
  | e :: es, s =>
    (expr e s).andThen fun o s => (exprs es s).andThen fun os s => .value (o :: os) s

end

end Expressions

inductive Completion
  | passed
  | returned (o : Object)

def Completion.object : Completion → Object
  | passed => .plain .none
  | returned o => o

def repeatWhile {σ : Type} (test : Store σ → Outcome σ Object)
    (body : Store σ → Outcome σ Completion) : Nat → Store σ → Outcome σ Completion
  | 0, _ => .unfinished
  | fuel + 1, s =>
    (test s).andThen fun o s =>
      if o.view.truthy then
        (body s).andThen fun c s =>
          match c with
          | .passed => repeatWhile test body fuel s
          | .returned o => .value (.returned o) s
      else .value .passed s

section Statements

variable {σ : Type} (call : Caller σ) (fuel : Nat)

mutual

def stmt : Stmt → Store σ → Outcome σ Completion
  | .assign target value _, s =>
    (expr call value s).andThen fun o s => .value .passed (s.assign target o)
  | .expr value, s => (expr call value s).andThen fun _ s => .value .passed s
  | .choose test _ body rest, s =>
    (expr call test s).andThen fun o s => if o.view.truthy then stmts body s else choice rest s
  | .loop test _ body, s => repeatWhile (expr call test) (fun s => stmts body s) fuel s
  | .define name params header body, s => .value .passed (s.define ⟨name, params, header, body⟩)
  | .ret none _, s => .value (.returned (.plain .none)) s
  | .ret (some value) _, s => (expr call value s).andThen fun o s => .value (.returned o) s
  | .pass _, s => .value .passed s

def choice : Choice → Store σ → Outcome σ Completion
  | .branch test _ body rest, s =>
    (expr call test s).andThen fun o s => if o.view.truthy then stmts body s else choice rest s
  | .otherwise body, s => stmts body s

def stmts : List Stmt → Store σ → Outcome σ Completion
  | [], s => .value .passed s
  | st :: sts, s =>
    (stmt st s).andThen fun c s =>
      match c with
      | .passed => stmts sts s
      | .returned o => .value (.returned o) s

end

end Statements

/-- Leaves a body; the names before it are back. -/
def Outcome.leave {σ : Type} (locals : Option Names) : Outcome σ Completion → Outcome σ Object
  | .value done s => .value done.object (s.withLocals locals)
  | .stopped u s => .stopped u (s.withLocals locals)
  | .unfinished => .unfinished

def Definition.arityFault? (d : Definition) (given : Nat) : Option Exception.Cause :=
  if d.params.length < given then some (.tooManyArguments d.name d.params.length given)
  else if given < d.params.length then some (.missingArguments d.name (d.params.drop given))
  else none

section Calls

variable {σ : Type} (c : Host.Console σ)

def answer (s : Store σ) : Outcome σ Object :=
  match c.line s.console with
  | (.ok text, w) => .value (.plain (.str text)) (s.withConsole w)
  | (.error u, w) => .stopped (.ofUnwind u) (s.withConsole w)

def builtin (b : Builtin) (args : List Object) (s : Store σ) : Outcome σ Object :=
  match b.call (args.map Object.view) with
  | .ok (.give v) => .value (.plain v) s
  | .ok (.write text) => .value (.plain .none) (s.withConsole (c.write text s.console))
  | .ok (.ask (some prompt)) => answer c (s.withConsole (c.write prompt s.console))
  | .ok (.ask none) => answer c s
  | .ok .clear => .value (.plain .none) (s.withConsole (c.clear s.console))
  | .error cause => .raise cause s

/-- Calls from within `depth` activations, of which there may be no more than `limit`. -/
def call (limit : Nat) : Nat → Nat → Caller σ
  | 0, _, _, _, _ => .unfinished
  | fuel + 1, depth, f, args, s =>
    match f with
    | .function _ d =>
      match d.arityFault? args.length with
      | some cause => .raise cause s
      | none =>
        if limit ≤ depth then .raise .recursionLimit s
        else
          (stmts (call limit fuel (depth + 1)) fuel d.body
            (s.withLocals (some (.ofList (d.params.zip args))))).leave s.locals
    | .plain (.builtin b) => builtin c b args s
    | .plain v => .raise (.notCallable v.typeName) s

def program (limit fuel : Nat) (body : List Stmt) (s : Store σ) : Outcome σ Object :=
  (stmts (call c limit fuel 1) fuel body (s.withLocals none)).leave none

end Calls

end Stepwise.Evaluator
