import Stepwise.Proofs.Evaluator.Basic

/-! Where a program fails, read off its tree. An operation that raises fails at its own
expression, a name that stands for nothing at its statement, which for a compound statement is the
header. A call whose function fails inside fails where that does. The place says something only
of what the evaluator stops at. -/

namespace Stepwise.Evaluator

open Source

variable {σ α : Type}

def Outcome.site (o : Outcome σ α) (first : Option Span) (after : α → Store σ → Option Span) :
    Option Span :=
  match o with
  | value a s => after a s
  | _ => first

abbrev Inside (σ : Type) := Object → List Object → Store σ → Option Span

section Expressions

variable (call : Caller σ) (inside : Inside σ) (tag : Span)

mutual

def exprSite : Expr → Store σ → Option Span
  | .literal _ _, _ => none
  | .name _ _, _ => some tag
  | .unary _ e span, s => (expr call e s).site (exprSite e s) fun _ _ => some span
  | .binary (.logic _) l r _, s => (expr call l s).site (exprSite l s) fun _ s => exprSite r s
  | .binary (.arith _) l r span, s =>
    (expr call l s).site (exprSite l s) fun _ s =>
      (expr call r s).site (exprSite r s) fun _ _ => some span
  | .binary (.compare _) l r span, s =>
    (expr call l s).site (exprSite l s) fun _ s =>
      (expr call r s).site (exprSite r s) fun _ _ => some span
  | .call f args span, s =>
    (expr call f s).site (exprSite f s) fun f s =>
      (exprs call args s).site (exprsSite args s) fun args s =>
        (inside f args s).or (some span)

def exprsSite : List Expr → Store σ → Option Span
  | [], _ => none
  | e :: es, s => (expr call e s).site (exprSite e s) fun _ s => exprsSite es s

end

end Expressions

def repeatWhileSite (test : Store σ → Outcome σ Object) (testSite : Store σ → Option Span)
    (body : Store σ → Outcome σ Completion) (bodySite : Store σ → Option Span) :
    Nat → Store σ → Option Span
  | 0, _ => none
  | fuel + 1, s =>
    (test s).site (testSite s) fun o s =>
      if o.view.truthy then
        (body s).site (bodySite s) fun c s =>
          match c with
          | .passed => repeatWhileSite test testSite body bodySite fuel s
          | .returned _ => none
      else none

section Statements

variable (call : Caller σ) (inside : Inside σ) (fuel : Nat)

mutual

def stmtSite : Stmt → Store σ → Option Span
  | .assign _ value span, s => exprSite call inside span value s
  | .expr value, s => exprSite call inside value.span value s
  | .choose test header body rest, s =>
    (expr call test s).site (exprSite call inside header test s) fun o s =>
      if o.view.truthy then stmtsSite body s else choiceSite rest s
  | .loop test header body, s =>
    repeatWhileSite (expr call test) (exprSite call inside header test)
      (fun s => stmts call fuel body s) (fun s => stmtsSite body s) fuel s
  | .define _ _ _ _, _ => none
  | .ret none _, _ => none
  | .ret (some value) span, s => exprSite call inside span value s
  | .pass _, _ => none

def choiceSite : Choice → Store σ → Option Span
  | .branch test header body rest, s =>
    (expr call test s).site (exprSite call inside header test s) fun o s =>
      if o.view.truthy then stmtsSite body s else choiceSite rest s
  | .otherwise body, s => stmtsSite body s

def stmtsSite : List Stmt → Store σ → Option Span
  | [], _ => none
  | st :: sts, s =>
    (stmt call fuel st s).site (stmtSite st s) fun c s =>
      match c with
      | .passed => stmtsSite sts s
      | .returned _ => none

end

end Statements

section Calls

variable (c : Host.Console σ) (limit : Nat)

/-- Where a call fails inside the function, which it does not reach where it fails itself. -/
def callSite : Nat → Nat → Inside σ
  | 0, _, _, _, _ => none
  | fuel + 1, depth, f, args, s =>
    match f with
    | .function _ d =>
      match d.arityFault? args.length with
      | some _ => none
      | none =>
        if limit ≤ depth then none
        else
          stmtsSite (call c limit fuel (depth + 1)) (callSite fuel (depth + 1)) fuel d.body
            (s.withLocals (some (.ofList (d.params.zip args))))
    | .plain _ => none

def programSite (fuel : Nat) (body : List Stmt) (s : Store σ) : Option Span :=
  stmtsSite (call c limit fuel 1) (callSite c limit fuel 1) fuel body (s.withLocals none)

end Calls

end Stepwise.Evaluator
