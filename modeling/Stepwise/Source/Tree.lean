import Stepwise.Source.Span

/-! Programs as trees. Every expression carries its span, parentheses around it included; a
compound statement carries the span of its header only. -/

namespace Stepwise.Source

inductive Literal
  | none
  | bool (b : Bool)
  | int (n : Int64)
  | float (x : Float)
  | str (s : String)
deriving Repr

inductive Arith
  | add | sub | mul | div | floorDiv | mod
deriving DecidableEq, Repr

def Arith.symbol : Arith → String
  | .add => "+"
  | .sub => "-"
  | .mul => "*"
  | .div => "/"
  | .floorDiv => "//"
  | .mod => "%"

inductive Relation
  | equal | unequal | less | lessEqual | greater | greaterEqual
deriving DecidableEq, Repr

def Relation.symbol : Relation → String
  | .equal => "=="
  | .unequal => "!="
  | .less => "<"
  | .lessEqual => "<="
  | .greater => ">"
  | .greaterEqual => ">="

inductive Connective
  | and | or
deriving DecidableEq, Repr

inductive BinaryOp
  | arith (op : Arith)
  | compare (op : Relation)
  | logic (op : Connective)
deriving DecidableEq, Repr

inductive UnaryOp
  | neg | not
deriving DecidableEq, Repr

inductive Expr
  | literal (value : Literal) (span : Span)
  | name (word : String) (span : Span)
  | unary (op : UnaryOp) (operand : Expr) (span : Span)
  | binary (op : BinaryOp) (left right : Expr) (span : Span)
  | call (callee : Expr) (args : List Expr) (span : Span)
deriving Repr

namespace Expr

def span : Expr → Span
  | literal _ s | name _ s | unary _ _ s | binary _ _ _ s | call _ _ s => s

def withSpan (s : Span) : Expr → Expr
  | literal v _ => literal v s
  | name w _ => name w s
  | unary op e _ => unary op e s
  | binary op l r _ => binary op l r s
  | call f args _ => call f args s

@[simp] theorem span_withSpan (s : Span) (e : Expr) : (e.withSpan s).span = s := by
  cases e <;> rfl

def joined (op : BinaryOp) (left right : Expr) : Expr :=
  binary op left right (left.span.to right.span)

end Expr

mutual

inductive Stmt
  | assign (target : String) (value : Expr) (span : Span)
  | expr (value : Expr)
  | choose (test : Expr) (header : Span) (body : List Stmt) (rest : Choice)
  | loop (test : Expr) (header : Span) (body : List Stmt)
  | define (name : String) (params : List String) (header : Span) (body : List Stmt)
  | ret (value : Option Expr) (span : Span)
  | pass (span : Span)

/-- What follows the first branch of a choice: more tested branches, then perhaps a body for
the case that no test holds. -/
inductive Choice
  | branch (test : Expr) (header : Span) (body : List Stmt) (rest : Choice)
  | otherwise (body : List Stmt)

end

def Stmt.span : Stmt → Span
  | assign _ _ s | choose _ s _ _ | loop _ s _ | define _ _ s _ | ret _ s | pass s => s
  | expr e => e.span

end Stepwise.Source
