import Stepwise.Proofs.Source.Places
import Stepwise.Source.Grammar

/-! Where trees and faults start. An expression starts with the first token that was read for it,
a return statement with its word, and the parser finds a fault at the token ahead or at an
expression. So all of them start where tokens do. -/

namespace Stepwise.Source

def SyntaxError.StartsAt (P : Point → Prop) (e : SyntaxError) : Prop :=
  ∀ column ∈ e.column, ∃ p, P p ∧ e.line = p.line ∧ column = p.col + 1

def Expr.StartsAt (P : Point → Prop) (e : Expr) : Prop :=
  P e.span.start

def Tokens.StartAt (P : Point → Prop) (s : Tokens) : Prop :=
  ∀ t ∈ s.ahead ++ [s.final], P t.span.start

mutual

def Stmt.ReturnsAt (P : Point → Prop) : Stmt → Prop
  | .ret _ s => P s.start
  | .choose _ _ body rest => Stmt.AllReturnAt P body ∧ rest.ReturnsAt P
  | .loop _ _ body => Stmt.AllReturnAt P body
  | .define _ _ _ body => Stmt.AllReturnAt P body
  | .assign _ _ _ => True
  | .expr _ => True
  | .pass _ => True

def Choice.ReturnsAt (P : Point → Prop) : Choice → Prop
  | .branch _ _ body rest => Stmt.AllReturnAt P body ∧ rest.ReturnsAt P
  | .otherwise body => Stmt.AllReturnAt P body

def Stmt.AllReturnAt (P : Point → Prop) : List Stmt → Prop
  | [] => True
  | st :: sts => st.ReturnsAt P ∧ Stmt.AllReturnAt P sts

end

section StartAt

variable {P : Point → Prop} {s : Tokens}

theorem SyntaxError.startsAt_spanning (cause : Cause) {span : Span} (h : P span.start) :
    (SyntaxError.spanning cause span).StartsAt P := by
  rintro column ⟨⟩
  exact ⟨span.start, h, rfl, rfl⟩

theorem SyntaxError.startsAt_onLine (cause : Cause) (line : Nat) :
    (SyntaxError.onLine cause line).StartsAt P :=
  nofun

namespace Tokens.StartAt

theorem peek (h : s.StartAt P) : P s.peek.span.start := by
  obtain ⟨ahead, final⟩ := s
  cases ahead with
  | nil => exact h final List.mem_cons_self
  | cons t ts => exact h t List.mem_cons_self

theorem bump (h : s.StartAt P) : s.bump.StartAt P := by
  obtain ⟨ahead, final⟩ := s
  cases ahead with
  | nil => exact h
  | cons t ts => exact fun u hu => h u (List.mem_cons_of_mem t hu)

theorem fault (h : s.StartAt P) (cause : SyntaxError.Cause) : (s.fault cause).StartsAt P :=
  SyntaxError.startsAt_spanning cause h.peek

theorem misplaced (h : s.StartAt P) : s.misplaced.StartsAt P :=
  h.fault _

end Tokens.StartAt

end StartAt

namespace Grammar

def Starts (P : Point → Prop) {α : Type} (Q : α → Prop) : Parsed (α × Tokens) → Prop
  | .ok (a, s) => Q a ∧ s.StartAt P
  | .error e => e.StartsAt P

variable {P : Point → Prop} {s : Tokens}

theorem Starts.bind {α β : Type} {Q : α → Prop} {R : β → Prop} {x : Parsed (α × Tokens)}
    {f : α × Tokens → Parsed (β × Tokens)} (hx : Starts P Q x)
    (hf : ∀ a s, Q a → s.StartAt P → Starts P R (f (a, s))) : Starts P R (x >>= f) := by
  cases x with
  | error e => exact hx
  | ok r => exact hf r.1 r.2 hx.1 hx.2

theorem starts_expect (m : Mark) (hs : s.StartAt P) : Starts P (fun _ => True) (expect m s) := by
  unfold expect
  split
  · exact ⟨trivial, hs.bump⟩
  · exact hs.fault _

theorem starts_endLine (hs : s.StartAt P) : Starts P (fun _ => True) (endLine s) := by
  unfold endLine
  split
  · exact ⟨trivial, hs.bump⟩
  · split
    · exact ⟨trivial, hs⟩
    · exact hs.misplaced

theorem startsAt_atom {t : Token} {e : Expr} (h : atom? t = some e) (ht : P t.span.start) :
    e.StartsAt P := by
  unfold atom? at h
  split at h <;> cases h <;> exact ht

structure StartsExpressions (P : Point → Prop) (n : Nat) : Prop where
  expression : ∀ s, s.StartAt P → Starts P (Expr.StartsAt P) (expression n s)
  chain : ∀ level s, s.StartAt P → Starts P (Expr.StartsAt P) (chain n level s)
  more : ∀ level left s, left.StartsAt P → s.StartAt P →
    Starts P (Expr.StartsAt P) (more n level left s)
  operand : ∀ level s, s.StartAt P → Starts P (Expr.StartsAt P) (operand n level s)
  negation : ∀ s, s.StartAt P → Starts P (Expr.StartsAt P) (negation n s)
  signed : ∀ s, s.StartAt P → Starts P (Expr.StartsAt P) (signed n s)
  primary : ∀ s, s.StartAt P → Starts P (Expr.StartsAt P) (primary n s)
  calls : ∀ callee s, callee.StartsAt P → s.StartAt P →
    Starts P (Expr.StartsAt P) (calls n callee s)
  arguments : ∀ s, s.StartAt P → Starts P (fun _ => True) (arguments n s)

theorem startsExpressions (P : Point → Prop) (n : Nat) : StartsExpressions P n := by
  induction n with
  | zero =>
    constructor
    case more => exact fun _ _ _ _ hs => hs.misplaced
    case calls => exact fun _ _ _ hs => hs.misplaced
    all_goals
      intros
      exact Tokens.StartAt.misplaced ‹_›
  | succ n ih =>
    constructor
    case expression =>
      exact fun s hs => ih.chain _ s hs
    case chain =>
      exact fun level s hs => .bind (ih.operand level s hs) fun left s hl hs =>
        ih.more level left s hl hs
    case more =>
      intro level left s hl hs
      unfold Grammar.more
      split
      · exact ⟨hl, hs⟩
      · exact .bind (ih.operand level _ hs.bump) fun right s _ hs =>
          ih.more level (.joined _ left right) s hl hs
    case operand =>
      intro level s hs
      cases level with
      | disjunction => exact ih.chain _ s hs
      | conjunction => exact ih.negation s hs
      | comparison => exact ih.chain _ s hs
      | sum => exact ih.chain _ s hs
      | product => exact ih.signed s hs
    case negation =>
      intro s hs
      unfold Grammar.negation
      split
      · exact .bind (ih.negation _ hs.bump) fun e rest _ hrest => ⟨hs.peek, hrest⟩
      · exact ih.chain _ s hs
    case signed =>
      intro s hs
      unfold Grammar.signed
      split
      · exact .bind (ih.signed _ hs.bump) fun e rest _ hrest => ⟨hs.peek, hrest⟩
      · split
        · exact ih.signed _ hs.bump
        · exact .bind (ih.primary s hs) fun e s he hs => ih.calls e s he hs
    case primary =>
      intro s hs
      unfold Grammar.primary
      split
      · next h => exact ⟨startsAt_atom h hs.peek, hs.bump⟩
      · split
        · refine .bind (ih.expression _ hs.bump) fun e rest _ hrest => ?_
          refine .bind (starts_expect _ hrest) fun close rest _ hrest => ?_
          refine ⟨?_, hrest⟩
          rw [Expr.StartsAt, Expr.span_withSpan]
          exact hs.peek
        · exact hs.misplaced
    case calls =>
      intro callee s hc hs
      unfold Grammar.calls
      split
      · have closed (args : List Expr) (s : Tokens) (hs : s.StartAt P) :
            Starts P (Expr.StartsAt P) (expect .closeParen s >>= fun r =>
              calls n (.call callee args (callee.span.to r.1)) r.2) :=
          .bind (starts_expect _ hs) fun close rest _ hrest =>
            ih.calls (.call callee args (callee.span.to close)) rest hc hrest
        dsimp only
        split
        · exact closed [] _ hs.bump
        · exact .bind (ih.arguments _ hs.bump) fun args s _ hs => closed args s hs
      · exact ⟨hc, hs⟩
    case arguments =>
      intro s hs
      unfold Grammar.arguments
      refine .bind (ih.expression s hs) fun e s _ hs => ?_
      dsimp only
      split
      · exact .bind (ih.arguments _ hs.bump) fun es s _ hs => ⟨trivial, hs⟩
      · refine ⟨trivial, ?_⟩
        split
        · exact hs.bump
        · exact hs

theorem starts_expression (n : Nat) (hs : s.StartAt P) :
    Starts P (Expr.StartsAt P) (expression n s) :=
  (startsExpressions P n).expression s hs

theorem starts_parameters (seen : List String) (n : Nat) (hs : s.StartAt P) :
    Starts P (fun _ => True) (parameters seen n s) := by
  induction n generalizing seen s with
  | zero => exact hs.misplaced
  | succ n ih =>
    unfold parameters
    split
    · dsimp only
      split
      · exact hs.fault _
      split
      · exact ⟨trivial, hs.bump⟩
      split
      · exact ⟨trivial, hs.bump.bump⟩
      · exact ih _ hs.bump.bump
    · exact hs.fault _

theorem starts_signature (n : Nat) (hs : s.StartAt P) :
    Starts P (fun _ => True) (signature n s) := by
  unfold signature
  split
  · next name _ =>
    have closed (params : List String) (s : Tokens) (hs : s.StartAt P) :
        Starts P (fun _ => True)
          (expect .closeParen s >>= fun r => .ok ((name, params, r.1), r.2)) :=
      .bind (starts_expect _ hs) fun _ _ _ hrest => ⟨trivial, hrest⟩
    refine .bind (starts_expect _ hs.bump) fun _ s _ hs => ?_
    dsimp only
    split
    · exact closed [] s hs
    · exact .bind (starts_parameters _ n hs) fun params s _ hs => closed params s hs
  · exact hs.fault _

theorem starts_assignment (n : Nat) (hs : s.StartAt P) :
    Starts P (Stmt.ReturnsAt P) (assignment n s) := by
  unfold assignment
  refine .bind (starts_expression n hs) fun e s he hs => ?_
  dsimp only
  split
  · split
    · exact .bind (starts_expression n hs.bump) fun _ _ _ hrest => ⟨trivial, hrest⟩
    · exact SyntaxError.startsAt_spanning _ he
  · exact ⟨trivial, hs⟩

theorem starts_simpleLine (n : Nat) (hs : s.StartAt P) :
    Starts P (Stmt.ReturnsAt P) (simpleLine n s) := by
  have hsimple : Starts P (Stmt.ReturnsAt P) (simple n s) := by
    unfold simple
    split
    · exact ⟨trivial, hs.bump⟩
    split
    · split
      · exact ⟨hs.peek, hs.bump⟩
      · exact .bind (starts_expression n hs.bump) fun _ _ _ hrest => ⟨hs.peek, hrest⟩
    split
    · exact hs.misplaced
    · exact starts_assignment n hs
  exact .bind hsimple fun _ _ hst hs => .bind (starts_endLine hs) fun _ _ _ hs => ⟨hst, hs⟩

structure StartsStatements (P : Point → Prop) (n : Nat) : Prop where
  statement : ∀ s, s.StartAt P → Starts P (Stmt.ReturnsAt P) (statement n s)
  branches : ∀ s, s.StartAt P → Starts P (Choice.ReturnsAt P) (branches n s)
  block : ∀ s, s.StartAt P → Starts P (Stmt.AllReturnAt P) (block n s)
  statements : ∀ s, s.StartAt P → Starts P (Stmt.AllReturnAt P) (statements n s)

theorem startsStatements (P : Point → Prop) (n : Nat) : StartsStatements P n := by
  induction n with
  | zero => constructor <;> exact fun _ hs => hs.misplaced
  | succ n ih =>
    constructor
    case statement =>
      intro s hs
      unfold Grammar.statement
      split
      · exact .bind (starts_expression n hs.bump) fun _ s _ hs =>
          .bind (ih.block s hs) fun _ s hb hs =>
            .bind (ih.branches s hs) fun _ _ ho hs => ⟨⟨hb, ho⟩, hs⟩
      split
      · exact .bind (starts_expression n hs.bump) fun _ s _ hs =>
          .bind (ih.block s hs) fun _ _ hb hs => ⟨hb, hs⟩
      split
      · exact .bind (starts_signature n hs.bump) fun _ s _ hs =>
          .bind (ih.block s hs) fun _ _ hb hs => ⟨hb, hs⟩
      · exact starts_simpleLine n hs
    case branches =>
      intro s hs
      unfold Grammar.branches
      split
      · exact .bind (starts_expression n hs.bump) fun _ s _ hs =>
          .bind (ih.block s hs) fun _ s hb hs =>
            .bind (ih.branches s hs) fun _ _ ho hs => ⟨⟨hb, ho⟩, hs⟩
      split
      · exact .bind (ih.block _ hs.bump) fun _ _ hb hs => ⟨hb, hs⟩
      · exact ⟨trivial, hs⟩
    case block =>
      intro s hs
      unfold Grammar.block
      refine .bind (starts_expect _ hs) fun _ s _ hs => ?_
      dsimp only
      split
      · split
        · exact ih.statements _ hs.bump.bump
        · exact hs.bump.fault _
      · exact .bind (starts_simpleLine n hs) fun _ _ hst hs => ⟨⟨hst, trivial⟩, hs⟩
    case statements =>
      intro s hs
      unfold Grammar.statements
      split
      · exact ⟨trivial, hs.bump⟩
      split
      · exact ⟨trivial, hs⟩
      split
      · exact ih.statements _ hs.bump
      · exact .bind (ih.statement s hs) fun _ s hst hs =>
          .bind (ih.statements s hs) fun _ _ hsts hs => ⟨⟨hst, hsts⟩, hs⟩

theorem starts_program (n : Nat) (hs : s.StartAt P) :
    Starts P (Stmt.AllReturnAt P) (program n s) := by
  induction n generalizing s with
  | zero => exact hs.misplaced
  | succ n ih =>
    unfold program
    split
    · exact ⟨trivial, hs⟩
    split
    · exact ih hs.bump
    · exact .bind ((startsStatements P n).statement s hs) fun _ _ hst hs =>
        .bind (ih hs) fun _ _ hsts hs => ⟨⟨hst, hsts⟩, hs⟩

end Grammar

end Stepwise.Source
