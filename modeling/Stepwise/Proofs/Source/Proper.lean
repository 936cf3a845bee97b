import Stepwise.Code.Chunk
import Stepwise.Proofs.Number.Unsigned
import Stepwise.Source.Grammar

/-! Trees as reading a text gives them: no literal bears a sign, and no function has the name
that stands for a module. The first holds of the tokens since a sign is a token of its own, the
second since a name begins with a letter. -/

namespace Stepwise.Source

def Literal.Proper : Literal → Prop
  | .float x => Number.isNegative x = false
  | _ => True

mutual

def Expr.Proper : Expr → Prop
  | .literal v _ => v.Proper
  | .name _ _ => True
  | .unary _ e _ => e.Proper
  | .binary _ l r _ => l.Proper ∧ r.Proper
  | .call f args _ => f.Proper ∧ Expr.AllProper args

def Expr.AllProper : List Expr → Prop
  | [] => True
  | e :: es => e.Proper ∧ Expr.AllProper es

end

mutual

def Stmt.Proper : Stmt → Prop
  | .assign _ value _ => value.Proper
  | .expr value => value.Proper
  | .choose test _ body rest => test.Proper ∧ Stmt.AllProper body ∧ rest.Proper
  | .loop test _ body => test.Proper ∧ Stmt.AllProper body
  | .define name _ _ body => name ≠ Code.moduleName ∧ Stmt.AllProper body
  | .ret value _ => ∀ e ∈ value, e.Proper
  | .pass _ => True

def Choice.Proper : Choice → Prop
  | .branch test _ body rest => test.Proper ∧ Stmt.AllProper body ∧ rest.Proper
  | .otherwise body => Stmt.AllProper body

def Stmt.AllProper : List Stmt → Prop
  | [] => True
  | st :: sts => st.Proper ∧ Stmt.AllProper sts

end

theorem Expr.proper_withSpan (s : Span) (e : Expr) : (e.withSpan s).Proper ↔ e.Proper := by
  cases e <;> simp only [Expr.withSpan, Expr.Proper]

theorem Expr.proper_joined (op : BinaryOp) (l r : Expr) :
    (Expr.joined op l r).Proper ↔ l.Proper ∧ r.Proper := by
  simp only [Expr.joined, Expr.Proper]

def Token.Kind.Proper : Token.Kind → Prop
  | .float x => Number.isNegative x = false
  | .name w => w ≠ Code.moduleName
  | _ => True

def Token.Proper (t : Token) : Prop :=
  t.kind.Proper

structure Tokens.Proper (s : Tokens) : Prop where
  ahead : ∀ t ∈ s.ahead, t.Proper
  final : s.final.Proper

namespace Tokens.Proper

variable {s : Tokens}

theorem peek (h : s.Proper) : s.peek.Proper := by
  obtain ⟨ahead, final⟩ := s
  cases ahead with
  | nil => exact h.final
  | cons t ts => exact h.ahead t List.mem_cons_self

theorem bump (h : s.Proper) : s.bump.Proper :=
  ⟨fun t ht => h.ahead t (List.mem_of_mem_tail ht), h.final⟩

theorem ofList {ts : List Token} (h : ∀ t ∈ ts, t.Proper) : (Tokens.ofList ts).Proper := by
  refine ⟨fun t ht => h t (List.dropLast_subset ts ht), ?_⟩
  cases ts with
  | nil => exact fun he => absurd he (by decide)
  | cons t ts =>
    simp only [Tokens.ofList, List.getLastD_cons]
    exact h _ List.getLastD_mem_cons

end Tokens.Proper

namespace Lexer

theorem proper_numeral {cs : List Char} {kind : Token.Kind} (h : numeral cs = .ok kind) :
    kind.Proper := by
  unfold numeral at h
  dsimp only at h
  split at h
  · split at h
    · cases h
      trivial
    · cases h
  · split at h
    · next hx =>
      cases h
      exact Number.isNegative_of_readUnsigned hx
    · cases h

theorem word_ne_moduleName {c : Char} (h : isWordStart c = true) (more : List Char) :
    String.ofList (c :: more) ≠ Code.moduleName := by
  intro he
  have hc : c :: more = Code.moduleName.toList := by rw [← he, String.toList_ofList]
  have : c = '<' := (List.cons.inj hc).1
  subst this
  revert h
  decide +kernel

def Piece.Proper : Piece → Prop
  | .token kind => kind.Proper
  | _ => True

theorem proper_pieceAt (c : Char) (cs : List Char) : (pieceAt c cs).1.Proper := by
  unfold pieceAt
  dsimp only
  repeat' split
  all_goals try trivial
  · next hk => exact proper_numeral hk
  · next hc =>
    cases Keyword.ofWord? (String.ofList (c :: cs.takeWhile isWordPart)) with
    | none => exact word_ne_moduleName hc _
    | some k => trivial

def State.Proper (s : State) : Prop :=
  ∀ t ∈ s.tokens, t.Proper

theorem State.Proper.push {s : State} (h : s.Proper) {kind : Token.Kind} (hk : kind.Proper)
    (span : Span) : (s.push kind span).Proper := by
  intro t ht
  rcases List.mem_cons.1 ht with rfl | ht
  · exact hk
  · exact h t ht

theorem State.Proper.newline {s : State} (h : s.Proper) (span : Span) :
    (s.newline span).Proper := by
  unfold State.newline
  split
  · refine h.push ?_ span
    trivial
  · exact h

theorem State.Proper.indentTo {s t : State} {width : Nat} (h : s.Proper)
    (ht : s.indentTo width = .ok t) : t.Proper := by
  unfold State.indentTo at ht
  split at ht
  · cases ht
    refine State.Proper.push (s := { s with indents := _, lineStart := false }) h ?_ _
    trivial
  · dsimp only at ht
    split at ht
    · cases ht
      intro t ht
      rcases List.mem_append.1 ht with ht | ht
      · rw [List.eq_of_mem_replicate ht]
        trivial
      · exact h t ht
    · cases ht

theorem State.Proper.openLine {s t : State} (h : s.Proper) (ht : s.openLine = .ok t) :
    t.Proper := by
  unfold State.openLine at ht
  dsimp only at ht
  split at ht
  · cases ht
    exact h
  · split at ht
    · cases ht
      exact h
    · exact State.Proper.indentTo (s := s.skip _) h ht

theorem State.Proper.takePiece {s t : State} {c : Char} {cs : List Char} (h : s.Proper)
    (ht : s.takePiece c cs = .ok t) : t.Proper := by
  have hp := proper_pieceAt c cs
  unfold State.takePiece at ht
  dsimp only at ht
  split at ht
  · cases ht
    exact h
  · split at ht <;> cases ht
    · exact State.Proper.newline (s := s.skip _) h _
    · exact h
  · cases ht
  · cases ht
    refine State.Proper.push (s := { s.skip _ with parens := _ }) h ?_ _
    trivial
  · split at ht <;> cases ht
    refine State.Proper.push (s := { s.skip _ with parens := _ }) h ?_ _
    trivial
  · next hk =>
    cases ht
    rw [hk] at hp
    exact State.Proper.push (s := s.skip _) h hp _

theorem State.Proper.finish {s : State} {ts : List Token} (h : s.Proper) (ht : s.finish = .ok ts) :
    ∀ t ∈ ts, t.Proper := by
  unfold State.finish at ht
  split at ht
  · cases ht
  · cases ht
    intro t ht
    simp only [List.append_assoc, List.mem_append, List.mem_reverse, List.mem_cons,
      List.not_mem_nil, or_false] at ht
    rcases ht with ht | ht | rfl
    · exact h.newline _ t ht
    · rw [List.eq_of_mem_replicate ht]
      trivial
    · trivial

theorem State.Proper.run {s : State} {ts : List Token} (h : s.Proper) (ht : s.run = .ok ts) :
    ∀ t ∈ ts, t.Proper := by
  obtain ⟨t, hproper, -, hend⟩ := State.finish_of_run (fun _ _ _ ht h => h.openLine ht)
    (fun _ _ _ _ _ _ ht h => h.takePiece ht) h ht
  exact hproper.finish hend

theorem proper_tokenize {text : String} {ts : List Token} (h : tokenize text = .ok ts) :
    ∀ t ∈ ts, t.Proper :=
  State.Proper.run (s := State.start text.toList) (fun _ ht => absurd ht List.not_mem_nil) h

end Lexer

namespace Grammar

def Yields {α : Type} (P : α → Prop) (x : Parsed (α × Tokens)) : Prop :=
  ∀ a s, x = .ok (a, s) → P a ∧ s.Proper

section Yields

variable {α β : Type} {P : α → Prop} {Q : β → Prop}

theorem Yields.error (e : SyntaxError) : Yields P (.error e) :=
  fun _ _ h => nomatch h

theorem Yields.ok {a : α} {s : Tokens} (ha : P a) (hs : s.Proper) : Yields P (.ok (a, s)) := by
  intro b t h
  cases h
  exact ⟨ha, hs⟩

theorem Yields.bind {x : Parsed (α × Tokens)} {f : α × Tokens → Parsed (β × Tokens)}
    (hx : Yields P x) (hf : ∀ a s, P a → s.Proper → Yields Q (f (a, s))) : Yields Q (x >>= f) := by
  intro b t h
  cases x with
  | error e => exact nomatch h
  | ok r =>
    obtain ⟨ha, hs⟩ := hx r.1 r.2 rfl
    exact hf r.1 r.2 ha hs b t h

end Yields

theorem proper_expect {m : Mark} {s : Tokens} (hs : s.Proper) :
    Yields (fun _ => True) (expect m s) := by
  unfold expect
  split
  · exact .ok trivial hs.bump
  · exact .error _

theorem proper_endLine {s : Tokens} (hs : s.Proper) : Yields (fun _ => True) (endLine s) := by
  unfold endLine
  split
  · exact .ok trivial hs.bump
  · split
    · exact .ok trivial hs
    · exact .error _

theorem proper_atom {t : Token} {e : Expr} (ht : t.Proper) (h : atom? t = some e) : e.Proper := by
  unfold atom? at h
  unfold Token.Proper at ht
  split at h <;> cases h
  · trivial
  · next hk =>
    rw [hk] at ht
    exact ht
  all_goals trivial

structure ReadsExpressions (n : Nat) : Prop where
  expression : ∀ s, s.Proper → Yields Expr.Proper (expression n s)
  chain : ∀ level s, s.Proper → Yields Expr.Proper (chain n level s)
  more : ∀ level left s, left.Proper → s.Proper → Yields Expr.Proper (more n level left s)
  operand : ∀ level s, s.Proper → Yields Expr.Proper (operand n level s)
  negation : ∀ s, s.Proper → Yields Expr.Proper (negation n s)
  signed : ∀ s, s.Proper → Yields Expr.Proper (signed n s)
  primary : ∀ s, s.Proper → Yields Expr.Proper (primary n s)
  calls : ∀ callee s, callee.Proper → s.Proper → Yields Expr.Proper (calls n callee s)
  arguments : ∀ s, s.Proper → Yields Expr.AllProper (arguments n s)

theorem readsExpressions (n : Nat) : ReadsExpressions n := by
  -- the functions call one another, each of them at one depth less: one induction for all
  induction n with
  | zero => constructor <;> intros <;> exact .error _
  | succ n ih =>
    constructor
    case expression =>
      intro s hs
      exact ih.chain _ s hs
    case chain =>
      intro level s hs
      exact .bind (ih.operand level s hs) fun left s hl hs => ih.more level left s hl hs
    case more =>
      intro level left s hl hs
      unfold Grammar.more
      split
      · exact .ok hl hs
      · exact .bind (ih.operand level _ hs.bump) fun right s hr hs =>
          ih.more level _ s ((Expr.proper_joined _ _ _).2 ⟨hl, hr⟩) hs
    case operand =>
      intro level s hs
      cases level with
      | disjunction => exact ih.chain _ s hs
      | conjunction => exact ih.negation s hs
      | comparison => exact ih.chain _ s hs
      | sum => exact ih.chain _ s hs
      | product => exact ih.signed s hs
    case negation =>
      intro s hs
      unfold Grammar.negation
      split
      · exact .bind (ih.negation _ hs.bump) fun e rest he hrest => .ok he hrest
      · exact ih.chain _ s hs
    case signed =>
      intro s hs
      unfold Grammar.signed
      split
      · exact .bind (ih.signed _ hs.bump) fun e rest he hrest => .ok he hrest
      · split
        · exact ih.signed _ hs.bump
        · exact .bind (ih.primary s hs) fun e s he hs => ih.calls e s he hs
    case primary =>
      intro s hs
      unfold Grammar.primary
      split
      · next ha => exact .ok (proper_atom hs.peek ha) hs.bump
      · split
        · exact .bind (ih.expression _ hs.bump) fun e rest he hrest =>
            .bind (proper_expect hrest) fun _ rest _ hrest =>
              .ok ((Expr.proper_withSpan _ e).2 he) hrest
        · exact .error _
    case calls =>
      intro callee s hc hs
      unfold Grammar.calls
      split
      · have closed (args : List Expr) (s : Tokens) (ha : Expr.AllProper args) (hs : s.Proper) :
            Yields Expr.Proper (expect .closeParen s >>= fun r =>
              calls n (.call callee args (callee.span.to r.1)) r.2) :=
          .bind (proper_expect hs) fun _ s _ hs => ih.calls _ s ⟨hc, ha⟩ hs
        dsimp only
        split
        · exact closed [] _ trivial hs.bump
        · exact .bind (ih.arguments _ hs.bump) closed
      · exact .ok hc hs
    case arguments =>
      intro s hs
      unfold Grammar.arguments
      refine .bind (ih.expression s hs) fun e s he hs => ?_
      dsimp only
      split
      · exact .bind (ih.arguments _ hs.bump) fun es s hes hs => .ok ⟨he, hes⟩ hs
      · refine .ok ⟨he, trivial⟩ ?_
        split
        · exact hs.bump
        · exact hs

theorem proper_expression (n : Nat) {s : Tokens} (hs : s.Proper) :
    Yields Expr.Proper (expression n s) :=
  (readsExpressions n).expression s hs

theorem proper_parameters (seen : List String) (n : Nat) {s : Tokens} (hs : s.Proper) :
    Yields (fun _ => True) (parameters seen n s) := by
  induction n generalizing seen s with
  | zero => exact .error _
  | succ n ih =>
    unfold parameters
    split
    · dsimp only
      split
      · exact .error _
      split
      · exact .ok trivial hs.bump
      split
      · exact .ok trivial hs.bump.bump
      · exact ih _ hs.bump.bump
    · exact .error _

theorem proper_assignment (n : Nat) {s : Tokens} (hs : s.Proper) :
    Yields Stmt.Proper (assignment n s) := by
  unfold assignment
  refine .bind (proper_expression n hs) fun e s he hs => ?_
  dsimp only
  split
  · split
    · exact .bind (proper_expression n hs.bump) fun value rest hv hrest => .ok hv hrest
    · exact .error _
  · exact .ok he hs

theorem proper_simple (n : Nat) {s : Tokens} (hs : s.Proper) : Yields Stmt.Proper (simple n s) := by
  unfold simple
  split
  · exact .ok trivial hs.bump
  split
  · split
    · refine .ok ?_ hs.bump
      rintro e ⟨⟩
    · refine .bind (proper_expression n hs.bump) fun value rest hv hrest => .ok ?_ hrest
      rintro e ⟨⟩
      exact hv
  split
  · exact .error _
  · exact proper_assignment n hs

theorem proper_simpleLine (n : Nat) {s : Tokens} (hs : s.Proper) :
    Yields Stmt.Proper (simpleLine n s) :=
  .bind (proper_simple n hs) fun _ _ hst hs => .bind (proper_endLine hs) fun _ _ _ hs => .ok hst hs

theorem proper_signature (n : Nat) {s : Tokens} (hs : s.Proper) :
    Yields (fun sig => sig.1 ≠ Code.moduleName) (signature n s) := by
  unfold signature
  have hpeek := hs.peek
  unfold Token.Proper at hpeek
  split
  · next name hk =>
    rw [hk] at hpeek
    have closed (params : List String) (s : Tokens) (_ : True) (hs : s.Proper) :
        Yields (fun sig : String × List String × Span => sig.1 ≠ Code.moduleName)
          (expect .closeParen s >>= fun r => .ok ((name, params, r.1), r.2)) :=
      .bind (proper_expect hs) fun _ s _ hs => .ok hpeek hs
    refine .bind (proper_expect hs.bump) fun _ s _ hs => ?_
    dsimp only
    split
    · exact closed [] s trivial hs
    · exact .bind (proper_parameters _ n hs) closed
  · exact .error _

structure ReadsStatements (n : Nat) : Prop where
  statement : ∀ s, s.Proper → Yields Stmt.Proper (statement n s)
  branches : ∀ s, s.Proper → Yields Choice.Proper (branches n s)
  block : ∀ s, s.Proper → Yields Stmt.AllProper (block n s)
  statements : ∀ s, s.Proper → Yields Stmt.AllProper (statements n s)

theorem readsStatements (n : Nat) : ReadsStatements n := by
  induction n with
  | zero => constructor <;> intros <;> exact .error _
  | succ n ih =>
    constructor
    case statement =>
      intro s hs
      unfold Grammar.statement
      split
      · exact .bind (proper_expression n hs.bump) fun test rest ht hrest =>
          .bind (ih.block rest hrest) fun body rest hb hrest =>
            .bind (ih.branches rest hrest) fun others rest ho hrest => .ok ⟨ht, hb, ho⟩ hrest
      split
      · exact .bind (proper_expression n hs.bump) fun test rest ht hrest =>
          .bind (ih.block rest hrest) fun body rest hb hrest => .ok ⟨ht, hb⟩ hrest
      split
      · exact .bind (proper_signature n hs.bump) fun sig rest hsig hrest =>
          .bind (ih.block rest hrest) fun body rest hb hrest => .ok ⟨hsig, hb⟩ hrest
      · exact proper_simpleLine n hs
    case branches =>
      intro s hs
      unfold Grammar.branches
      split
      · exact .bind (proper_expression n hs.bump) fun test rest ht hrest =>
          .bind (ih.block rest hrest) fun body rest hb hrest =>
            .bind (ih.branches rest hrest) fun others rest ho hrest => .ok ⟨ht, hb, ho⟩ hrest
      split
      · exact .bind (ih.block _ hs.bump) fun body rest hb hrest => .ok hb hrest
      · exact .ok trivial hs
    case block =>
      intro s hs
      unfold Grammar.block
      refine .bind (proper_expect hs) fun _ s _ hs => ?_
      dsimp only
      split
      · split
        · exact ih.statements _ hs.bump.bump
        · exact .error _
      · exact .bind (proper_simpleLine n hs) fun st s hst hs => .ok ⟨hst, trivial⟩ hs
    case statements =>
      intro s hs
      unfold Grammar.statements
      split
      · exact .ok trivial hs.bump
      split
      · exact .ok trivial hs
      split
      · exact ih.statements _ hs.bump
      · exact .bind (ih.statement s hs) fun st s hst hs =>
          .bind (ih.statements s hs) fun sts s hsts hs => .ok ⟨hst, hsts⟩ hs

theorem proper_program (n : Nat) {s : Tokens} (hs : s.Proper) :
    Yields Stmt.AllProper (program n s) := by
  induction n generalizing s with
  | zero => exact .error _
  | succ n ih =>
    unfold program
    split
    · exact .ok trivial hs
    split
    · exact ih hs.bump
    · exact .bind ((readsStatements n).statement s hs) fun st s hst hs =>
        .bind (ih hs) fun sts s hsts hs => .ok ⟨hst, hsts⟩ hs

end Grammar

theorem proper_parse {text : String} {body : List Stmt} (h : parse text = .ok body) :
    Stmt.AllProper body := by
  unfold parse at h
  cases ht : Lexer.tokenize text with
  | error e =>
    rw [ht] at h
    exact nomatch h
  | ok ts =>
    have hs := Tokens.Proper.ofList (Lexer.proper_tokenize ht)
    simp only [ht, bind, Except.bind] at h
    split at h
    · cases h
    · next r hr =>
      cases h
      exact (Grammar.proper_program _ hs r.1 r.2 hr).1

end Stepwise.Source
