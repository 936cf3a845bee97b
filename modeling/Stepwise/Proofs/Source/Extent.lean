import Stepwise.Proofs.Source.Scan
import Stepwise.Source.Grammar

/-! The parts of a text that trees stand on. A span marks a text if it begins at a character of
the text and ends behind it; every node of a tree marks the text that was read, inside the span of
the node above it. The tokens ahead are in order and apart, so that a span from one to a later one
covers what was read between them. -/

namespace Stepwise.Source

structure Span.Marks (text : List Char) (s : Span) : Prop extends s.Lies text where
  begins : ∃ pre c post, text = pre ++ c :: post ∧ s.start = Point.first.past pre

namespace Span

variable {text : List Char} {s t u v : Span}

theorem Marks.to (hs : s.Marks text) (ht : t.Lies text) (h : s.start ≤ t.stop) :
    (s.to t).Marks text where
  start := hs.start
  stop := ht.stop
  le := h
  begins := hs.begins

theorem Within.to (hs : s.start ≤ u.start) (ht : u.stop ≤ t.stop) : u.Within (s.to t) :=
  ⟨hs, ht⟩

end Span

mutual

/-- The nodes of the tree mark the text, each inside the one above it, and the root inside the
span that is given. -/
def Expr.Placed (text : List Char) (outer : Span) : Expr → Prop
  | .literal _ s => s.Marks text ∧ s.Within outer
  | .name _ s => s.Marks text ∧ s.Within outer
  | .unary _ e s => (s.Marks text ∧ s.Within outer) ∧ e.Placed text s
  | .binary _ l r s => (s.Marks text ∧ s.Within outer) ∧ l.Placed text s ∧ r.Placed text s
  | .call f args s => (s.Marks text ∧ s.Within outer) ∧ f.Placed text s ∧ Expr.AllPlaced text s args

def Expr.AllPlaced (text : List Char) (outer : Span) : List Expr → Prop
  | [] => True
  | e :: es => e.Placed text outer ∧ Expr.AllPlaced text outer es

end

mutual

def Stmt.Placed (text : List Char) : Stmt → Prop
  | .assign _ value s => s.Marks text ∧ value.Placed text s
  | .expr value => value.Placed text value.span
  | .choose test header body rest =>
    (header.Marks text ∧ test.Placed text header) ∧ Stmt.AllPlaced text body ∧ rest.Placed text
  | .loop test header body =>
    (header.Marks text ∧ test.Placed text header) ∧ Stmt.AllPlaced text body
  | .define _ _ header body => header.Marks text ∧ Stmt.AllPlaced text body
  | .ret value s => s.Marks text ∧ ∀ e ∈ value, e.Placed text s
  | .pass s => s.Marks text

def Choice.Placed (text : List Char) : Choice → Prop
  | .branch test header body rest =>
    (header.Marks text ∧ test.Placed text header) ∧ Stmt.AllPlaced text body ∧ rest.Placed text
  | .otherwise body => Stmt.AllPlaced text body

def Stmt.AllPlaced (text : List Char) : List Stmt → Prop
  | [] => True
  | st :: sts => st.Placed text ∧ Stmt.AllPlaced text sts

end

namespace Expr.Placed

variable {text : List Char} {e l r : Expr} {s t : Span}

theorem span (h : e.Placed text s) : e.span.Marks text ∧ e.span.Within s := by
  cases e with
  | literal _ _ => exact h
  | name _ _ => exact h
  | unary _ _ _ => exact h.1
  | binary _ _ _ _ => exact h.1
  | call _ _ _ => exact h.1

theorem mono (h : e.Placed text s) (hs : s.Within t) : e.Placed text t := by
  cases e with
  | literal _ _ => exact ⟨h.1, h.2.trans hs⟩
  | name _ _ => exact ⟨h.1, h.2.trans hs⟩
  | unary _ _ _ => exact ⟨⟨h.1.1, h.1.2.trans hs⟩, h.2⟩
  | binary _ _ _ _ => exact ⟨⟨h.1.1, h.1.2.trans hs⟩, h.2⟩
  | call _ _ _ => exact ⟨⟨h.1.1, h.1.2.trans hs⟩, h.2⟩

theorem all {es : List Expr} (h : Expr.AllPlaced text s es) (hs : s.Within t) :
    Expr.AllPlaced text t es := by
  induction es with
  | nil => trivial
  | cons e es ih => exact ⟨h.1.mono hs, ih h.2⟩

theorem withSpan (h : e.Placed text e.span) (ht : t.Marks text) (hw : e.span.Within t) :
    (e.withSpan t).Placed text t := by
  cases e with
  | literal _ _ => exact ⟨ht, .refl t⟩
  | name _ _ => exact ⟨ht, .refl t⟩
  | unary _ _ _ => exact ⟨⟨ht, .refl t⟩, h.2.mono hw⟩
  | binary _ _ _ _ => exact ⟨⟨ht, .refl t⟩, h.2.1.mono hw, h.2.2.mono hw⟩
  | call _ _ _ => exact ⟨⟨ht, .refl t⟩, h.2.1.mono hw, all h.2.2 hw⟩

theorem joined (op : BinaryOp) (hl : l.Placed text l.span) (hr : r.Placed text r.span)
    (h : l.span.stop ≤ r.span.start) :
    (Expr.joined op l r).Placed text (Expr.joined op l r).span := by
  have hlr : l.span.start ≤ r.span.start := hl.span.1.le.trans h
  have hstop : l.span.stop ≤ r.span.stop := h.trans hr.span.1.le
  exact ⟨⟨hl.span.1.to hr.span.1.toLies (hlr.trans hr.span.1.le), .refl _⟩,
    hl.mono (.to (le_refl _) hstop), hr.mono (.to hlr (le_refl _))⟩

end Expr.Placed

def Token.Kind.isShape : Token.Kind → Bool
  | .newline | .indent | .dedent | .eof => true
  | _ => false

theorem Token.Kind.SpelledBy.ne_nil {kind : Token.Kind} {cs : List Char}
    (h : kind.SpelledBy cs) (hk : kind.isShape = false) : cs ≠ [] := by
  rintro rfl
  cases kind with
  | newline => cases hk
  | indent => cases hk
  | dedent => cases hk
  | eof => cases hk
  | keyword k =>
    have hne : k.spelling.toList ≠ [] := by cases k <;> decide
    exact hne h.symm
  | mark m =>
    have hne : m.spelling ≠ [] := by cases m <;> decide
    exact hne h.symm
  | name word =>
    obtain ⟨c, more, hcs, -⟩ := h
    cases hcs
  | int n =>
    obtain ⟨c, more, hcs, -⟩ := h
    cases hcs
  | float x =>
    obtain ⟨c, more, hcs, -⟩ := h
    cases hcs
  | str s =>
    obtain ⟨mark, body, -, hcs, -⟩ := h
    cases hcs

namespace Token.PartOf

variable {text : List Char} {t : Token}

theorem lies (h : t.PartOf text) : t.span.Lies text := by
  obtain ⟨before, cs, after, rfl, hspan, -⟩ := h
  exact hspan ▸ Span.lies_between before cs after

theorem marks (h : t.PartOf text) (hk : t.kind.isShape = false) : t.span.Marks text := by
  refine ⟨h.lies, ?_⟩
  obtain ⟨before, cs, after, htext, hspan, hcs⟩ := h
  obtain ⟨c, more, rfl⟩ := List.exists_cons_of_ne_nil (hcs.ne_nil hk)
  exact ⟨before, c, more ++ after, htext, by rw [hspan, Span.start_between]⟩

end Token.PartOf

structure Tokens.Orderly (text : List Char) (s : Tokens) : Prop where
  partOf : ∀ t ∈ s.ahead ++ [s.final], t.PartOf text
  apart : (s.ahead ++ [s.final]).Pairwise fun t u => t.span.stop ≤ u.span.start
  final : s.final.span.stop ≤ s.final.span.start

structure Tokens.Behind (text : List Char) (p : Point) (s : Tokens) : Prop
    extends s.Orderly text where
  le : p ≤ s.peek.span.start

namespace Tokens

variable {text : List Char} {p q : Point} {s : Tokens} {m : Mark} {k : Keyword}

namespace Orderly

theorem peek_partOf (h : s.Orderly text) : s.peek.PartOf text := by
  obtain ⟨ahead, final⟩ := s
  cases ahead with
  | nil => exact h.partOf final List.mem_cons_self
  | cons t ts => exact h.partOf t List.mem_cons_self

theorem bump (h : s.Orderly text) : s.bump.Behind text s.peek.span.stop := by
  obtain ⟨ahead, final⟩ := s
  cases ahead with
  | nil => exact ⟨h, h.final⟩
  | cons t ts =>
    obtain ⟨hfirst, hrest⟩ := List.pairwise_cons.1 h.apart
    refine ⟨⟨fun u hu => h.partOf u (List.mem_cons_of_mem t hu), hrest, h.final⟩, ?_⟩
    cases ts with
    | nil => exact hfirst final List.mem_cons_self
    | cons u us => exact hfirst u List.mem_cons_self

theorem marks (h : s.Orderly text) (hk : s.peek.kind.isShape = false) : s.peek.span.Marks text :=
  h.peek_partOf.marks hk

theorem lies_fault (h : s.Orderly text) (cause : SyntaxError.Cause) : (s.fault cause).Lies text :=
  .spanning h.peek_partOf.lies rfl

theorem lies_misplaced (h : s.Orderly text) : s.misplaced.Lies text :=
  h.lies_fault _

end Orderly

namespace Behind

theorem mono (h : s.Behind text q) (hp : p ≤ q) : s.Behind text p :=
  ⟨h.toOrderly, hp.trans h.le⟩

theorem bump (h : s.Behind text p) : s.bump.Behind text p :=
  h.toOrderly.bump.mono (h.le.trans h.peek_partOf.lies.le)

end Behind

theorem isShape_of_atMark (h : s.atMark m = true) : s.peek.kind.isShape = false := by
  unfold atMark at h
  split at h
  · next hk => rw [hk]; rfl
  · cases h

theorem isShape_of_atKeyword (h : s.atKeyword k = true) : s.peek.kind.isShape = false := by
  unfold atKeyword at h
  split at h
  · next hk => rw [hk]; rfl
  · cases h

end Tokens

theorem Tokens.ofList_concat (us : List Token) (last : Token) :
    ofList (us ++ [last]) = ⟨us, last⟩ := by
  simp [ofList]

namespace Lexer

theorem State.exists_of_run {s : State} {ts : List Token} (h : s.run = .ok ts) :
    ∃ us span, ts = us ++ [⟨.eof, span⟩] := by
  obtain ⟨t, -, -, hend⟩ := State.finish_of_run (P := fun _ => True) (fun _ _ _ _ _ => trivial)
    (fun _ _ _ _ _ _ _ _ => trivial) trivial h
  unfold State.finish at hend
  split at hend <;> cases hend
  exact ⟨_, _, rfl⟩

theorem orderly_tokenize {text : String} {ts : List Token} (h : tokenize text = .ok ts) :
    (Tokens.ofList ts).Orderly text.toList := by
  have hscanned := State.scans_tokenize text
  rw [h] at hscanned
  obtain ⟨us, span, rfl⟩ := State.exists_of_run h
  have hpart : ∀ t ∈ us ++ [⟨.eof, span⟩], t.PartOf text.toList := fun t ht =>
    Scan.partOf hscanned t (List.mem_reverse.2 ht)
  rw [Tokens.ofList_concat]
  refine ⟨hpart, List.pairwise_reverse.1 (Scan.inOrder hscanned), ?_⟩
  obtain ⟨before, cs, after, -, rfl, hcs⟩ := hpart ⟨.eof, span⟩ (by simp)
  rw [show cs = [] from hcs, List.append_nil]
  exact le_refl _

end Lexer

namespace Grammar

def Gives (text : List Char) {α : Type} (P : α → Tokens → Prop) : Parsed (α × Tokens) → Prop
  | .ok (a, s) => P a s
  | .error e => e.Lies text

structure Spans (text : List Char) (p : Point) (e : Expr) (s : Tokens) : Prop where
  placed : e.Placed text e.span
  le : p ≤ e.span.start
  behind : s.Behind text e.span.stop

def SpansAll (text : List Char) (p : Point) (es : List Expr) (s : Tokens) : Prop :=
  ∃ q, p ≤ q ∧ Expr.AllPlaced text (.between p q) es ∧ s.Behind text q

section Spans

variable {text : List Char} {p : Point} {s rest : Tokens} {e : Expr}

theorem Gives.bind {α β : Type} {P : α → Tokens → Prop} {Q : β → Tokens → Prop}
    {x : Parsed (α × Tokens)} {f : α × Tokens → Parsed (β × Tokens)} (hx : Gives text P x)
    (hf : ∀ a s, P a s → Gives text Q (f (a, s))) : Gives text Q (x >>= f) := by
  cases x with
  | error e => exact hx
  | ok r => exact hf r.1 r.2 hx

theorem gives_expect (m : Mark) (hs : s.Orderly text) :
    Gives text (fun close t => close = s.peek.span ∧ close.Marks text ∧ t.Behind text close.stop)
      (expect m s) := by
  unfold expect
  split
  · next h => exact ⟨rfl, hs.marks (Tokens.isShape_of_atMark h), hs.bump⟩
  · exact hs.lies_fault _

theorem gives_endLine (hs : s.Orderly text) :
    Gives text (fun _ t => t.Orderly text) (endLine s) := by
  unfold endLine
  split
  · exact hs.bump.toOrderly
  · split
    · exact hs
    · exact hs.lies_misplaced

/-- A token and the expression behind it, as an operator or the word of a statement stands before
one. -/
theorem Spans.header (hs : s.Orderly text) (hk : s.peek.kind.isShape = false)
    (he : Spans text s.peek.span.stop e rest) :
    (s.peek.span.to e.span).Marks text ∧ e.Placed text (s.peek.span.to e.span) := by
  have hm := hs.marks hk
  have hstart : s.peek.span.start ≤ e.span.start := hm.le.trans he.le
  exact ⟨hm.to he.placed.span.1.toLies (hstart.trans he.placed.span.1.le),
    he.placed.mono (.to hstart (le_refl _))⟩

theorem Spans.unary (op : UnaryOp) (hs : s.Behind text p) (hk : s.peek.kind.isShape = false)
    (he : Spans text s.peek.span.stop e rest) :
    Spans text p (.unary op e (s.peek.span.to e.span)) rest := by
  obtain ⟨hm, hplaced⟩ := he.header hs.toOrderly hk
  exact ⟨⟨⟨hm, .refl _⟩, hplaced⟩, hs.le, he.behind⟩

theorem Spans.atom (hs : s.Behind text p) (h : atom? s.peek = some e) :
    Spans text p e s.bump := by
  have hm (hk : s.peek.kind.isShape = false) := hs.marks hk
  unfold atom? at h
  split at h <;> cases h
  all_goals
    next hk =>
      exact ⟨⟨hm (by rw [hk]; rfl), .refl _⟩, hs.le, hs.toOrderly.bump⟩

theorem Spans.enclosed {close : Span} (hs : s.Behind text p)
    (hk : s.peek.kind.isShape = false) (he : e.Placed text e.span)
    (hstart : s.peek.span.stop ≤ e.span.start) (hclose : close.Marks text)
    (hstop : e.span.stop ≤ close.start) (hrest : rest.Behind text close.stop) :
    Spans text p (e.withSpan (s.peek.span.to close)) rest := by
  have hm := hs.marks hk
  have hopen : s.peek.span.start ≤ e.span.start := hm.le.trans hstart
  have hend : e.span.stop ≤ close.stop := hstop.trans hclose.le
  have hwhole : (s.peek.span.to close).Marks text :=
    hm.to hclose.toLies (hopen.trans (he.span.1.le.trans hend))
  refine ⟨?_, ?_, ?_⟩
  · rw [Expr.span_withSpan]
    exact he.withSpan hwhole (.to hopen hend)
  · rw [Expr.span_withSpan]
    exact hs.le
  · rw [Expr.span_withSpan]
    exact hrest

theorem Spans.call {callee : Expr} {args : List Expr} {close : Span}
    (hcallee : Spans text p callee s) (hargs : SpansAll text callee.span.stop args rest)
    (hclose : close = rest.peek.span ∧ close.Marks text)
    {after : Tokens} (hafter : after.Behind text close.stop) :
    Spans text p (.call callee args (callee.span.to close)) after := by
  obtain ⟨q, hq, hplaced, hrest⟩ := hargs
  obtain ⟨rfl, hm⟩ := hclose
  have hend : q ≤ rest.peek.span.stop := hrest.le.trans hm.le
  have hlies := hcallee.placed.span.1
  have hwhole := hlies.to hm.toLies (hlies.le.trans (hq.trans hend))
  exact ⟨⟨⟨hwhole, .refl _⟩, hcallee.placed.mono (.to (le_refl _) (hq.trans hend)),
    Expr.Placed.all hplaced (.to hlies.le hend)⟩, hcallee.le, hafter⟩

end Spans

structure PlacesExpressions (text : List Char) (n : Nat) : Prop where
  expression : ∀ p s, s.Behind text p → Gives text (Spans text p) (expression n s)
  chain : ∀ p level s, s.Behind text p → Gives text (Spans text p) (chain n level s)
  more : ∀ p level left s, Spans text p left s → Gives text (Spans text p) (more n level left s)
  operand : ∀ p level s, s.Behind text p → Gives text (Spans text p) (operand n level s)
  negation : ∀ p s, s.Behind text p → Gives text (Spans text p) (negation n s)
  signed : ∀ p s, s.Behind text p → Gives text (Spans text p) (signed n s)
  primary : ∀ p s, s.Behind text p → Gives text (Spans text p) (primary n s)
  calls : ∀ p callee s, Spans text p callee s → Gives text (Spans text p) (calls n callee s)
  arguments : ∀ p s, s.Behind text p → Gives text (SpansAll text p) (arguments n s)

theorem placesExpressions (text : List Char) (n : Nat) : PlacesExpressions text n := by
  induction n with
  | zero =>
    constructor
    case more => exact fun _ _ _ _ hs => hs.behind.lies_misplaced
    case calls => exact fun _ _ _ hs => hs.behind.lies_misplaced
    all_goals
      intros
      exact Tokens.Orderly.lies_misplaced (Tokens.Behind.toOrderly ‹_›)
  | succ n ih =>
    constructor
    case expression =>
      intro p s hs
      exact ih.chain p _ s hs
    case chain =>
      intro p level s hs
      exact .bind (ih.operand p level s hs) fun left s hl => ih.more p level left s hl
    case more =>
      intro p level left s hl
      unfold Grammar.more
      split
      · exact hl
      · exact .bind (ih.operand _ level _ hl.behind.bump) fun right s hr =>
          ih.more p level _ s ⟨hl.placed.joined _ hr.placed hr.le, hl.le, hr.behind⟩
    case operand =>
      intro p level s hs
      cases level with
      | disjunction => exact ih.chain p _ s hs
      | conjunction => exact ih.negation p s hs
      | comparison => exact ih.chain p _ s hs
      | sum => exact ih.chain p _ s hs
      | product => exact ih.signed p s hs
    case negation =>
      intro p s hs
      unfold Grammar.negation
      split
      · next h =>
        exact .bind (ih.negation _ _ hs.toOrderly.bump) fun e rest he =>
          he.unary _ hs (Tokens.isShape_of_atKeyword h)
      · exact ih.chain p _ s hs
    case signed =>
      intro p s hs
      unfold Grammar.signed
      split
      · next h =>
        exact .bind (ih.signed _ _ hs.toOrderly.bump) fun e rest he =>
          he.unary _ hs (Tokens.isShape_of_atMark h)
      · split
        · exact ih.signed p _ hs.bump
        · exact .bind (ih.primary p s hs) fun e s he => ih.calls p e s he
    case primary =>
      intro p s hs
      unfold Grammar.primary
      split
      · next h => exact Spans.atom hs h
      · split
        · next h =>
          refine .bind (ih.expression _ _ hs.toOrderly.bump) fun e rest he => ?_
          refine .bind (gives_expect _ he.behind.toOrderly) fun close rest' hclose => ?_
          obtain ⟨rfl, hm, hrest⟩ := hclose
          exact .enclosed hs (Tokens.isShape_of_atMark h) he.placed he.le hm he.behind.le hrest
        · exact hs.lies_misplaced
    case calls =>
      intro p callee s hc
      unfold Grammar.calls
      split
      · have closed (args : List Expr) (s : Tokens)
            (hargs : SpansAll text callee.span.stop args s) :
            Gives text (Spans text p) (expect .closeParen s >>= fun r =>
              calls n (.call callee args (callee.span.to r.1)) r.2) := by
          have hs : s.Orderly text := hargs.choose_spec.2.2.toOrderly
          exact .bind (gives_expect _ hs) fun close rest hclose =>
            ih.calls p _ rest (hc.call hargs ⟨hclose.1, hclose.2.1⟩ hclose.2.2)
        dsimp only
        split
        · exact closed [] _ ⟨_, le_refl _, trivial, hc.behind.bump⟩
        · exact .bind (ih.arguments _ _ hc.behind.bump) closed
      · exact hc
    case arguments =>
      intro p s hs
      unfold Grammar.arguments
      refine .bind (ih.expression p s hs) fun e s he => ?_
      have hstop : p ≤ e.span.stop := he.le.trans he.placed.span.1.le
      have hfirst {q : Point} (hq : e.span.stop ≤ q) : e.Placed text (.between p q) :=
        he.placed.mono ⟨he.le, hq⟩
      dsimp only
      split
      · refine .bind (ih.arguments _ _ he.behind.bump) fun es s hes => ?_
        obtain ⟨q, hq, hplaced, hs⟩ := hes
        exact ⟨q, hstop.trans hq, ⟨hfirst hq, Expr.Placed.all hplaced ⟨hstop, le_refl q⟩⟩, hs⟩
      · refine ⟨_, hstop, ⟨hfirst (le_refl _), trivial⟩, ?_⟩
        split
        · exact he.behind.bump
        · exact he.behind

theorem spans_expression {text : List Char} (n : Nat) {p : Point} {s : Tokens}
    (hs : s.Behind text p) : Gives text (Spans text p) (expression n s) :=
  (placesExpressions text n).expression p s hs

/-! Statements. What stands before them does not matter, so only the order of the tokens is kept. -/

section Statements

variable {text : List Char} {s : Tokens}

theorem behind_parameters (seen : List String) (n : Nat) {p : Point} (hs : s.Behind text p) :
    Gives text (fun _ t => t.Behind text p) (parameters seen n s) := by
  induction n generalizing seen s with
  | zero => exact hs.lies_misplaced
  | succ n ih =>
    unfold parameters
    split
    · dsimp only
      split
      · exact hs.lies_fault _
      split
      · exact hs.bump
      split
      · exact hs.bump.bump
      · exact ih _ hs.bump.bump
    · exact hs.lies_fault _

def Puts (text : List Char) (st : Stmt) (s : Tokens) : Prop :=
  st.Placed text ∧ s.Orderly text

theorem puts_assignment (n : Nat) (hs : s.Orderly text) :
    Gives text (Puts text) (assignment n s) := by
  unfold assignment
  refine .bind (spans_expression n ⟨hs, le_refl _⟩) fun e s he => ?_
  have hlies := he.placed.span.1
  dsimp only
  split
  · next h =>
    have hassign := he.behind.marks (Tokens.isShape_of_atMark h)
    split
    · next target span =>
      refine .bind (spans_expression n he.behind.toOrderly.bump) fun value rest hv => ?_
      have hstart : span.start ≤ value.span.start :=
        hlies.le.trans (he.behind.le.trans (hassign.le.trans hv.le))
      have hvalue := hv.placed.span.1
      exact ⟨⟨hlies.to hvalue.toLies (hstart.trans hvalue.le),
        hv.placed.mono (.to hstart (le_refl _))⟩, hv.behind.toOrderly⟩
    · refine .spanning (hlies.to hassign.toLies ?_).toLies rfl
      exact hlies.le.trans (he.behind.le.trans hassign.le)
  · exact ⟨he.placed, he.behind.toOrderly⟩

theorem puts_simple (n : Nat) (hs : s.Orderly text) : Gives text (Puts text) (simple n s) := by
  unfold simple
  split
  · next h => exact ⟨hs.marks (Tokens.isShape_of_atKeyword h), hs.bump.toOrderly⟩
  split
  · next h =>
    have hk := Tokens.isShape_of_atKeyword h
    split
    · refine ⟨⟨hs.marks hk, ?_⟩, hs.bump.toOrderly⟩
      rintro e ⟨⟩
    · refine .bind (spans_expression n hs.bump) fun value rest hv => ?_
      obtain ⟨hm, hplaced⟩ := hv.header hs hk
      refine ⟨⟨hm, ?_⟩, hv.behind.toOrderly⟩
      rintro e ⟨⟩
      exact hplaced
  split
  · exact hs.lies_misplaced
  · exact puts_assignment n hs

theorem puts_simpleLine (n : Nat) (hs : s.Orderly text) :
    Gives text (Puts text) (simpleLine n s) :=
  .bind (puts_simple n hs) fun _ _ hst => .bind (gives_endLine hst.2) fun _ _ hs => ⟨hst.1, hs⟩

theorem gives_signature (n : Nat) {p : Point} (hs : s.Behind text p) :
    Gives text (fun sig t => sig.2.2.Marks text ∧ p ≤ sig.2.2.stop ∧ t.Orderly text)
      (signature n s) := by
  unfold signature
  split
  · next name _ =>
    have closed (params : List String) (s : Tokens) (hs : s.Behind text p) :
        Gives text (fun sig t => sig.2.2.Marks text ∧ p ≤ sig.2.2.stop ∧ t.Orderly text)
          (expect .closeParen s >>= fun r => .ok ((name, params, r.1), r.2)) := by
      refine .bind (gives_expect _ hs.toOrderly) fun close rest hclose => ?_
      obtain ⟨rfl, hm, hrest⟩ := hclose
      exact ⟨hm, hs.le.trans hm.le, hrest.toOrderly⟩
    refine .bind (gives_expect _ hs.bump.toOrderly) fun _ t hopen => ?_
    obtain ⟨rfl, hm, ht⟩ := hopen
    have ht : t.Behind text p := ht.mono (hs.bump.le.trans hm.le)
    dsimp only
    split
    · exact closed [] t ht
    · exact .bind (behind_parameters _ n ht) closed
  · exact hs.lies_fault _

structure PlacesStatements (text : List Char) (n : Nat) : Prop where
  statement : ∀ s, s.Orderly text → Gives text (Puts text) (statement n s)
  branches : ∀ s, s.Orderly text →
    Gives text (fun c t => c.Placed text ∧ t.Orderly text) (branches n s)
  block : ∀ s, s.Orderly text →
    Gives text (fun sts t => Stmt.AllPlaced text sts ∧ t.Orderly text) (block n s)
  statements : ∀ s, s.Orderly text →
    Gives text (fun sts t => Stmt.AllPlaced text sts ∧ t.Orderly text) (statements n s)

theorem placesStatements (text : List Char) (n : Nat) : PlacesStatements text n := by
  induction n with
  | zero => constructor <;> exact fun _ hs => hs.lies_misplaced
  | succ n ih =>
    constructor
    case statement =>
      intro s hs
      unfold Grammar.statement
      split
      · next h =>
        refine .bind (spans_expression n hs.bump) fun test rest ht => ?_
        refine .bind (ih.block rest ht.behind.toOrderly) fun body rest hb => ?_
        refine .bind (ih.branches rest hb.2) fun others rest ho => ?_
        exact ⟨⟨ht.header hs (Tokens.isShape_of_atKeyword h), hb.1, ho.1⟩, ho.2⟩
      split
      · next h =>
        refine .bind (spans_expression n hs.bump) fun test rest ht => ?_
        refine .bind (ih.block rest ht.behind.toOrderly) fun body rest hb => ?_
        exact ⟨⟨ht.header hs (Tokens.isShape_of_atKeyword h), hb.1⟩, hb.2⟩
      split
      · next h =>
        have hm := hs.marks (Tokens.isShape_of_atKeyword h)
        refine .bind (gives_signature n hs.bump) fun sig rest hsig => ?_
        refine .bind (ih.block rest hsig.2.2) fun body rest hb => ?_
        exact ⟨⟨hm.to hsig.1.toLies (hm.le.trans hsig.2.1), hb.1⟩, hb.2⟩
      · exact puts_simpleLine n hs
    case branches =>
      intro s hs
      unfold Grammar.branches
      split
      · next h =>
        refine .bind (spans_expression n hs.bump) fun test rest ht => ?_
        refine .bind (ih.block rest ht.behind.toOrderly) fun body rest hb => ?_
        refine .bind (ih.branches rest hb.2) fun others rest ho => ?_
        exact ⟨⟨ht.header hs (Tokens.isShape_of_atKeyword h), hb.1, ho.1⟩, ho.2⟩
      split
      · exact .bind (ih.block _ hs.bump.toOrderly) fun body rest hb => hb
      · exact ⟨trivial, hs⟩
    case block =>
      intro s hs
      unfold Grammar.block
      refine .bind (gives_expect _ hs) fun close s hclose => ?_
      have hs := hclose.2.2.toOrderly
      dsimp only
      split
      · split
        · exact ih.statements _ hs.bump.bump.toOrderly
        · exact hs.bump.lies_fault _
      · exact .bind (puts_simpleLine n hs) fun st s hst => ⟨⟨hst.1, trivial⟩, hst.2⟩
    case statements =>
      intro s hs
      unfold Grammar.statements
      split
      · exact ⟨trivial, hs.bump.toOrderly⟩
      split
      · exact ⟨trivial, hs⟩
      split
      · exact ih.statements _ hs.bump.toOrderly
      · exact .bind (ih.statement s hs) fun st s hst =>
          .bind (ih.statements s hst.2) fun sts s hsts => ⟨⟨hst.1, hsts.1⟩, hsts.2⟩

theorem places_program (n : Nat) (hs : s.Orderly text) :
    Gives text (fun sts t => Stmt.AllPlaced text sts ∧ t.Orderly text) (program n s) := by
  induction n generalizing s with
  | zero => exact hs.lies_misplaced
  | succ n ih =>
    unfold program
    split
    · exact ⟨trivial, hs⟩
    split
    · exact ih hs.bump.toOrderly
    · exact .bind ((placesStatements text n).statement s hs) fun st s hst =>
        .bind (ih hst.2) fun sts s hsts => ⟨⟨hst.1, hsts.1⟩, hsts.2⟩

end Statements

end Grammar

theorem places_parse (text : String) :
    match parse text with
    | .ok body => Stmt.AllPlaced text.toList body
    | .error e => e.Lies text.toList := by
  have hscanned := Lexer.State.scans_tokenize text
  unfold parse
  cases ht : Lexer.tokenize text with
  | error e =>
    rw [ht] at hscanned
    exact hscanned
  | ok ts =>
    have hgives := Grammar.places_program (Grammar.depthBound (.ofList ts))
      (Lexer.orderly_tokenize ht)
    simp only [bind, Except.bind]
    cases hr : Grammar.program (Grammar.depthBound (.ofList ts)) (.ofList ts) with
    | error e =>
      rw [hr] at hgives
      exact hgives
    | ok r =>
      rw [hr] at hgives
      exact hgives.1

end Stepwise.Source
