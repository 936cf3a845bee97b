import Stepwise.Proofs.Source.Sound

/-! What is of the grammar the parser takes. Reading the tokens of an expression leads the parser
to the loop of its rank with the expression in hand; what follows decides whether the loop goes on.
The bound on the depth of the descent is never reached, since each token pays for sixteen steps. -/

namespace Stepwise.Source

def Token.Kind.follows : Token.Kind → Option Rank
  | .keyword .or => some .disjunction
  | .keyword .and => some .conjunction
  | .mark .equal | .mark .unequal => some .comparison
  | .mark .less | .mark .lessEqual => some .comparison
  | .mark .greater | .mark .greaterEqual => some .comparison
  | .mark .plus | .mark .minus => some .sum
  | .mark .star | .mark .slash => some .product
  | .mark .doubleSlash | .mark .percent => some .product
  | .mark .openParen => some .application
  | _ => none

def Token.Kind.begins : Token.Kind → Option Rank
  | .keyword .not => some .negation
  | .mark .minus | .mark .plus => some .sign
  | .name _ | .int _ | .float _ | .str _ => some .application
  | .keyword .true | .keyword .false | .keyword .none => some .application
  | .mark .openParen => some .application
  | _ => none

theorem follows_operator (op : BinaryOp) : op.kind.follows = some op.rank := by
  obtain op | op | op := op <;> cases op <;> rfl

theorem begins_literal (v : Literal) : v.kind.begins = some .application := by
  cases v with
  | bool b => cases b <;> rfl
  | _ => rfl

namespace Tokens

variable {s : Tokens} {ts : List Token} {t : Token} {k : Token.Kind}

@[simp] theorem peek_prepend (t : Token) (ts : List Token) (s : Tokens) :
    (s.prepend (t :: ts)).peek = t := rfl

@[simp] theorem bump_prepend (t : Token) (ts : List Token) (s : Tokens) :
    (s.prepend (t :: ts)).bump = s.prepend ts := rfl

@[simp] theorem prepend_nil (s : Tokens) : s.prepend [] = s := rfl

theorem atMark_of_kind {m : Mark} (h : s.peek.kind = .mark m) : s.atMark m = true := by
  simp [atMark, h]

theorem atKeyword_of_kind {w : Keyword} (h : s.peek.kind = .keyword w) :
    s.atKeyword w = true := by
  simp [atKeyword, h]

theorem not_atMark {m : Mark} (h : s.peek.kind ≠ .mark m) : ¬ s.atMark m = true :=
  mt kind_of_atMark h

theorem not_atKeyword {w : Keyword} (h : s.peek.kind ≠ .keyword w) : ¬ s.atKeyword w = true :=
  mt kind_of_atKeyword h

def Stops (r : Rank) (s : Tokens) : Prop :=
  ∀ q, s.peek.kind.follows = some q → q.depth < r.depth

def StopsInside (r : Rank) (s : Tokens) : Prop :=
  ∀ q, s.peek.kind.follows = some q → q.depth ≤ r.depth

theorem stops_of_eq (h : s.peek.kind = k) (hk : k.follows = none) (r : Rank) : s.Stops r := by
  intro q hq
  rw [h, hk] at hq
  cases hq

theorem Stops.inside {r : Rank} (h : s.Stops r) : s.StopsInside r :=
  fun q hq => (h q hq).le

end Tokens

namespace Grammar

def parserAt : Rank → Nat → Tokens → Parsed (Expr × Tokens)
  | .disjunction, n, s => chain n .disjunction s
  | .conjunction, n, s => chain n .conjunction s
  | .negation, n, s => negation n s
  | .comparison, n, s => chain n .comparison s
  | .sum, n, s => chain n .sum s
  | .product, n, s => chain n .product s
  | .sign, n, s => signed n s
  | .application, n, s => primary n s >>= fun r => calls n r.1 r.2

def goOn : Rank → Nat → Expr → Tokens → Parsed (Expr × Tokens)
  | .disjunction, n, e, s => more n .disjunction e s
  | .conjunction, n, e, s => more n .conjunction e s
  | .comparison, n, e, s => more n .comparison e s
  | .sum, n, e, s => more n .sum e s
  | .product, n, e, s => more n .product e s
  | .application, n, e, s => calls n e s
  | .negation, _, e, s | .sign, _, e, s => .ok (e, s)

def Leads (r : Rank) (ts : List Token) (e : Expr) : Prop :=
  ∀ n s, 16 * ts.length ≤ n + r.depth → s.StopsInside r →
    ∃ m, n ≤ m + ts.length ∧ parserAt r n (s.prepend ts) = goOn r m e s

def Begins (r : Rank) (ts : List Token) : Prop :=
  ∃ t us q, ts = t :: us ∧ t.kind.begins = some q ∧ r.depth ≤ q.depth

theorem goOn_rank (level : Level) (n : Nat) (e : Expr) (s : Tokens) :
    goOn level.rank n e s = more n level e s := by
  cases level <;> rfl

theorem more_succ {level : Level} {n : Nat} {op : BinaryOp} {left : Expr} {s : Tokens}
    (h : level.operator? s.peek.kind = some op) :
    more (n + 1) level left s =
      operand n level s.bump >>= fun r => more n level (.joined op left r.1) r.2 := by
  rw [more, h]

theorem operand_succ (n : Nat) (level : Level) (s : Tokens) :
    operand (n + 1) level s = parserAt level.rank.next n s := by
  cases level <;> rfl

theorem goOn_stops {r : Rank} {n : Nat} {e : Expr} {s : Tokens} (hn : 0 < n) (hs : s.Stops r) :
    goOn r n e s = .ok (e, s) := by
  obtain ⟨n, rfl⟩ := Nat.exists_eq_add_of_lt hn
  have hmore (level : Level) (hlevel : level.rank = r) :
      more (0 + n + 1) level e s = .ok (e, s) := by
    unfold more
    have hnone : level.operator? s.peek.kind = none := by
      by_contra hop
      obtain ⟨op, hop⟩ := Option.ne_none_iff_exists'.1 hop
      obtain ⟨hrank, hkind⟩ := operator_eq_some hop
      have := hs op.rank (hkind ▸ follows_operator op)
      rw [hrank, hlevel] at this
      exact absurd this (lt_irrefl _)
    rw [hnone]
  cases r with
  | negation | sign => rfl
  | application =>
    unfold goOn calls
    refine if_neg (Tokens.not_atMark fun hk => ?_)
    exact absurd (hs .application (by rw [hk]; rfl)) (lt_irrefl _)
  | disjunction => exact hmore .disjunction rfl
  | conjunction => exact hmore .conjunction rfl
  | comparison => exact hmore .comparison rfl
  | sum => exact hmore .sum rfl
  | product => exact hmore .product rfl

theorem Leads.reads {r : Rank} {ts : List Token} {e : Expr} (h : Leads r ts e) (hne : ts ≠ [])
    {n : Nat} {s : Tokens} (hn : 16 * ts.length ≤ n + r.depth) (hs : s.Stops r) :
    parserAt r n (s.prepend ts) = .ok (e, s) := by
  obtain ⟨m, hm, hgo⟩ := h n s hn hs.inside
  have hlen := List.length_pos_of_ne_nil hne
  have hdepth := r.depth_le
  rw [hgo, goOn_stops (by omega) hs]

theorem parserAt_tighter {r : Rank} (hr : r ≠ .application) {q : Rank} {n : Nat} {e : Expr}
    {s rest : Tokens} (h : parserAt r.next n s = .ok (e, rest))
    (hbegins : s.peek.kind.begins = some q) (hdepth : r.next.depth ≤ q.depth) :
    parserAt r (n + (r.next.depth - r.depth)) s =
      goOn r (n + (r.next.depth - r.depth) - 1) e rest := by
  have hloop (level : Level) (m : Nat) (x : Parsed (Expr × Tokens)) (hx : x = .ok (e, rest)) :
      (x >>= fun r => more m level r.1 r.2) = more m level e rest := by
    rw [hx]
    rfl
  cases r with
  | disjunction => exact hloop .disjunction (n + 1) _ h
  | conjunction => exact hloop .conjunction (n + 1) _ h
  | comparison => exact hloop .comparison (n + 1) _ h
  | sum => exact hloop .sum (n + 1) _ h
  | product => exact hloop .product (n + 1) _ h
  | negation =>
    have hnot : s.peek.kind ≠ .keyword .not := by
      rintro hk
      rw [hk] at hbegins
      cases hbegins
      exact absurd hdepth (by decide)
    exact (if_neg (Tokens.not_atKeyword hnot)).trans h
  | sign =>
    have hsign (m : Mark) (hm : (Token.Kind.mark m).begins = some .sign) :
        ¬ s.atMark m = true := by
      refine Tokens.not_atMark fun hk => ?_
      rw [hk, hm] at hbegins
      cases hbegins
      exact absurd hdepth (by decide)
    exact (if_neg (hsign .minus rfl)).trans ((if_neg (hsign .plus rfl)).trans h)
  | application => exact absurd rfl hr

theorem Leads.tighter {r : Rank} {ts : List Token} {e : Expr} (h : Leads r.next ts e)
    (hb : Begins r.next ts) : Leads r ts e := by
  by_cases hr : r = .application
  · subst hr
    exact h
  intro n s hn hs
  obtain ⟨t, us, q, rfl, hq, hdepth⟩ := hb
  have hnext : r.depth < r.next.depth := by cases r <;> first | decide | exact absurd rfl hr
  have hle := r.depth_le
  have hnextle := r.next.depth_le
  have hlen : (t :: us).length = us.length + 1 := rfl
  obtain ⟨k, rfl⟩ : ∃ k, n = k + (r.next.depth - r.depth) :=
    ⟨n - (r.next.depth - r.depth), by omega⟩
  have hread := h.reads (List.cons_ne_nil t us) (n := k) (s := s) (by omega)
    fun q hq => (hs q hq).trans_lt hnext
  exact ⟨_, by omega, parserAt_tighter hr hread hq hdepth⟩

theorem Leads.joined {r : Rank} {op : BinaryOp} {ts us : List Token} {o : Token} {left right : Expr}
    (hl : Leads r ts left) (hop : op.rank = r) (ho : o.kind = op.kind) (hr : Leads r.next us right)
    (hne : ts ≠ []) (hb : us ≠ []) : Leads r (ts ++ o :: us) (.joined op left right) := by
  intro n s hn hs
  have hlevel : ∃ level : Level, level.rank = r := by
    subst hop
    obtain op | op | op := op <;> cases op <;>
      first | exact ⟨.disjunction, rfl⟩ | exact ⟨.conjunction, rfl⟩ | exact ⟨.comparison, rfl⟩ |
        exact ⟨.sum, rfl⟩ | exact ⟨.product, rfl⟩
  obtain ⟨level, rfl⟩ := hlevel
  simp only [List.length_append, List.length_cons] at hn ⊢
  have hlen := List.length_pos_of_ne_nil hne
  have hle := level.rank.depth_le
  have hstops : (s.prepend (o :: us)).StopsInside level.rank := by
    intro q hq
    rw [Tokens.peek_prepend, ho, follows_operator, hop] at hq
    cases hq
    exact le_refl _
  obtain ⟨m, hm, hgo⟩ := hl n (s.prepend (o :: us)) (by omega) hstops
  obtain ⟨k, rfl⟩ : ∃ k, m = k + 3 := ⟨m - 3, by omega⟩
  have hgap : level.rank.next.depth = level.rank.depth + 2 := by cases level <;> rfl
  have hread := hr.reads hb (n := k + 1) (s := s) (by omega)
    fun q hq => (hs q hq).trans_lt (by omega)
  refine ⟨k + 2, by omega, ?_⟩
  have hnext : level.operator? (s.prepend (o :: us)).peek.kind = some op := by
    rw [Tokens.peek_prepend, ho, operator_kind hop]
  rw [Tokens.prepend_append, hgo, goOn_rank, goOn_rank, more_succ hnext, Tokens.bump_prepend,
    operand_succ, hread]
  rfl

theorem Leads.prefixed {r : Rank} {ts : List Token} {o : Token} {e whole : Expr}
    (hr : ∀ n e s, goOn r n e s = .ok (e, s)) (h : Leads r ts e)
    (hstep : ∀ n s, parserAt r n (s.prepend ts) = .ok (e, s) →
      parserAt r (n + 1) (s.prepend (o :: ts)) = .ok (whole, s)) : Leads r (o :: ts) whole := by
  intro n s hn hs
  rw [List.length_cons] at hn ⊢
  have hle := r.depth_le
  obtain ⟨k, rfl⟩ : ∃ k, n = k + 1 := ⟨n - 1, by omega⟩
  obtain ⟨m, -, hread⟩ := h k s (by omega) hs
  rw [hr] at hread
  exact ⟨k + 1, by omega, by rw [hr, hstep k s hread]⟩

theorem Leads.not {ts : List Token} {o : Token} {e : Expr} (h : Leads .negation ts e)
    (ho : o.kind = .keyword .not) :
    Leads .negation (o :: ts) (.unary .not e (o.span.to e.span)) := by
  refine h.prefixed (fun _ _ _ => rfl) fun n s hread => ?_
  have hnot : (s.prepend (o :: ts)).atKeyword .not = true := Tokens.atKeyword_of_kind ho
  rw [parserAt] at hread ⊢
  rw [negation, if_pos hnot, Tokens.bump_prepend, hread]
  rfl

theorem Leads.neg {ts : List Token} {o : Token} {e : Expr} (h : Leads .sign ts e)
    (ho : o.kind = .mark .minus) : Leads .sign (o :: ts) (.unary .neg e (o.span.to e.span)) := by
  refine h.prefixed (fun _ _ _ => rfl) fun n s hread => ?_
  have hminus : (s.prepend (o :: ts)).atMark .minus = true := Tokens.atMark_of_kind ho
  rw [parserAt] at hread ⊢
  rw [signed, if_pos hminus, Tokens.bump_prepend, hread]
  rfl

theorem Leads.plus {ts : List Token} {o : Token} {e : Expr} (h : Leads .sign ts e)
    (ho : o.kind = .mark .plus) : Leads .sign (o :: ts) e := by
  refine h.prefixed (fun _ _ _ => rfl) fun n s hread => ?_
  have hplus : (s.prepend (o :: ts)).atMark .plus = true := Tokens.atMark_of_kind ho
  have hminus : ¬ (s.prepend (o :: ts)).atMark .minus = true :=
    Tokens.not_atMark (by rw [Tokens.peek_prepend, ho]; nofun)
  rw [parserAt] at hread ⊢
  rw [signed, if_neg hminus, if_pos hplus, Tokens.bump_prepend, hread]

theorem Leads.atom {t : Token} {e : Expr} (h : atom? t = some e) : Leads .application [t] e := by
  intro n s hn hs
  have hle : Rank.application.depth = 13 := rfl
  rw [List.length_singleton] at hn ⊢
  obtain ⟨k, rfl⟩ : ∃ k, n = k + 1 := ⟨n - 1, by omega⟩
  refine ⟨k + 1, by omega, ?_⟩
  have hread : primary (k + 1) (s.prepend [t]) = .ok (e, s) := by
    rw [primary, Tokens.peek_prepend, h]
    rfl
  change (primary (k + 1) (s.prepend [t]) >>= _) = _
  rw [hread]
  rfl

theorem expect_of_kind {m : Mark} {s : Tokens} (h : s.peek.kind = .mark m) :
    expect m s = .ok (s.peek.span, s.bump) :=
  if_pos (Tokens.atMark_of_kind h)

theorem Leads.expression {ts : List Token} {e : Expr} (h : Leads .disjunction ts e) (hne : ts ≠ [])
    {n : Nat} {s : Tokens} (hn : 16 * ts.length ≤ n) (hs : s.Stops .disjunction) :
    expression n (s.prepend ts) = .ok (e, s) := by
  have hlen := List.length_pos_of_ne_nil hne
  obtain ⟨k, rfl⟩ : ∃ k, n = k + 1 := ⟨n - 1, by omega⟩
  exact h.reads hne (n := k) (by exact hn) hs

theorem Leads.enclosed {ts : List Token} {o c : Token} {e : Expr} (h : Leads .disjunction ts e)
    (ho : o.kind = .mark .openParen) (hne : ts ≠ []) (hc : c.kind = .mark .closeParen) :
    Leads .application (o :: (ts ++ [c])) (e.withSpan (o.span.to c.span)) := by
  intro n s hn hs
  have hle : Rank.application.depth = 13 := rfl
  simp only [List.length_cons, List.length_append, List.length_nil] at hn ⊢
  obtain ⟨k, rfl⟩ : ∃ k, n = k + 1 := ⟨n - 1, by omega⟩
  refine ⟨k + 1, by omega, ?_⟩
  have hinside := h.expression hne (n := k) (s := s.prepend [c]) (by omega)
    (Tokens.stops_of_eq (s := s.prepend [c]) hc rfl _)
  have hread : primary (k + 1) (s.prepend (o :: (ts ++ [c]))) =
      .ok (e.withSpan (o.span.to c.span), s) := by
    have hatom : atom? (s.prepend (o :: (ts ++ [c]))).peek = none := by
      rw [Tokens.peek_prepend, atom?, ho]
    rw [primary, hatom, if_pos (Tokens.atMark_of_kind (s := s.prepend (o :: (ts ++ [c]))) ho),
      Tokens.bump_prepend, Tokens.prepend_append, hinside]
    simp only [bind, Except.bind, expect_of_kind (s := s.prepend [c]) hc]
    rfl
  change (primary (k + 1) _ >>= _) = _
  rw [hread]
  rfl

def ReadsArguments (ts : List Token) (args : List Expr) : Prop :=
  ts = [] ∧ args = [] ∨ Begins .disjunction ts ∧ ∀ n s, s.peek.kind = .mark .closeParen →
    16 * ts.length < n → arguments n (s.prepend ts) = .ok (args, s)

theorem Begins.ne_nil {r : Rank} {ts : List Token} (h : Begins r ts) : ts ≠ [] := by
  obtain ⟨t, us, q, rfl, -⟩ := h
  exact List.cons_ne_nil t us

theorem Begins.not_atMark {r : Rank} {ts : List Token} (h : Begins r ts) {m : Mark}
    (hm : (Token.Kind.mark m).begins = none) (s : Tokens) :
    ¬ (s.prepend ts).atMark m = true := by
  obtain ⟨t, us, q, rfl, hq, -⟩ := h
  refine Tokens.not_atMark fun hk => ?_
  rw [Tokens.peek_prepend] at hk
  rw [hk, hm] at hq
  cases hq

theorem ReadsArguments.last {ts : List Token} {e : Expr} (h : Leads .disjunction ts e)
    (hb : Begins .disjunction ts) : ReadsArguments ts [e] := by
  refine .inr ⟨hb, fun n s hs hn => ?_⟩
  obtain ⟨k, rfl⟩ : ∃ k, n = k + 1 := ⟨n - 1, by omega⟩
  have hread := h.expression hb.ne_nil (n := k) (by omega) (Tokens.stops_of_eq hs rfl _)
  have hcomma : s.atMark .comma = false :=
    Bool.eq_false_iff.2 (Tokens.not_atMark (by rw [hs]; nofun))
  rw [arguments, hread]
  simp only [bind, Except.bind, hcomma]
  rfl

theorem ReadsArguments.cons {ts us : List Token} {c : Token} {e : Expr} {es : List Expr}
    (h : Leads .disjunction ts e) (hb : Begins .disjunction ts) (hc : c.kind = .mark .comma)
    (hs : ReadsArguments us es) : ReadsArguments (ts ++ c :: us) (e :: es) := by
  obtain ⟨t, vs, q, rfl, hq⟩ := hb
  refine .inr ⟨⟨t, vs ++ c :: us, q, rfl, hq⟩, fun n s hclose hn => ?_⟩
  simp only [List.length_append, List.length_cons] at hn
  obtain ⟨k, rfl⟩ : ∃ k, n = k + 1 := ⟨n - 1, by omega⟩
  have hread := h.expression (List.cons_ne_nil t vs) (n := k) (s := s.prepend (c :: us))
    (by simp only [List.length_cons]; omega)
    (Tokens.stops_of_eq (s := s.prepend (c :: us)) hc rfl _)
  have hcomma : (s.prepend (c :: us)).atMark .comma = true := Tokens.atMark_of_kind hc
  rw [arguments, Tokens.prepend_append, hread]
  simp only [bind, Except.bind, hcomma, Tokens.bump_prepend, Bool.true_and, if_true]
  obtain ⟨rfl, rfl⟩ | ⟨hb, hs⟩ := hs
  · rw [Tokens.prepend_nil, Tokens.atMark_of_kind hclose]
    rfl
  · rw [Bool.eq_false_iff.2 (hb.not_atMark rfl s), hs k s hclose (by omega)]
    rfl

theorem Leads.call {ts us : List Token} {o c : Token} {callee : Expr} {args : List Expr}
    (hf : Leads .application ts callee) (hne : ts ≠ []) (ho : o.kind = .mark .openParen)
    (ha : ReadsArguments us args) (hc : c.kind = .mark .closeParen) :
    Leads .application (ts ++ o :: (us ++ [c])) (.call callee args (callee.span.to c.span)) := by
  intro n s hn hs
  have hle : Rank.application.depth = 13 := rfl
  have hlen := List.length_pos_of_ne_nil hne
  simp only [List.length_cons, List.length_append, List.length_nil] at hn ⊢
  have hinside : (s.prepend (o :: (us ++ [c]))).StopsInside .application := by
    intro q hq
    have := q.depth_le
    omega
  obtain ⟨m, hm, hgo⟩ := hf n (s.prepend (o :: (us ++ [c]))) (by omega) hinside
  obtain ⟨k, rfl⟩ : ∃ k, m = k + 1 := ⟨m - 1, by omega⟩
  refine ⟨k, by omega, ?_⟩
  rw [Tokens.prepend_append, hgo, goOn, goOn, calls]
  have hopen : (s.prepend (o :: (us ++ [c]))).atMark .openParen = true := Tokens.atMark_of_kind ho
  have hclosing : (s.prepend [c]).peek.kind = .mark .closeParen := hc
  have hclose := expect_of_kind hclosing
  rw [if_pos hopen, Tokens.bump_prepend, Tokens.prepend_append]
  obtain ⟨rfl, rfl⟩ | ⟨hb, hread⟩ := ha
  · rw [Tokens.prepend_nil, if_pos (Tokens.atMark_of_kind hclosing)]
    simp only [bind, Except.bind, hclose]
    rfl
  · rw [if_neg (hb.not_atMark rfl _), hread k (s.prepend [c]) hc (by omega)]
    simp only [bind, Except.bind, hclose]
    rfl

theorem Expression.begins : ∀ {r ts e}, Expression r ts e → Begins r ts
  | _, _, _, .literal h => ⟨_, _, .application, rfl, by rw [h]; exact begins_literal _, le_refl _⟩
  | _, _, _, .name h => ⟨_, _, .application, rfl, by rw [h]; rfl, le_refl _⟩
  | _, _, _, .enclosed ho _ _ => ⟨_, _, .application, rfl, by rw [ho]; rfl, le_refl _⟩
  | _, _, _, .call hf _ _ _ => by
    obtain ⟨t, us, q, rfl, hq⟩ := hf.begins
    exact ⟨t, _, q, rfl, hq⟩
  | _, _, _, .neg ho _ => ⟨_, _, .sign, rfl, by rw [ho]; rfl, le_refl _⟩
  | _, _, _, .plus ho _ => ⟨_, _, .sign, rfl, by rw [ho]; rfl, le_refl _⟩
  | _, _, _, .not ho _ => ⟨_, _, .negation, rfl, by rw [ho]; rfl, le_refl _⟩
  | _, _, _, .joined _ hl _ _ => by
    obtain ⟨t, us, q, rfl, hq⟩ := hl.begins
    exact ⟨t, _, q, rfl, hq⟩
  | r, _, _, .tighter h => by
    obtain ⟨t, us, q, hts, hq, hle⟩ := h.begins
    exact ⟨t, us, q, hts, hq, r.depth_le_next.trans hle⟩

mutual

theorem Expression.leads : ∀ {r ts e}, Expression r ts e → Leads r ts e
  | _, _, _, .literal h => .atom (atom_literal h)
  | _, _, _, .name h => .atom (atom_name h)
  | _, _, _, .enclosed ho h hc => h.leads.enclosed ho h.ne_nil hc
  | _, _, _, .call hf ho ha hc => hf.leads.call hf.ne_nil ho ha.leads hc
  | _, _, _, .neg ho h => h.leads.neg ho
  | _, _, _, .plus ho h => h.leads.plus ho
  | _, _, _, .not ho h => h.leads.not ho
  | _, _, _, .joined hop hl ho hr => hl.leads.joined hop ho hr.leads hl.ne_nil hr.ne_nil
  | _, _, _, .tighter h => h.leads.tighter h.begins

theorem Arguments.leads : ∀ {ts es}, Arguments ts es → ReadsArguments ts es
  | _, _, .none => .inl ⟨rfl, rfl⟩
  | _, _, .last h => .last h.leads h.begins
  | _, _, .cons h hc hs => .cons h.leads h.begins hc hs.leads

end

theorem Expression.loosen {r q : Rank} {ts : List Token} {e : Expr} (h : Expression q ts e)
    (hle : r.depth ≤ q.depth) : Expression r ts e := by
  by_cases hr : r = q
  · exact hr ▸ h
  · have hnext := Rank.next_le hle hr
    exact .tighter (h.loosen hnext.2)
termination_by q.depth - r.depth
decreasing_by omega

theorem Expression.loosest {r : Rank} {ts : List Token} {e : Expr} (h : Expression r ts e) :
    Expression .disjunction ts e :=
  h.loosen r.depth_le.1

theorem Expression.reads {ts : List Token} {e : Expr} (h : Expression .disjunction ts e) {n : Nat}
    {s : Tokens} (hn : 16 * ts.length ≤ n) {k : Token.Kind} (hs : s.peek.kind = k)
    (hk : k.follows = none) : expression n (s.prepend ts) = .ok (e, s) :=
  h.leads.expression h.ne_nil hn (Tokens.stops_of_eq hs hk _)

theorem Target.expression {ts : List Token} {w : String} {s : Span} (h : Target ts w s) :
    Expression .disjunction ts (.name w s) := by
  induction h with
  | name h => exact (Expression.name h).loosest
  | enclosed ho _ hc ih => exact (Expression.enclosed ho ih hc).loosest

end Grammar

def Token.Kind.opensLine : Token.Kind → Bool
  | .keyword .return | .keyword .pass => true
  | k => k.begins.isSome

def Token.Kind.opens : Token.Kind → Bool
  | .keyword .if | .keyword .while | .keyword .define => true
  | k => k.opensLine

namespace Grammar

theorem opensLine_of_begins {k : Token.Kind} {q : Rank} (h : k.begins = some q) :
    k.opensLine = true := by
  unfold Token.Kind.opensLine
  split
  · rfl
  · rfl
  · rw [h]
    rfl

theorem opens_of_opensLine {k : Token.Kind} (h : k.opensLine = true) : k.opens = true := by
  unfold Token.Kind.opens
  split <;> first | rfl | exact h

theorem opens_of_begins {k : Token.Kind} {q : Rank} (h : k.begins = some q) : k.opens = true :=
  opens_of_opensLine (opensLine_of_begins h)

theorem Simple.opensLine {ts : List Token} {st : Stmt} (h : Simple ts st) :
    ∃ t us, ts = t :: us ∧ t.kind.opensLine = true := by
  have hexpr {ts : List Token} {e : Expr} (h : Expression .disjunction ts e) :
      ∃ t us, ts = t :: us ∧ t.kind.opensLine = true := by
    obtain ⟨t, us, q, rfl, hq, -⟩ := h.begins
    exact ⟨t, us, rfl, opensLine_of_begins hq⟩
  cases h with
  | assign ht _ _ =>
    obtain ⟨t, us, rfl, hopens⟩ := hexpr ht.expression
    exact ⟨t, _, rfl, hopens⟩
  | expr h => exact hexpr h
  | ret ht | retValue ht _ | pass ht => exact ⟨_, _, rfl, by rw [ht]; rfl⟩

theorem not_atKeyword_of_opensLine {s : Tokens} (h : s.peek.kind.opensLine = true) {w : Keyword}
    (hw : (Token.Kind.keyword w).opensLine = false) : ¬ s.atKeyword w = true :=
  Tokens.not_atKeyword fun hk => by rw [hk, hw] at h; cases h

theorem not_atNewline_of_opens {s : Tokens} (h : s.peek.kind.opens = true) :
    s.atNewline = false :=
  Bool.eq_false_iff.2 fun hline => by rw [Tokens.kind_of_atNewline hline] at h; cases h

theorem not_atIndent_of_opens {s : Tokens} (h : s.peek.kind.opens = true) :
    s.atIndent = false :=
  Bool.eq_false_iff.2 fun hindent => by rw [Tokens.kind_of_atIndent hindent] at h; cases h

theorem not_atDedent_of_opens {s : Tokens} (h : s.peek.kind.opens = true) :
    s.atDedent = false :=
  Bool.eq_false_iff.2 fun hdedent => by rw [Tokens.kind_of_atDedent hdedent] at h; cases h

theorem not_atEnd_of_opens {s : Tokens} (h : s.peek.kind.opens = true) : s.atEnd = false :=
  Bool.eq_false_iff.2 fun hend => by rw [Tokens.kind_of_atEnd hend] at h; cases h

theorem Expression.simple_eq {ts : List Token} {e : Expr} (h : Expression .disjunction ts e)
    (n : Nat) (s : Tokens) : simple n (s.prepend ts) = assignment n (s.prepend ts) := by
  obtain ⟨t, us, q, rfl, hq, -⟩ := h.begins
  have hword (w : Keyword) (hw : (Token.Kind.keyword w).begins = none) :
      ¬ (s.prepend (t :: us)).atKeyword w = true :=
    Tokens.not_atKeyword fun hk => by
      rw [Tokens.peek_prepend] at hk
      rw [hk, hw] at hq
      cases hq
  have hindent : (s.prepend (t :: us)).atIndent = false :=
    not_atIndent_of_opens (s := s.prepend (t :: us)) (opens_of_begins hq)
  rw [simple, if_neg (hword .pass rfl), if_neg (hword .return rfl), hindent]
  rfl

theorem Simple.reads {ts : List Token} {st : Stmt} (h : Simple ts st) {n : Nat} {s : Tokens}
    (hn : 16 * ts.length ≤ n) (hs : s.peek.kind = .newline) :
    simple n (s.prepend ts) = .ok (st, s) := by
  cases h with
  | @assign ts us a w span value ht ha hv =>
    simp only [List.length_append, List.length_cons] at hn
    have htarget := ht.expression.reads (n := n) (s := s.prepend (a :: us)) (by omega) ha rfl
    have hvalue := hv.reads (n := n) (by omega) hs rfl
    have hassign : (s.prepend (a :: us)).atMark .assign = true := Tokens.atMark_of_kind ha
    rw [Tokens.prepend_append, ht.expression.simple_eq, assignment, htarget]
    simp only [bind, Except.bind, hassign, if_true, Tokens.bump_prepend, hvalue]
  | expr h =>
    have hassign : s.atMark .assign = false :=
      Bool.eq_false_iff.2 (Tokens.not_atMark (by rw [hs]; nofun))
    rw [h.simple_eq, assignment, h.reads hn hs rfl]
    simp only [bind, Except.bind, hassign]
    rfl
  | @ret t ht =>
    have hpass : ¬ (s.prepend [t]).atKeyword .pass = true :=
      Tokens.not_atKeyword (by rw [Tokens.peek_prepend, ht]; nofun)
    have hret : (s.prepend [t]).atKeyword .return = true := Tokens.atKeyword_of_kind ht
    have hline : s.atNewline = true := by rw [Tokens.atNewline, hs]
    rw [simple, if_neg hpass, if_pos hret, Tokens.bump_prepend, Tokens.prepend_nil, hline]
    rfl
  | @retValue t ts e ht h =>
    rw [List.length_cons] at hn
    have hpass : ¬ (s.prepend (t :: ts)).atKeyword .pass = true :=
      Tokens.not_atKeyword (by rw [Tokens.peek_prepend, ht]; nofun)
    have hret : (s.prepend (t :: ts)).atKeyword .return = true := Tokens.atKeyword_of_kind ht
    have hread := h.reads (n := n) (by omega) hs rfl
    obtain ⟨u, us, q, rfl, hq, -⟩ := h.begins
    have hopens : (s.prepend (u :: us)).peek.kind.opens = true := opens_of_begins hq
    rw [simple, if_neg hpass, if_pos hret, Tokens.bump_prepend, not_atNewline_of_opens hopens,
      not_atEnd_of_opens hopens, hread]
    rfl
  | @pass t ht =>
    have hpass : (s.prepend [t]).atKeyword .pass = true := Tokens.atKeyword_of_kind ht
    rw [simple, if_pos hpass]
    rfl

theorem Simple.reads_line {ts : List Token} {st : Stmt} (h : Simple ts st) {m : Token}
    (hm : m.kind = .newline) {n : Nat} (s : Tokens) (hn : 16 * ts.length ≤ n) :
    simpleLine n (s.prepend (ts ++ [m])) = .ok (st, s) := by
  have hread := h.reads (s := s.prepend [m]) hn hm
  have hline : (s.prepend [m]).atNewline = true := by
    rw [Tokens.atNewline, Tokens.peek_prepend, hm]
  rw [Tokens.prepend_append, simpleLine, hread]
  simp only [bind, Except.bind, endLine, hline]
  rfl

theorem parameters_succ {seen : List String} {p : String} (hdistinct : (seen ++ [p]).Nodup)
    {n : Nat} {s : Tokens} (hs : s.peek.kind = .name p) :
    parameters seen (n + 1) s =
      if !s.bump.atMark .comma then .ok (seen ++ [p], s.bump)
      else if s.bump.bump.atMark .closeParen then .ok (seen ++ [p], s.bump.bump)
      else parameters (seen ++ [p]) n s.bump.bump := by
  have hnew : seen.contains p = false := by
    by_contra hp
    have hmem := List.contains_iff_mem.1 (Bool.not_eq_false _ ▸ hp)
    exact (List.nodup_append.1 hdistinct).2.2 p hmem p List.mem_cons_self rfl
  rw [parameters, hs]
  simp only [hnew]
  rfl

theorem Parameters.begins {ts : List Token} {ps : List String} (h : Parameters ts ps) :
    ts = [] ∧ ps = [] ∨ Begins .application ts := by
  cases h with
  | none => exact .inl ⟨rfl, rfl⟩
  | last h | cons h => exact .inr ⟨_, _, .application, rfl, by rw [h]; rfl, le_refl _⟩

theorem Parameters.reads {seen : List String} {ts : List Token} {ps : List String}
    (h : Parameters ts ps) (hne : ts ≠ []) (hdistinct : (seen ++ ps).Nodup) {n : Nat} {s : Tokens}
    (hn : ts.length ≤ n) (hs : s.peek.kind = .mark .closeParen) :
    parameters seen n (s.prepend ts) = .ok (seen ++ ps, s) := by
  induction h generalizing seen n with
  | none => exact absurd rfl hne
  | @last t p h =>
    obtain ⟨k, rfl⟩ : ∃ k, n = k + 1 := ⟨n - 1, by simp at hn; omega⟩
    have hcomma : s.atMark .comma = false :=
      Bool.eq_false_iff.2 (Tokens.not_atMark (by rw [hs]; nofun))
    rw [parameters_succ (s := s.prepend [t]) hdistinct h, Tokens.bump_prepend,
      Tokens.prepend_nil, hcomma]
    rfl
  | @cons t c us p ps h hc hps ih =>
    simp only [List.length_cons] at hn
    obtain ⟨k, rfl⟩ : ∃ k, n = k + 1 := ⟨n - 1, by omega⟩
    have hsplit : seen ++ p :: ps = seen ++ [p] ++ ps := List.append_cons ..
    rw [hsplit] at hdistinct ⊢
    have hcomma : (s.prepend (c :: us)).atMark .comma = true := Tokens.atMark_of_kind hc
    rw [parameters_succ (s := s.prepend (t :: c :: us)) (List.nodup_append.1 hdistinct).1 h,
      Tokens.bump_prepend, Tokens.bump_prepend, hcomma]
    obtain ⟨rfl, rfl⟩ | hb := hps.begins
    · rw [Tokens.prepend_nil, Tokens.atMark_of_kind hs, List.append_nil]
      rfl
    · rw [Bool.eq_false_iff.2 (hb.not_atMark rfl s)]
      exact ih hb.ne_nil hdistinct (by omega)

theorem reads_signature {m o c : Token} {ps : List Token} {name : String} {params : List String}
    (hm : m.kind = .name name) (ho : o.kind = .mark .openParen) (hp : Parameters ps params)
    (hd : params.Nodup) (hc : c.kind = .mark .closeParen) {n : Nat} (s : Tokens)
    (hn : ps.length ≤ n) :
    signature n (s.prepend (m :: o :: (ps ++ [c]))) = .ok ((name, params, c.span), s) := by
  have hopen := expect_of_kind (s := s.prepend (o :: (ps ++ [c]))) ho
  have hclosing : (s.prepend [c]).peek.kind = .mark .closeParen := hc
  have hclose := expect_of_kind hclosing
  rw [signature, Tokens.peek_prepend, hm]
  simp only [bind, Except.bind, Tokens.bump_prepend, hopen]
  obtain ⟨rfl, rfl⟩ | hb := hp.begins
  · rw [List.nil_append, if_pos (Tokens.atMark_of_kind hclosing)]
    simp only [hclose]
    rfl
  · have hdistinct : ([] ++ params).Nodup := hd
    have hread := hp.reads hb.ne_nil hdistinct hn hclosing
    rw [Tokens.prepend_append, if_neg (hb.not_atMark rfl _), hread]
    simp only [hclose]
    rfl

def NoBranch (s : Tokens) : Prop :=
  ¬ s.atKeyword .elif = true ∧ ¬ s.atKeyword .else = true

theorem noBranch_of_eq {s : Tokens} {k : Token.Kind} (h : s.peek.kind = k)
    (hk : k ≠ .keyword .elif ∧ k ≠ .keyword .else) : NoBranch s :=
  ⟨Tokens.not_atKeyword (h ▸ hk.1), Tokens.not_atKeyword (h ▸ hk.2)⟩

def ReadsStatement (ts : List Token) (st : Stmt) : Prop :=
  ∀ n s, 16 * ts.length < n → NoBranch s → statement n (s.prepend ts) = .ok (st, s)

def ReadsOthers (ts : List Token) (rest : Choice) : Prop :=
  ∀ n s, 16 * ts.length < n → NoBranch s → branches n (s.prepend ts) = .ok (rest, s)

def ReadsBlock (ts : List Token) (body : List Stmt) : Prop :=
  (∃ c us, ts = c :: us ∧ c.kind = .mark .colon) ∧
    ∀ n s, 16 * ts.length < n → block n (s.prepend ts) = .ok (body, s)

def ReadsBody (ts : List Token) (body : List Stmt) : Prop :=
  ∀ n s, 16 * (ts.length + 1) ≤ n → ∀ d : Token, d.kind = .dedent →
    statements n (s.prepend (ts ++ [d])) = .ok (body, s)

theorem ReadsStatement.simple {ts : List Token} {m : Token} {st : Stmt} (h : Simple ts st)
    (hm : m.kind = .newline) : ReadsStatement (ts ++ [m]) st := by
  intro n s hn _
  rw [List.length_append, List.length_singleton] at hn
  obtain ⟨k, rfl⟩ : ∃ k, n = k + 1 := ⟨n - 1, by omega⟩
  have hline := h.reads_line hm (n := k) s (by omega)
  obtain ⟨t, us, rfl, hopens⟩ := h.opensLine
  have hword (w : Keyword) (hw : (Token.Kind.keyword w).opensLine = false) :
      ¬ (s.prepend (t :: us ++ [m])).atKeyword w = true :=
    not_atKeyword_of_opensLine (s := s.prepend (t :: us ++ [m])) hopens hw
  rw [statement, if_neg (hword .if rfl), if_neg (hword .while rfl), if_neg (hword .define rfl),
    hline]

section Headers

variable {ts bs os : List Token} {t : Token} {test : Expr} {body : List Stmt} {rest : Choice}

theorem reads_test (he : Expression .disjunction ts test) (hb : ReadsBlock bs body) {n : Nat}
    (s : Tokens) (hn : 16 * (ts ++ bs).length < n) :
    expression n ((s.prepend bs).prepend ts) = .ok (test, s.prepend bs) ∧
      block n (s.prepend bs) = .ok (body, s) := by
  obtain ⟨⟨c, us, rfl, hc⟩, hread⟩ := hb
  rw [List.length_append] at hn
  exact ⟨he.reads (s := s.prepend (c :: us)) (by omega) hc rfl, hread n s (by omega)⟩

theorem ReadsStatement.loop (ht : t.kind = .keyword .while) (he : Expression .disjunction ts test)
    (hb : ReadsBlock bs body) :
    ReadsStatement (t :: (ts ++ bs)) (.loop test (t.span.to test.span) body) := by
  intro n s hn _
  rw [List.length_cons] at hn
  obtain ⟨k, rfl⟩ : ∃ k, n = k + 1 := ⟨n - 1, by omega⟩
  obtain ⟨htest, hblock⟩ := reads_test he hb (n := k) s (by omega)
  have hif : ¬ (s.prepend (t :: (ts ++ bs))).atKeyword .if = true :=
    Tokens.not_atKeyword (by rw [Tokens.peek_prepend, ht]; nofun)
  have hwhile : (s.prepend (t :: (ts ++ bs))).atKeyword .while = true := Tokens.atKeyword_of_kind ht
  rw [statement, if_neg hif, if_pos hwhile, Tokens.bump_prepend, Tokens.prepend_append, htest]
  simp only [bind, Except.bind, hblock]
  rfl

theorem ReadsStatement.choose (ht : t.kind = .keyword .if) (he : Expression .disjunction ts test)
    (hb : ReadsBlock bs body) (ho : ReadsOthers os rest) :
    ReadsStatement (t :: (ts ++ (bs ++ os)))
      (.choose test (t.span.to test.span) body rest) := by
  intro n s hn hs
  simp only [List.length_cons, List.length_append] at hn
  obtain ⟨k, rfl⟩ : ∃ k, n = k + 1 := ⟨n - 1, by omega⟩
  obtain ⟨htest, hblock⟩ := reads_test he hb (n := k) (s.prepend os)
    (by rw [List.length_append]; omega)
  have hothers := ho k s (by omega) hs
  have hif : (s.prepend (t :: (ts ++ (bs ++ os)))).atKeyword .if = true :=
    Tokens.atKeyword_of_kind ht
  rw [statement, if_pos hif, Tokens.bump_prepend, Tokens.prepend_append, Tokens.prepend_append,
    htest]
  simp only [bind, Except.bind, hblock, hothers]
  rfl

theorem ReadsOthers.branch (ht : t.kind = .keyword .elif) (he : Expression .disjunction ts test)
    (hb : ReadsBlock bs body) (ho : ReadsOthers os rest) :
    ReadsOthers (t :: (ts ++ (bs ++ os))) (.branch test (t.span.to test.span) body rest) := by
  intro n s hn hs
  simp only [List.length_cons, List.length_append] at hn
  obtain ⟨k, rfl⟩ : ∃ k, n = k + 1 := ⟨n - 1, by omega⟩
  obtain ⟨htest, hblock⟩ := reads_test he hb (n := k) (s.prepend os)
    (by rw [List.length_append]; omega)
  have hothers := ho k s (by omega) hs
  have helif : (s.prepend (t :: (ts ++ (bs ++ os)))).atKeyword .elif = true :=
    Tokens.atKeyword_of_kind ht
  rw [branches, if_pos helif, Tokens.bump_prepend, Tokens.prepend_append, Tokens.prepend_append,
    htest]
  simp only [bind, Except.bind, hblock, hothers]
  rfl

theorem ReadsOthers.otherwise (ht : t.kind = .keyword .else) (hb : ReadsBlock bs body) :
    ReadsOthers (t :: bs) (.otherwise body) := by
  intro n s hn _
  rw [List.length_cons] at hn
  obtain ⟨k, rfl⟩ : ∃ k, n = k + 1 := ⟨n - 1, by omega⟩
  have helif : ¬ (s.prepend (t :: bs)).atKeyword .elif = true :=
    Tokens.not_atKeyword (by rw [Tokens.peek_prepend, ht]; nofun)
  have helse : (s.prepend (t :: bs)).atKeyword .else = true := Tokens.atKeyword_of_kind ht
  rw [branches, if_neg helif, if_pos helse, Tokens.bump_prepend, hb.2 k s (by omega)]
  rfl

theorem ReadsOthers.none : ReadsOthers [] (.otherwise []) := by
  intro n s hn hs
  obtain ⟨k, rfl⟩ : ∃ k, n = k + 1 := ⟨n - 1, by omega⟩
  rw [branches, Tokens.prepend_nil, if_neg hs.1, if_neg hs.2]

theorem ReadsStatement.define {m o c : Token} {ps : List Token} {name : String}
    {params : List String} (ht : t.kind = .keyword .define) (hm : m.kind = .name name)
    (ho : o.kind = .mark .openParen) (hp : Parameters ps params) (hd : params.Nodup)
    (hc : c.kind = .mark .closeParen) (hb : ReadsBlock bs body) :
    ReadsStatement (t :: m :: o :: (ps ++ c :: bs))
      (.define name params (t.span.to c.span) body) := by
  intro n s hn _
  simp only [List.length_cons, List.length_append] at hn
  obtain ⟨k, rfl⟩ : ∃ k, n = k + 1 := ⟨n - 1, by omega⟩
  have hsig := reads_signature hm ho hp hd hc (n := k) (s.prepend bs) (by omega)
  have hblock := hb.2 k s (by omega)
  have hword (w : Keyword) (hw : Keyword.define ≠ w) :
      ¬ (s.prepend (t :: m :: o :: (ps ++ c :: bs))).atKeyword w = true :=
    Tokens.not_atKeyword fun hk => hw (Token.Kind.keyword.inj (ht.symm.trans hk))
  have hdefine : (s.prepend (t :: m :: o :: (ps ++ c :: bs))).atKeyword .define = true :=
    Tokens.atKeyword_of_kind ht
  have hsplit : m :: o :: (ps ++ c :: bs) = m :: o :: (ps ++ [c]) ++ bs := by simp
  rw [statement, if_neg (hword .if nofun), if_neg (hword .while nofun), if_pos hdefine,
    Tokens.bump_prepend, hsplit, Tokens.prepend_append, hsig]
  simp only [bind, Except.bind, hblock]
  rfl

end Headers

theorem ReadsBlock.line {c m : Token} {ts : List Token} {st : Stmt} (hc : c.kind = .mark .colon)
    (h : Simple ts st) (hm : m.kind = .newline) : ReadsBlock (c :: (ts ++ [m])) [st] := by
  refine ⟨⟨c, _, rfl, hc⟩, fun n s hn => ?_⟩
  simp only [List.length_cons, List.length_append] at hn
  obtain ⟨k, rfl⟩ : ∃ k, n = k + 1 := ⟨n - 1, by omega⟩
  have hcolon := expect_of_kind (s := s.prepend (c :: (ts ++ [m]))) hc
  have hline := h.reads_line hm (n := k) s (by omega)
  obtain ⟨t, us, rfl, hopens⟩ := h.opensLine
  have hstarts : (s.prepend (t :: us ++ [m])).atNewline = false :=
    not_atNewline_of_opens (s := s.prepend (t :: us ++ [m])) (opens_of_opensLine hopens)
  rw [block, hcolon]
  simp only [bind, Except.bind, Tokens.bump_prepend, hstarts, hline]
  rfl

theorem ReadsBlock.indented {c m i d : Token} {ts : List Token} {body : List Stmt}
    (hc : c.kind = .mark .colon) (hm : m.kind = .newline) (hi : i.kind = .indent)
    (h : ReadsBody ts body) (hd : d.kind = .dedent) :
    ReadsBlock (c :: m :: i :: (ts ++ [d])) body := by
  refine ⟨⟨c, _, rfl, hc⟩, fun n s hn => ?_⟩
  simp only [List.length_cons, List.length_append] at hn
  obtain ⟨k, rfl⟩ : ∃ k, n = k + 1 := ⟨n - 1, by omega⟩
  have hcolon := expect_of_kind (s := s.prepend (c :: m :: i :: (ts ++ [d]))) hc
  have hline : (s.prepend (m :: i :: (ts ++ [d]))).atNewline = true := by
    rw [Tokens.atNewline, Tokens.peek_prepend, hm]
  have hindent : (s.prepend (i :: (ts ++ [d]))).atIndent = true := by
    rw [Tokens.atIndent, Tokens.peek_prepend, hi]
  rw [block, hcolon]
  simp only [bind, Except.bind, Tokens.bump_prepend, hline, hindent, if_true]
  exact h k s (by omega) d hd

theorem ReadsBody.nil : ReadsBody [] [] := by
  intro n s hn d hd
  obtain ⟨k, rfl⟩ : ∃ k, n = k + 1 := ⟨n - 1, by omega⟩
  have hdedent : (s.prepend [d]).atDedent = true := by
    rw [Tokens.atDedent, Tokens.peek_prepend, hd]
  rw [statements, List.nil_append, if_pos hdedent]
  rfl

def Opens (ts : List Token) : Prop :=
  ∃ t us, ts = t :: us ∧ t.kind.opens = true

theorem Opens.noBranch {ts : List Token} (h : Opens ts) (us : List Token) (s : Tokens) :
    NoBranch (s.prepend (ts ++ us)) := by
  obtain ⟨t, vs, rfl, ht⟩ := h
  have hhere : (s.prepend (t :: vs ++ us)).peek.kind = t.kind := rfl
  refine noBranch_of_eq hhere ⟨?_, ?_⟩ <;>
    · intro hk
      rw [hk] at ht
      cases ht

theorem Statement.opens {ts : List Token} {st : Stmt} (h : Statement ts st) : Opens ts := by
  cases h with
  | simple h _ =>
    obtain ⟨t, us, rfl, ht⟩ := h.opensLine
    exact ⟨t, _, rfl, opens_of_opensLine ht⟩
  | choose ht | loop ht | define ht => exact ⟨_, _, rfl, by rw [ht]; rfl⟩

theorem Statements.opens {ts : List Token} {sts : List Stmt} (h : Statements ts sts)
    (hne : sts ≠ []) : Opens ts := by
  cases h with
  | nil => exact absurd rfl hne
  | cons h _ =>
    obtain ⟨t, us, rfl, ht⟩ := h.opens
    exact ⟨t, _, rfl, ht⟩

theorem Statements.noBranch {ts us : List Token} {sts : List Stmt} (h : Statements ts sts)
    {s : Tokens} (hs : NoBranch (s.prepend us)) : NoBranch (s.prepend (ts ++ us)) := by
  cases h with
  | nil => exact hs
  | cons h _ =>
    rw [List.append_assoc]
    exact h.opens.noBranch _ s

theorem ReadsBody.cons {ts us : List Token} {st : Stmt} {sts : List Stmt}
    (h : ReadsStatement ts st) (hopens : Opens ts) (hs : ReadsBody us sts)
    (hus : Statements us sts) : ReadsBody (ts ++ us) (st :: sts) := by
  intro n s hn d hd
  obtain ⟨k, rfl⟩ : ∃ k, n = k + 1 := ⟨n - 1, by omega⟩
  obtain ⟨t, vs, rfl, ht⟩ := hopens
  simp only [List.length_append, List.length_cons] at hn
  have hread := h k (s.prepend (us ++ [d])) (by simp only [List.length_cons]; omega)
    (hus.noBranch (noBranch_of_eq (s := s.prepend [d]) hd ⟨nofun, nofun⟩))
  have hrest := hs k s (by omega) d hd
  have hhere : (s.prepend (t :: vs ++ (us ++ [d]))).peek.kind.opens = true := ht
  rw [List.append_assoc, statements, not_atDedent_of_opens hhere, not_atEnd_of_opens hhere,
    not_atNewline_of_opens hhere, Tokens.prepend_append, hread]
  simp only [bind, Except.bind, hrest]
  rfl

mutual

theorem Statement.reads : ∀ {ts st}, Statement ts st → ReadsStatement ts st
  | _, _, .simple h hm => .simple h hm
  | _, _, .choose ht he hb ho => .choose ht he hb.reads ho.reads
  | _, _, .loop ht he hb => .loop ht he hb.reads
  | _, _, .define ht hm ho hp hd hc hb => .define ht hm ho hp hd hc hb.reads

theorem Others.reads : ∀ {ts rest}, Others ts rest → ReadsOthers ts rest
  | _, _, .branch ht he hb ho => .branch ht he hb.reads ho.reads
  | _, _, .otherwise ht hb => .otherwise ht hb.reads
  | _, _, .none => .none

theorem Block.reads : ∀ {ts body}, Block ts body → ReadsBlock ts body
  | _, _, .line hc h hm => .line hc h hm
  | _, _, .indented hc hm hi h _ hd => .indented hc hm hi h.reads hd

theorem Statements.reads : ∀ {ts body}, Statements ts body → ReadsBody ts body
  | _, _, .nil => .nil
  | _, _, .cons h hs => .cons h.reads h.opens hs.reads hs

end

def ReadsProgram (final : Token) (ts : List Token) (body : List Stmt) : Prop :=
  ∀ n, 16 * (ts.length + 1) ≤ n → program n ⟨ts, final⟩ = .ok (body, ⟨[], final⟩)

section ReadsProgram

variable {final : Token} {ts us : List Token} {st : Stmt} {sts : List Stmt}

theorem ReadsProgram.nil (hfinal : final.kind = .eof) : ReadsProgram final [] [] := by
  intro n hn
  obtain ⟨k, rfl⟩ : ∃ k, n = k + 1 := ⟨n - 1, by simp at hn; omega⟩
  have hend : (Tokens.mk [] final).atEnd = true := by
    rw [Tokens.atEnd, Tokens.peek, List.headD_nil, hfinal]
  rw [program, if_pos hend]

theorem ReadsProgram.cons (hs : ReadsProgram final us sts) (hfinal : final.kind = .eof)
    (h : Statement ts st) (hus : Statements us sts) : ReadsProgram final (ts ++ us) (st :: sts) := by
  intro n hn
  obtain ⟨k, rfl⟩ : ∃ k, n = k + 1 := ⟨n - 1, by omega⟩
  obtain ⟨t, vs, rfl, ht⟩ := h.opens
  simp only [List.length_append, List.length_cons] at hn
  have hend : NoBranch ⟨[], final⟩ :=
    noBranch_of_eq (s := ⟨[], final⟩) hfinal ⟨by rintro ⟨⟩, by rintro ⟨⟩⟩
  have hnext : NoBranch ⟨us, final⟩ := by
    have : NoBranch (Tokens.prepend (us ++ []) ⟨[], final⟩) := hus.noBranch hend
    simpa [Tokens.prepend] using this
  have hread := h.reads k ⟨us, final⟩ (by simp only [List.length_cons]; omega) hnext
  have hrest := hs k (by omega)
  have hhere : (Tokens.mk (t :: vs ++ us) final).peek.kind.opens = true := ht
  rw [program, not_atEnd_of_opens hhere, not_atNewline_of_opens hhere]
  change (statement k (Tokens.prepend (t :: vs) ⟨us, final⟩) >>= _) = _
  rw [hread]
  simp only [bind, Except.bind, hrest]

theorem Statements.reads_program (hfinal : final.kind = .eof) :
    ∀ {ts body}, Statements ts body → ReadsProgram final ts body
  | _, _, .nil => .nil hfinal
  | _, _, .cons h hs => (hs.reads_program hfinal).cons hfinal h hs

end ReadsProgram

end Grammar

theorem parse_of_program {text : String} {ts : List Token} {body : List Stmt}
    (hts : Lexer.tokenize text = .ok ts) (h : Grammar.Program ts body) :
    parse text = .ok body := by
  obtain @⟨us, _, t, hbody, ht⟩ := h
  have hread := hbody.reads_program ht (Grammar.depthBound ⟨us, t⟩) (le_refl _)
  unfold parse
  simp only [hts, bind, Except.bind, Tokens.ofList_concat, hread]

end Stepwise.Source
