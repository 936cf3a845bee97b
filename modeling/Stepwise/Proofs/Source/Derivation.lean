import Stepwise.Proofs.Source.Extent

/-! The grammar as a relation between tokens and trees. An expression has a rank, which says how
tight its outermost form binds; the operands of an operator have ranks of their own, and the right
one binds tighter than the operator, so that operators of one rank join from the left. Lines and
blocks are shaped by the tokens that stand for their ends. -/

namespace Stepwise.Source

inductive Rank
  | disjunction | conjunction | negation | comparison | sum | product | sign | application
deriving DecidableEq, Repr

def Rank.next : Rank → Rank
  | disjunction => conjunction
  | conjunction => negation
  | negation => comparison
  | comparison => sum
  | sum => product
  | product => sign
  | sign | application => application

def Rank.depth : Rank → Nat
  | disjunction => 1
  | conjunction => 3
  | negation => 5
  | comparison => 6
  | sum => 8
  | product => 10
  | sign => 12
  | application => 13

theorem Rank.depth_le_next (r : Rank) : r.depth ≤ r.next.depth := by
  cases r <;> decide

theorem Rank.depth_le (r : Rank) : 1 ≤ r.depth ∧ r.depth ≤ 13 := by
  cases r <;> decide

theorem Rank.next_le {r q : Rank} (h : r.depth ≤ q.depth) (hne : r ≠ q) :
    r.depth < r.next.depth ∧ r.next.depth ≤ q.depth := by
  revert h hne
  cases r <;> cases q <;> decide

def BinaryOp.rank : BinaryOp → Rank
  | .logic .or => .disjunction
  | .logic .and => .conjunction
  | .compare _ => .comparison
  | .arith .add | .arith .sub => .sum
  | .arith _ => .product

def BinaryOp.kind : BinaryOp → Token.Kind
  | .logic .or => .keyword .or
  | .logic .and => .keyword .and
  | .compare .equal => .mark .equal
  | .compare .unequal => .mark .unequal
  | .compare .less => .mark .less
  | .compare .lessEqual => .mark .lessEqual
  | .compare .greater => .mark .greater
  | .compare .greaterEqual => .mark .greaterEqual
  | .arith .add => .mark .plus
  | .arith .sub => .mark .minus
  | .arith .mul => .mark .star
  | .arith .div => .mark .slash
  | .arith .floorDiv => .mark .doubleSlash
  | .arith .mod => .mark .percent

def Literal.kind : Literal → Token.Kind
  | .none => .keyword .none
  | .bool true => .keyword .true
  | .bool false => .keyword .false
  | .int n => .int n
  | .float x => .float x
  | .str s => .str s

def Token.Kind.isInner : Token.Kind → Bool
  | .name _ | .int _ | .float _ | .str _ => true
  | .keyword .and | .keyword .or | .keyword .not => true
  | .keyword .true | .keyword .false | .keyword .none => true
  | .mark .colon | .mark .assign => false
  | .mark _ => true
  | _ => false

def Token.Kind.isIndent : Token.Kind → Bool
  | .indent => true
  | _ => false

def Token.Kind.isDedent : Token.Kind → Bool
  | .dedent => true
  | _ => false

namespace Grammar

mutual

/-- What an expression of a rank is derived from. Operators of one rank join from the left, a plus
sign stands for its operand, and parentheses belong to what they enclose. -/
inductive Expression : Rank → List Token → Expr → Prop
  | tighter {r : Rank} {ts : List Token} {e : Expr} (h : Expression r.next ts e) : Expression r ts e
  | joined {r : Rank} {op : BinaryOp} {ts us : List Token} {o : Token} {left right : Expr}
      (hop : op.rank = r) (hl : Expression r ts left) (ho : o.kind = op.kind)
      (hr : Expression r.next us right) : Expression r (ts ++ o :: us) (.joined op left right)
  | not {ts : List Token} {o : Token} {e : Expr} (ho : o.kind = .keyword .not)
      (h : Expression .negation ts e) :
      Expression .negation (o :: ts) (.unary .not e (o.span.to e.span))
  | neg {ts : List Token} {o : Token} {e : Expr} (ho : o.kind = .mark .minus)
      (h : Expression .sign ts e) : Expression .sign (o :: ts) (.unary .neg e (o.span.to e.span))
  | plus {ts : List Token} {o : Token} {e : Expr} (ho : o.kind = .mark .plus)
      (h : Expression .sign ts e) : Expression .sign (o :: ts) e
  | call {ts us : List Token} {o c : Token} {callee : Expr} {args : List Expr}
      (hf : Expression .application ts callee) (ho : o.kind = .mark .openParen)
      (ha : Arguments us args) (hc : c.kind = .mark .closeParen) :
      Expression .application (ts ++ o :: (us ++ [c])) (.call callee args (callee.span.to c.span))
  | literal {t : Token} {v : Literal} (h : t.kind = v.kind) :
      Expression .application [t] (.literal v t.span)
  | name {t : Token} {w : String} (h : t.kind = .name w) :
      Expression .application [t] (.name w t.span)
  | enclosed {ts : List Token} {o c : Token} {e : Expr} (ho : o.kind = .mark .openParen)
      (h : Expression .disjunction ts e) (hc : c.kind = .mark .closeParen) :
      Expression .application (o :: (ts ++ [c])) (e.withSpan (o.span.to c.span))

inductive Arguments : List Token → List Expr → Prop
  | none : Arguments [] []
  | last {ts : List Token} {e : Expr} (h : Expression .disjunction ts e) : Arguments ts [e]
  | cons {ts us : List Token} {c : Token} {e : Expr} {es : List Expr}
      (h : Expression .disjunction ts e) (hc : c.kind = .mark .comma) (hs : Arguments us es) :
      Arguments (ts ++ c :: us) (e :: es)

end

inductive Target : List Token → String → Span → Prop
  | name {t : Token} {w : String} (h : t.kind = .name w) : Target [t] w t.span
  | enclosed {ts : List Token} {o c : Token} {w : String} {s : Span}
      (ho : o.kind = .mark .openParen) (h : Target ts w s) (hc : c.kind = .mark .closeParen) :
      Target (o :: (ts ++ [c])) w (o.span.to c.span)

inductive Parameters : List Token → List String → Prop
  | none : Parameters [] []
  | last {t : Token} {p : String} (h : t.kind = .name p) : Parameters [t] [p]
  | cons {t c : Token} {us : List Token} {p : String} {ps : List String} (h : t.kind = .name p)
      (hc : c.kind = .mark .comma) (hs : Parameters us ps) : Parameters (t :: c :: us) (p :: ps)

inductive Simple : List Token → Stmt → Prop
  | assign {ts us : List Token} {a : Token} {w : String} {s : Span} {value : Expr}
      (ht : Target ts w s) (ha : a.kind = .mark .assign) (hv : Expression .disjunction us value) :
      Simple (ts ++ a :: us) (.assign w value (s.to value.span))
  | expr {ts : List Token} {e : Expr} (h : Expression .disjunction ts e) : Simple ts (.expr e)
  | ret {t : Token} (ht : t.kind = .keyword .return) : Simple [t] (.ret none t.span)
  | retValue {t : Token} {ts : List Token} {e : Expr} (ht : t.kind = .keyword .return)
      (h : Expression .disjunction ts e) : Simple (t :: ts) (.ret (some e) (t.span.to e.span))
  | pass {t : Token} (ht : t.kind = .keyword .pass) : Simple [t] (.pass t.span)

mutual

inductive Statement : List Token → Stmt → Prop
  | simple {ts : List Token} {n : Token} {st : Stmt} (h : Simple ts st) (hn : n.kind = .newline) :
      Statement (ts ++ [n]) st
  | choose {t : Token} {ts bs os : List Token} {test : Expr} {body : List Stmt} {rest : Choice}
      (ht : t.kind = .keyword .if) (he : Expression .disjunction ts test) (hb : Block bs body)
      (ho : Others os rest) :
      Statement (t :: (ts ++ (bs ++ os))) (.choose test (t.span.to test.span) body rest)
  | loop {t : Token} {ts bs : List Token} {test : Expr} {body : List Stmt}
      (ht : t.kind = .keyword .while) (he : Expression .disjunction ts test) (hb : Block bs body) :
      Statement (t :: (ts ++ bs)) (.loop test (t.span.to test.span) body)
  | define {t n o c : Token} {ps bs : List Token} {name : String} {params : List String}
      {body : List Stmt} (ht : t.kind = .keyword .define) (hn : n.kind = .name name)
      (ho : o.kind = .mark .openParen) (hp : Parameters ps params) (hd : params.Nodup)
      (hc : c.kind = .mark .closeParen) (hb : Block bs body) :
      Statement (t :: n :: o :: (ps ++ c :: bs)) (.define name params (t.span.to c.span) body)

inductive Others : List Token → Choice → Prop
  | branch {t : Token} {ts bs os : List Token} {test : Expr} {body : List Stmt} {rest : Choice}
      (ht : t.kind = .keyword .elif) (he : Expression .disjunction ts test) (hb : Block bs body)
      (ho : Others os rest) :
      Others (t :: (ts ++ (bs ++ os))) (.branch test (t.span.to test.span) body rest)
  | otherwise {t : Token} {bs : List Token} {body : List Stmt} (ht : t.kind = .keyword .else)
      (hb : Block bs body) : Others (t :: bs) (.otherwise body)
  | none : Others [] (.otherwise [])

inductive Block : List Token → List Stmt → Prop
  | line {c n : Token} {ts : List Token} {st : Stmt} (hc : c.kind = .mark .colon)
      (h : Simple ts st) (hn : n.kind = .newline) : Block (c :: (ts ++ [n])) [st]
  | indented {c n i d : Token} {ts : List Token} {body : List Stmt} (hc : c.kind = .mark .colon)
      (hn : n.kind = .newline) (hi : i.kind = .indent) (h : Statements ts body) (hne : body ≠ [])
      (hd : d.kind = .dedent) : Block (c :: n :: i :: (ts ++ [d])) body

inductive Statements : List Token → List Stmt → Prop
  | nil : Statements [] []
  | cons {ts us : List Token} {st : Stmt} {sts : List Stmt} (h : Statement ts st)
      (hs : Statements us sts) : Statements (ts ++ us) (st :: sts)

end

/-- Statements up to the end of the text. -/
inductive Program : List Token → List Stmt → Prop
  | intro {ts : List Token} {body : List Stmt} {t : Token} (h : Statements ts body)
      (ht : t.kind = .eof) : Program (ts ++ [t]) body

/-! The tables of the parser. -/

def Level.rank : Level → Rank
  | .disjunction => .disjunction
  | .conjunction => .conjunction
  | .comparison => .comparison
  | .sum => .sum
  | .product => .product

theorem operator_eq_some {level : Level} {k : Token.Kind} {op : BinaryOp}
    (h : level.operator? k = some op) : op.rank = level.rank ∧ k = op.kind := by
  unfold Level.operator? at h
  split at h
  all_goals
    cases h
  all_goals exact ⟨rfl, rfl⟩

theorem operator_kind {level : Level} {op : BinaryOp} (h : op.rank = level.rank) :
    level.operator? op.kind = some op := by
  obtain op | op | op := op <;> cases op <;> cases level <;> first | rfl | cases h

theorem atom_eq_some {t : Token} {e : Expr} (h : atom? t = some e) :
    Expression .application [t] e := by
  unfold atom? at h
  split at h <;> cases h
  case h_7 hk => exact .name hk
  all_goals
    next hk => exact .literal hk

theorem atom_literal {t : Token} {v : Literal} (h : t.kind = v.kind) :
    atom? t = some (.literal v t.span) := by
  unfold atom?
  rw [h]
  cases v with
  | bool b => cases b <;> rfl
  | _ => rfl

theorem atom_name {t : Token} {w : String} (h : t.kind = .name w) :
    atom? t = some (.name w t.span) := by
  unfold atom?
  rw [h]

/-! The tokens that forms are made of. Only the ends of lines and blocks shape them. -/

section Tokens

variable {r : Rank} {ts us : List Token} {e : Expr} {es : List Expr} {st : Stmt} {sts : List Stmt}

def Inner (ts : List Token) : Prop :=
  ∀ t ∈ ts, t.kind.isInner = true

theorem Inner.cons {t : Token} {k : Token.Kind} (ht : t.kind = k) (hk : k.isInner = true)
    (h : Inner ts) : Inner (t :: ts) :=
  List.forall_mem_cons.2 ⟨ht ▸ hk, h⟩

theorem Inner.append (h : Inner ts) (hs : Inner us) : Inner (ts ++ us) :=
  List.forall_mem_append.2 ⟨h, hs⟩

theorem inner_nil : Inner [] := nofun

theorem isInner_operator (op : BinaryOp) : op.kind.isInner = true := by
  obtain op | op | op := op <;> cases op <;> rfl

theorem isInner_literal (v : Literal) : v.kind.isInner = true := by
  cases v with
  | bool b => cases b <;> rfl
  | _ => rfl

mutual

theorem Expression.inner : ∀ {r ts e}, Expression r ts e → Inner ts
  | _, _, _, .tighter h => h.inner
  | _, _, _, .joined _ hl ho hr => hl.inner.append (hr.inner.cons ho (isInner_operator _))
  | _, _, _, .not ho h | _, _, _, .neg ho h | _, _, _, .plus ho h => h.inner.cons ho rfl
  | _, _, _, .call hf ho ha hc =>
    hf.inner.append ((ha.inner.append (inner_nil.cons hc rfl)).cons ho rfl)
  | _, _, _, .literal h => inner_nil.cons h (isInner_literal _)
  | _, _, _, .name h => inner_nil.cons h rfl
  | _, _, _, .enclosed ho h hc => (h.inner.append (inner_nil.cons hc rfl)).cons ho rfl

theorem Arguments.inner : ∀ {ts es}, Arguments ts es → Inner ts
  | _, _, .none => inner_nil
  | _, _, .last h => h.inner
  | _, _, .cons h hc hs => h.inner.append (hs.inner.cons hc rfl)

end

theorem Expression.ne_nil : ∀ {r ts e}, Expression r ts e → ts ≠ []
  | _, _, _, .tighter h => h.ne_nil
  | _, _, _, .joined .. | _, _, _, .call .. =>
    List.append_ne_nil_of_right_ne_nil _ (List.cons_ne_nil _ _)
  | _, _, _, .not .. | _, _, _, .neg .. | _, _, _, .plus .. => List.cons_ne_nil _ _
  | _, _, _, .literal _ | _, _, _, .name _ | _, _, _, .enclosed .. => List.cons_ne_nil _ _

theorem Target.inner {w : String} {s : Span} (h : Target ts w s) : Inner ts := by
  induction h with
  | name h => exact inner_nil.cons h rfl
  | enclosed ho _ hc ih => exact (ih.append (inner_nil.cons hc rfl)).cons ho rfl

theorem Parameters.inner {ps : List String} (h : Parameters ts ps) : Inner ts := by
  induction h with
  | none => exact inner_nil
  | last h => exact inner_nil.cons h rfl
  | cons h hc _ ih => exact (ih.cons hc rfl).cons h rfl

def InLine (ts : List Token) : Prop :=
  ∀ t ∈ ts, t.kind.isShape = false

theorem isShape_of_eq {t : Token} {k : Token.Kind} (h : t.kind = k) (hk : k.isShape = false) :
    t.kind.isShape = false := by
  rw [h, hk]

theorem InLine.cons {t : Token} {k : Token.Kind} (ht : t.kind = k) (hk : k.isShape = false)
    (h : InLine ts) : InLine (t :: ts) :=
  List.forall_mem_cons.2 ⟨isShape_of_eq ht hk, h⟩

theorem InLine.append (h : InLine ts) (hs : InLine us) : InLine (ts ++ us) :=
  List.forall_mem_append.2 ⟨h, hs⟩

theorem inLine_nil : InLine [] := nofun

theorem Inner.inLine (h : Inner ts) : InLine ts := fun t ht => by
  have hinner := h t ht
  cases hk : t.kind <;> first | rfl | (rw [hk] at hinner; cases hinner)

theorem Simple.inLine (h : Simple ts st) : InLine ts := by
  cases h with
  | assign ht ha hv => exact ht.inner.inLine.append (hv.inner.inLine.cons ha rfl)
  | expr h => exact h.inner.inLine
  | ret ht => exact inLine_nil.cons ht rfl
  | retValue ht h => exact h.inner.inLine.cons ht rfl
  | pass ht => exact inLine_nil.cons ht rfl

theorem Simple.ne_nil (h : Simple ts st) : ts ≠ [] := by
  cases h with
  | assign => exact List.append_ne_nil_of_right_ne_nil _ (List.cons_ne_nil _ _)
  | expr h => exact h.ne_nil
  | ret | retValue | pass => exact List.cons_ne_nil _ _

def Balanced (ts : List Token) : Prop :=
  ts.countP (·.kind.isIndent) = ts.countP (·.kind.isDedent)

theorem Balanced.cons {t : Token} {k : Token.Kind} (ht : t.kind = k)
    (hk : k.isIndent = k.isDedent) (h : Balanced ts) : Balanced (t :: ts) := by
  unfold Balanced at h ⊢
  rw [List.countP_cons, List.countP_cons, h, ht, hk]

theorem Balanced.append (h : Balanced ts) (hs : Balanced us) : Balanced (ts ++ us) := by
  unfold Balanced at h hs ⊢
  rw [List.countP_append, List.countP_append, h, hs]

theorem balanced_nil : Balanced [] := rfl

theorem InLine.balanced (h : InLine ts) : Balanced ts := by
  induction ts with
  | nil => exact balanced_nil
  | cons t ts ih =>
    obtain ⟨ht, hts⟩ := List.forall_mem_cons.1 h
    refine (ih hts).cons rfl ?_
    cases hk : t.kind <;> first | rfl | (rw [hk] at ht; cases ht)

theorem Balanced.block {i d : Token} (hi : i.kind = .indent) (h : Balanced ts)
    (hd : d.kind = .dedent) : Balanced (i :: (ts ++ [d])) := by
  unfold Balanced at h ⊢
  have hi' : i.kind.isDedent = false ∧ i.kind.isIndent = true := by rw [hi]; exact ⟨rfl, rfl⟩
  have hd' : d.kind.isDedent = true ∧ d.kind.isIndent = false := by rw [hd]; exact ⟨rfl, rfl⟩
  simp [List.countP_append, h, hi', hd']

mutual

theorem Statement.balanced : ∀ {ts st}, Statement ts st → Balanced ts
  | _, _, .simple h hn => h.inLine.balanced.append (balanced_nil.cons hn rfl)
  | _, _, .choose ht he hb ho =>
    .cons ht rfl (he.inner.inLine.balanced.append (hb.balanced.append ho.balanced))
  | _, _, .loop ht he hb => .cons ht rfl (he.inner.inLine.balanced.append hb.balanced)
  | _, _, .define ht hn ho hp _ hc hb =>
    .cons ht rfl (.cons hn rfl (.cons ho rfl
      (hp.inner.inLine.balanced.append (hb.balanced.cons hc rfl))))

theorem Others.balanced : ∀ {ts rest}, Others ts rest → Balanced ts
  | _, _, .branch ht he hb ho =>
    .cons ht rfl (he.inner.inLine.balanced.append (hb.balanced.append ho.balanced))
  | _, _, .otherwise ht hb => hb.balanced.cons ht rfl
  | _, _, .none => balanced_nil

theorem Block.balanced : ∀ {ts body}, Block ts body → Balanced ts
  | _, _, .line hc h hn => .cons hc rfl (h.inLine.balanced.append (balanced_nil.cons hn rfl))
  | _, _, .indented hc hn hi h _ hd => .cons hc rfl (.cons hn rfl (.block hi h.balanced hd))

theorem Statements.balanced : ∀ {ts sts}, Statements ts sts → Balanced ts
  | _, _, .nil => balanced_nil
  | _, _, .cons h hs => h.balanced.append hs.balanced

end

def EndsLine (ts : List Token) : Prop :=
  ∃ us t, ts = us ++ [t] ∧ t.kind.isLayout = true

theorem EndsLine.append (h : EndsLine us) (ts : List Token) : EndsLine (ts ++ us) := by
  obtain ⟨vs, t, rfl, ht⟩ := h
  exact ⟨ts ++ vs, t, by rw [List.append_assoc], ht⟩

theorem EndsLine.cons (h : EndsLine ts) (t : Token) : EndsLine (t :: ts) :=
  h.append [t]

theorem endsLine_concat {t : Token} {k : Token.Kind} (h : t.kind = k) (hk : k.isLayout = true)
    (ts : List Token) : EndsLine (ts ++ [t]) :=
  ⟨ts, t, rfl, h ▸ hk⟩

theorem Block.endsLine {body : List Stmt} (h : Block ts body) : EndsLine ts := by
  cases h with
  | line _ _ hn => exact (endsLine_concat hn rfl _).cons _
  | indented _ _ _ _ _ hd => exact (((endsLine_concat hd rfl _).cons _).cons _).cons _

theorem Others.endsLine :
    ∀ {ts os rest}, Others os rest → EndsLine ts → EndsLine (ts ++ os)
  | _, _, _, .branch _ _ hb ho, _ => (((ho.endsLine hb.endsLine).append _).cons _).append _
  | _, _, _, .otherwise _ hb, _ => (hb.endsLine.cons _).append _
  | _, _, _, .none, h => by rwa [List.append_nil]

theorem Statement.endsLine (h : Statement ts st) : EndsLine ts := by
  cases h with
  | simple _ hn => exact endsLine_concat hn rfl _
  | choose _ _ hb ho => exact ((ho.endsLine hb.endsLine).append _).cons _
  | loop _ _ hb => exact (hb.endsLine.append _).cons _
  | define _ _ _ _ _ _ hb => exact ((((hb.endsLine.cons _).append _).cons _).cons _).cons _

end Tokens

end Grammar

end Stepwise.Source
