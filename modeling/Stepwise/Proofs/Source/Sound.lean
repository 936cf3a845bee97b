import Mathlib.Data.List.Nodup
import Stepwise.Proofs.Source.Shape

/-! What the parser takes is of the grammar. A function that gives a value has taken tokens that
are a form of that value, with two exceptions that the tokens themselves show: a plus sign leaves
its operand as it is, also where the operand is a name that is assigned to, and a block that
begins and ends at once is taken for one with no statements. -/

namespace Stepwise.Source

def Token.Kind.isTargetPart : Token.Kind → Bool
  | .name _ | .mark .openParen | .mark .closeParen | .mark .plus => true
  | _ => false

def Token.Kind.isPlus : Token.Kind → Bool
  | .mark .plus => true
  | _ => false

def Token.Kind.isEof : Token.Kind → Bool
  | .eof => true
  | _ => false

def Token.Kind.isAssign : Token.Kind → Bool
  | .mark .assign => true
  | _ => false

/-- A plus sign stands in a target; `seen` if one stands before the tokens with only parts of a
target behind it. -/
def signsTarget (seen : Bool) : List Token → Bool
  | [] => false
  | t :: ts =>
    seen && t.kind.isAssign || signsTarget (t.kind.isPlus || seen && t.kind.isTargetPart) ts

/-- What stands between two tokens when no block is empty. -/
def Token.Fills (t u : Token) : Prop :=
  t.kind.isIndent = true → u.kind.isDedent = false

section SignsTarget

variable {ts us : List Token} {a : Token}

theorem signsTarget_mono (seen : Bool) (h : signsTarget false ts = true) :
    signsTarget seen ts = true := by
  induction ts generalizing seen with
  | nil => cases h
  | cons t ts ih =>
    simp only [signsTarget, Bool.false_and, Bool.false_or, Bool.or_false, Bool.or_eq_true] at h ⊢
    cases hplus : t.kind.isPlus
    · rw [hplus] at h
      exact .inr (ih _ h)
    · rw [hplus] at h
      exact .inr h

theorem signsTarget_append (seen : Bool) (h : signsTarget false us = true) :
    signsTarget seen (ts ++ us) = true := by
  induction ts generalizing seen with
  | nil => exact signsTarget_mono seen h
  | cons t ts ih => exact Bool.or_eq_true_iff.2 (.inr (ih _))

theorem signsTarget_left {seen : Bool} (h : signsTarget seen ts = true) :
    signsTarget seen (ts ++ us) = true := by
  induction ts generalizing seen with
  | nil => cases h
  | cons t ts ih => exact Bool.or_eq_true_iff.2 ((Bool.or_eq_true_iff.1 h).imp_right ih)

/-- Parts of a target with a plus sign among or before them, and an assignment behind them. -/
theorem signsTarget_of_parts {seen : Bool} (hparts : ∀ t ∈ ts, t.kind.isTargetPart = true)
    (hplus : seen = true ∨ ∃ t ∈ ts, t.kind = .mark .plus) (ha : a.kind = .mark .assign) :
    signsTarget seen (ts ++ a :: us) = true := by
  induction ts generalizing seen with
  | nil =>
    obtain rfl : seen = true := hplus.resolve_right fun ⟨_, ht, _⟩ => nomatch ht
    simp [signsTarget, Token.Kind.isAssign, ha]
  | cons t ts ih =>
    obtain ⟨ht, hts⟩ := List.forall_mem_cons.1 hparts
    refine Bool.or_eq_true_iff.2 (.inr (ih hts ?_))
    rcases hplus with rfl | ⟨u, hu, hplus⟩
    · exact .inl (by rw [ht]; simp)
    · rcases List.mem_cons.1 hu with rfl | hu
      · exact .inl (by rw [hplus]; rfl)
      · exact .inr ⟨u, hu, hplus⟩

end SignsTarget

namespace Tokens

variable {s rest : Tokens} {m : Mark} {k : Keyword}

def prepend (ts : List Token) (s : Tokens) : Tokens :=
  { s with ahead := ts ++ s.ahead }

theorem prepend_append (ts us : List Token) (s : Tokens) :
    s.prepend (ts ++ us) = (s.prepend us).prepend ts :=
  congrArg (Tokens.mk · s.final) (List.append_assoc ..)

def Ends (s : Tokens) : Prop :=
  s.final.kind = .eof

theorem Ends.behind {ts : List Token} (h : s.Ends) (hs : s = rest.prepend ts) : rest.Ends := by
  subst hs
  exact h

theorem Ends.eq_prepend (h : s.Ends) (hk : s.peek.kind.isEof = false) :
    s = s.bump.prepend [s.peek] := by
  obtain ⟨_ | ⟨t, ts⟩, final⟩ := s
  · have hfinal : final.kind.isEof = false := hk
    rw [show final.kind = .eof from h] at hfinal
    cases hfinal
  · rfl

theorem kind_of_atMark (h : s.atMark m = true) : s.peek.kind = .mark m := by
  unfold atMark at h
  split at h
  · next hk => rw [hk, of_decide_eq_true h]
  · cases h

theorem kind_of_atKeyword (h : s.atKeyword k = true) : s.peek.kind = .keyword k := by
  unfold atKeyword at h
  split at h
  · next hk => rw [hk, of_decide_eq_true h]
  · cases h

theorem kind_of_atNewline (h : s.atNewline = true) : s.peek.kind = .newline := by
  unfold atNewline at h
  split at h
  · assumption
  · cases h

theorem kind_of_atIndent (h : s.atIndent = true) : s.peek.kind = .indent := by
  unfold atIndent at h
  split at h
  · assumption
  · cases h

theorem kind_of_atDedent (h : s.atDedent = true) : s.peek.kind = .dedent := by
  unfold atDedent at h
  split at h
  · assumption
  · cases h

theorem kind_of_atEnd (h : s.atEnd = true) : s.peek.kind = .eof := by
  unfold atEnd at h
  split at h
  · assumption
  · cases h

end Tokens

namespace Grammar

def Takes {α : Type} (P : List Token → α → Prop) (s : Tokens) (x : Parsed (α × Tokens)) : Prop :=
  s.Ends → ∀ a rest, x = .ok (a, rest) → ∃ ts, s = rest.prepend ts ∧ P ts a

section Takes

variable {α β : Type} {P : List Token → α → Prop} {Q : List Token → β → Prop} {s : Tokens} {a : α}

theorem Takes.error (e : SyntaxError) : Takes P s (.error e) :=
  fun _ _ _ h => nomatch h

theorem Takes.ok (h : P [] a) : Takes P s (.ok (a, s)) := by
  rintro - _ _ ⟨⟩
  exact ⟨[], rfl, h⟩

theorem Takes.behind {x : Parsed (α × Tokens)} {k : Token.Kind} (hk : s.peek.kind = k)
    (hend : k.isEof = false) (hx : Takes (fun ts => P (s.peek :: ts)) s.bump x) : Takes P s x := by
  intro hs a rest h
  have hpeek := hs.eq_prepend (hk ▸ hend)
  obtain ⟨ts, hts, hP⟩ := hx (hs.behind hpeek) a rest h
  exact ⟨s.peek :: ts, hpeek.trans (by rw [hts]; rfl), hP⟩

theorem Takes.bump {k : Token.Kind} (hk : s.peek.kind = k) (hend : k.isEof = false)
    (h : P [s.peek] a) : Takes P s (.ok (a, s.bump)) :=
  .behind hk hend (.ok h)

theorem Takes.bind {x : Parsed (α × Tokens)} {f : α × Tokens → Parsed (β × Tokens)}
    (hx : Takes P s x)
    (hf : ∀ ts a rest, s = rest.prepend ts → P ts a →
      Takes (fun us => Q (ts ++ us)) rest (f (a, rest))) : Takes Q s (x >>= f) := by
  intro hs b rest h
  cases x with
  | error e => exact nomatch h
  | ok r =>
    obtain ⟨ts, hts, hP⟩ := hx hs r.1 r.2 rfl
    obtain ⟨us, hus, hQ⟩ := hf ts r.1 r.2 hts hP (hs.behind hts) b rest h
    exact ⟨ts ++ us, by rw [Tokens.prepend_append, ← hus, hts], hQ⟩

theorem Takes.mono {P' : List Token → α → Prop} {x : Parsed (α × Tokens)} (hx : Takes P s x)
    (h : ∀ ts a, P ts a → P' ts a) : Takes P' s x := by
  intro hs a rest hok
  obtain ⟨ts, hts, hP⟩ := hx hs a rest hok
  exact ⟨ts, hts, h ts a hP⟩

end Takes

def Single (k : Token.Kind) (ts : List Token) (span : Span) : Prop :=
  ∃ t : Token, ts = [t] ∧ t.kind = k ∧ span = t.span

theorem takes_expect (m : Mark) (s : Tokens) : Takes (Single (.mark m)) s (expect m s) := by
  unfold expect
  split
  · next h =>
    have hk := Tokens.kind_of_atMark h
    exact .bump hk rfl ⟨s.peek, rfl, hk, rfl⟩
  · exact .error _

structure TakesExpressions (n : Nat) : Prop where
  expression : ∀ s, Takes (Expression .disjunction) s (expression n s)
  chain : ∀ level s, Takes (Expression level.rank) s (chain n level s)
  more : ∀ level ts left s, Expression level.rank ts left →
    Takes (fun us => Expression level.rank (ts ++ us)) s (more n level left s)
  operand : ∀ level s, Takes (Expression level.rank.next) s (operand n level s)
  negation : ∀ s, Takes (Expression .negation) s (negation n s)
  signed : ∀ s, Takes (Expression .sign) s (signed n s)
  primary : ∀ s, Takes (Expression .application) s (primary n s)
  calls : ∀ ts callee s, Expression .application ts callee →
    Takes (fun us => Expression .application (ts ++ us)) s (calls n callee s)
  arguments : ∀ s, Takes Arguments s (arguments n s)

namespace TakesExpressions

variable {n : Nat}

theorem takes_chain (ih : TakesExpressions n) (level : Level) (s : Tokens) :
    Takes (Expression level.rank) s (Grammar.chain (n + 1) level s) :=
  .bind (ih.operand level s) fun ts left rest _ hl => ih.more level ts left rest hl.tighter

theorem takes_more (ih : TakesExpressions n) {level : Level} {ts : List Token} {left : Expr}
    (hl : Expression level.rank ts left) (s : Tokens) :
    Takes (fun us => Expression level.rank (ts ++ us)) s (Grammar.more (n + 1) level left s) := by
  unfold Grammar.more
  split
  · exact .ok (by rwa [List.append_nil])
  · next op hop =>
    obtain ⟨hrank, hkind⟩ := operator_eq_some hop
    refine .behind hkind (by obtain op | op | op := op <;> cases op <;> rfl)
      (.bind (ih.operand level s.bump) fun us right rest _ hr => ?_)
    refine (ih.more level _ _ rest (.joined hrank hl hkind hr)).mono fun vs e he => ?_
    simpa using he

theorem takes_operand (ih : TakesExpressions n) (level : Level) (s : Tokens) :
    Takes (Expression level.rank.next) s (Grammar.operand (n + 1) level s) := by
  cases level with
  | disjunction => exact ih.chain .conjunction s
  | conjunction => exact ih.negation s
  | comparison => exact ih.chain .sum s
  | sum => exact ih.chain .product s
  | product => exact ih.signed s

theorem takes_negation (ih : TakesExpressions n) (s : Tokens) :
    Takes (Expression .negation) s (Grammar.negation (n + 1) s) := by
  unfold Grammar.negation
  split
  · next h =>
    have hk := Tokens.kind_of_atKeyword h
    exact .behind hk rfl (.bind (ih.negation s.bump) fun ts e rest _ he =>
      .ok (by rw [List.append_nil]; exact .not hk he))
  · exact (ih.chain .comparison s).mono fun _ _ he => .tighter (r := .negation) he

theorem takes_signed (ih : TakesExpressions n) (s : Tokens) :
    Takes (Expression .sign) s (Grammar.signed (n + 1) s) := by
  unfold Grammar.signed
  split
  · next h =>
    have hk := Tokens.kind_of_atMark h
    exact .behind hk rfl (.bind (ih.signed s.bump) fun ts e rest _ he =>
      .ok (by rw [List.append_nil]; exact .neg hk he))
  split
  · next h =>
    have hk := Tokens.kind_of_atMark h
    exact .behind hk rfl ((ih.signed s.bump).mono fun _ _ he => .plus hk he)
  · exact .bind (ih.primary s) fun ts e rest _ he =>
      (ih.calls ts e rest he).mono fun _ _ he => .tighter (r := .sign) he

theorem takes_primary (ih : TakesExpressions n) (s : Tokens) :
    Takes (Expression .application) s (Grammar.primary (n + 1) s) := by
  unfold Grammar.primary
  split
  · next e he =>
    have hk : s.peek.kind.isEof = false := by
      unfold Token.Kind.isEof
      split
      · next hk =>
        rw [atom?, hk] at he
        cases he
      · rfl
    exact .bump rfl hk (atom_eq_some he)
  split
  · next h =>
    have hk := Tokens.kind_of_atMark h
    refine .behind hk rfl (.bind (ih.expression s.bump) fun ts e rest _ he =>
      .bind (takes_expect .closeParen rest) fun us close after _ hc => .ok ?_)
    obtain ⟨c, rfl, hc, rfl⟩ := hc
    exact .enclosed hk he hc
  · exact .error _

theorem takes_calls (ih : TakesExpressions n) {ts : List Token} {callee : Expr}
    (hcallee : Expression .application ts callee) (s : Tokens) :
    Takes (fun us => Expression .application (ts ++ us)) s (Grammar.calls (n + 1) callee s) := by
  unfold Grammar.calls
  split
  · next h =>
    have hk := Tokens.kind_of_atMark h
    have closed (us : List Token) (args : List Expr) (rest : Tokens) (ha : Arguments us args) :
        Takes (fun vs => Expression .application (ts ++ s.peek :: (us ++ vs))) rest
          (expect .closeParen rest >>= fun r =>
            Grammar.calls n (.call callee args (callee.span.to r.1)) r.2) := by
      refine .bind (takes_expect .closeParen rest) fun vs close after _ hc => ?_
      obtain ⟨c, rfl, hc, rfl⟩ := hc
      refine (ih.calls _ _ after (.call hcallee hk ha hc)).mono fun ws e he => ?_
      simpa using he
    refine .behind hk rfl ?_
    dsimp only
    split
    · exact closed [] [] s.bump .none
    · exact .bind (ih.arguments s.bump) fun us args rest _ ha => closed us args rest ha
  · exact .ok (by rwa [List.append_nil])

theorem takes_arguments (ih : TakesExpressions n) (s : Tokens) :
    Takes Arguments s (Grammar.arguments (n + 1) s) := by
  unfold Grammar.arguments
  refine .bind (ih.expression s) fun ts e rest _ he => ?_
  dsimp only
  split
  · next h =>
    have hk := Tokens.kind_of_atMark (Bool.and_eq_true_iff.1 h).1
    exact .behind hk rfl (.bind (ih.arguments rest.bump) fun us es after _ hes =>
      .ok (by rw [List.append_nil]; exact .cons he hk hes))
  split
  · next h =>
    have hk := Tokens.kind_of_atMark h
    exact .bump hk rfl (.cons he hk .none)
  · exact .ok (by rw [List.append_nil]; exact .last he)

end TakesExpressions

theorem takesExpressions (n : Nat) : TakesExpressions n := by
  induction n with
  | zero => constructor <;> intros <;> exact .error _
  | succ n ih =>
    exact {
      expression := ih.chain .disjunction
      chain := ih.takes_chain
      more := fun _ _ _ s hl => ih.takes_more hl s
      operand := ih.takes_operand
      negation := ih.takes_negation
      signed := ih.takes_signed
      primary := ih.takes_primary
      calls := fun _ _ s hcallee => ih.takes_calls hcallee s
      arguments := ih.takes_arguments }

theorem name_of_withSpan {e : Expr} {w : String} {s t : Span} (h : e.withSpan t = .name w s) :
    e = .name w e.span ∧ s = t := by
  cases e <;> cases h
  exact ⟨rfl, rfl⟩

theorem Expression.target : ∀ {r ts e}, Expression r ts e → ∀ w s, e = .name w s →
    (∀ t ∈ ts, t.kind.isTargetPart = true) ∧
      ((∀ t ∈ ts, t.kind ≠ .mark .plus) → Target ts w s)
  | _, _, _, .tighter h => h.target
  | _, _, _, .joined .. | _, _, _, .not .. | _, _, _, .neg .. | _, _, _, .call .. => nofun
  | _, _, _, .literal _ => nofun
  | _, _, _, .plus ho h => fun w s he =>
    ⟨List.forall_mem_cons.2 ⟨by rw [ho]; rfl, (h.target w s he).1⟩,
      fun hplus => absurd ho (hplus _ List.mem_cons_self)⟩
  | _, _, _, .name h => by
    rintro w s ⟨⟩
    exact ⟨List.forall_mem_singleton.2 (by rw [h]; rfl), fun _ => .name h⟩
  | _, _, _, .enclosed (e := e) ho h hc => fun w s he => by
    obtain ⟨hname, rfl⟩ := name_of_withSpan he
    obtain ⟨hparts, htarget⟩ := h.target w _ hname
    refine ⟨?_, fun hplus => .enclosed ho (htarget fun t ht => hplus t ?_) hc⟩
    · simp only [List.forall_mem_cons, List.forall_mem_append]
      exact ⟨by rw [ho]; rfl, hparts, by rw [hc]; rfl, nofun⟩
    · exact List.mem_cons_of_mem _ (List.mem_append_left _ ht)

def NewParameters (seen : List String) (ts : List Token) (params : List String) : Prop :=
  ∃ new, params = seen ++ new ∧ Parameters ts new ∧ params.Nodup

theorem takes_parameters (n : Nat) {seen : List String} (hseen : seen.Nodup) (s : Tokens) :
    Takes (NewParameters seen) s (parameters seen n s) := by
  induction n generalizing seen s with
  | zero => exact .error _
  | succ n ih =>
    unfold parameters
    split
    · next p hp =>
      dsimp only
      split
      · exact .error _
      next hnew =>
      have hdistinct : (seen ++ [p]).Nodup := by
        rw [List.nodup_append]
        refine ⟨hseen, List.nodup_singleton p, ?_⟩
        rintro q hq _ hq' rfl
        obtain rfl := List.mem_singleton.1 hq'
        exact hnew (List.contains_iff_mem.2 hq)
      split
      · exact .bump hp rfl ⟨[p], rfl, .last hp, hdistinct⟩
      next hcomma =>
      have hcomma : s.bump.peek.kind = .mark .comma := by
        simp only [Bool.not_eq_true', Bool.not_eq_false] at hcomma
        exact Tokens.kind_of_atMark hcomma
      split
      · exact .behind hp rfl (.bump hcomma rfl ⟨[p], rfl, .cons hp hcomma .none, hdistinct⟩)
      · refine .behind hp rfl (.behind hcomma rfl ((ih hdistinct _).mono ?_))
        rintro ts params ⟨new, rfl, hnew, hparams⟩
        exact ⟨p :: new, by simp, .cons hp hcomma hnew, hparams⟩
    · exact .error _

def Signature (ts : List Token) (sig : String × List String × Span) : Prop :=
  ∃ n o c ps, ts = n :: o :: (ps ++ [c]) ∧ n.kind = .name sig.1 ∧ o.kind = .mark .openParen ∧
    Parameters ps sig.2.1 ∧ sig.2.1.Nodup ∧ c.kind = .mark .closeParen ∧ sig.2.2 = c.span

theorem takes_signature (n : Nat) (s : Tokens) : Takes Signature s (signature n s) := by
  unfold signature
  split
  · next name hname =>
    refine .behind hname rfl (.bind (takes_expect .openParen s.bump) fun ts _ rest _ ho => ?_)
    obtain ⟨o, rfl, ho, rfl⟩ := ho
    have closed (ps : List Token) (params : List String) (rest : Tokens)
        (hp : NewParameters [] ps params) :
        Takes (fun vs => Signature (s.peek :: ([o] ++ (ps ++ vs)))) rest
          (expect .closeParen rest >>= fun r => .ok ((name, params, r.1), r.2)) := by
      refine .bind (takes_expect .closeParen rest) fun vs close after _ hc => .ok ?_
      obtain ⟨c, rfl, hc, rfl⟩ := hc
      obtain ⟨_, rfl, hp, hdistinct⟩ := hp
      exact ⟨s.peek, o, c, ps, by simp, hname, ho, hp, hdistinct, hc, rfl⟩
    dsimp only
    split
    · exact closed [] [] rest ⟨[], rfl, .none, List.nodup_nil⟩
    · exact .bind (takes_parameters n List.nodup_nil rest) fun ps params rest _ hp =>
        closed ps params rest hp
  · exact .error _

end Grammar

/-- The tokens inside so many blocks, up to the end of the text, without the two forms that the
parser takes beyond the grammar. -/
structure Tokens.Regular (depth : Nat) (s : Tokens) : Prop where
  ends : s.Ends
  inner : ∀ t ∈ s.ahead, t.kind ≠ .eof
  meets : (s.ahead ++ [s.final]).IsChain Token.Meets
  unsigned : signsTarget false s.ahead = false
  filled : s.ahead.IsChain Token.Fills
  blocks : s.ahead.countP (·.kind.isDedent) = s.ahead.countP (·.kind.isIndent) + depth

namespace Tokens.Regular

open Grammar

variable {depth deeper : Nat} {s rest : Tokens} {ts : List Token}

theorem within (h : s.Regular depth) (hs : s = rest.prepend ts)
    (hts : ts.countP (·.kind.isIndent) + depth = ts.countP (·.kind.isDedent) + deeper) :
    rest.Regular deeper := by
  subst hs
  refine ⟨h.ends, fun t ht => h.inner t (List.mem_append_right ts ht), ?_, ?_, ?_, ?_⟩
  · have hmeets := h.meets
    rw [prepend, List.append_assoc] at hmeets
    exact hmeets.right_of_append
  · by_contra hsigned
    have : signsTarget false (ts ++ rest.ahead) = true :=
      signsTarget_append false (Bool.not_eq_false _ ▸ hsigned)
    exact absurd h.unsigned (by rw [prepend, this]; decide)
  · exact h.filled.right_of_append
  · have hblocks := h.blocks
    simp only [prepend, List.countP_append] at hblocks
    omega

theorem behind (h : s.Regular depth) (hs : s = rest.prepend ts) (hts : Balanced ts) :
    rest.Regular depth :=
  h.within hs (congrArg (· + depth) hts)

theorem bump (h : s.Regular depth) {k : Token.Kind} (hk : s.peek.kind = k)
    (hshape : k.isShape = false) : s.bump.Regular depth := by
  refine h.behind (h.ends.eq_prepend ?_) (balanced_nil.cons hk ?_) <;>
    cases k <;> first | (cases hshape; done) | rfl | exact hk ▸ rfl

theorem not_atEnd (h : s.Regular depth) (hs : s = rest.prepend ts) (hne : ts ≠ [])
    (hline : InLine ts) : rest.atEnd = false := by
  by_contra hend
  have hk := kind_of_atEnd (Bool.not_eq_false _ ▸ hend)
  subst hs
  have hmeets : (ts ++ (rest.ahead ++ [rest.final])).IsChain Token.Meets :=
    List.append_assoc ts _ _ ▸ h.meets
  have hhead : (rest.ahead ++ [rest.final]).head (by simp) = rest.peek := by
    obtain ⟨_ | ⟨t, us⟩, final⟩ := rest <;> rfl
  have hlast := hmeets.rel_getLast_head_of_append hne (by simp)
  have hlayout := hlast.eof (hhead ▸ hk)
  exact Bool.noConfusion ((hline _ (List.getLast_mem hne)).symm.trans (isShape_of_isLayout hlayout))

theorem not_atEnd_inside (h : s.Regular (depth + 1)) : s.atEnd = false := by
  by_contra hend
  have hk := kind_of_atEnd (Bool.not_eq_false _ ▸ hend)
  obtain ⟨_ | ⟨t, us⟩, final⟩ := s
  · exact absurd h.blocks (by simp)
  · exact h.inner t List.mem_cons_self hk

end Tokens.Regular

namespace Tokens

def StartsLine (s : Tokens) : Prop :=
  Source.StartsLine (s.ahead ++ [s.final])

variable {s rest : Tokens} {ts : List Token}

theorem StartsLine.not_atNewline (h : s.StartsLine) : s.atNewline = false := by
  by_contra hline
  have hk := kind_of_atNewline (Bool.not_eq_false _ ▸ hline)
  obtain ⟨t, ht, hchain⟩ := h
  have hmeets : t.Meets s.peek := by
    obtain ⟨_ | ⟨u, us⟩, final⟩ := s <;> exact hchain.rel
  exact absurd (hmeets.newline hk) (by rw [ht]; decide)

theorem Regular.startsLine {depth : Nat} (h : s.Regular depth) (hs : s = rest.prepend ts)
    (hts : Grammar.EndsLine ts) : rest.StartsLine := by
  subst hs
  obtain ⟨us, t, rfl, ht⟩ := hts
  refine ⟨t, ht, ?_⟩
  have hmeets := h.meets
  simp only [prepend, List.append_assoc] at hmeets
  exact hmeets.right_of_append

end Tokens

namespace Grammar

variable {depth : Nat} {s : Tokens}

theorem takes_assignment (n : Nat) (hs : s.Regular depth) : Takes Simple s (assignment n s) := by
  unfold assignment
  refine .bind ((takesExpressions n).expression s) fun ts e rest hts he => ?_
  dsimp only
  split
  · next hassign =>
    have ha := Tokens.kind_of_atMark hassign
    split
    · next w span =>
      obtain ⟨hparts, htarget⟩ := he.target w span rfl
      have hunsigned : ∀ t ∈ ts, t.kind ≠ .mark .plus := by
        intro t ht hplus
        have hrest := (hs.ends.behind hts).eq_prepend (ha ▸ rfl)
        have hahead : s.ahead = ts ++ rest.peek :: rest.bump.ahead := by rw [hts, hrest]; rfl
        have hsigned : signsTarget false (ts ++ rest.peek :: rest.bump.ahead) = true :=
          signsTarget_of_parts hparts (.inr ⟨t, ht, hplus⟩) ha
        exact absurd hs.unsigned (by rw [hahead, hsigned]; decide)
      exact .behind ha rfl (.bind ((takesExpressions n).expression rest.bump)
        fun us value after _ hv => .ok (by
          rw [List.append_nil]
          exact .assign (htarget hunsigned) ha hv))
    · exact .error _
  · exact .ok (by rw [List.append_nil]; exact .expr he)

theorem takes_simple (n : Nat) (hs : s.Regular depth) : Takes Simple s (simple n s) := by
  unfold simple
  split
  · next h =>
    have hk := Tokens.kind_of_atKeyword h
    exact .bump hk rfl (.pass hk)
  split
  · next h =>
    have hk := Tokens.kind_of_atKeyword h
    split
    · exact .bump hk rfl (.ret hk)
    · exact .behind hk rfl (.bind ((takesExpressions n).expression s.bump)
        fun ts value rest _ hv => .ok (by rw [List.append_nil]; exact .retValue hk hv))
  split
  · exact .error _
  · exact takes_assignment n hs

def SimpleLine (ts : List Token) (st : Stmt) : Prop :=
  ∃ us n, ts = us ++ [n] ∧ Simple us st ∧ n.kind = .newline

theorem takes_simpleLine (n : Nat) (hs : s.Regular depth) :
    Takes SimpleLine s (simpleLine n s) := by
  refine .bind (takes_simple n hs) fun ts st rest hts hst => ?_
  have hend := hs.not_atEnd hts hst.ne_nil hst.inLine
  have hline : Takes (fun us (_ : Unit) => ∃ n, us = [n] ∧ n.kind = .newline) rest
      (endLine rest) := by
    unfold endLine
    rw [hend]
    split
    · next h =>
      have hk := Tokens.kind_of_atNewline h
      exact .bump hk rfl ⟨rest.peek, rfl, hk⟩
    · exact .error _
  refine .bind hline fun us _ after _ hn => .ok ?_
  obtain ⟨n, rfl, hn⟩ := hn
  exact ⟨ts, n, by simp, hst, hn⟩

def BlockRest (ts : List Token) (body : List Stmt) : Prop :=
  ∃ us d, ts = us ++ [d] ∧ Statements us body ∧ d.kind = .dedent

structure TakesStatements (n : Nat) : Prop where
  statement : ∀ depth s, s.Regular depth → Takes Statement s (statement n s)
  branches : ∀ depth s, s.Regular depth → Takes Others s (branches n s)
  block : ∀ depth s, s.Regular depth → Takes Block s (block n s)
  statements : ∀ depth s, s.Regular (depth + 1) → s.StartsLine →
    Takes BlockRest s (statements n s)

namespace TakesStatements

variable {n depth : Nat} {s : Tokens}

theorem takes_guarded (ih : TakesStatements n) (hs : s.Regular depth) {k : Keyword}
    (hk : s.peek.kind = .keyword k) {α : Type} {P : List Token → α → Prop}
    {f : Expr × Tokens → List Stmt × Tokens → Parsed (α × Tokens)}
    (hf : ∀ ts test bs body rest after, rest.Regular depth → Expression .disjunction ts test →
      Block bs body → Takes (fun os => P (s.peek :: (ts ++ (bs ++ os)))) rest
        (f (test, after) (body, rest))) :
    Takes P s (expression n s.bump >>= fun t => Grammar.block n t.2 >>= f t) := by
  refine .behind hk rfl (.bind ((takesExpressions n).expression s.bump)
    fun ts test after hts ht => ?_)
  have hafter := (hs.bump hk rfl).behind hts ht.inner.inLine.balanced
  refine .bind (ih.block depth after hafter) fun bs body rest hbs hb => ?_
  exact hf ts test bs body rest after (hafter.behind hbs hb.balanced) ht hb

theorem takes_statement (ih : TakesStatements n) (hs : s.Regular depth) :
    Takes Statement s (Grammar.statement (n + 1) s) := by
  unfold Grammar.statement
  split
  · next h =>
    have hk := Tokens.kind_of_atKeyword h
    refine ih.takes_guarded hs hk fun ts test bs body rest _ hrest ht hb => ?_
    refine .bind (ih.branches depth rest hrest) fun os others _ _ ho => .ok ?_
    rw [List.append_nil]
    exact .choose hk ht hb ho
  split
  · next h =>
    have hk := Tokens.kind_of_atKeyword h
    refine ih.takes_guarded hs hk fun ts test bs body rest _ _ ht hb => .ok ?_
    rw [List.append_nil]
    exact .loop hk ht hb
  split
  · next h =>
    have hk := Tokens.kind_of_atKeyword h
    refine .behind hk rfl (.bind (takes_signature n s.bump) fun ts sig rest hts hsig => ?_)
    obtain ⟨m, o, c, ps, rfl, hm, ho, hp, hd, hc, hclose⟩ := hsig
    have hrest := (hs.bump hk rfl).behind hts (.cons hm rfl (.cons ho rfl
      (hp.inner.inLine.balanced.append (balanced_nil.cons hc rfl))))
    refine .bind (ih.block depth rest hrest) fun bs body _ _ hb => .ok ?_
    rw [hclose]
    simpa using Statement.define hk hm ho hp hd hc hb
  · refine (takes_simpleLine n hs).mono ?_
    rintro _ st ⟨us, m, rfl, hst, hm⟩
    exact .simple hst hm

theorem takes_branches (ih : TakesStatements n) (hs : s.Regular depth) :
    Takes Others s (Grammar.branches (n + 1) s) := by
  unfold Grammar.branches
  split
  · next h =>
    have hk := Tokens.kind_of_atKeyword h
    refine ih.takes_guarded hs hk fun ts test bs body rest _ hrest ht hb => ?_
    refine .bind (ih.branches depth rest hrest) fun os others _ _ ho => .ok ?_
    rw [List.append_nil]
    exact .branch hk ht hb ho
  split
  · next h =>
    have hk := Tokens.kind_of_atKeyword h
    refine .behind hk rfl (.bind (ih.block depth s.bump (hs.bump hk rfl))
      fun bs body _ _ hb => .ok ?_)
    rw [List.append_nil]
    exact .otherwise hk hb
  · exact .ok .none

theorem takes_indented (ih : TakesStatements n) (hs : s.Regular depth)
    (hn : s.peek.kind = .newline) (hi : s.bump.peek.kind = .indent) {c : Token}
    (hc : c.kind = .mark .colon) :
    Takes (fun ts body => Block (c :: ts) body) s (Grammar.statements n s.bump.bump) := by
  have hboth : s = s.bump.bump.prepend [s.peek, s.bump.peek] := by
    have hfirst := hs.ends.eq_prepend (hn ▸ rfl)
    exact hfirst.trans (congrArg (Tokens.prepend [s.peek])
      ((hs.ends.behind hfirst).eq_prepend (hi ▸ rfl)))
  have hinside : s.bump.bump.Regular (depth + 1) := hs.within hboth (by
    simp [hn, hi, Token.Kind.isIndent, Token.Kind.isDedent]; omega)
  have hstarts := hs.startsLine hboth ⟨[s.peek], s.bump.peek, rfl, by rw [hi]; rfl⟩
  refine .behind hn rfl (.behind hi rfl fun hends body after hok => ?_)
  obtain ⟨us, hus, vs, d, rfl, hbody, hd⟩ :=
    ih.statements depth _ hinside hstarts hends body after hok
  refine ⟨_, hus, .indented hc hn hi hbody ?_ hd⟩
  rintro rfl
  cases hbody
  have hfilled := hs.filled
  rw [hboth, hus] at hfilled
  have hfirst := hfilled.tail.rel
  rw [Token.Fills, hi, hd] at hfirst
  exact absurd (hfirst rfl) (by decide)

theorem takes_block (ih : TakesStatements n) (hs : s.Regular depth) :
    Takes Block s (Grammar.block (n + 1) s) := by
  unfold Grammar.block
  refine .bind (takes_expect .colon s) fun ts _ rest hts hc => ?_
  obtain ⟨c, rfl, hc, -⟩ := hc
  have hrest := hs.behind hts (balanced_nil.cons hc rfl)
  dsimp only
  split
  · next hline =>
    split
    · next hindent =>
      exact ih.takes_indented hrest (Tokens.kind_of_atNewline hline)
        (Tokens.kind_of_atIndent hindent) hc
    · exact .error _
  · refine .bind (takes_simpleLine n hrest) fun us st _ _ hst => .ok ?_
    obtain ⟨us, m, rfl, hst, hm⟩ := hst
    rw [List.append_nil]
    exact .line hc hst hm

theorem takes_statements (ih : TakesStatements n) (hs : s.Regular (depth + 1))
    (hstarts : s.StartsLine) : Takes BlockRest s (Grammar.statements (n + 1) s) := by
  unfold Grammar.statements
  rw [hstarts.not_atNewline, hs.not_atEnd_inside]
  split
  · next h =>
    have hk := Tokens.kind_of_atDedent h
    exact .bump hk rfl ⟨[], s.peek, rfl, .nil, hk⟩
  · refine .bind (ih.statement _ s hs) fun ts st rest hts hst => ?_
    have hrest := hs.behind hts hst.balanced
    refine .bind (ih.statements depth rest hrest (hs.startsLine hts hst.endsLine))
      fun us sts _ _ hsts => .ok ?_
    obtain ⟨us, d, rfl, hsts, hd⟩ := hsts
    exact ⟨ts ++ us, d, by simp, .cons hst hsts, hd⟩

end TakesStatements

theorem takesStatements (n : Nat) : TakesStatements n := by
  induction n with
  | zero => constructor <;> intros <;> exact .error _
  | succ n ih =>
    exact {
      statement := fun _ _ hs => ih.takes_statement hs
      branches := fun _ _ hs => ih.takes_branches hs
      block := fun _ _ hs => ih.takes_block hs
      statements := fun _ _ hs hstarts => ih.takes_statements hs hstarts }

theorem takes_program (n : Nat) (hs : s.Regular 0) (hstarts : s.StartsLine) :
    Takes (fun ts body => Statements ts body ∧ ts = s.ahead) s (program n s) := by
  induction n generalizing s with
  | zero => exact .error _
  | succ n ih =>
    unfold program
    rw [hstarts.not_atNewline]
    split
    · next hend =>
      have hk := Tokens.kind_of_atEnd hend
      obtain ⟨_ | ⟨t, us⟩, final⟩ := s
      · exact .ok ⟨.nil, rfl⟩
      · exact absurd hk (hs.inner t List.mem_cons_self)
    · refine .bind ((takesStatements n).statement 0 s hs) fun ts st rest hts hst => ?_
      have hrest := hs.behind hts hst.balanced
      refine .bind (ih hrest (hs.startsLine hts hst.endsLine)) fun us sts _ _ hsts => .ok ?_
      rw [List.append_nil, hts, hsts.2]
      exact ⟨.cons hst (hsts.2 ▸ hsts.1), rfl⟩

end Grammar

/-- A text without a plus sign in a target and without an empty block is accepted only with a tree
that its tokens derive. -/
theorem program_of_parse {text : String} {ts : List Token} {body : List Stmt}
    (hts : Lexer.tokenize text = .ok ts) (hunsigned : signsTarget false ts = false)
    (hfilled : ts.IsChain Token.Fills) (h : parse text = .ok body) : Grammar.Program ts body := by
  obtain ⟨us, last, rfl, hshaped⟩ := Lexer.shaped_tokenize hts
  obtain ⟨first, hfirst, hchain⟩ := hshaped.starts
  have hregular : Tokens.Regular 0 ⟨us, last⟩ := by
    refine ⟨hshaped.last, hshaped.inner, hchain.tail, ?_, hfilled.left_of_append, ?_⟩
    · by_contra hsigned
      rw [signsTarget_left (Bool.not_eq_false _ ▸ hsigned)] at hunsigned
      cases hunsigned
    · exact hshaped.balanced.symm
  unfold parse at h
  simp only [hts, bind, Except.bind, Tokens.ofList_concat] at h
  split at h
  · cases h
  next r hr =>
  cases h
  obtain ⟨vs, -, hbody, hvs⟩ := Grammar.takes_program _ hregular ⟨first, hfirst, hchain⟩
    hshaped.last r.1 r.2 hr
  rw [hvs] at hbody
  exact .intro hbody hshaped.last

end Stepwise.Source
