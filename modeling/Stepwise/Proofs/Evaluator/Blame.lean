import Stepwise.Debug.Range
import Stepwise.Proofs.Evaluator.Calls
import Stepwise.Proofs.Evaluator.Sites

/-! The machine fails where the tree says. Where the evaluator stops with an exception, the run is
on its way out of an activation, and the place that the exception bears or gets there has a
position in its chunk: the span that the evaluator would give. -/

namespace Stepwise

/-- The span as it is highlighted, with lines and columns from one. -/
def Range.ofSpan (span : Source.Span) : Range :=
  .columns span.line (span.col + 1) span.endLine (span.endCol + 1)

def Exception.Origin.Shows (o : Exception.Origin) (span : Source.Span) : Prop :=
  Range.at? o.chunk o.offset o.line = some (.ofSpan span)

theorem Exception.Origin.shows_of_position {chunk : Chunk} {pc line : Nat} {span : Source.Span}
    (h : chunk.positions[pc]? = some (.ofSpan span)) :
    Shows ⟨chunk, pc * Code.instrWidth, line⟩ span := by
  simp [Shows, Range.at?, Code.ChunkOf.positionAt?, Code.instrWidth, h, Range.ofPosition,
    Code.Position.ofSpan, Range.ofSpan, Range.columns]

namespace Evaluator

open Source
open Host (Path)
open Code (Tables Laid laid_append laid_cons exists_of_bind_eq_ok)

variable {σ α β : Type} {c : Host.Console σ} {n : Nat} {p : Place}

structure Failed (c : Host.Console σ) (p : Place) (site : Option Span) (s : Store σ) (r : Run) :
    Prop extends Stays p s r where
  phase : ∃ e span origin, r.phase = .leave (.error (.exception e)) ∧ site = some span ∧
    e.origin.or (some r.current.origin) = some origin ∧
      (origin.Shows span ∨ c.quiet.Gives origin)

def Blames (c : Host.Console σ) (p : Place) (r : Run) (w : σ) (o : Outcome σ α)
    (site : Option Span) : Prop :=
  ∀ cause s, o = .stopped (.exception cause) s →
    ∃ k r', Path c.quiet c.Sane k r w r' s.console ∧ Failed c p site s r'

namespace Blames

variable {r : Run} {w : σ} {o : Outcome σ α} {site : Option Span}

theorem of_value (a : α) (s : Store σ) : Blames c p r w (.value a s) site :=
  fun _ _ h => nomatch h

theorem after {k : Nat} {r' : Run} {x : σ} (hp : Path c.quiet c.Sane k r w r' x)
    (h : Blames c p r' x o site) : Blames c p r w o site := by
  intro cause s ho
  obtain ⟨l, q, hq, hfailed⟩ := h cause s ho
  exact ⟨k + l, q, hp.trans hq, hfailed⟩

/-- A first part fails at its own site; what comes after it, from where the first part arrives. -/
theorem andThen {arrive : α → Store σ → Run → Prop} {fail : Stop → Store σ → Run → Prop}
    {f : α → Store σ → Outcome σ β} {after : α → Store σ → Option Span}
    (hfollows : Follows c n r w arrive fail o) (h : Blames c p r w o site)
    (hf : ∀ a s r', arrive a s r' → Blames c p r' s.console (f a s) (after a s)) :
    Blames c p r w (o.andThen f) (o.site site after) := by
  cases o with
  | value a s =>
    obtain ⟨k, q, hq, ha⟩ := hfollows
    exact (hf a s q ha).after hq
  | stopped u s =>
    intro cause s' ho
    cases ho
    exact h cause s rfl
  | unfinished => exact fun _ _ ho => nomatch ho

theorem orElse (h : Blames c p r w o site) (other : Option Span) :
    Blames c p r w o (site.or other) := by
  intro cause s ho
  obtain ⟨k, q, hq, hstays, e, span, origin, hphase, rfl, hrest⟩ := h cause s ho
  exact ⟨k, q, hq, hstays, e, span, origin, hphase, rfl, hrest⟩

theorem map {f : α → Store σ → Outcome σ β} (h : Blames c p r w o site)
    (hf : ∀ a s, ∃ b s', f a s = .value b s') : Blames c p r w (o.andThen f) site := by
  cases o with
  | value a s =>
    obtain ⟨b, s', he⟩ := hf a s
    rw [Outcome.andThen, he]
    exact .of_value b s'
  | stopped u s =>
    intro cause s' ho
    cases ho
    exact h cause s rfl
  | unfinished => exact fun _ _ ho => nomatch ho

end Blames

theorem Ready.blames {pc : Nat} {stack : List Value} {s : Store σ} {r : Run} {o : Outcome σ α}
    {site : Option Span} {op : Code.Opcode} {arg : Nat} {span : Span} (h : Ready p pc stack s r)
    (hi : Laid p.chunk pc [Code.line op arg span])
    (hf : ∀ r', Poised p (pc + 1) stack s r' → r'.current.origin.Shows span →
      Blames c p (r'.execute ⟨op, arg⟩) s.console o site) : Blames c p r s.console o site := by
  obtain ⟨k, r', hp, hq, hlasti⟩ := h.exists_poised (c := c) (Code.stands_singleton.1 hi.stands)
  refine (hf r' hq ?_).after hp
  have hposition : p.chunk.positions[pc]? = some (.ofSpan span) :=
    Code.along_singleton.1 hi.marked
  rw [Activation.origin, hlasti, hq.chunk]
  exact Exception.Origin.shows_of_position hposition

/-- A failure in the middle of an instruction, with an exception that tells no place unless the
console gave it. -/
theorem Stays.failed {s : Store σ} {r : Run} {span : Span} (h : Stays p s r)
    (hspan : r.current.origin.Shows span) {e : Exception}
    (he : ∀ origin, e.origin = some origin → c.quiet.Gives origin) :
    Failed c p (some span) s (r.fail (.exception e)) where
  toStays := ⟨h.frame, h.chunk, h.callers, h.held⟩
  phase := by
    cases ho : e.origin with
    | none => exact ⟨e, span, _, rfl, rfl, by rw [ho]; rfl, .inl hspan⟩
    | some origin => exact ⟨e, span, origin, rfl, rfl, by rw [ho]; rfl, .inr (he origin ho)⟩

theorem Stays.blames_raise {s : Store σ} {r : Run} {span : Span} (h : Stays p s r)
    (hspan : r.current.origin.Shows span) (cause : Exception.Cause) :
    Blames c p (r.raise cause) s.console (.raise cause s : Outcome σ α) (some span) := by
  intro cause' s' ho
  cases ho
  exact ⟨0, _, .refl _ _, h.failed hspan fun origin ho => nomatch ho⟩

def CallsBlame (c : Host.Console σ) (limit depth : Nat) (call : Caller σ) (inside : Inside σ) :
    Prop :=
  ∀ ⦃p : Place⦄ ⦃pc : Nat⦄ ⦃stack : List Value⦄ ⦃s : Store σ⦄ ⦃r : Run⦄ ⦃f : Value⦄ ⦃o : Object⦄
    ⦃vs : List Value⦄ ⦃os : List Object⦄ ⦃span : Span⦄,
    p.limit = limit → p.callers.length + 1 = depth → Poised p pc stack s r →
    r.current.origin.Shows span → Matches f o → List.Forall₂ Matches vs os →
    Blames c p (r.callValue f vs) s.console (call o os s) ((inside o os s).or (some span))

section Operations

variable {pc : Nat} {stack : List Value} {s : Store σ} {r : Run} {span : Span}

theorem Poised.blames_settle {rest : List Value} (h : Poised p pc stack s r)
    (hspan : r.current.origin.Shows span) (x : Value.Result) :
    Blames c p (r.settle rest x) s.console (.ofResult x s) (some span) := by
  cases x with
  | ok v => exact .of_value _ s
  | error cause => exact h.blames_raise hspan cause

theorem Poised.blames_loadName {i : Nat} {w : String} (h : Poised p pc stack s r)
    (hspan : r.current.origin.Shows span) (hi : p.chunk.names[i]? = some w) :
    Blames c p (r.execute ⟨.loadName, i⟩) s.console
      (match s.lookup w with
        | some o => .value o s
        | none => .raise (.unbound w) s) (some span) := by
  have hl := h.held.lookup w
  simp only [Run.execute, h.chunk, hi, h.frame]
  generalize r.machine.arena.lookup p.frame w = x at hl
  generalize s.lookup w = y at hl
  cases hl with
  | none => exact h.blames_raise hspan (.unbound w)
  | some hv => exact .of_value _ s

theorem Poised.blames_connective {target : Nat} {v : Value} {o : Object} {right : Outcome σ Object}
    {site : Option Span} (h : Poised p pc (v :: stack) s r) (op : Connective) (hv : Matches v o)
    (hright : Ready p pc stack s (r.next stack) →
      Blames c p (r.next stack) s.console right site) :
    Blames c p (r.execute ⟨connectiveJump op, target⟩) s.console
      (if decides op o then .value o s else right) site := by
  rw [h.execute_connective op hv]
  by_cases hd : decides op o = true
  · rw [if_pos hd, if_pos hd]
    exact .of_value o s
  · rw [if_neg hd, if_neg hd]
    exact hright (h.next stack)

end Operations

section Expressions

variable {call : Caller σ} {inside : Inside σ}

theorem blames_operands {mid last : Nat} {stack : List Value} {s : Store σ} {r : Run}
    {span : Span} {op : Code.Opcode} {arg : Nat} {a b : Store σ → Outcome σ Object}
    {aSite bSite : Store σ → Option Span} {f : Value → Value → Value.Result}
    (hfollows : Follows c n r s.console (Arrived p mid stack) (Failing c p) (a s))
    (ha : Blames c p r s.console (a s) (aSite s))
    (hb : ∀ ⦃stack s r⦄, Ready p mid stack s r →
      Follows c n r s.console (Arrived p last stack) (Failing c p) (b s) ∧
        Blames c p r s.console (b s) (bSite s))
    (hi : Laid p.chunk last [Code.line op arg span])
    (hop : ∀ r : Run, r.execute ⟨op, arg⟩ = r.binary f)
    (hf : ∀ {v w x y}, Matches v x → Matches w y → f v w = f x.view y.view) :
    Blames c p r s.console
      ((a s).andThen fun x s => (b s).andThen fun y s => .ofResult (f x.view y.view) s)
      ((a s).site (aSite s) fun _ s => (b s).site (bSite s) fun _ _ => some span) := by
  refine .andThen hfollows ha ?_
  rintro x s r ⟨v, hv, hr⟩
  refine .andThen (hb hr).1 (hb hr).2 ?_
  rintro y s r ⟨w, hw, hr⟩
  refine hr.blames hi fun r' h hspan => ?_
  simp only [hop, Run.binary, h.stack, hf hv hw]
  exact h.blames_settle hspan _

mutual

theorem blames_expr (hc : CallsFollow c n p.limit (p.callers.length + 1) call)
    (hb : CallsBlame c p.limit (p.callers.length + 1) call inside) (tag : Span) :
    ∀ (e : Expr) {pc : Nat} {t : Tables} {stack : List Value} {s : Store σ} {r : Run},
    e.Proper → t.Proper → Laid p.chunk pc (Code.expr tag e pc t).1 →
    (Code.expr tag e pc t).2.Le (.ofChunk p.chunk) → Ready p pc stack s r →
    Blames c p r s.console (expr call e s) (exprSite call inside tag e s)
  | .literal l span, pc, t, stack, s, r, he, ht, hs, hle, hr => .of_value _ s
  | .name w span, pc, t, stack, s, r, he, ht, hs, hle, hr => by
    have hi := hle.names _ _ (t.getElem?_name w)
    exact hr.blames hs fun r' h hspan => h.blames_loadName hspan hi
  | .unary op e span, pc, t, stack, s, r, he, ht, hs, hle, hr => by
    simp only [Code.expr, laid_append] at hs hle
    refine .andThen (follows_expr hc tag e he ht hs.1.stands hle hr)
      (blames_expr hc hb tag e he ht hs.1 hle hr) ?_
    rintro o s r ⟨v, hv, hr⟩
    refine hr.blames hs.2 fun r' h hspan => ?_
    simp only [Run.execute, Code.unaryOps_getElem?_idxOf, h.stack, hv.alike.unary_eq op]
    exact h.blames_settle hspan _
  | .binary (.logic op) a b span, pc, t, stack, s, r, he, ht, hs, hle, hr => by
    simp only [Code.expr, laid_append] at hs hle
    have ha := Code.grows_expr tag a pc t he.1
    have hb' := Code.grows_expr tag b (pc + (Code.expr tag a pc t).1.length + 1)
      (Code.expr tag a pc t).2 he.2
    refine .andThen (follows_expr hc tag a he.1 ht hs.1.stands (hb'.le.trans hle) hr)
      (blames_expr hc hb tag a he.1 ht hs.1 (hb'.le.trans hle) hr) ?_
    rintro o s r ⟨v, hv, hr⟩
    obtain ⟨hjump, hright⟩ := laid_cons.1 hs.2
    exact hr.blames hjump fun r' h _ => h.blames_connective op hv fun h =>
      blames_expr hc hb tag b he.2 (ha.proper ht) hright hle h
  | .binary (.arith op) a b span, pc, t, stack, s, r, he, ht, hs, hle, hr => by
    simp only [Code.expr, laid_append, List.length_append, ← Nat.add_assoc] at hs hle
    have ha := Code.grows_expr tag a pc t he.1
    have hb' := Code.grows_expr tag b (pc + (Code.expr tag a pc t).1.length)
      (Code.expr tag a pc t).2 he.2
    refine blames_operands (follows_expr hc tag a he.1 ht hs.1.1.stands (hb'.le.trans hle) hr)
      (blames_expr hc hb tag a he.1 ht hs.1.1 (hb'.le.trans hle) hr)
      (fun stack s r hr => ⟨follows_expr hc tag b he.2 (ha.proper ht) hs.1.2.stands hle hr,
        blames_expr hc hb tag b he.2 (ha.proper ht) hs.1.2 hle hr⟩) hs.2 (fun r => ?_)
      fun hv hw => hv.alike.arith_eq op hw.alike
    simp only [Run.execute, Code.arithOps_getElem?_idxOf]
  | .binary (.compare op) a b span, pc, t, stack, s, r, he, ht, hs, hle, hr => by
    simp only [Code.expr, laid_append, List.length_append, ← Nat.add_assoc] at hs hle
    have ha := Code.grows_expr tag a pc t he.1
    have hb' := Code.grows_expr tag b (pc + (Code.expr tag a pc t).1.length)
      (Code.expr tag a pc t).2 he.2
    refine blames_operands (follows_expr hc tag a he.1 ht hs.1.1.stands (hb'.le.trans hle) hr)
      (blames_expr hc hb tag a he.1 ht hs.1.1 (hb'.le.trans hle) hr)
      (fun stack s r hr => ⟨follows_expr hc tag b he.2 (ha.proper ht) hs.1.2.stands hle hr,
        blames_expr hc hb tag b he.2 (ha.proper ht) hs.1.2 hle hr⟩) hs.2 (fun r => ?_)
      fun hv hw => hv.alike.compare_eq op hw.alike
    simp only [Run.execute, Code.compareOps_getElem?_idxOf]
  | .call f args span, pc, t, stack, s, r, he, ht, hs, hle, hr => by
    simp only [Code.expr, List.cons_append] at hs hle
    obtain ⟨hmark, hs⟩ := laid_cons.1 hs
    simp only [laid_append, List.length_append, ← Nat.add_assoc] at hs
    have hf := Code.grows_expr tag f (pc + 1) t he.1
    have ha := Code.grows_exprs tag args (pc + 1 + (Code.expr tag f (pc + 1) t).1.length)
      (Code.expr tag f (pc + 1) t).2 he.2
    refine hr.blames hmark fun r' h _ => ?_
    have hpushed := h.push .none
    refine .andThen (follows_expr hc tag f he.1 ht hs.1.1.stands (ha.le.trans hle) hpushed)
      (blames_expr hc hb tag f he.1 ht hs.1.1 (ha.le.trans hle) hpushed) ?_
    rintro o s r ⟨v, hv, hr⟩
    refine .andThen (follows_exprs hc tag args he.2 (hf.proper ht) hs.1.2.stands hle hr)
      (blames_exprs hc hb tag args he.2 (hf.proper ht) hs.1.2 hle hr) ?_
    rintro os s r ⟨vs, hlen, hvs, hr⟩
    refine hr.blames hs.2 fun r' h hspan => ?_
    rw [← hlen, h.execute_call]
    exact hb rfl rfl (h.withStack stack) hspan hv hvs

theorem blames_exprs (hc : CallsFollow c n p.limit (p.callers.length + 1) call)
    (hb : CallsBlame c p.limit (p.callers.length + 1) call inside) (tag : Span) :
    ∀ (es : List Expr) {pc : Nat} {t : Tables} {stack : List Value} {s : Store σ} {r : Run},
    Expr.AllProper es → t.Proper → Laid p.chunk pc (Code.exprs tag es pc t).1 →
    (Code.exprs tag es pc t).2.Le (.ofChunk p.chunk) → Ready p pc stack s r →
    Blames c p r s.console (exprs call es s) (exprsSite call inside tag es s)
  | [], pc, t, stack, s, r, he, ht, hs, hle, hr => .of_value _ s
  | e :: es, pc, t, stack, s, r, he, ht, hs, hle, hr => by
    simp only [Code.exprs, laid_append] at hs hle
    have hg := Code.grows_expr tag e pc t he.1
    have hgs := Code.grows_exprs tag es (pc + (Code.expr tag e pc t).1.length)
      (Code.expr tag e pc t).2 he.2
    refine .andThen (follows_expr hc tag e he.1 ht hs.1.stands (hgs.le.trans hle) hr)
      (blames_expr hc hb tag e he.1 ht hs.1 (hgs.le.trans hle) hr) ?_
    rintro o s r ⟨v, hv, hr⟩
    exact (blames_exprs hc hb tag es he.2 (hg.proper ht) hs.2 hle hr).map fun os s => ⟨_, s, rfl⟩

end

end Expressions

section Statements

variable {call : Caller σ} {inside : Inside σ} {file : String} {inFunction : Bool} {pc : Nat}
  {s : Store σ} {r : Run}

theorem blames_test (hc : CallsFollow c n p.limit (p.callers.length + 1) call)
    (hb : CallsBlame c p.limit (p.callers.length + 1) call inside) {tag : Span} {test : Expr}
    {t : Tables} {target : Nat} {A B : Store σ → Outcome σ α} {inA inB : Store σ → Option Span}
    (he : test.Proper) (ht : t.Proper) (hs : Laid p.chunk pc (Code.expr tag test pc t).1)
    (hle : (Code.expr tag test pc t).2.Le (.ofChunk p.chunk))
    (hj : Laid p.chunk (pc + (Code.expr tag test pc t).1.length)
      [Code.line .popJumpIfFalse target tag])
    (hr : Ready p pc [] s r)
    (hA : ∀ s r, Ready p (pc + (Code.expr tag test pc t).1.length + 1) [] s r →
      Blames c p r s.console (A s) (inA s))
    (hB : ∀ s r, Ready p target [] s r → Blames c p r s.console (B s) (inB s)) :
    Blames c p r s.console
      ((expr call test s).andThen fun o s => if o.view.truthy then A s else B s)
      ((expr call test s).site (exprSite call inside tag test s) fun o s =>
        if o.view.truthy then inA s else inB s) := by
  refine .andThen (follows_expr hc tag test he ht hs.stands hle hr)
    (blames_expr hc hb tag test he ht hs hle hr) ?_
  rintro o s r ⟨v, hv, hr⟩
  refine hr.blames hj fun r' h _ => ?_
  simp only [Run.execute, h.stack, hv.alike.truthy_eq]
  by_cases hw : o.view.truthy = true
  · rw [if_pos hw, if_pos hw, if_pos hw]
    exact hA s _ (h.next [])
  · rw [if_neg hw, if_neg hw, if_neg hw]
    exact hB s _ (h.jump target [])

theorem blames_loop (hc : CallsFollow c n p.limit (p.callers.length + 1) call)
    (hb : CallsBlame c p.limit (p.callers.length + 1) call inside) {tag : Span} {test : Expr}
    {t : Tables} {stop back : Nat} {body : Store σ → Outcome σ Completion}
    {inBody : Store σ → Option Span} (he : test.Proper) (ht : t.Proper)
    (hs : Laid p.chunk pc (Code.expr tag test pc t).1)
    (hle : (Code.expr tag test pc t).2.Le (.ofChunk p.chunk))
    (hj : Laid p.chunk (pc + (Code.expr tag test pc t).1.length)
      [Code.line .popJumpIfFalse stop tag])
    (hback : Laid p.chunk back [Code.line .jump pc tag])
    (hbody : ∀ s r, Ready p (pc + (Code.expr tag test pc t).1.length + 1) [] s r →
      Follows c n r s.console (Completed p back) (Failing c p) (body s) ∧
        Blames c p r s.console (body s) (inBody s)) :
    ∀ (k : Nat) (s : Store σ) (r : Run), Ready p pc [] s r →
      Blames c p r s.console (repeatWhile (expr call test) body k s)
        (repeatWhileSite (expr call test) (exprSite call inside tag test) body inBody k s)
  | 0, s, r, _ => fun _ _ h => nomatch h
  | k + 1, s, r, hr => by
    refine blames_test hc hb he ht hs hle hj hr (fun s r hr => ?_) fun s r _ => .of_value _ s
    obtain ⟨hfollows, hblames⟩ := hbody s r hr
    have hjump := Code.stands_singleton.1 hback.stands
    refine .andThen (follows_jump hjump hfollows) hblames ?_
    rintro (- | o) s r h
    · exact blames_loop hc hb he ht hs hle hj hback hbody k s r h
    · exact .of_value _ s

theorem blames_branch (hc : CallsFollow c n p.limit (p.callers.length + 1) call)
    (hb : CallsBlame c p.limit (p.callers.length + 1) call inside) {tag tag' : Span} {test : Expr}
    {t : Tables} {inner others : List Code.Line} {start next : Nat}
    {A B : Store σ → Outcome σ Completion} {inA inB : Store σ → Option Span} (he : test.Proper)
    (ht : t.Proper) (hle : (Code.expr tag test pc t).2.Le (.ofChunk p.chunk))
    (hstart : start = pc + (Code.expr tag test pc t).1.length + 1)
    (hnext : next = start + inner.length + 1)
    (hs : Laid p.chunk pc ((Code.expr tag test pc t).1 ++ Code.line .popJumpIfFalse next tag ::
      (inner ++ Code.line .jump (next + others.length) tag' :: others)))
    (hr : Ready p pc [] s r)
    (hA : ∀ s r, Laid p.chunk start inner → Ready p start [] s r →
      Blames c p r s.console (A s) (inA s))
    (hB : ∀ s r, Laid p.chunk next others → Ready p next [] s r →
      Blames c p r s.console (B s) (inB s)) :
    Blames c p r s.console
      ((expr call test s).andThen fun o s => if o.view.truthy then A s else B s)
      ((expr call test s).site (exprSite call inside tag test s) fun o s =>
        if o.view.truthy then inA s else inB s) := by
  subst hstart hnext
  obtain ⟨htest, hs⟩ := laid_append.1 hs
  obtain ⟨hj, hs⟩ := laid_cons.1 hs
  obtain ⟨hinner, hs⟩ := laid_append.1 hs
  exact blames_test hc hb he ht htest hle hj hr (fun s r h => hA s r hinner h)
    fun s r h => hB s r (laid_cons.1 hs).2 h

mutual

theorem blames_stmt (hc : CallsFollow c n p.limit (p.callers.length + 1) call)
    (hb : CallsBlame c p.limit (p.callers.length + 1) call inside) :
    ∀ (st : Stmt) {pc : Nat} {t : Tables} {code : List Code.Line × Tables} {s : Store σ} {r : Run},
    Code.stmt file inFunction st pc t = .ok code → st.Proper → t.Proper →
    Laid p.chunk pc code.1 → code.2.Le (.ofChunk p.chunk) → Ready p pc [] s r →
    Blames c p r s.console (stmt call n st s) (stmtSite call inside n st s)
  | .assign target value span, pc, t, code, s, r, hk, hp, ht, hs, hle, hr => by
    cases hk
    have hvalue := (Tables.le_name (Code.expr span value pc t).2 target).trans hle
    exact (blames_expr hc hb span value hp ht (laid_append.1 hs).1 hvalue hr).map fun o s =>
      ⟨_, _, rfl⟩
  | .expr value, pc, t, code, s, r, hk, hp, ht, hs, hle, hr => by
    cases hk
    exact (blames_expr hc hb value.span value hp ht (laid_append.1 hs).1 hle hr).map fun o s =>
      ⟨_, _, rfl⟩
  | .pass span, pc, t, code, s, r, hk, hp, ht, hs, hle, hr => .of_value _ s
  | .ret none span, pc, t, code, s, r, hk, hp, ht, hs, hle, hr => .of_value _ s
  | .ret (some value) span, pc, t, code, s, r, hk, hp, ht, hs, hle, hr => by
    rw [Code.stmt] at hk
    split at hk <;> cases hk
    exact (blames_expr hc hb span value (hp value rfl) ht (laid_append.1 hs).1 hle hr).map
      fun o s => ⟨_, _, rfl⟩
  | .loop test header body, pc, t, code, s, r, hk, hp, ht, hs, hle, hr => by
    obtain ⟨inner, hinner, hk⟩ := exists_of_bind_eq_ok hk
    have hg := Code.grows_expr header test pc t hp.1
    have hgs := Code.grows_stmts hp.2 hinner
    cases hk
    obtain ⟨htest, hs⟩ := laid_append.1 hs
    obtain ⟨hj, hs⟩ := laid_cons.1 hs
    obtain ⟨hbody, hback⟩ := laid_append.1 hs
    refine blames_loop hc hb hp.1 ht htest (hgs.le.trans hle) hj hback (fun s r h => ?_) n s r hr
    exact ⟨follows_stmts hc body hinner hp.2 ⟨hg.proper ht, hbody.stands, hle⟩ h,
      blames_stmts hc hb body hinner hp.2 (hg.proper ht) hbody hle h⟩
  | .choose test header body rest, pc, t, code, s, r, hk, hp, ht, hs, hle, hr => by
    obtain ⟨inner, hinner, hk⟩ := exists_of_bind_eq_ok hk
    obtain ⟨others, hothers, hk⟩ := exists_of_bind_eq_ok hk
    have hg := Code.grows_expr header test pc t hp.1
    have hgi := Code.grows_stmts hp.2.1 hinner
    have hgo := Code.grows_choice hp.2.2 hothers
    cases hk
    exact blames_branch hc hb hp.1 ht ((hgi.le.trans hgo.le).trans hle) rfl rfl hs hr
      (fun s r hs h =>
        blames_stmts hc hb body hinner hp.2.1 (hg.proper ht) hs (hgo.le.trans hle) h)
      fun s r hs h =>
        blames_choice hc hb rest hothers hp.2.2 (hgi.proper (hg.proper ht)) hs hle h
  | .define name params header body, pc, t, code, s, r, hk, hp, ht, hs, hle, hr => .of_value _ _

theorem blames_choice (hc : CallsFollow c n p.limit (p.callers.length + 1) call)
    (hb : CallsBlame c p.limit (p.callers.length + 1) call inside) :
    ∀ (ch : Choice) {pc : Nat} {t : Tables} {code : List Code.Line × Tables} {s : Store σ}
    {r : Run}, Code.choice file inFunction ch pc t = .ok code → ch.Proper → t.Proper →
    Laid p.chunk pc code.1 → code.2.Le (.ofChunk p.chunk) → Ready p pc [] s r →
    Blames c p r s.console (choice call n ch s) (choiceSite call inside n ch s)
  | .branch test header body rest, pc, t, code, s, r, hk, hp, ht, hs, hle, hr => by
    obtain ⟨inner, hinner, hk⟩ := exists_of_bind_eq_ok hk
    obtain ⟨others, hothers, hk⟩ := exists_of_bind_eq_ok hk
    have hg := Code.grows_expr header test pc t hp.1
    have hgi := Code.grows_stmts hp.2.1 hinner
    have hgo := Code.grows_choice hp.2.2 hothers
    cases hk
    exact blames_branch hc hb hp.1 ht ((hgi.le.trans hgo.le).trans hle) rfl rfl hs hr
      (fun s r hs h =>
        blames_stmts hc hb body hinner hp.2.1 (hg.proper ht) hs (hgo.le.trans hle) h)
      fun s r hs h =>
        blames_choice hc hb rest hothers hp.2.2 (hgi.proper (hg.proper ht)) hs hle h
  | .otherwise body, pc, t, code, s, r, hk, hp, ht, hs, hle, hr =>
    blames_stmts hc hb body hk hp ht hs hle hr

theorem blames_stmts (hc : CallsFollow c n p.limit (p.callers.length + 1) call)
    (hb : CallsBlame c p.limit (p.callers.length + 1) call inside) :
    ∀ (sts : List Stmt) {pc : Nat} {t : Tables} {code : List Code.Line × Tables} {s : Store σ}
    {r : Run}, Code.stmts file inFunction sts pc t = .ok code → Stmt.AllProper sts → t.Proper →
    Laid p.chunk pc code.1 → code.2.Le (.ofChunk p.chunk) → Ready p pc [] s r →
    Blames c p r s.console (stmts call n sts s) (stmtsSite call inside n sts s)
  | [], pc, t, code, s, r, hk, hp, ht, hs, hle, hr => .of_value _ s
  | st :: sts, pc, t, code, s, r, hk, hp, ht, hs, hle, hr => by
    obtain ⟨first, hfirst, hk⟩ := exists_of_bind_eq_ok hk
    obtain ⟨others, hothers, hk⟩ := exists_of_bind_eq_ok hk
    have hg := Code.grows_stmt hp.1 hfirst
    have hgs := Code.grows_stmts hp.2 hothers
    have hfollows := follows_stmt hc st (s := s) (r := r) hfirst hp.1
    cases hk
    obtain ⟨hs, hs'⟩ := laid_append.1 hs
    refine .andThen (hfollows ⟨ht, hs.stands, hgs.le.trans hle⟩ hr)
      (blames_stmt hc hb st hfirst hp.1 ht hs (hgs.le.trans hle) hr) ?_
    rintro (- | o) s r h
    · exact blames_stmts hc hb sts hothers hp.2 (hg.proper ht) hs' hle h
    · exact .of_value _ s

end

end Statements

end Evaluator

end Stepwise
