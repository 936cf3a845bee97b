import Stepwise.Proofs.Evaluator.Expressions

/-! The code of a statement does what the evaluator says of it. Between statements the stack of
the activation is empty. -/

namespace Stepwise.Evaluator

open Source
open Code (Tables Stands stands_append stands_cons stands_singleton exists_of_bind_eq_ok)

variable {σ : Type} {c : Host.Console σ} {n : Nat} {p : Place} {call : Caller σ} {file : String}
  {inFunction : Bool}

def Completed (p : Place) (pc : Nat) (done : Completion) (s : Store σ) (r : Run) : Prop :=
  match done with
  | .passed => Ready p pc [] s r
  | .returned o => Leaving p o s r

section Parts

variable {pc i : Nat} {stack : List Value} {s : Store σ} {r : Run} {v : Value} {o : Object}

theorem Poised.ready_storeName {w : String} (h : Poised p pc (v :: stack) s r)
    (hi : p.chunk.names[i]? = some w) (hv : Matches v o) :
    Ready p pc stack (s.assign w o) (r.execute ⟨.storeName, i⟩) := by
  simp only [Run.execute, h.chunk, hi, h.stack, h.frame]
  exact {
    frame := h.frame
    chunk := h.chunk
    callers := h.callers
    held := h.held.assign w hv
    pc := h.pc
    stack := rfl
    phase := rfl }

theorem Poised.ready_popTop (h : Poised p pc (v :: stack) s r) :
    Ready p pc stack s (r.execute ⟨.popTop, 0⟩) := by
  simp only [Run.execute, h.stack]
  exact h.next stack

theorem Poised.leaving_returnValue (h : Poised p pc (v :: stack) s r) (hv : Matches v o) :
    Leaving p o s (r.execute ⟨.returnValue, 0⟩) := by
  simp only [Run.execute, h.stack]
  exact h.leave hv

theorem Poised.ready_makeFunction {inner : Chunk} (h : Poised p pc stack s r)
    (hi : p.chunk.constants[i]? = some (.code 0 inner)) :
    Ready p pc (.function s.nextIdent inner :: stack) { s with nextIdent := s.nextIdent + 1 }
      (r.execute ⟨.makeFunction, i⟩) := by
  have hident := h.held.nextIdent
  simp only [Run.execute, h.chunk, hi, Run.makeFunction, Run.push, h.stack, hident]
  exact {
    frame := h.frame
    chunk := h.chunk
    callers := h.callers
    held := h.held.countIdent
    pc := h.pc
    stack := rfl
    phase := rfl }

theorem follows_test (hc : CallsFollow c n p.limit (p.callers.length + 1) call) {tag : Span}
    {test : Expr} {t : Tables} {target k m : Nat} {α : Type} {A B : Store σ → Outcome σ α}
    {arrive : α → Store σ → Run → Prop} (he : test.Proper) (ht : t.Proper)
    (hs : Stands p.chunk pc (Code.expr tag test pc t).1)
    (hle : (Code.expr tag test pc t).2.Le (.ofChunk p.chunk))
    (hj : p.chunk.code[pc + (Code.expr tag test pc t).1.length]? =
      some ⟨.popJumpIfFalse, target⟩)
    (hr : Ready p pc [] s r) (hkn : k ≤ n) (hkm : k ≤ m + 1)
    (hA : ∀ s r, Ready p (pc + (Code.expr tag test pc t).1.length + 1) [] s r →
      Follows c m r s.console arrive (Failing c p) (A s))
    (hB : ∀ s r, Ready p target [] s r → Follows c m r s.console arrive (Failing c p) (B s)) :
    Follows c k r s.console arrive (Failing c p)
      ((expr call test s).andThen fun o s => if o.view.truthy then A s else B s) := by
  refine ((follows_expr hc tag test he ht hs hle hr).mono hkn).andThen ?_
  rintro o s r ⟨v, hv, hr⟩
  refine (hr.follows hj fun r' h => ?_).mono hkm
  simp only [Run.execute, h.stack, hv.alike.truthy_eq]
  by_cases hw : o.view.truthy = true
  · rw [if_pos hw, if_pos hw]
    exact hA s _ (h.next [])
  · rw [if_neg hw, if_neg hw]
    exact hB s _ (h.jump target [])

theorem follows_jump {w : σ} {target : Nat} {o : Outcome σ Completion}
    (hj : p.chunk.code[pc]? = some ⟨.jump, target⟩)
    (hb : Follows c n r w (Completed p pc) (Failing c p) o) :
    Follows c n r w (Completed p target) (Failing c p) o := by
  refine hb.onward ?_
  rintro (- | o) s r h
  · refine (Ready.follows h hj fun r' h => ?_).mono (Nat.le_succ n)
    simp only [Run.execute, h.stack]
    exact .arrived (h.jump target [])
  · exact .arrived h

theorem follows_loop (hc : CallsFollow c n p.limit (p.callers.length + 1) call) {tag : Span}
    {test : Expr} {t : Tables} {stop back : Nat} {body : Store σ → Outcome σ Completion}
    (he : test.Proper) (ht : t.Proper) (hs : Stands p.chunk pc (Code.expr tag test pc t).1)
    (hle : (Code.expr tag test pc t).2.Le (.ofChunk p.chunk))
    (hj : p.chunk.code[pc + (Code.expr tag test pc t).1.length]? =
      some ⟨.popJumpIfFalse, stop⟩)
    (hback : p.chunk.code[back]? = some ⟨.jump, pc⟩)
    (hbody : ∀ s r, Ready p (pc + (Code.expr tag test pc t).1.length + 1) [] s r →
      Follows c n r s.console (Completed p back) (Failing c p) (body s)) :
    ∀ (k : Nat) (s : Store σ) (r : Run), k ≤ n → Ready p pc [] s r →
      Follows c k r s.console (Completed p stop) (Failing c p)
        (repeatWhile (expr call test) body k s)
  | 0, s, r, _, _ => ⟨0, r, s.console, Nat.le_refl 0, .refl r s.console⟩
  | k + 1, s, r, hk, hr => by
    refine follows_test hc he ht hs hle hj hr hk (Nat.le_refl _) (fun s r hr => ?_)
      fun s r hr => .arrived hr
    refine ((follows_jump hback (hbody s r hr)).mono (Nat.le_of_succ_le hk)).andThen ?_
    rintro (- | o) s r h
    · exact follows_loop hc he ht hs hle hj hback hbody k s r (Nat.le_of_succ_le hk) h
    · exact .arrived h

theorem follows_branch (hc : CallsFollow c n p.limit (p.callers.length + 1) call)
    {tag tag' : Span} {test : Expr} {t : Tables} {inner others : List Code.Line}
    {start next : Nat} {A B : Store σ → Outcome σ Completion} (he : test.Proper) (ht : t.Proper)
    (hle : (Code.expr tag test pc t).2.Le (.ofChunk p.chunk))
    (hstart : start = pc + (Code.expr tag test pc t).1.length + 1)
    (hnext : next = start + inner.length + 1)
    (hs : Stands p.chunk pc ((Code.expr tag test pc t).1 ++ Code.line .popJumpIfFalse next tag ::
      (inner ++ Code.line .jump (next + others.length) tag' :: others)))
    (hr : Ready p pc [] s r)
    (hA : ∀ s r, Stands p.chunk start inner → Ready p start [] s r →
      Follows c n r s.console (Completed p (start + inner.length)) (Failing c p) (A s))
    (hB : ∀ s r, Stands p.chunk next others → Ready p next [] s r →
      Follows c n r s.console (Completed p (next + others.length)) (Failing c p) (B s)) :
    Follows c n r s.console
      (Completed p (pc + ((Code.expr tag test pc t).1 ++ Code.line .popJumpIfFalse next tag ::
        (inner ++ Code.line .jump (next + others.length) tag' :: others)).length)) (Failing c p)
      ((expr call test s).andThen fun o s => if o.view.truthy then A s else B s) := by
  subst hstart hnext
  simp only [stands_append, stands_cons] at hs
  obtain ⟨htest, hj, hinner, hjump, hothers⟩ := hs
  have hend : pc + ((Code.expr tag test pc t).1 ++ Code.line .popJumpIfFalse
      (pc + (Code.expr tag test pc t).1.length + 1 + inner.length + 1) tag ::
      (inner ++ Code.line .jump (pc + (Code.expr tag test pc t).1.length + 1 + inner.length + 1 +
        others.length) tag' :: others)).length =
      pc + (Code.expr tag test pc t).1.length + 1 + inner.length + 1 + others.length := by
    simp only [List.length_append, List.length_cons]
    omega
  rw [hend]
  exact follows_test hc he ht htest hle hj hr (Nat.le_refl n) (Nat.le_succ n)
    (fun s r h => follows_jump hjump (hA s r hinner h)) fun s r h => hB s r hothers h

end Parts

theorem stmt_ret (value : Option Expr) (span : Span) (s : Store σ) :
    stmt call n (.ret value span) s =
      (expr call (value.getD (.literal .none span)) s).andThen fun o s =>
        .value (.returned o) s := by
  cases value <;> rfl

/-- What is known of a form before it runs: it was read from a text, and its code stands at
`pc`. -/
structure Placed (p : Place) (pc : Nat) (t : Tables) (code : List Code.Line × Tables) : Prop where
  proper : t.Proper
  stands : Stands p.chunk pc code.1
  le : code.2.Le (.ofChunk p.chunk)

-- Along the tree: a form leaves the stack as it was, so the next one begins where it ends.
mutual

theorem follows_stmt (hc : CallsFollow c n p.limit (p.callers.length + 1) call) :
    ∀ (st : Stmt) {pc : Nat} {t : Tables} {code : List Code.Line × Tables} {s : Store σ} {r : Run},
    Code.stmt file inFunction st pc t = .ok code → st.Proper → Placed p pc t code →
    Ready p pc [] s r →
    Follows c n r s.console (Completed p (pc + code.1.length)) (Failing c p) (stmt call n st s)
  | .assign target value span, pc, t, code, s, r, hk, hp, ⟨ht, hs, hle⟩, hr => by
    cases hk
    have hi := hle.names _ _ ((Code.expr span value pc t).2.getElem?_name target)
    simp only [stands_append, stands_singleton, List.length_append, List.length_singleton,
      stmt] at hs ⊢
    refine (follows_expr hc span value hp ht hs.1 ((Tables.le_name _ target).trans hle)
      hr).andThen ?_
    rintro o s r ⟨v, hv, hr⟩
    refine (hr.follows hs.2 fun r' h => ?_).mono (Nat.le_succ n)
    have hdone : Completed p (pc + (Code.expr span value pc t).1.length + 1) .passed
        (s.assign target o) _ := h.ready_storeName hi hv
    rw [← s.console_assign target o]
    exact .arrived hdone
  | .expr value, pc, t, code, s, r, hk, hp, ⟨ht, hs, hle⟩, hr => by
    cases hk
    simp only [stands_append, stands_singleton, List.length_append, List.length_singleton,
      stmt] at hs ⊢
    refine (follows_expr hc value.span value hp ht hs.1 hle hr).andThen ?_
    rintro o s r ⟨v, hv, hr⟩
    refine (hr.follows hs.2 fun r' h => ?_).mono (Nat.le_succ n)
    exact .arrived h.ready_popTop
  | .pass span, pc, t, code, s, r, hk, hp, ⟨ht, hs, hle⟩, hr => by
    cases hk
    rw [stmt]
    refine (hr.follows (stands_singleton.1 hs) fun r' h => ?_).mono (Nat.le_succ n)
    simp only [Code.line, Run.execute, h.stack]
    exact .arrived (h.next [])
  | .ret value span, pc, t, code, s, r, hk, hp, ⟨ht, hs, hle⟩, hr => by
    have he : (value.getD (.literal .none span)).Proper := by
      cases value with
      | none => trivial
      | some e => exact hp e rfl
    rw [Code.stmt] at hk
    split at hk <;> cases hk
    rw [stands_append, stands_singleton] at hs
    rw [stmt_ret]
    refine (follows_expr hc span _ he ht hs.1 hle hr).andThen ?_
    rintro o s r ⟨v, hv, hr⟩
    refine (hr.follows hs.2 fun r' h => ?_).mono (Nat.le_succ n)
    exact .arrived (h.leaving_returnValue hv)
  | .loop test header body, pc, t, code, s, r, hk, hp, ⟨ht, hs, hle⟩, hr => by
    obtain ⟨inner, hinner, hk⟩ := exists_of_bind_eq_ok hk
    have hg := Code.grows_expr header test pc t hp.1
    have hgs := Code.grows_stmts hp.2 hinner
    cases hk
    simp only [stands_append, stands_cons] at hs
    obtain ⟨htest, hj, hs, hback, -⟩ := hs
    have hend : pc + ((Code.expr header test pc t).1 ++ Code.line .popJumpIfFalse
        (pc + (Code.expr header test pc t).1.length + 1 + inner.1.length + 1) header ::
        (inner.1 ++ [Code.line .jump pc header])).length =
        pc + (Code.expr header test pc t).1.length + 1 + inner.1.length + 1 := by
      simp only [List.length_append, List.length_cons, List.length_nil]
      omega
    rw [hend, stmt]
    exact follows_loop hc hp.1 ht htest (hgs.le.trans hle) hj hback
      (fun s r h => follows_stmts hc body hinner hp.2 ⟨hg.proper ht, hs, hle⟩ h) n s r
      (Nat.le_refl n) hr
  | .choose test header body rest, pc, t, code, s, r, hk, hp, ⟨ht, hs, hle⟩, hr => by
    obtain ⟨inner, hinner, hk⟩ := exists_of_bind_eq_ok hk
    obtain ⟨others, hothers, hk⟩ := exists_of_bind_eq_ok hk
    have hg := Code.grows_expr header test pc t hp.1
    have hgi := Code.grows_stmts hp.2.1 hinner
    have hgo := Code.grows_choice hp.2.2 hothers
    cases hk
    rw [stmt]
    exact follows_branch hc hp.1 ht ((hgi.le.trans hgo.le).trans hle) rfl rfl hs hr
      (fun s r hs h =>
        follows_stmts hc body hinner hp.2.1 ⟨hg.proper ht, hs, hgo.le.trans hle⟩ h)
      fun s r hs h =>
        follows_choice hc rest hothers hp.2.2 ⟨hgi.proper (hg.proper ht), hs, hle⟩ h
  | .define name params header body, pc, t, code, s, r, hk, hp, ⟨ht, hs, hle⟩, hr => by
    obtain ⟨inner, hinner, hk⟩ := exists_of_bind_eq_ok hk
    have hchunk : Code.ofFunction file name params header body = .ok (Code.assemble file name
        header.line params (inner.1 ++ (Code.close body inner.2).1)
        (Code.close body inner.2).2) := by
      rw [Code.ofFunction, hinner]
      rfl
    cases hk
    rw [stands_cons, stands_singleton] at hs
    have hi := hle.constants _ _ ((Tables.le_name _ name).constants _ _
      (Tables.getElem?_constant ht (.code 0 _)))
    have hn := hle.names _ _ (Tables.getElem?_name _ name)
    rw [stmt]
    refine (hr.follows hs.1 fun r' h => ?_).mono (Nat.le_succ n)
    refine (Follows.mono (Nat.le_succ n) ((h.ready_makeFunction hi).follows hs.2 fun r' h => ?_))
    have hread : Definition.IsRead ⟨name, params, header, body⟩ := ⟨hp.1, hp.2⟩
    have hdone : Completed p (pc + 1 + 1) .passed (s.define ⟨name, params, header, body⟩) _ :=
      h.ready_storeName hn (.function s.nextIdent file hread hchunk)
    have hw : (s.define ⟨name, params, header, body⟩).console = s.console :=
      Store.console_assign _ _ _
    rw [← hw]
    exact .arrived hdone

theorem follows_choice (hc : CallsFollow c n p.limit (p.callers.length + 1) call) :
    ∀ (ch : Choice) {pc : Nat} {t : Tables} {code : List Code.Line × Tables} {s : Store σ}
    {r : Run}, Code.choice file inFunction ch pc t = .ok code → ch.Proper → Placed p pc t code →
    Ready p pc [] s r →
    Follows c n r s.console (Completed p (pc + code.1.length)) (Failing c p) (choice call n ch s)
  | .branch test header body rest, pc, t, code, s, r, hk, hp, ⟨ht, hs, hle⟩, hr => by
    obtain ⟨inner, hinner, hk⟩ := exists_of_bind_eq_ok hk
    obtain ⟨others, hothers, hk⟩ := exists_of_bind_eq_ok hk
    have hg := Code.grows_expr header test pc t hp.1
    have hgi := Code.grows_stmts hp.2.1 hinner
    have hgo := Code.grows_choice hp.2.2 hothers
    cases hk
    rw [choice]
    exact follows_branch hc hp.1 ht ((hgi.le.trans hgo.le).trans hle) rfl rfl hs hr
      (fun s r hs h =>
        follows_stmts hc body hinner hp.2.1 ⟨hg.proper ht, hs, hgo.le.trans hle⟩ h)
      fun s r hs h =>
        follows_choice hc rest hothers hp.2.2 ⟨hgi.proper (hg.proper ht), hs, hle⟩ h
  | .otherwise body, pc, t, code, s, r, hk, hp, hq, hr => by
    rw [choice]
    exact follows_stmts hc body hk hp hq hr

theorem follows_stmts (hc : CallsFollow c n p.limit (p.callers.length + 1) call) :
    ∀ (sts : List Stmt) {pc : Nat} {t : Tables} {code : List Code.Line × Tables} {s : Store σ}
    {r : Run}, Code.stmts file inFunction sts pc t = .ok code → Stmt.AllProper sts →
    Placed p pc t code → Ready p pc [] s r →
    Follows c n r s.console (Completed p (pc + code.1.length)) (Failing c p) (stmts call n sts s)
  | [], pc, t, code, s, r, hk, hp, ⟨ht, hs, hle⟩, hr => by
    cases hk
    exact .arrived hr
  | st :: sts, pc, t, code, s, r, hk, hp, ⟨ht, hs, hle⟩, hr => by
    obtain ⟨first, hfirst, hk⟩ := exists_of_bind_eq_ok hk
    obtain ⟨others, hothers, hk⟩ := exists_of_bind_eq_ok hk
    have hg := Code.grows_stmt hp.1 hfirst
    have hgs := Code.grows_stmts hp.2 hothers
    have ih := follows_stmt hc st (s := s) (r := r) hfirst hp.1
    cases hk
    simp only [stands_append, List.length_append, ← Nat.add_assoc, stmts] at hs hle ⊢
    refine (ih ⟨ht, hs.1, hgs.le.trans hle⟩ hr).andThen ?_
    rintro (- | o) s r h
    · exact follows_stmts hc sts hothers hp.2 ⟨hg.proper ht, hs.2, hle⟩ h
    · exact .arrived h

end

end Stepwise.Evaluator
