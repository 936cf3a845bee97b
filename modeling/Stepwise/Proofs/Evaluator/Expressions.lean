import Stepwise.Proofs.Evaluator.Follows

/-! The code of an expression does what the evaluator says of it, in any place of a chunk and on
any stack, provided that calls do. -/

namespace Stepwise.Evaluator

open Source
open Code (Tables Stands stands_append stands_cons stands_singleton)

variable {σ : Type} {c : Host.Console σ} {n : Nat} {p : Place}

def Arrived (p : Place) (pc : Nat) (stack : List Value) (o : Object) (s : Store σ) (r : Run) :
    Prop :=
  ∃ v, Matches v o ∧ Ready p pc (v :: stack) s r

def AllArrived (p : Place) (pc : Nat) (stack : List Value) (count : Nat) (os : List Object)
    (s : Store σ) (r : Run) : Prop :=
  ∃ vs, vs.length = count ∧ List.Forall₂ Matches vs os ∧ Ready p pc (vs.reverse ++ stack) s r

def CallsFollow (c : Host.Console σ) (n limit depth : Nat) (call : Caller σ) : Prop :=
  ∀ ⦃p : Place⦄ ⦃pc : Nat⦄ ⦃stack : List Value⦄ ⦃s : Store σ⦄ ⦃r : Run⦄ ⦃f : Value⦄ ⦃o : Object⦄
    ⦃vs : List Value⦄ ⦃os : List Object⦄,
    p.limit = limit → p.callers.length + 1 = depth → Poised p pc stack s r → Matches f o →
    List.Forall₂ Matches vs os →
    Follows c n (r.callValue f vs) s.console (Arrived p pc stack) (Failing c p) (call o os s)

theorem Poised.follows_value {pc : Nat} {stack : List Value} {s : Store σ} {r : Run} {v : Value}
    {o : Object} (h : Poised p pc stack s r) (hv : Matches v o) :
    Follows c n (r.push v) s.console (Arrived p pc stack) (Failing c p) (.value o s) :=
  .arrived ⟨v, hv, h.push v⟩

theorem Poised.follows_settle {pc : Nat} {stack rest : List Value} {s : Store σ} {r : Run}
    {x : Value.Result} (h : Poised p pc stack s r) (hx : ∀ v, x = .ok v → v.IsPlain) :
    Follows c n (r.settle rest x) s.console (Arrived p pc rest) (Failing c p)
      (.ofResult x s) := by
  cases x with
  | ok v => exact .arrived ⟨v, .plain (hx v rfl), h.next (v :: rest)⟩
  | error cause => exact .failed (h.raise cause)

theorem Poised.ready_loadConst {pc i : Nat} {stack : List Value} {s : Store σ} {r : Run}
    {v : Value} (h : Poised p pc stack s r) (hi : p.chunk.constants[i]? = some v) :
    Ready p pc (v :: stack) s (r.execute ⟨.loadConst, i⟩) := by
  simp only [Run.execute, h.chunk, hi]
  exact h.push v

theorem Poised.follows_loadName {pc i : Nat} {stack : List Value} {s : Store σ} {r : Run}
    {w : String} (h : Poised p pc stack s r) (hi : p.chunk.names[i]? = some w) :
    Follows c n (r.execute ⟨.loadName, i⟩) s.console (Arrived p pc stack) (Failing c p)
      (match s.lookup w with
        | some o => .value o s
        | none => .raise (.unbound w) s) := by
  have hl := h.held.lookup w
  simp only [Run.execute, h.chunk, hi, h.frame]
  generalize r.machine.arena.lookup p.frame w = x at hl
  generalize s.lookup w = y at hl
  cases hl with
  | none => exact .failed (h.raise (.unbound w))
  | some hv => exact h.follows_value hv

def connectiveJump : Connective → Code.Opcode
  | .and => .jumpIfFalseOrPop
  | .or => .jumpIfTrueOrPop

theorem Poised.execute_connective {pc target : Nat} {stack : List Value} {s : Store σ} {r : Run}
    {v : Value} {o : Object} (h : Poised p pc (v :: stack) s r) (op : Connective)
    (hv : Matches v o) :
    r.execute ⟨connectiveJump op, target⟩ =
      if decides op o then r.jump target (v :: stack) else r.next stack := by
  by_cases ht : o.view.truthy = true <;>
    cases op <;> simp [connectiveJump, Run.execute, h.stack, decides, hv.alike.truthy_eq, ht]

theorem Poised.follows_connective {pc target : Nat} {stack : List Value} {s : Store σ} {r : Run}
    {v : Value} {o : Object} {right : Outcome σ Object} (h : Poised p pc (v :: stack) s r)
    (op : Connective) (hv : Matches v o)
    (hright : Ready p pc stack s (r.next stack) →
      Follows c n (r.next stack) s.console (Arrived p target stack) (Failing c p) right) :
    Follows c n (r.execute ⟨connectiveJump op, target⟩) s.console (Arrived p target stack)
      (Failing c p) (if decides op o then .value o s else right) := by
  rw [h.execute_connective op hv]
  by_cases hd : decides op o = true
  · rw [if_pos hd, if_pos hd]
    exact .arrived ⟨v, hv, h.jump target (v :: stack)⟩
  · rw [if_neg hd, if_neg hd]
    exact hright (h.next stack)

/-- A call takes its arguments, the value it calls and the mark below that off the stack. -/
theorem Poised.execute_call {pc : Nat} {stack vs : List Value} {f mark : Value} {s : Store σ}
    {r : Run} (h : Poised p pc (vs.reverse ++ f :: mark :: stack) s r) :
    r.execute ⟨.call, vs.length⟩ =
      { r with current := { r.current with stack } }.callValue f vs := by
  have hd : (vs.reverse ++ f :: mark :: stack).drop vs.length = f :: mark :: stack :=
    List.drop_left' (by simp)
  have ht : (vs.reverse ++ f :: mark :: stack).take vs.length = vs.reverse :=
    List.take_left' (by simp)
  simp only [Run.execute, h.stack, hd, ht, List.reverse_reverse]

mutual

theorem follows_expr {call : Caller σ}
    (hc : CallsFollow c n p.limit (p.callers.length + 1) call) (tag : Span) :
    ∀ (e : Expr) {pc : Nat} {t : Tables} {stack : List Value} {s : Store σ} {r : Run},
    e.Proper → t.Proper → Stands p.chunk pc (Code.expr tag e pc t).1 →
    (Code.expr tag e pc t).2.Le (.ofChunk p.chunk) → Ready p pc stack s r →
    Follows c n r s.console (Arrived p (pc + (Code.expr tag e pc t).1.length) stack) (Failing c p)
      (expr call e s)
  | .literal l span, pc, t, stack, s, r, he, ht, hs, hle, hr => by
    have hi := hle.constants _ _ (Tables.getElem?_constant ht (.literal he))
    refine (hr.follows (stands_singleton.1 hs) fun r' h => ?_).mono (Nat.le_succ n)
    simp only [expr]
    exact .arrived ⟨_, .plain (Value.isPlain_ofLiteral l), h.ready_loadConst hi⟩
  | .name w span, pc, t, stack, s, r, he, ht, hs, hle, hr => by
    have hi := hle.names _ _ (t.getElem?_name w)
    refine (hr.follows (stands_singleton.1 hs) fun r' h => ?_).mono (Nat.le_succ n)
    simp only [expr]
    exact h.follows_loadName hi
  | .unary op e span, pc, t, stack, s, r, he, ht, hs, hle, hr => by
    simp only [Code.expr, stands_append, stands_singleton, List.length_append,
      List.length_singleton, expr] at hs hle ⊢
    refine (follows_expr hc tag e he ht hs.1 hle hr).andThen ?_
    rintro o s r ⟨v, hv, hr⟩
    refine (hr.follows hs.2 fun r' h => ?_).mono (Nat.le_succ n)
    simp only [Code.line, Run.execute, Code.unaryOps_getElem?_idxOf, h.stack,
      hv.alike.unary_eq op]
    exact h.follows_settle fun _ => Value.isPlain_unary
  | .binary (.logic op) a b span, pc, t, stack, s, r, he, ht, hs, hle, hr => by
    simp only [Code.expr, stands_append, stands_cons, List.length_append, List.length_cons,
      expr] at hs hle ⊢
    have ha := Code.grows_expr tag a pc t he.1
    have hb := Code.grows_expr tag b (pc + (Code.expr tag a pc t).1.length + 1)
      (Code.expr tag a pc t).2 he.2
    refine (follows_expr hc tag a he.1 ht hs.1 (hb.le.trans hle) hr).andThen ?_
    rintro o s r ⟨v, hv, hr⟩
    refine (hr.follows hs.2.1 fun r' h => ?_).mono (Nat.le_succ n)
    have hend : pc + ((Code.expr tag a pc t).1.length + ((Code.expr tag b
        (pc + (Code.expr tag a pc t).1.length + 1) (Code.expr tag a pc t).2).1.length + 1)) =
        pc + (Code.expr tag a pc t).1.length + 1 + (Code.expr tag b
          (pc + (Code.expr tag a pc t).1.length + 1) (Code.expr tag a pc t).2).1.length := by
      omega
    rw [hend]
    exact h.follows_connective op hv fun h =>
      follows_expr hc tag b he.2 (ha.proper ht) hs.2.2 hle h
  | .binary (.arith op) a b span, pc, t, stack, s, r, he, ht, hs, hle, hr => by
    simp only [Code.expr, stands_append, stands_singleton, List.length_append,
      List.length_singleton, ← Nat.add_assoc, expr] at hs hle ⊢
    have ha := Code.grows_expr tag a pc t he.1
    have hb := Code.grows_expr tag b (pc + (Code.expr tag a pc t).1.length)
      (Code.expr tag a pc t).2 he.2
    refine (follows_expr hc tag a he.1 ht hs.1.1 (hb.le.trans hle) hr).andThen ?_
    rintro x s r ⟨v, hv, hr⟩
    refine (follows_expr hc tag b he.2 (ha.proper ht) hs.1.2 hle hr).andThen ?_
    rintro y s r ⟨w, hw, hr⟩
    refine (hr.follows hs.2 fun r' h => ?_).mono (Nat.le_succ n)
    simp only [Code.line, Run.execute, Code.arithOps_getElem?_idxOf, Run.binary, h.stack,
      hv.alike.arith_eq op hw.alike]
    exact h.follows_settle fun _ => Value.isPlain_arith
  | .binary (.compare op) a b span, pc, t, stack, s, r, he, ht, hs, hle, hr => by
    simp only [Code.expr, stands_append, stands_singleton, List.length_append,
      List.length_singleton, ← Nat.add_assoc, expr] at hs hle ⊢
    have ha := Code.grows_expr tag a pc t he.1
    have hb := Code.grows_expr tag b (pc + (Code.expr tag a pc t).1.length)
      (Code.expr tag a pc t).2 he.2
    refine (follows_expr hc tag a he.1 ht hs.1.1 (hb.le.trans hle) hr).andThen ?_
    rintro x s r ⟨v, hv, hr⟩
    refine (follows_expr hc tag b he.2 (ha.proper ht) hs.1.2 hle hr).andThen ?_
    rintro y s r ⟨w, hw, hr⟩
    refine (hr.follows hs.2 fun r' h => ?_).mono (Nat.le_succ n)
    simp only [Code.line, Run.execute, Code.compareOps_getElem?_idxOf, Run.binary, h.stack,
      hv.alike.compare_eq op hw.alike]
    exact h.follows_settle fun _ => Value.isPlain_compare
  | .call f args span, pc, t, stack, s, r, he, ht, hs, hle, hr => by
    simp only [Code.expr, stands_append, stands_cons, List.cons_append, List.length_cons,
      List.length_append, List.length_nil, Nat.zero_add, expr] at hs hle ⊢
    have hf := Code.grows_expr tag f (pc + 1) t he.1
    have ha := Code.grows_exprs tag args (pc + 1 + (Code.expr tag f (pc + 1) t).1.length)
      (Code.expr tag f (pc + 1) t).2 he.2
    refine (hr.follows hs.1 fun r' h => ?_).mono (Nat.le_succ n)
    refine (follows_expr hc tag f he.1 ht hs.2.1.1 (ha.le.trans hle) (h.push .none)).andThen ?_
    rintro o s r ⟨v, hv, hr⟩
    refine (follows_exprs hc tag args he.2 (hf.proper ht) hs.2.1.2 hle hr).andThen ?_
    rintro os s r ⟨vs, hlen, hvs, hr⟩
    have hi : p.chunk.code[pc + 1 + (Code.expr tag f (pc + 1) t).1.length +
        (Code.exprs tag args (pc + 1 + (Code.expr tag f (pc + 1) t).1.length)
          (Code.expr tag f (pc + 1) t).2).1.length]? = some ⟨.call, args.length⟩ := by
      rw [Nat.add_assoc (pc + 1)]
      exact hs.2.2.1
    have hend (x y z : Nat) : x + (y + z + 1 + 1) = x + 1 + y + z + 1 := by omega
    rw [hend]
    refine (hr.follows hi fun r' h => ?_).mono (Nat.le_succ n)
    rw [← hlen, h.execute_call]
    exact hc rfl rfl (h.withStack stack) hv hvs

theorem follows_exprs {call : Caller σ}
    (hc : CallsFollow c n p.limit (p.callers.length + 1) call) (tag : Span) :
    ∀ (es : List Expr) {pc : Nat} {t : Tables} {stack : List Value} {s : Store σ} {r : Run},
    Expr.AllProper es → t.Proper →
    Stands p.chunk pc (Code.exprs tag es pc t).1 →
    (Code.exprs tag es pc t).2.Le (.ofChunk p.chunk) → Ready p pc stack s r →
    Follows c n r s.console
      (AllArrived p (pc + (Code.exprs tag es pc t).1.length) stack es.length) (Failing c p)
      (exprs call es s)
  | [], pc, t, stack, s, r, he, ht, hs, hle, hr => .arrived ⟨[], rfl, .nil, hr⟩
  | e :: es, pc, t, stack, s, r, he, ht, hs, hle, hr => by
    simp only [Code.exprs, stands_append, List.length_append, ← Nat.add_assoc, exprs]
      at hs hle ⊢
    have hg := Code.grows_expr tag e pc t he.1
    have hgs := Code.grows_exprs tag es (pc + (Code.expr tag e pc t).1.length)
      (Code.expr tag e pc t).2 he.2
    refine (follows_expr hc tag e he.1 ht hs.1 (hgs.le.trans hle) hr).andThen ?_
    rintro o s r ⟨v, hv, hr⟩
    refine (follows_exprs hc tag es he.2 (hg.proper ht) hs.2 hle hr).andThen ?_
    rintro os s r ⟨vs, hlen, hvs, hr⟩
    exact .arrived ⟨v :: vs, congrArg (· + 1) hlen, .cons hv hvs, by simpa using hr⟩

end

end Stepwise.Evaluator
