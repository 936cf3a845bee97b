import Stepwise.Code.Assembly
import Stepwise.Proofs.Source.Proper

/-! Where the code of a form stands in its chunk, and what the tables hold at the indices it
uses. Tables only grow while a body is compiled, and a constant is shared with one that it
cannot be told apart from, so the entry at an index is the one that was asked for. -/

namespace Stepwise.Code

open Source

def Along {α : Type} (P : Nat → α → Prop) (pc : Nat) (xs : List α) : Prop :=
  ∀ i x, xs[i]? = some x → P (pc + i) x

section Along

variable {α : Type} {P : Nat → α → Prop} {pc : Nat} {x : α} {xs ys : List α}

theorem along_nil : Along P pc [] := by
  intro i x h
  simp at h

theorem along_cons : Along P pc (x :: xs) ↔ P pc x ∧ Along P (pc + 1) xs := by
  constructor
  · intro h
    refine ⟨h 0 x rfl, fun i y hy => ?_⟩
    rw [Nat.add_assoc, Nat.add_comm 1 i]
    exact h (i + 1) y hy
  · rintro ⟨h, hxs⟩ i y hy
    cases i with
    | zero =>
      cases hy
      exact h
    | succ i =>
      rw [Nat.add_comm i 1, ← Nat.add_assoc]
      exact hxs i y hy

theorem along_append : Along P pc (xs ++ ys) ↔ Along P pc xs ∧ Along P (pc + xs.length) ys := by
  induction xs generalizing pc with
  | nil => simp [along_nil]
  | cons x xs ih =>
    rw [List.cons_append, along_cons, along_cons, ih, List.length_cons, and_assoc,
      Nat.add_right_comm, Nat.add_assoc]

theorem along_singleton : Along P pc [x] ↔ P pc x := by
  rw [along_cons, and_iff_left along_nil]

end Along

def Stands (chunk : Chunk) (pc : Nat) (lines : List Line) : Prop :=
  ∀ i l, lines[i]? = some l → chunk.code[pc + i]? = some l.instr

section Stands

variable {chunk : Chunk} {pc : Nat} {l : Line} {k m : List Line}

theorem stands_cons : Stands chunk pc (l :: k) ↔
    chunk.code[pc]? = some l.instr ∧ Stands chunk (pc + 1) k :=
  along_cons (P := fun pc (l : Line) => chunk.code[pc]? = some l.instr)

theorem stands_append : Stands chunk pc (k ++ m) ↔
    Stands chunk pc k ∧ Stands chunk (pc + k.length) m :=
  along_append (P := fun pc (l : Line) => chunk.code[pc]? = some l.instr)

theorem stands_singleton : Stands chunk pc [l] ↔ chunk.code[pc]? = some l.instr :=
  along_singleton (P := fun pc (l : Line) => chunk.code[pc]? = some l.instr)

theorem stands_assemble (file name : String) (first : Nat) (params : List String)
    (lines : List Line) (t : Tables) :
    Stands (assemble file name first params lines t) 0 lines := by
  intro i l h
  simp [assemble, h]

end Stands

@[mk_iff] structure Laid (chunk : Chunk) (pc : Nat) (lines : List Line) : Prop where
  stands : Stands chunk pc lines
  marked : Along (fun pc (l : Line) =>
    chunk.positions[pc]? = some (l.span.elim .unknown .ofSpan)) pc lines

section Laid

variable {chunk : Chunk} {pc : Nat} {l : Line} {k m : List Line}

theorem laid_append : Laid chunk pc (k ++ m) ↔ Laid chunk pc k ∧ Laid chunk (pc + k.length) m := by
  simp only [laid_iff, stands_append, along_append]
  tauto

theorem laid_cons : Laid chunk pc (l :: k) ↔ Laid chunk pc [l] ∧ Laid chunk (pc + 1) k :=
  laid_append (k := [l])

theorem laid_assemble (file name : String) (first : Nat) (params : List String)
    (lines : List Line) (t : Tables) :
    Laid (assemble file name first params lines t) 0 lines := by
  refine ⟨stands_assemble file name first params lines t, fun i l h => ?_⟩
  simp [assemble, h]

end Laid

namespace Tables

structure Le (t u : Tables) : Prop where
  constants : ∀ (i : Nat) (v : Value), t.constants[i]? = some v → u.constants[i]? = some v
  names : ∀ (i : Nat) (n : String), t.names[i]? = some n → u.names[i]? = some n

theorem Le.refl (t : Tables) : t.Le t :=
  ⟨fun _ _ h => h, fun _ _ h => h⟩

theorem Le.trans {t u v : Tables} (h : t.Le u) (k : u.Le v) : t.Le v :=
  ⟨fun i x hx => k.constants i x (h.constants i x hx), fun i x hx => k.names i x (h.names i x hx)⟩

def ofChunk (chunk : Chunk) : Tables :=
  ⟨chunk.constants, chunk.names⟩

theorem getElem?_push_of_some {α : Type} {xs : Array α} {i : Nat} {x y : α}
    (h : xs[i]? = some x) : (xs.push y)[i]? = some x := by
  obtain ⟨hi, -⟩ := Array.getElem?_eq_some_iff.1 h
  rw [Array.getElem?_push, if_neg (by omega), h]

theorem le_constant (t : Tables) (v : Value) : t.Le (t.constant v).2 := by
  unfold constant
  split
  · exact .refl t
  · exact ⟨fun _ _ => getElem?_push_of_some, fun _ _ h => h⟩

theorem le_name (t : Tables) (word : String) : t.Le (t.name word).2 := by
  unfold name
  split
  · exact .refl t
  · exact ⟨fun _ _ h => h, fun _ _ => getElem?_push_of_some⟩

theorem getElem?_name (t : Tables) (word : String) :
    (t.name word).2.names[(t.name word).1]? = some word := by
  unfold name
  split
  · next i hi =>
    obtain ⟨hlt, heq, -⟩ := Array.findIdx?_eq_some_iff_getElem.1 hi
    rw [Array.getElem?_eq_getElem hlt, eq_of_beq heq]
  · simp

end Tables

inductive IsConstant : Value → Prop
  | literal {l : Literal} (h : l.Proper) : IsConstant (.ofLiteral l)
  | code (n : Nat) (chunk : Chunk) : IsConstant (.code n chunk)

theorem eq_of_sameConstant {l m : Literal} (hl : l.Proper) (hm : m.Proper)
    (h : Tables.sameConstant (.ofLiteral l) (.ofLiteral m) = true) : l = m := by
  cases l <;> cases m <;>
    simp only [Tables.sameConstant, Value.ofLiteral, Value.typeName, Value.equal, Value.asInt?,
      Value.asFloat?, Bool.and_eq_true, beq_iff_eq, String.reduceEq, false_and, true_and] at h
  case none.none => rfl
  case bool.bool a b =>
    cases a <;> cases b <;> first | rfl | exact absurd h (by decide)
  case int.int => rw [h]
  case float.float => rw [Number.eq_of_beq_of_unsigned hl hm h]
  case str.str => rw [h]

def Tables.Proper (t : Tables) : Prop :=
  ∀ (i : Nat) (v : Value), t.constants[i]? = some v → IsConstant v

namespace Tables.Proper

theorem empty : Tables.empty.Proper := by
  intro i v h
  simp [Tables.empty] at h

theorem constant {t : Tables} (ht : t.Proper) {v : Value} (hv : IsConstant v) :
    (t.constant v).2.Proper := by
  unfold Tables.constant
  split
  · exact ht
  · intro i w hw
    rw [Array.getElem?_push] at hw
    split at hw
    · cases hw
      exact hv
    · exact ht i w hw

theorem name {t : Tables} (ht : t.Proper) (word : String) : (t.name word).2.Proper := by
  unfold Tables.name
  split <;> exact ht

end Tables.Proper

theorem Tables.getElem?_constant {t : Tables} (ht : t.Proper) {v : Value} (hv : IsConstant v) :
    (t.constant v).2.constants[(t.constant v).1]? = some v := by
  unfold constant
  split
  · next i hi =>
    obtain ⟨hlt, hsame, -⟩ := Array.findIdx?_eq_some_iff_getElem.1 hi
    have hget := Array.getElem?_eq_getElem hlt
    cases hv with
    | literal hl =>
      have hw := ht i _ hget
      generalize t.constants[i] = w at hw hsame hget
      cases hw with
      | literal hm => rw [hget, eq_of_sameConstant hm hl hsame]
      | code n c => simp [sameConstant] at hsame
    | code n c =>
      generalize t.constants[i] = w at hsame
      cases w <;> simp [sameConstant] at hsame
  · simp

structure Tables.Grows (t u : Tables) : Prop where
  le : t.Le u
  proper : t.Proper → u.Proper

namespace Tables.Grows

theorem refl (t : Tables) : t.Grows t :=
  ⟨.refl t, id⟩

theorem trans {t u v : Tables} (h : t.Grows u) (k : u.Grows v) : t.Grows v :=
  ⟨h.le.trans k.le, fun ht => k.proper (h.proper ht)⟩

theorem constant (t : Tables) {v : Value} (hv : IsConstant v) : t.Grows (t.constant v).2 :=
  ⟨t.le_constant v, fun ht => ht.constant hv⟩

theorem name (t : Tables) (word : String) : t.Grows (t.name word).2 :=
  ⟨t.le_name word, fun ht => ht.name word⟩

end Tables.Grows

mutual

theorem grows_expr (tag : Span) : ∀ (e : Expr) (base : Nat) (t : Tables), e.Proper →
    t.Grows (expr tag e base t).2
  | .literal _ _, _, t, h => .constant t (.literal h)
  | .name w _, _, t, _ => .name t w
  | .unary _ e _, base, t, h => grows_expr tag e base t h
  | .binary (.logic _) l r _, base, t, h =>
    (grows_expr tag l base t h.1).trans (grows_expr tag r _ _ h.2)
  | .binary (.arith _) l r _, base, t, h =>
    (grows_expr tag l base t h.1).trans (grows_expr tag r _ _ h.2)
  | .binary (.compare _) l r _, base, t, h =>
    (grows_expr tag l base t h.1).trans (grows_expr tag r _ _ h.2)
  | .call f args _, base, t, h =>
    (grows_expr tag f (base + 1) t h.1).trans (grows_exprs tag args _ _ h.2)

theorem grows_exprs (tag : Span) : ∀ (es : List Expr) (base : Nat) (t : Tables),
    Expr.AllProper es → t.Grows (exprs tag es base t).2
  | [], _, t, _ => .refl t
  | e :: es, base, t, h => (grows_expr tag e base t h.1).trans (grows_exprs tag es _ _ h.2)

end

theorem exists_of_bind_eq_ok {ε α β : Type} {x : Except ε α} {f : α → Except ε β} {b : β}
    (h : x >>= f = .ok b) : ∃ a, x = .ok a ∧ f a = .ok b := by
  cases x with
  | error e => cases h
  | ok a => exact ⟨a, rfl, h⟩

theorem exists_of_any_toOption {ε α : Type} {x : Except ε α} {p : α → Bool}
    (h : x.toOption.any p = true) : ∃ a, x = .ok a ∧ p a = true := by
  cases x with
  | error e => cases h
  | ok a => exact ⟨a, rfl, h⟩

mutual

theorem grows_stmt {file : String} {inFunction : Bool} : ∀ {st : Stmt} {base : Nat} {t : Tables}
    {r : List Line × Tables}, st.Proper → stmt file inFunction st base t = .ok r → t.Grows r.2
  | .assign _ value span, base, t, _, hp, h => by
    cases h
    exact (grows_expr span value base t hp).trans (.name _ _)
  | .expr value, base, t, _, hp, h => by
    cases h
    exact grows_expr value.span value base t hp
  | .pass _, _, t, _, _, h => by
    cases h
    exact .refl t
  | .ret none _, _, t, _, _, h => by
    rw [stmt] at h
    split at h <;> cases h
    exact .constant t (.literal (l := .none) trivial)
  | .ret (some value) span, base, t, _, hp, h => by
    rw [stmt] at h
    split at h <;> cases h
    exact grows_expr span value base t (hp value rfl)
  | .loop test header body, base, t, _, hp, h => by
    obtain ⟨r, hr, h⟩ := exists_of_bind_eq_ok h
    have hbody := grows_stmts hp.2 hr
    cases h
    exact (grows_expr header test base t hp.1).trans hbody
  | .choose test header body rest, base, t, _, hp, h => by
    obtain ⟨r, hr, h⟩ := exists_of_bind_eq_ok h
    obtain ⟨q, hq, h⟩ := exists_of_bind_eq_ok h
    have hbody := grows_stmts hp.2.1 hr
    have hrest := grows_choice hp.2.2 hq
    cases h
    exact ((grows_expr header test base t hp.1).trans hbody).trans hrest
  | .define name params header body, base, t, _, hp, h => by
    obtain ⟨r, hr, h⟩ := exists_of_bind_eq_ok h
    cases h
    exact (Tables.Grows.constant t (.code 0 _)).trans (.name _ name)

theorem grows_choice {file : String} {inFunction : Bool} : ∀ {c : Choice} {base : Nat} {t : Tables}
    {r : List Line × Tables}, c.Proper → choice file inFunction c base t = .ok r → t.Grows r.2
  | .branch test header body rest, base, t, _, hp, h => by
    obtain ⟨r, hr, h⟩ := exists_of_bind_eq_ok h
    obtain ⟨q, hq, h⟩ := exists_of_bind_eq_ok h
    have hbody := grows_stmts hp.2.1 hr
    have hrest := grows_choice hp.2.2 hq
    cases h
    exact ((grows_expr header test base t hp.1).trans hbody).trans hrest
  | .otherwise body, _, _, _, hp, h => grows_stmts hp h

theorem grows_stmts {file : String} {inFunction : Bool} : ∀ {sts : List Stmt} {base : Nat}
    {t : Tables} {r : List Line × Tables}, Stmt.AllProper sts →
    stmts file inFunction sts base t = .ok r → t.Grows r.2
  | [], _, t, _, _, h => by
    cases h
    exact .refl t
  | st :: sts, base, t, _, hp, h => by
    obtain ⟨r, hr, h⟩ := exists_of_bind_eq_ok h
    obtain ⟨q, hq, h⟩ := exists_of_bind_eq_ok h
    have hfirst := grows_stmt hp.1 hr
    have hothers := grows_stmts hp.2 hq
    cases h
    exact hfirst.trans hothers

end

def ofFunction (file name : String) (params : List String) (header : Span) (body : List Stmt) :
    Except SyntaxError Chunk := do
  let (inner, t) ← stmts file true body 0 .empty
  let (ending, t) := close body t
  .ok (assemble file name header.line params (inner ++ ending) t)

end Stepwise.Code
