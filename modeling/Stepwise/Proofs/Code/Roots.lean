import Stepwise.Proofs.Code.Units

/-! The expressions that statements and branches evaluate, each as a whole. Such an expression has
its code in one piece, followed by the instruction that uses its value up; all of that bears the
span of the header, except for operators and calls. -/

namespace Stepwise.Source

/-- An expression that is not part of another, where its code starts, and the header it is in. -/
structure Root where
  base : Nat
  header : Span
  value : Expr

/-- The place of the instruction that uses the value up. -/
def Root.last (r : Root) : Nat :=
  r.base + r.value.size

mutual

def Stmt.roots : Stmt → Nat → List Root
  | .assign _ value span, base => [⟨base, span, value⟩]
  | .expr e, base => [⟨base, e.span, e⟩]
  | .ret value span, base => [⟨base, span, returned value span⟩]
  | .loop test header body, base =>
    ⟨base, header, test⟩ :: Stmt.allRoots body (base + test.size + 1)
  | .choose test header body rest, base =>
    ⟨base, header, test⟩ :: (Stmt.allRoots body (base + test.size + 1) ++
      rest.roots (base + test.size + 1 + Stmt.totalSize body + 1))
  | .pass _, _ => []
  | .define _ _ _ _, _ => []

def Choice.roots : Choice → Nat → List Root
  | .branch test header body rest, base =>
    ⟨base, header, test⟩ :: (Stmt.allRoots body (base + test.size + 1) ++
      rest.roots (base + test.size + 1 + Stmt.totalSize body + 1))
  | .otherwise body, base => Stmt.allRoots body base

def Stmt.allRoots : List Stmt → Nat → List Root
  | [], _ => []
  | st :: sts, base => st.roots base ++ Stmt.allRoots sts (base + st.size)

end

end Stepwise.Source

namespace Stepwise.Code

open Source

def Opcode.usesUp : Opcode → Bool
  | .storeName | .popTop | .returnValue | .popJumpIfFalse => true
  | _ => false

def Opcode.operates : Opcode → Bool
  | .unaryOp | .binaryOp | .compareOp | .call => true
  | _ => false

def rootLines (r : Root) (t : Tables) (use : Instr) : List Line :=
  (expr r.header r.value r.base t).1 ++ [⟨use, some r.header⟩]

def Root.Stands (chunk : Chunk) (r : Root) : Prop :=
  ∃ t use, use.op.usesUp = true ∧ Laid chunk r.base (rootLines r t use)

section Stands

variable {file : String} {inFunction : Bool} {chunk : Chunk}

theorem laid_test {test : Expr} {header : Span} {base next : Nat} {t : Tables} {m : List Line} :
    Laid chunk base ((expr header test base t).1 ++ line .popJumpIfFalse next header :: m) ↔
      Laid chunk base (rootLines ⟨base, header, test⟩ t ⟨.popJumpIfFalse, next⟩) ∧
        Laid chunk (base + test.size + 1) m := by
  rw [List.append_cons, laid_append, List.length_append, List.length_singleton, length_expr,
    Nat.add_assoc]
  exact Iff.rfl

/-- A tested body, as for their heights: the roots are that of the test and those behind it. -/
theorem stands_tested {test : Expr} {header span : Span} {base next stop : Nat} {t : Tables}
    {inner others : List Line} {body : List Stmt} {roots : List Root}
    (hl : Laid chunk base ((expr header test base t).1 ++ line .popJumpIfFalse next header ::
      (inner ++ line .jump stop span :: others)))
    (hinner : inner.length = Stmt.totalSize body)
    (hbody : Laid chunk (base + test.size + 1) inner →
      ∀ r ∈ Stmt.allRoots body (base + test.size + 1), Root.Stands chunk r)
    (hrest : Laid chunk (base + test.size + 1 + Stmt.totalSize body + 1) others →
      ∀ r ∈ roots, Root.Stands chunk r) :
    ∀ r ∈ ⟨base, header, test⟩ :: (Stmt.allRoots body (base + test.size + 1) ++ roots),
      Root.Stands chunk r := by
  rw [laid_test, laid_append, laid_cons, hinner] at hl
  obtain ⟨htest, hb, -, hr⟩ := hl
  intro r hmem
  rcases List.mem_cons.1 hmem with rfl | hmem
  · exact ⟨t, ⟨.popJumpIfFalse, next⟩, rfl, htest⟩
  · exact (List.mem_append.1 hmem).elim (hbody hb r) (hrest hr r)

mutual

theorem stands_stmt : ∀ {st : Stmt} {base : Nat} {t : Tables} {r : List Line × Tables},
    stmt file inFunction st base t = .ok r → Laid chunk base r.1 →
    ∀ root ∈ st.roots base, Root.Stands chunk root
  | .assign target value span, base, t, _, h, hl, root, hmem => by
    cases h
    cases List.mem_singleton.1 hmem
    exact ⟨t, ⟨.storeName, _⟩, rfl, hl⟩
  | .expr e, base, t, _, h, hl, root, hmem => by
    cases h
    cases List.mem_singleton.1 hmem
    exact ⟨t, ⟨.popTop, 0⟩, rfl, hl⟩
  | .ret value span, base, t, _, h, hl, root, hmem => by
    rw [stmt] at h
    split at h <;> cases h
    cases List.mem_singleton.1 hmem
    exact ⟨t, ⟨.returnValue, 0⟩, rfl, hl⟩
  | .loop test header body, base, t, _, h, hl, root, hmem => by
    obtain ⟨r, hr, h⟩ := exists_of_bind_eq_ok h
    cases h
    rw [laid_test, laid_append] at hl
    rw [length_expr] at hr
    rcases List.mem_cons.1 hmem with rfl | hmem
    · exact ⟨t, ⟨.popJumpIfFalse, _⟩, rfl, hl.1⟩
    · exact stands_stmts hr hl.2.1 root hmem
  | .choose test header body rest, base, t, _, h, hl, root, hmem => by
    obtain ⟨r, hr, h⟩ := exists_of_bind_eq_ok h
    obtain ⟨q, hq, h⟩ := exists_of_bind_eq_ok h
    cases h
    rw [length_expr] at hr
    simp only [length_expr, length_stmts hr] at hq
    exact stands_tested hl (length_stmts hr) (stands_stmts hr) (stands_choice hq) root hmem
  | .pass _, _, _, _, _, _, _, hmem => nomatch hmem
  | .define _ _ _ _, _, _, _, _, _, _, hmem => nomatch hmem

theorem stands_choice : ∀ {c : Choice} {base : Nat} {t : Tables} {r : List Line × Tables},
    choice file inFunction c base t = .ok r → Laid chunk base r.1 →
    ∀ root ∈ c.roots base, Root.Stands chunk root
  | .branch test header body rest, base, t, _, h, hl, root, hmem => by
    obtain ⟨r, hr, h⟩ := exists_of_bind_eq_ok h
    obtain ⟨q, hq, h⟩ := exists_of_bind_eq_ok h
    cases h
    rw [length_expr] at hr
    simp only [length_expr, length_stmts hr] at hq
    exact stands_tested hl (length_stmts hr) (stands_stmts hr) (stands_choice hq) root hmem
  | .otherwise body, base, t, r, h, hl, root, hmem => by
    have h : stmts file inFunction body base t = .ok r := h
    exact stands_stmts h hl root hmem

theorem stands_stmts : ∀ {sts : List Stmt} {base : Nat} {t : Tables} {r : List Line × Tables},
    stmts file inFunction sts base t = .ok r → Laid chunk base r.1 →
    ∀ root ∈ Stmt.allRoots sts base, Root.Stands chunk root
  | [], _, _, _, _, _, _, hmem => nomatch hmem
  | st :: sts, base, t, _, h, hl, root, hmem => by
    obtain ⟨r, hr, h⟩ := exists_of_bind_eq_ok h
    obtain ⟨q, hq, h⟩ := exists_of_bind_eq_ok h
    cases h
    rw [laid_append, length_stmt hr] at hl
    rw [length_stmt hr] at hq
    exact (List.mem_append.1 hmem).elim (stands_stmt hr hl.1 root) (stands_stmts hq hl.2 root)

end

theorem Compiles.stands {body : List Stmt} (h : Compiles file inFunction body chunk) :
    ∀ r ∈ Stmt.allRoots body 0, Root.Stands chunk r := by
  obtain ⟨name, firstLine, params, inner, t, hinner, rfl⟩ := h
  exact stands_stmts hinner (laid_append.1 (laid_assemble _ _ _ _ _ _)).1

theorem Compiles.closes {body : List Stmt} (h : Compiles file inFunction body chunk) :
    ∃ t, Laid chunk (Stmt.totalSize body) (close body t).1 := by
  obtain ⟨name, firstLine, params, inner, t, hinner, rfl⟩ := h
  have hclose := (laid_append.1 (laid_assemble file name firstLine params
    (inner ++ (close body t).1) (close body t).2)).2
  rw [length_stmts hinner, Nat.zero_add] at hclose
  exact ⟨t, hclose⟩

end Stands

end Stepwise.Code
