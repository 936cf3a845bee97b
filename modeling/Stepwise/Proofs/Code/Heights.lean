import Stepwise.Proofs.Code.Flow

/-! The heights at which compiled code is executed. The size of a form is the number of its
instructions, and its heights are those of the value stack before each of them, dead code
included: an expression is entered at some height and left one higher, a statement is entered
and left at zero. Wherever the heights of a body are assigned to the places of its code, every
instruction agrees with them. -/

namespace Stepwise.Source

mutual

def Expr.size : Expr → Nat
  | .literal _ _ => 1
  | .name _ _ => 1
  | .unary _ e _ => e.size + 1
  | .binary _ l r _ => l.size + r.size + 1
  | .call f args _ => f.size + Expr.totalSize args + 2

def Expr.totalSize : List Expr → Nat
  | [] => 0
  | e :: es => e.size + Expr.totalSize es

end

mutual

def Expr.heights : Expr → Nat → List Nat
  | .literal _ _, k => [k]
  | .name _ _, k => [k]
  | .unary _ e _, k => e.heights k ++ [k + 1]
  | .binary (.logic _) l r _, k => l.heights k ++ (k + 1) :: r.heights k
  | .binary (.arith _) l r _, k => l.heights k ++ r.heights (k + 1) ++ [k + 2]
  | .binary (.compare _) l r _, k => l.heights k ++ r.heights (k + 1) ++ [k + 2]
  | .call f args _, k =>
    k :: f.heights (k + 1) ++ Expr.allHeights args (k + 2) ++ [k + 2 + args.length]

def Expr.allHeights : List Expr → Nat → List Nat
  | [], _ => []
  | e :: es, k => e.heights k ++ Expr.allHeights es (k + 1)

end

def returned (value : Option Expr) (span : Span) : Expr :=
  value.getD (.literal .none span)

mutual

def Stmt.size : Stmt → Nat
  | .assign _ value _ => value.size + 1
  | .expr e => e.size + 1
  | .pass _ => 1
  | .ret value span => (returned value span).size + 1
  | .loop test _ body => test.size + 1 + Stmt.totalSize body + 1
  | .choose test _ body rest => test.size + 1 + Stmt.totalSize body + 1 + rest.size
  | .define _ _ _ _ => 2

def Choice.size : Choice → Nat
  | .branch test _ body rest => test.size + 1 + Stmt.totalSize body + 1 + rest.size
  | .otherwise body => Stmt.totalSize body

def Stmt.totalSize : List Stmt → Nat
  | [] => 0
  | st :: sts => st.size + Stmt.totalSize sts

end

mutual

def Stmt.heights : Stmt → List Nat
  | .assign _ value _ => value.heights 0 ++ [1]
  | .expr e => e.heights 0 ++ [1]
  | .pass _ => [0]
  | .ret value span => (returned value span).heights 0 ++ [1]
  | .loop test _ body => test.heights 0 ++ 1 :: (Stmt.allHeights body ++ [0])
  | .choose test _ body rest => test.heights 0 ++ 1 :: (Stmt.allHeights body ++ 0 :: rest.heights)
  | .define _ _ _ _ => [0, 1]

def Choice.heights : Choice → List Nat
  | .branch test _ body rest => test.heights 0 ++ 1 :: (Stmt.allHeights body ++ 0 :: rest.heights)
  | .otherwise body => Stmt.allHeights body

def Stmt.allHeights : List Stmt → List Nat
  | [] => []
  | st :: sts => st.heights ++ Stmt.allHeights sts

end

mutual

/-- The places at which the statement and those inside it start, if its code starts at a base.
The body of a function is compiled apart. -/
def Stmt.starts : Stmt → Nat → List Nat
  | .loop test _ body, base => base :: Stmt.allStarts body (base + test.size + 1)
  | .choose test _ body rest, base =>
    base :: Stmt.allStarts body (base + test.size + 1) ++
      rest.starts (base + test.size + 1 + Stmt.totalSize body + 1)
  | .assign _ _ _, base => [base]
  | .expr _, base => [base]
  | .pass _, base => [base]
  | .ret _ _, base => [base]
  | .define _ _ _ _, base => [base]

def Choice.starts : Choice → Nat → List Nat
  | .branch test _ body rest, base =>
    Stmt.allStarts body (base + test.size + 1) ++
      rest.starts (base + test.size + 1 + Stmt.totalSize body + 1)
  | .otherwise body, base => Stmt.allStarts body base

def Stmt.allStarts : List Stmt → Nat → List Nat
  | [], _ => []
  | st :: sts, base => st.starts base ++ Stmt.allStarts sts (base + st.size)

end

mutual

@[simp] theorem Expr.length_heights : ∀ (e : Expr) (k : Nat), (e.heights k).length = e.size
  | .literal _ _, _ => rfl
  | .name _ _, _ => rfl
  | .unary _ e _, k => by simp [Expr.heights, Expr.size, e.length_heights]
  | .binary (.logic _) l r _, k => by
    simp only [Expr.heights, Expr.size, List.length_append, List.length_cons, l.length_heights,
      r.length_heights, Nat.add_assoc]
  | .binary (.arith _) l r _, k => by
    simp [Expr.heights, Expr.size, l.length_heights, r.length_heights, Nat.add_assoc]
  | .binary (.compare _) l r _, k => by
    simp [Expr.heights, Expr.size, l.length_heights, r.length_heights, Nat.add_assoc]
  | .call f args _, k => by
    simp only [Expr.heights, Expr.size, List.length_append, List.length_cons, List.length_nil,
      f.length_heights, Expr.length_allHeights args]
    omega

@[simp] theorem Expr.length_allHeights : ∀ (es : List Expr) (k : Nat),
    (Expr.allHeights es k).length = Expr.totalSize es
  | [], _ => rfl
  | e :: es, k => by
    simp only [Expr.allHeights, Expr.totalSize, List.length_append, e.length_heights,
      Expr.length_allHeights es]

end

mutual

@[simp] theorem Stmt.length_heights : ∀ st : Stmt, st.heights.length = st.size
  | .assign _ value _ => by simp [Stmt.heights, Stmt.size]
  | .expr e => by simp [Stmt.heights, Stmt.size]
  | .pass _ => rfl
  | .ret value span => by simp [Stmt.heights, Stmt.size]
  | .loop test _ body => by
    simp only [Stmt.heights, Stmt.size, List.length_append, List.length_cons, List.length_nil,
      test.length_heights, Stmt.length_allHeights body]
    omega
  | .choose test _ body rest => by
    simp only [Stmt.heights, Stmt.size, List.length_append, List.length_cons, test.length_heights,
      Stmt.length_allHeights body, rest.length_heights]
    omega
  | .define _ _ _ _ => rfl

@[simp] theorem Choice.length_heights : ∀ c : Choice, c.heights.length = c.size
  | .branch test _ body rest => by
    simp only [Choice.heights, Choice.size, List.length_append, List.length_cons,
      test.length_heights, Stmt.length_allHeights body, rest.length_heights]
    omega
  | .otherwise body => Stmt.length_allHeights body

@[simp] theorem Stmt.length_allHeights : ∀ sts : List Stmt,
    (Stmt.allHeights sts).length = Stmt.totalSize sts
  | [] => rfl
  | st :: sts => by
    simp only [Stmt.allHeights, Stmt.totalSize, List.length_append, st.length_heights,
      Stmt.length_allHeights sts]

end

end Stepwise.Source

namespace Stepwise.Code

open Source

/-! The code of a form has its size. -/

mutual

theorem length_expr (tag : Span) : ∀ (e : Expr) (base : Nat) (t : Tables),
    (expr tag e base t).1.length = e.size
  | .literal _ _, _, _ => rfl
  | .name _ _, _, _ => rfl
  | .unary _ e _, base, t => by
    simp only [expr, Expr.size, List.length_append, List.length_singleton, length_expr tag e]
  | .binary (.logic _) l r _, base, t => by
    simp only [expr, Expr.size, List.length_append, List.length_cons, length_expr tag l,
      length_expr tag r, Nat.add_assoc]
  | .binary (.arith _) l r _, base, t => by
    simp only [expr, Expr.size, List.length_append, List.length_singleton, length_expr tag l,
      length_expr tag r]
  | .binary (.compare _) l r _, base, t => by
    simp only [expr, Expr.size, List.length_append, List.length_singleton, length_expr tag l,
      length_expr tag r]
  | .call f args _, base, t => by
    simp only [expr, Expr.size, List.length_append, List.length_cons, List.length_nil,
      length_expr tag f, length_exprs tag args]
    omega

theorem length_exprs (tag : Span) : ∀ (es : List Expr) (base : Nat) (t : Tables),
    (exprs tag es base t).1.length = Expr.totalSize es
  | [], _, _ => rfl
  | e :: es, base, t => by
    simp only [exprs, Expr.totalSize, List.length_append, length_expr tag e, length_exprs tag es]

end

mutual

theorem length_stmt {file : String} {inFunction : Bool} : ∀ {st : Stmt} {base : Nat} {t : Tables}
    {r : List Line × Tables}, stmt file inFunction st base t = .ok r → r.1.length = st.size
  | .assign _ value span, base, t, _, h => by
    cases h
    simp only [Stmt.size, List.length_append, List.length_singleton, length_expr]
  | .expr e, base, t, _, h => by
    cases h
    simp only [Stmt.size, List.length_append, List.length_singleton, length_expr]
  | .pass _, _, _, _, h => by
    cases h
    rfl
  | .ret value span, base, t, _, h => by
    rw [stmt] at h
    split at h <;> cases h
    simp only [Stmt.size, returned, List.length_append, List.length_singleton, length_expr]
  | .loop test header body, base, t, _, h => by
    obtain ⟨r, hr, h⟩ := exists_of_bind_eq_ok h
    cases h
    simp only [Stmt.size, List.length_append, List.length_cons, List.length_nil, length_expr,
      length_stmts hr]
    omega
  | .choose test header body rest, base, t, _, h => by
    obtain ⟨r, hr, h⟩ := exists_of_bind_eq_ok h
    obtain ⟨q, hq, h⟩ := exists_of_bind_eq_ok h
    cases h
    simp only [Stmt.size, List.length_append, List.length_cons, length_expr, length_stmts hr,
      length_choice hq]
    omega
  | .define _ _ _ _, base, t, _, h => by
    obtain ⟨r, hr, h⟩ := exists_of_bind_eq_ok h
    cases h
    rfl

theorem length_choice {file : String} {inFunction : Bool} : ∀ {c : Choice} {base : Nat}
    {t : Tables} {r : List Line × Tables}, choice file inFunction c base t = .ok r →
    r.1.length = c.size
  | .branch test header body rest, base, t, _, h => by
    obtain ⟨r, hr, h⟩ := exists_of_bind_eq_ok h
    obtain ⟨q, hq, h⟩ := exists_of_bind_eq_ok h
    cases h
    simp only [Choice.size, List.length_append, List.length_cons, length_expr, length_stmts hr,
      length_choice hq]
    omega
  | .otherwise body, base, t, r, h => by
    have h : stmts file inFunction body base t = .ok r := h
    exact length_stmts h

theorem length_stmts {file : String} {inFunction : Bool} : ∀ {sts : List Stmt} {base : Nat}
    {t : Tables} {r : List Line × Tables}, stmts file inFunction sts base t = .ok r →
    r.1.length = Stmt.totalSize sts
  | [], _, _, _, h => by
    cases h
    rfl
  | st :: sts, base, t, _, h => by
    obtain ⟨r, hr, h⟩ := exists_of_bind_eq_ok h
    obtain ⟨q, hq, h⟩ := exists_of_bind_eq_ok h
    cases h
    simp only [Stmt.totalSize, List.length_append, length_stmt hr, length_stmts hq]

end

def Carries (heights : Nat → Nat) (pc : Nat) (hs : List Nat) : Prop :=
  Along (fun pc h => heights pc = h) pc hs

def Agree (heights : Nat → Nat) (size pc : Nat) (lines : List Line) : Prop :=
  Along (fun pc l => l.instr.Agrees heights size pc) pc lines

section Agree

variable {heights : Nat → Nat} {size : Nat} {tag : Span}

theorem height_expr : ∀ (e : Expr) {base k : Nat}, Carries heights base (e.heights k) →
    heights base = k
  | .literal _ _, _, _, h => h 0 _ rfl
  | .name _ _, _, _, h => h 0 _ rfl
  | .unary _ e _, _, _, h => height_expr e (along_append.1 h).1
  | .binary (.logic _) l _ _, _, _, h => height_expr l (along_append.1 h).1
  | .binary (.arith _) l _ _, _, _, h => height_expr l (along_append.1 (along_append.1 h).1).1
  | .binary (.compare _) l _ _, _, _, h => height_expr l (along_append.1 (along_append.1 h).1).1
  | .call _ _ _, _, _, h => h 0 _ rfl

theorem height_exprs {es : List Expr} {base k : Nat}
    (h : Carries heights base (Expr.allHeights es k))
    (hexit : heights (base + Expr.totalSize es) = k + es.length) : heights base = k := by
  cases es with
  | nil => exact hexit
  | cons e es => exact height_expr e (along_append.1 h).1

theorem Instr.Agrees.of_next {i : Instr} {pc height : Nat} (hneeds : i.needs ≤ heights pc)
    (hop : i.op ≠ .returnValue) (hs : i.successors pc (heights pc) = [(pc + 1, height)])
    (hlt : pc + 1 < size) (hnext : heights (pc + 1) = height) : i.Agrees heights size pc := by
  refine ⟨hneeds, fun h => absurd h hop, fun q hq => ?_⟩
  rw [hs, List.mem_singleton] at hq
  subst hq
  exact ⟨hlt, hnext.symm⟩

theorem Instr.Agrees.of_branch {i : Instr} {pc next target : Nat} (hneeds : i.needs ≤ heights pc)
    (hop : i.op ≠ .returnValue)
    (hs : i.successors pc (heights pc) = [(pc + 1, next), (i.arg, target)])
    (hlt : pc + 1 < size) (hnext : heights (pc + 1) = next)
    (harg : i.arg < size) (htarget : heights i.arg = target) : i.Agrees heights size pc := by
  refine ⟨hneeds, fun h => absurd h hop, fun q hq => ?_⟩
  rw [hs, List.mem_pair] at hq
  obtain rfl | rfl := hq
  · exact ⟨hlt, hnext.symm⟩
  · exact ⟨harg, htarget.symm⟩

mutual

theorem agree_expr : ∀ (e : Expr) {base k : Nat} (t : Tables),
    Carries heights base (e.heights k) → heights (base + e.size) = k + 1 →
    base + e.size < size → Agree heights size base (expr tag e base t).1
  | .literal _ _, base, k, t, hc, hexit, hlt => by
    have hbase : heights base = k := hc 0 k rfl
    exact along_singleton.2 (.of_next (Nat.zero_le _) (by simp [line])
      (by simp [Instr.successors, line, hbase]) hlt hexit)
  | .name _ _, base, k, t, hc, hexit, hlt => by
    have hbase : heights base = k := hc 0 k rfl
    exact along_singleton.2 (.of_next (Nat.zero_le _) (by simp [line])
      (by simp [Instr.successors, line, hbase]) hlt hexit)
  | .unary op e s, base, k, t, hc, hexit, hlt => by
    simp only [Carries, Expr.heights, along_append, along_singleton, Expr.length_heights] at hc
    simp only [Expr.size, ← Nat.add_assoc] at hexit hlt
    simp only [Agree, expr, along_append, along_singleton, length_expr]
    refine ⟨agree_expr e t hc.1 hc.2 (Nat.lt_of_succ_lt hlt), ?_⟩
    exact .of_next (by simp [Instr.needs, line, hc.2]) (by simp [line])
      (by simp [Instr.successors, line, hc.2]) hlt hexit
  | .binary (.logic op) l r s, base, k, t, hc, hexit, hlt => by
    simp only [Carries, Expr.heights, along_append, along_cons, Expr.length_heights] at hc
    obtain ⟨hl, hjump, hr⟩ := hc
    simp only [Expr.size, ← Nat.add_assoc, Nat.add_right_comm _ r.size 1] at hexit hlt
    simp only [Agree, expr, along_append, along_cons, length_expr]
    refine ⟨agree_expr l t hl hjump (by omega), ?_, agree_expr r _ hr hexit hlt⟩
    exact .of_branch (by cases op <;> simp [Instr.needs, line, hjump])
      (by cases op <;> simp [line]) (by cases op <;> simp [Instr.successors, line, hjump])
      (by omega) (height_expr r hr) hlt hexit
  | .binary (.arith op) l r s, base, k, t, hc, hexit, hlt => by
    simp only [Carries, Expr.heights, along_append, along_singleton, Expr.length_heights,
      List.length_append, ← Nat.add_assoc] at hc
    obtain ⟨⟨hl, hr⟩, hop⟩ := hc
    simp only [Expr.size, ← Nat.add_assoc] at hexit hlt
    simp only [Agree, expr, along_append, along_singleton, List.length_append, length_expr,
      ← Nat.add_assoc]
    refine ⟨⟨agree_expr l t hl (height_expr r hr) (by omega),
      agree_expr r _ hr hop (by omega)⟩, ?_⟩
    exact .of_next (by simp [Instr.needs, line, hop]) (by simp [line])
      (by simp [Instr.successors, line, hop]) hlt hexit
  | .binary (.compare op) l r s, base, k, t, hc, hexit, hlt => by
    simp only [Carries, Expr.heights, along_append, along_singleton, Expr.length_heights,
      List.length_append, ← Nat.add_assoc] at hc
    obtain ⟨⟨hl, hr⟩, hop⟩ := hc
    simp only [Expr.size, ← Nat.add_assoc] at hexit hlt
    simp only [Agree, expr, along_append, along_singleton, List.length_append, length_expr,
      ← Nat.add_assoc]
    refine ⟨⟨agree_expr l t hl (height_expr r hr) (by omega),
      agree_expr r _ hr hop (by omega)⟩, ?_⟩
    exact .of_next (by simp [Instr.needs, line, hop]) (by simp [line])
      (by simp [Instr.successors, line, hop]) hlt hexit
  | .call f args s, base, k, t, hc, hexit, hlt => by
    simp only [Carries, Expr.heights, along_append, along_cons, along_nil, and_true,
      List.cons_append, Expr.length_heights, Expr.length_allHeights, List.length_append,
      ← Nat.add_assoc] at hc
    obtain ⟨hbase, ⟨hf, hargs⟩, hcall⟩ := hc
    simp only [Expr.size, ← Nat.add_assoc] at hexit hlt
    simp only [Agree, expr, along_append, along_cons, along_nil, and_true, List.cons_append,
      List.length_append, length_expr, length_exprs, ← Nat.add_assoc]
    have hcallee : heights (base + 1 + f.size) = k + 2 := height_exprs hargs hcall
    have hend : base + 1 + f.size + Expr.totalSize args + 1 =
      base + f.size + Expr.totalSize args + 2 := by omega
    refine ⟨?_, ⟨agree_expr f t hf hcallee (by omega),
      agree_exprs args _ hargs hcall (by omega)⟩, ?_⟩
    · exact .of_next (Nat.zero_le _) (by simp [line]) (by simp [Instr.successors, line, hbase])
        (by omega) (height_expr f hf)
    · refine .of_next ?_ (by simp [line]) rfl (by omega) ?_
      · simp only [Instr.needs, line, hcall]
        omega
      · simp only [line, hcall, hend, hexit]
        omega

theorem agree_exprs : ∀ (es : List Expr) {base k : Nat} (t : Tables),
    Carries heights base (Expr.allHeights es k) →
    heights (base + Expr.totalSize es) = k + es.length → base + Expr.totalSize es < size →
    Agree heights size base (exprs tag es base t).1
  | [], _, _, _, _, _, _ => along_nil
  | e :: es, base, k, t, hc, hexit, hlt => by
    simp only [Carries, Expr.allHeights, along_append, Expr.length_heights] at hc
    simp only [Expr.totalSize, List.length_cons, ← Nat.add_assoc] at hexit hlt
    simp only [Agree, exprs, along_append, length_expr]
    have hnext : heights (base + e.size + Expr.totalSize es) = k + 1 + es.length := by
      rw [hexit]
      omega
    exact ⟨agree_expr e t hc.1 (height_exprs hc.2 hnext) (by omega),
      agree_exprs es _ hc.2 hnext hlt⟩

end

/-! Statements are entered at zero, as every place where one could stand. -/

theorem height_stmt {st : Stmt} {base : Nat} (h : Carries heights base st.heights) :
    heights base = 0 := by
  cases st with
  | assign _ value _ => exact height_expr value (along_append.1 h).1
  | expr e => exact height_expr e (along_append.1 h).1
  | pass _ => exact h 0 0 rfl
  | ret value span => exact height_expr _ (along_append.1 h).1
  | loop test _ _ => exact height_expr test (along_append.1 h).1
  | choose test _ _ _ => exact height_expr test (along_append.1 h).1
  | define _ _ _ _ => exact h 0 0 rfl

theorem height_stmts {sts : List Stmt} {base : Nat}
    (h : Carries heights base (Stmt.allHeights sts))
    (hexit : heights (base + Stmt.totalSize sts) = 0) : heights base = 0 := by
  cases sts with
  | nil => exact hexit
  | cons st sts => exact height_stmt (along_append.1 h).1

theorem height_choice {c : Choice} {base : Nat} (h : Carries heights base c.heights)
    (hexit : heights (base + c.size) = 0) : heights base = 0 := by
  cases c with
  | branch test _ _ _ => exact height_expr test (along_append.1 h).1
  | otherwise body => exact height_stmts h hexit

theorem agree_used {e : Expr} {base : Nat} {t : Tables} {l : Line}
    (hc : Carries heights base (e.heights 0 ++ [1])) (hlt : base + e.size < size)
    (hl : heights (base + e.size) = 1 → l.instr.Agrees heights size (base + e.size)) :
    Agree heights size base ((expr tag e base t).1 ++ [l]) := by
  simp only [Carries, along_append, along_singleton, Expr.length_heights] at hc
  simp only [Agree, along_append, along_singleton, length_expr]
  exact ⟨agree_expr e t hc.1 hc.2 hlt, hl hc.2⟩

theorem agree_tested {test : Expr} {body : List Stmt} {rest : Choice} {base : Nat} {t : Tables}
    {inner others : List Line} {span : Span}
    (hc : Carries heights base
      (test.heights 0 ++ 1 :: (Stmt.allHeights body ++ 0 :: rest.heights)))
    (hexit : heights (base + test.size + 1 + Stmt.totalSize body + 1 + rest.size) = 0)
    (hlt : base + test.size + 1 + Stmt.totalSize body + 1 + rest.size < size)
    (hinner : inner.length = Stmt.totalSize body) (hothers : others.length = rest.size)
    (hbody : Carries heights (base + test.size + 1) (Stmt.allHeights body) →
      heights (base + test.size + 1 + Stmt.totalSize body) = 0 →
      Agree heights size (base + test.size + 1) inner)
    (hrest : Carries heights (base + test.size + 1 + Stmt.totalSize body + 1) rest.heights →
      Agree heights size (base + test.size + 1 + Stmt.totalSize body + 1) others) :
    Agree heights size base ((expr tag test base t).1 ++
      line .popJumpIfFalse (base + test.size + 1 + Stmt.totalSize body + 1) tag ::
        (inner ++ line .jump (base + test.size + 1 + Stmt.totalSize body + 1 + rest.size) span ::
          others)) := by
  simp only [Carries, along_append, along_cons, Expr.length_heights, Stmt.length_allHeights] at hc
  obtain ⟨htest, hjump, hb, hleave, hr⟩ := hc
  simp only [Agree, along_append, along_cons, length_expr, hinner]
  refine ⟨agree_expr test t htest hjump (by omega), ?_, hbody hb hleave, ?_, hrest hr⟩
  · exact .of_branch (by simp [Instr.needs, line, hjump]) (by simp [line])
      (by simp [Instr.successors, line, hjump]) (by omega) (height_stmts hb hleave)
      (by simp only [line]; omega) (height_choice hr hexit)
  · refine ⟨Nat.zero_le _, by simp [line], fun q hq => ?_⟩
    simp only [Instr.successors, line, List.mem_singleton] at hq
    subst hq
    exact ⟨hlt, hleave.trans hexit.symm⟩

mutual

theorem agree_stmt {file : String} {inFunction : Bool} : ∀ {st : Stmt} {base : Nat} {t : Tables}
    {r : List Line × Tables}, stmt file inFunction st base t = .ok r →
    Carries heights base st.heights → heights (base + st.size) = 0 → base + st.size < size →
    Agree heights size base r.1
  | .assign _ value span, base, t, _, h, hc, hexit, hlt => by
    cases h
    refine agree_used hc (Nat.lt_of_succ_lt hlt) fun hone => ?_
    exact .of_next (by simp [Instr.needs, line, hone]) (by simp [line])
      (by simp [Instr.successors, line, hone]) hlt hexit
  | .expr e, base, t, _, h, hc, hexit, hlt => by
    cases h
    refine agree_used hc (Nat.lt_of_succ_lt hlt) fun hone => ?_
    exact .of_next (by simp [Instr.needs, line, hone]) (by simp [line])
      (by simp [Instr.successors, line, hone]) hlt hexit
  | .pass _, base, t, _, h, hc, hexit, hlt => by
    cases h
    have hbase : heights base = 0 := hc 0 0 rfl
    exact along_singleton.2 (.of_next (Nat.zero_le _) (by simp [line])
      (by simp [Instr.successors, line, hbase]) hlt hexit)
  | .ret value span, base, t, _, h, hc, hexit, hlt => by
    rw [stmt] at h
    split at h <;> cases h
    refine agree_used hc (Nat.lt_of_succ_lt hlt) fun hone => ?_
    exact ⟨by simp [Instr.needs, line, hone], fun _ => hone, by simp [Instr.successors, line]⟩
  | .loop test header body, base, t, _, h, hc, hexit, hlt => by
    obtain ⟨r, hr, h⟩ := exists_of_bind_eq_ok h
    cases h
    have hstart : heights base = 0 := height_stmt hc
    simp only [Stmt.size, ← Nat.add_assoc] at hexit hlt
    simp only [Carries, Stmt.heights, along_append, along_cons, along_nil, and_true,
      Expr.length_heights, Stmt.length_allHeights] at hc
    obtain ⟨htest, hjump, hb, hback⟩ := hc
    simp only [length_expr] at hr
    simp only [Agree, along_append, along_cons, along_nil, and_true, length_expr, length_stmts hr]
    refine ⟨agree_expr test t htest hjump (by omega), ?_, agree_stmts hr hb hback (by omega), ?_⟩
    · exact .of_branch (by simp [Instr.needs, line, hjump]) (by simp [line])
        (by simp [Instr.successors, line, hjump]) (by omega) (height_stmts hb hback) hlt hexit
    · refine ⟨Nat.zero_le _, by simp [line], fun q hq => ?_⟩
      simp only [Instr.successors, line, List.mem_singleton] at hq
      subst hq
      exact ⟨by simp only; omega, hback.trans hstart.symm⟩
  | .choose test header body rest, base, t, _, h, hc, hexit, hlt => by
    obtain ⟨r, hr, h⟩ := exists_of_bind_eq_ok h
    obtain ⟨q, hq, h⟩ := exists_of_bind_eq_ok h
    cases h
    simp only [Stmt.size, ← Nat.add_assoc] at hexit hlt
    simp only [length_expr, length_stmts hr, length_choice hq] at hr hq ⊢
    exact agree_tested hc hexit hlt (length_stmts hr) (length_choice hq)
      (fun hb hleave => agree_stmts hr hb hleave (by omega))
      (fun hrest => agree_choice hq hrest hexit hlt)
  | .define _ _ _ _, base, t, _, h, hc, hexit, hlt => by
    obtain ⟨r, hr, h⟩ := exists_of_bind_eq_ok h
    cases h
    have hbase : heights base = 0 := hc 0 0 rfl
    have hone : heights (base + 1) = 1 := hc 1 1 rfl
    refine along_cons.2 ⟨?_, along_singleton.2 ?_⟩
    · exact .of_next (Nat.zero_le _) (by simp [line]) (by simp [Instr.successors, line, hbase])
        (Nat.lt_of_succ_lt hlt) hone
    · exact .of_next (by simp [Instr.needs, line, hone]) (by simp [line])
        (by simp [Instr.successors, line, hone]) hlt hexit

theorem agree_choice {file : String} {inFunction : Bool} : ∀ {c : Choice} {base : Nat}
    {t : Tables} {r : List Line × Tables}, choice file inFunction c base t = .ok r →
    Carries heights base c.heights → heights (base + c.size) = 0 → base + c.size < size →
    Agree heights size base r.1
  | .branch test header body rest, base, t, _, h, hc, hexit, hlt => by
    obtain ⟨r, hr, h⟩ := exists_of_bind_eq_ok h
    obtain ⟨q, hq, h⟩ := exists_of_bind_eq_ok h
    cases h
    simp only [Choice.size, ← Nat.add_assoc] at hexit hlt
    simp only [length_expr, length_stmts hr, length_choice hq] at hr hq ⊢
    exact agree_tested hc hexit hlt (length_stmts hr) (length_choice hq)
      (fun hb hleave => agree_stmts hr hb hleave (by omega))
      (fun hrest => agree_choice hq hrest hexit hlt)
  | .otherwise body, base, t, r, h, hc, hexit, hlt => by
    have h : stmts file inFunction body base t = .ok r := h
    exact agree_stmts h hc hexit hlt

theorem agree_stmts {file : String} {inFunction : Bool} : ∀ {sts : List Stmt} {base : Nat}
    {t : Tables} {r : List Line × Tables}, stmts file inFunction sts base t = .ok r →
    Carries heights base (Stmt.allHeights sts) → heights (base + Stmt.totalSize sts) = 0 →
    base + Stmt.totalSize sts < size → Agree heights size base r.1
  | [], _, _, _, h, _, _, _ => by
    cases h
    exact along_nil
  | st :: sts, base, t, _, h, hc, hexit, hlt => by
    obtain ⟨r, hr, h⟩ := exists_of_bind_eq_ok h
    obtain ⟨q, hq, h⟩ := exists_of_bind_eq_ok h
    cases h
    simp only [Carries, Stmt.allHeights, along_append, Stmt.length_heights] at hc
    simp only [Stmt.totalSize, ← Nat.add_assoc] at hexit hlt
    simp only [Agree, along_append, length_stmt hr]
    rw [length_stmt hr] at hq
    exact ⟨agree_stmt hr hc.1 (height_stmts hc.2 hexit) (by omega),
      agree_stmts hq hc.2 hexit hlt⟩

end

mutual

theorem height_starts_stmt : ∀ {st : Stmt} {base pc : Nat}, Carries heights base st.heights →
    heights (base + st.size) = 0 → pc ∈ st.starts base → heights pc = 0
  | .assign _ _ _, _, _, hc, _, hpc => List.mem_singleton.1 hpc ▸ height_stmt hc
  | .expr _, _, _, hc, _, hpc => List.mem_singleton.1 hpc ▸ height_stmt hc
  | .pass _, _, _, hc, _, hpc => List.mem_singleton.1 hpc ▸ height_stmt hc
  | .ret _ _, _, _, hc, _, hpc => List.mem_singleton.1 hpc ▸ height_stmt hc
  | .define _ _ _ _, _, _, hc, _, hpc => List.mem_singleton.1 hpc ▸ height_stmt hc
  | .loop test _ body, base, pc, hc, hexit, hpc => by
    have hstart : heights base = 0 := height_stmt hc
    simp only [Carries, Stmt.heights, along_append, along_cons, Expr.length_heights,
      Stmt.length_allHeights] at hc
    obtain ⟨-, -, hb, hback, -⟩ := hc
    rcases List.mem_cons.1 hpc with rfl | hpc
    · exact hstart
    · exact height_starts_stmts hb hback hpc
  | .choose test _ body rest, base, pc, hc, hexit, hpc => by
    have hstart : heights base = 0 := height_stmt hc
    simp only [Stmt.size, ← Nat.add_assoc] at hexit
    simp only [Carries, Stmt.heights, along_append, along_cons, Expr.length_heights,
      Stmt.length_allHeights] at hc
    obtain ⟨-, -, hb, hleave, hr⟩ := hc
    simp only [Stmt.starts, List.cons_append, List.mem_cons, List.mem_append] at hpc
    rcases hpc with rfl | hpc | hpc
    · exact hstart
    · exact height_starts_stmts hb hleave hpc
    · exact height_starts_choice hr hexit hpc

theorem height_starts_choice : ∀ {c : Choice} {base pc : Nat}, Carries heights base c.heights →
    heights (base + c.size) = 0 → pc ∈ c.starts base → heights pc = 0
  | .branch test _ body rest, base, pc, hc, hexit, hpc => by
    simp only [Choice.size, ← Nat.add_assoc] at hexit
    simp only [Carries, Choice.heights, along_append, along_cons, Expr.length_heights,
      Stmt.length_allHeights] at hc
    obtain ⟨-, -, hb, hleave, hr⟩ := hc
    rcases List.mem_append.1 hpc with hpc | hpc
    · exact height_starts_stmts hb hleave hpc
    · exact height_starts_choice hr hexit hpc
  | .otherwise body, base, _, hc, hexit, hpc => by
    have hc : Carries heights base (Stmt.allHeights body) := hc
    exact height_starts_stmts hc hexit hpc

theorem height_starts_stmts : ∀ {sts : List Stmt} {base pc : Nat},
    Carries heights base (Stmt.allHeights sts) → heights (base + Stmt.totalSize sts) = 0 →
    pc ∈ Stmt.allStarts sts base → heights pc = 0
  | [], _, _, _, _, hpc => nomatch hpc
  | st :: sts, base, pc, hc, hexit, hpc => by
    simp only [Carries, Stmt.allHeights, along_append, Stmt.length_heights] at hc
    simp only [Stmt.totalSize, ← Nat.add_assoc] at hexit
    rcases List.mem_append.1 hpc with hpc | hpc
    · exact height_starts_stmt hc.1 (height_stmts hc.2 hexit) hpc
    · exact height_starts_stmts hc.2 hexit hpc

end

end Agree

end Stepwise.Code
