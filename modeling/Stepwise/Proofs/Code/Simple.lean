import Stepwise.Proofs.Code.Roots

/-! The order in which the instructions of an expression are come to. Control goes forward through
its code and leaves it at its end, and of the calls that it begins with only the marks are pushed
before its first value is loaded. A simple root has no operator or call but the outermost, which
spans its header: so all its instructions bear the header, and a call is the last of them. -/

namespace Stepwise.Source

def Expr.isPlain : Expr → Bool
  | .literal _ _ | .name _ _ => true
  | .binary (.logic _) left right _ => left.isPlain && right.isPlain
  | _ => false

/-- No operator or call but the outermost, and that spans the header. -/
def Expr.isSimple (header : Span) : Expr → Bool
  | .unary _ e s => s = header && e.isPlain
  | .binary (.arith _) left right s => s = header && left.isPlain && right.isPlain
  | .binary (.compare _) left right s => s = header && left.isPlain && right.isPlain
  | .call f args s => s = header && f.isPlain && args.all Expr.isPlain
  | e => e.isPlain

def Expr.isCall : Expr → Bool
  | .call _ _ _ => true
  | _ => false

def Expr.marks : Expr → Nat
  | .literal _ _ | .name _ _ => 0
  | .unary _ e _ => e.marks
  | .binary _ left _ _ => left.marks
  | .call f _ _ => f.marks + 1

/-- The place of the instruction that loads the first value. -/
def Root.load (r : Root) : Nat :=
  r.base + r.value.marks

def Root.isSimple (r : Root) : Bool :=
  r.value.isSimple r.header

end Stepwise.Source

namespace Stepwise.Code

open Source

def Opcode.loads : Opcode → Bool
  | .loadConst | .loadName => true
  | _ => false

def Line.Forward (stop pc : Nat) (l : Line) : Prop :=
  l.instr.op ≠ .returnValue ∧ ∀ pc', l.instr.Leads pc pc' → pc < pc' ∧ pc' ≤ stop

section Forward

variable {tag : Span} {stop pc : Nat}

theorem forward_line {op : Opcode} {arg : Nat} (hop : op ≠ .returnValue) (hpc : pc < stop)
    (hjump : (Instr.mk op arg).isJump = true → pc < arg ∧ arg ≤ stop) :
    Line.Forward stop pc (line op arg tag) := by
  refine ⟨hop, fun pc' h => ?_⟩
  obtain rfl | ⟨hj, rfl⟩ := h.cases
  · exact ⟨Nat.lt_succ_self pc, hpc⟩
  · exact hjump hj

mutual

theorem forward_expr : ∀ (e : Expr) (base : Nat) (t : Tables), base + e.size ≤ stop →
    Along (Line.Forward stop) base (expr tag e base t).1
  | .literal _ _, base, t, h => along_singleton.2 (forward_line nofun h nofun)
  | .name _ _, base, t, h => along_singleton.2 (forward_line nofun h nofun)
  | .unary _ e _, base, t, h => by
    rw [Expr.size] at h
    refine along_append.2 ⟨forward_expr e base t (by omega), ?_⟩
    rw [along_singleton, length_expr]
    exact forward_line nofun (by omega) nofun
  | .binary (.logic op) left right _, base, t, h => by
    rw [Expr.size] at h
    refine along_append.2 ⟨forward_expr left base t (by omega), ?_⟩
    simp only [along_cons, length_expr]
    refine ⟨?_, forward_expr right _ _ (by omega)⟩
    cases op <;> exact forward_line nofun (by omega) fun _ => by omega
  | .binary (.arith _) left right _, base, t, h => by
    rw [Expr.size] at h
    refine along_append.2 ⟨along_append.2 ⟨forward_expr left base t (by omega), ?_⟩, ?_⟩
    · rw [length_expr]
      exact forward_expr right _ _ (by omega)
    · simp only [along_singleton, List.length_append, length_expr]
      exact forward_line nofun (by omega) nofun
  | .binary (.compare _) left right _, base, t, h => by
    rw [Expr.size] at h
    refine along_append.2 ⟨along_append.2 ⟨forward_expr left base t (by omega), ?_⟩, ?_⟩
    · rw [length_expr]
      exact forward_expr right _ _ (by omega)
    · simp only [along_singleton, List.length_append, length_expr]
      exact forward_line nofun (by omega) nofun
  | .call f args _, base, t, h => by
    rw [Expr.size] at h
    refine along_append.2 ⟨along_append.2 ⟨along_cons.2 ⟨?_, ?_⟩, ?_⟩, ?_⟩
    · exact forward_line nofun (by omega) nofun
    · exact forward_expr f (base + 1) t (by omega)
    · rw [List.length_cons, length_expr, Nat.add_comm f.size, ← Nat.add_assoc]
      exact forward_exprs args _ _ (by omega)
    · simp only [along_singleton, List.length_append, List.length_cons, length_expr, length_exprs]
      exact forward_line nofun (by omega) nofun

theorem forward_exprs : ∀ (es : List Expr) (base : Nat) (t : Tables),
    base + Expr.totalSize es ≤ stop → Along (Line.Forward stop) base (exprs tag es base t).1
  | [], _, _, _ => along_nil
  | e :: es, base, t, h => by
    rw [Expr.totalSize] at h
    refine along_append.2 ⟨forward_expr e base t (by omega), ?_⟩
    rw [length_expr]
    exact forward_exprs es _ _ (by omega)

end

def Begins (tag : Span) (marks : Nat) (lines : List Line) : Prop :=
  ∃ op arg rest, op.loads = true ∧
    lines = List.replicate marks (line .pushNull 0 tag) ++ line op arg tag :: rest

theorem Begins.append {n : Nat} {xs : List Line} (h : Begins tag n xs) (ys : List Line) :
    Begins tag n (xs ++ ys) := by
  obtain ⟨op, arg, rest, hop, rfl⟩ := h
  exact ⟨op, arg, rest ++ ys, hop, List.append_assoc _ _ _⟩

theorem Begins.mark {n : Nat} {xs : List Line} (h : Begins tag n xs) :
    Begins tag (n + 1) (line .pushNull 0 tag :: xs) := by
  obtain ⟨op, arg, rest, hop, rfl⟩ := h
  exact ⟨op, arg, rest, hop, rfl⟩

theorem begins_expr (t : Tables) : ∀ (base : Nat) (e : Expr),
    Begins tag e.marks (expr tag e base t).1
  | _, .literal _ _ => ⟨_, _, [], rfl, rfl⟩
  | _, .name _ _ => ⟨_, _, [], rfl, rfl⟩
  | base, .unary _ e _ => (begins_expr t base e).append _
  | base, .binary (.logic _) left _ _ => (begins_expr t base left).append _
  | base, .binary (.arith _) left _ _ => ((begins_expr t base left).append _).append _
  | base, .binary (.compare _) left _ _ => ((begins_expr t base left).append _).append _
  | base, .call f _ _ => ((begins_expr t (base + 1) f).mark.append _).append _

end Forward

def Line.Simple (header : Span) (stop pc : Nat) (l : Line) : Prop :=
  l.span = some header ∧ (l.instr.op = .call → pc + 1 = stop)

section Simple

variable {header : Span} {stop pc : Nat}

theorem simple_line {op : Opcode} (hop : op ≠ .call) (arg : Nat) :
    Line.Simple header stop pc (line op arg header) :=
  ⟨rfl, fun h => (hop h).elim⟩

theorem simple_of_isPlain : ∀ (e : Expr) (base : Nat) (t : Tables), e.isPlain = true →
    Along (Line.Simple header stop) base (expr header e base t).1
  | .literal _ _, _, _, _ => along_singleton.2 (simple_line (by decide) _)
  | .name _ _, _, _, _ => along_singleton.2 (simple_line (by decide) _)
  | .binary (.logic op) left right _, base, t, h => by
    obtain ⟨hl, hr⟩ := Bool.and_eq_true_iff.1 h
    refine along_append.2 ⟨simple_of_isPlain left base t hl, along_cons.2 ⟨?_, ?_⟩⟩
    · cases op <;> exact simple_line (by decide) _
    · rw [length_expr]
      exact simple_of_isPlain right _ _ hr

theorem simple_exprs_of_isPlain : ∀ (es : List Expr) (base : Nat) (t : Tables),
    es.all Expr.isPlain = true → Along (Line.Simple header stop) base (exprs header es base t).1
  | [], _, _, _ => along_nil
  | e :: es, base, t, h => by
    obtain ⟨he, hes⟩ := Bool.and_eq_true_iff.1 h
    refine along_append.2 ⟨simple_of_isPlain e base t he, ?_⟩
    rw [length_expr]
    exact simple_exprs_of_isPlain es _ _ hes

/-- All lines of a simple expression bear the header, and only that of the outermost call calls. -/
theorem simple_expr (e : Expr) (base : Nat) (t : Tables) (h : e.isSimple header = true)
    (hstop : e.isCall = true → stop = base + e.size) :
    Along (Line.Simple header stop) base (expr header e base t).1 := by
  cases e with
  | literal | name => exact simple_of_isPlain _ base t h
  | unary op e s =>
    obtain ⟨hs, he⟩ := Bool.and_eq_true_iff.1 h
    obtain rfl := of_decide_eq_true hs
    refine along_append.2 ⟨simple_of_isPlain e base t he, ?_⟩
    exact along_singleton.2 (simple_line (by decide) _)
  | binary op left right s =>
    cases op with
    | logic => exact simple_of_isPlain _ base t h
    | arith | compare =>
      obtain ⟨hs, hr⟩ := Bool.and_eq_true_iff.1 h
      obtain ⟨hs, hl⟩ := Bool.and_eq_true_iff.1 hs
      obtain rfl := of_decide_eq_true hs
      refine along_append.2 ⟨along_append.2 ⟨simple_of_isPlain left base t hl, ?_⟩,
        along_singleton.2 (simple_line (by decide) _)⟩
      rw [length_expr]
      exact simple_of_isPlain right _ _ hr
  | call f args s =>
    obtain ⟨hs, hargs⟩ := Bool.and_eq_true_iff.1 h
    obtain ⟨hs, hf⟩ := Bool.and_eq_true_iff.1 hs
    obtain rfl := of_decide_eq_true hs
    refine along_append.2 ⟨along_append.2 ⟨along_cons.2 ⟨?_, ?_⟩, ?_⟩, ?_⟩
    · exact simple_line (by decide) _
    · exact simple_of_isPlain f (base + 1) t hf
    · rw [List.length_cons, length_expr, Nat.add_comm f.size, ← Nat.add_assoc]
      exact simple_exprs_of_isPlain args _ _ hargs
    · refine along_singleton.2 ⟨rfl, fun _ => ?_⟩
      rw [hstop rfl]
      simp only [List.length_append, List.length_cons, length_expr, length_exprs, Expr.size]
      omega

end Simple

/-- What stands in a chunk at a place of a simple root, before the instruction that uses the value
up or at it. -/
structure Root.At (chunk : Chunk) (r : Root) (pc : Nat) (i : Instr) : Prop where
  code : chunk.code[pc]? = some i
  position : chunk.positions[pc]? = some (.ofSpan r.header)
  uses : pc = r.last → i.op.usesUp = true
  returns : pc < r.last → i.op ≠ .returnValue
  calls : i.op = .call → r.value.isCall = true ∧ pc + 1 = r.last
  leads : pc < r.last → ∀ pc', i.Leads pc pc' → pc < pc' ∧ pc' ≤ r.last

section Stands

variable {chunk : Chunk} {r : Root}

theorem Root.Stands.at (h : Root.Stands chunk r) (hr : r.isSimple = true) {pc : Nat}
    (hbase : r.base ≤ pc) (hlast : pc ≤ r.last) : ∃ i, Root.At chunk r pc i := by
  obtain ⟨t, use, huse, hlaid⟩ := h
  obtain ⟨hexpr, hlaid⟩ := laid_append.1 hlaid
  rw [length_expr] at hlaid
  have hcode : chunk.code[r.last]? = some use := stands_singleton.1 hlaid.stands
  rcases Nat.lt_or_eq_of_le hlast with hlt | rfl
  · obtain ⟨i, rfl⟩ := Nat.exists_eq_add_of_le hbase
    have hi : i < (expr r.header r.value r.base t).1.length := by
      rw [length_expr]
      exact Nat.lt_of_add_lt_add_left hlt
    obtain ⟨l, hl⟩ : ∃ l, (expr r.header r.value r.base t).1[i]? = some l :=
      ⟨_, List.getElem?_eq_getElem hi⟩
    obtain ⟨hspan, hcall⟩ := simple_expr r.value r.base t hr (fun _ => rfl) i l hl
    have hcalls : l.instr.op = .call → r.value.isCall = true := fun hop => by
      by_contra hnot
      have hzero : Along (Line.Simple r.header 0) r.base (expr r.header r.value r.base t).1 :=
        simple_expr r.value r.base t hr fun h => (hnot h).elim
      cases (hzero i l hl).2 hop
    obtain ⟨hreturn, hleads⟩ := forward_expr r.value r.base t (Nat.le_refl _) i l hl
    have hposition : chunk.positions[r.base + i]? = some (l.span.elim .unknown .ofSpan) :=
      hexpr.marked i l hl
    rw [hspan] at hposition
    exact ⟨l.instr, hexpr.stands i l hl, hposition, fun he => absurd he (Nat.ne_of_lt hlt),
      fun _ => hreturn, fun hop => ⟨hcalls hop, hcall hop⟩, fun _ => hleads⟩
  · have hcall : use.op ≠ .call := fun h => by simp [h, Opcode.usesUp] at huse
    exact ⟨use, hcode, along_singleton.1 hlaid.marked, fun _ => huse,
      fun h => absurd h (Nat.lt_irrefl _), fun h => (hcall h).elim,
      fun h => absurd h (Nat.lt_irrefl _)⟩

theorem Root.Stands.begins (h : Root.Stands chunk r) : r.load < r.last ∧
    (∀ pc, r.base ≤ pc → pc < r.load → chunk.code[pc]? = some ⟨.pushNull, 0⟩) ∧
    ∃ i, chunk.code[r.load]? = some i ∧ i.op.loads = true := by
  obtain ⟨t, use, -, hlaid⟩ := h
  obtain ⟨hexpr, -⟩ := laid_append.1 hlaid
  have hlength := length_expr r.header r.value r.base t
  obtain ⟨op, arg, rest, hop, hlines⟩ := begins_expr t r.base r.value
  rw [hlines] at hexpr hlength
  obtain ⟨hmarks, hload⟩ := laid_append.1 hexpr
  rw [List.length_replicate] at hload
  refine ⟨?_, fun pc hbase hpc => ?_, ⟨op, arg⟩, (stands_cons.1 hload.stands).1, hop⟩
  · rw [List.length_append, List.length_replicate, List.length_cons] at hlength
    rw [Root.load, Root.last]
    omega
  · obtain ⟨i, rfl⟩ := Nat.exists_eq_add_of_le hbase
    have hi : i < r.value.marks := Nat.lt_of_add_lt_add_left hpc
    exact hmarks.stands i (line .pushNull 0 r.header) (by rw [List.getElem?_replicate, if_pos hi])

end Stands

end Stepwise.Code
