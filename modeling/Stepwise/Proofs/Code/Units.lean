import Stepwise.Proofs.Code.Heights

/-! The units of a compiled text: the chunk of the module and those of the functions in it, each
of them the code object of a definition in the body of another. Every one of them is well formed,
since it was compiled from a body, and the tables that it refers to were filled on the way. -/

namespace Stepwise.Source

mutual

def Stmt.bodies : Stmt → List (List Stmt)
  | .choose _ _ body rest => Stmt.allBodies body ++ rest.bodies
  | .loop _ _ body => Stmt.allBodies body
  | .define _ _ _ body => [body]
  | .assign _ _ _ => []
  | .expr _ => []
  | .ret _ _ => []
  | .pass _ => []

def Choice.bodies : Choice → List (List Stmt)
  | .branch _ _ body rest => Stmt.allBodies body ++ rest.bodies
  | .otherwise body => Stmt.allBodies body

def Stmt.allBodies : List Stmt → List (List Stmt)
  | [] => []
  | st :: sts => st.bodies ++ Stmt.allBodies sts

end

/-- A body of a tree: the tree itself, or that of a definition in a body of it. -/
inductive IsBody (tree : List Stmt) : List Stmt → Prop
  | self : IsBody tree tree
  | nested {body inner : List Stmt} (h : IsBody tree body) (hi : inner ∈ Stmt.allBodies body) :
    IsBody tree inner

mutual

theorem Stmt.Proper.bodies : ∀ {st : Stmt}, st.Proper → ∀ body ∈ st.bodies, Stmt.AllProper body
  | .choose _ _ _ _, h, b, hb => (List.mem_append.1 hb).elim
    (Stmt.AllProper.bodies h.2.1 b) (Choice.Proper.bodies h.2.2 b)
  | .loop _ _ _, h, b, hb => Stmt.AllProper.bodies h.2 b hb
  | .define _ _ _ _, h, _, hb => List.mem_singleton.1 hb ▸ h.2
  | .assign _ _ _, _, _, hb => nomatch hb
  | .expr _, _, _, hb => nomatch hb
  | .ret _ _, _, _, hb => nomatch hb
  | .pass _, _, _, hb => nomatch hb

theorem Choice.Proper.bodies : ∀ {c : Choice}, c.Proper → ∀ body ∈ c.bodies, Stmt.AllProper body
  | .branch _ _ _ _, h, b, hb => (List.mem_append.1 hb).elim
    (Stmt.AllProper.bodies h.2.1 b) (Choice.Proper.bodies h.2.2 b)
  | .otherwise _, h, b, hb => Stmt.AllProper.bodies h b hb

theorem Stmt.AllProper.bodies : ∀ {sts : List Stmt}, Stmt.AllProper sts →
    ∀ body ∈ Stmt.allBodies sts, Stmt.AllProper body
  | [], _, _, hb => nomatch hb
  | _ :: _, h, b, hb => (List.mem_append.1 hb).elim (h.1.bodies b) (Stmt.AllProper.bodies h.2 b)

end

theorem IsBody.proper {tree body : List Stmt} (h : IsBody tree body) (ht : Stmt.AllProper tree) :
    Stmt.AllProper body := by
  induction h with
  | self => exact ht
  | nested _ hi ih => exact ih.bodies _ hi

end Stepwise.Source

namespace Stepwise.Code

open Source

def Compiles (file : String) (inFunction : Bool) (body : List Stmt) (chunk : Chunk) : Prop :=
  ∃ name firstLine params inner t, stmts file inFunction body 0 .empty = .ok (inner, t) ∧
    chunk = assemble file name firstLine params (inner ++ (close body t).1) (close body t).2

/-- A unit of a chunk: the chunk itself, or a unit of one of its code objects. -/
inductive IsUnit (chunk : Chunk) : Chunk → Prop
  | self : IsUnit chunk chunk
  | nested {u inner : Chunk} {i n : Nat} (h : IsUnit chunk u)
      (hi : u.constants[i]? = some (.code n inner)) : IsUnit chunk inner

namespace Tables

variable {t u : Tables} {i : Instr}

theorem exists_constant (t : Tables) (v : Value) :
    ∃ w, (t.constant v).2.constants[(t.constant v).1]? = some w := by
  unfold constant
  split
  · next i hi =>
    obtain ⟨hlt, -⟩ := Array.findIdx?_eq_some_iff_getElem.1 hi
    exact ⟨_, Array.getElem?_eq_getElem hlt⟩
  · exact ⟨v, by simp⟩

theorem getElem?_constant_code (t : Tables) (n : Nat) (c : Chunk) :
    (t.constant (.code n c)).2.constants[(t.constant (.code n c)).1]? = some (.code n c) := by
  unfold constant
  split
  · next i hi =>
    obtain ⟨hlt, hsame, -⟩ := Array.findIdx?_eq_some_iff_getElem.1 hi
    generalize t.constants[i] = w at hsame
    cases w <;> simp [sameConstant] at hsame
  · simp

theorem Le.refers (h : t.Le u) (hi : i.Refers t) : i.Refers u := by
  obtain ⟨op, arg⟩ := i
  have hconstants : arg < t.constants.size → arg < u.constants.size := fun hlt =>
    (Array.getElem?_eq_some_iff.1 (h.constants arg _ (Array.getElem?_eq_getElem hlt))).1
  have hnames : arg < t.names.size → arg < u.names.size := fun hlt =>
    (Array.getElem?_eq_some_iff.1 (h.names arg _ (Array.getElem?_eq_getElem hlt))).1
  cases op with
  | loadConst => exact hconstants hi
  | loadName => exact hnames hi
  | storeName => exact hnames hi
  | makeFunction =>
    obtain ⟨n, inner, hget⟩ := hi
    exact ⟨n, inner, h.constants _ _ hget⟩
  | _ => exact hi

theorem refers_loadConst (t : Tables) (v : Value) :
    Instr.Refers (t.constant v).2 ⟨.loadConst, (t.constant v).1⟩ := by
  obtain ⟨w, hw⟩ := t.exists_constant v
  exact (Array.getElem?_eq_some_iff.1 hw).1

theorem refers_name (t : Tables) (word : String) {op : Opcode}
    (hop : op = .loadName ∨ op = .storeName) :
    Instr.Refers (t.name word).2 ⟨op, (t.name word).1⟩ := by
  have hlt := (Array.getElem?_eq_some_iff.1 (t.getElem?_name word)).1
  obtain rfl | rfl := hop <;> exact hlt

def Holds (P : Chunk → Prop) (t : Tables) : Prop :=
  ∀ (i n : Nat) (c : Chunk), t.constants[i]? = some (.code n c) → P c

end Tables

def Refer (r : List Line × Tables) : Prop :=
  ∀ l ∈ r.1, l.instr.Refers r.2

section Refer

variable {lines more : List Line} {t u : Tables} {l : Line}

theorem Refer.append (h : Refer (lines, t)) (ht : t.Le u) (hmore : Refer (more, u)) :
    Refer (lines ++ more, u) := by
  intro l hl
  rcases List.mem_append.1 hl with hl | hl
  · exact ht.refers (h l hl)
  · exact hmore l hl

theorem refer_singleton (h : l.instr.Refers t) : Refer ([l], t) := by
  intro x hx
  rw [List.mem_singleton.1 hx]
  exact h

theorem Refer.concat (h : Refer (lines, t)) (hl : l.instr.Refers t) : Refer (lines ++ [l], t) :=
  h.append (.refl t) (refer_singleton hl)

theorem Refer.cons (h : Refer (lines, t)) (hl : l.instr.Refers t) : Refer (l :: lines, t) :=
  (refer_singleton hl).append (.refl t) h

mutual

theorem refer_expr (tag : Span) : ∀ (e : Expr) (base : Nat) (t : Tables), e.Proper →
    Refer (expr tag e base t)
  | .literal _ _, _, t, _ => refer_singleton (t.refers_loadConst _)
  | .name w _, _, t, _ => refer_singleton (t.refers_name w (.inl rfl))
  | .unary op e _, base, t, h =>
    (refer_expr tag e base t h).concat
      (List.getElem?_eq_some_iff.1 (unaryOps_getElem?_idxOf op)).1
  | .binary (.logic op) l r _, base, t, h =>
    (refer_expr tag l base t h.1).append (grows_expr tag r _ _ h.2).le
      ((refer_expr tag r _ _ h.2).cons (by cases op <;> trivial))
  | .binary (.arith op) l r _, base, t, h =>
    ((refer_expr tag l base t h.1).append (grows_expr tag r _ _ h.2).le
      (refer_expr tag r _ _ h.2)).concat
      (List.getElem?_eq_some_iff.1 (arithOps_getElem?_idxOf op)).1
  | .binary (.compare op) l r _, base, t, h =>
    ((refer_expr tag l base t h.1).append (grows_expr tag r _ _ h.2).le
      (refer_expr tag r _ _ h.2)).concat
      (List.getElem?_eq_some_iff.1 (compareOps_getElem?_idxOf op)).1
  | .call f args _, base, t, h =>
    (((refer_expr tag f (base + 1) t h.1).cons (by trivial)).append
      (grows_exprs tag args _ _ h.2).le (refer_exprs tag args _ _ h.2)).concat trivial

theorem refer_exprs (tag : Span) : ∀ (es : List Expr) (base : Nat) (t : Tables),
    Expr.AllProper es → Refer (exprs tag es base t)
  | [], _, _, _ => fun _ h => nomatch h
  | e :: es, base, t, h =>
    (refer_expr tag e base t h.1).append (grows_exprs tag es _ _ h.2).le
      (refer_exprs tag es _ _ h.2)

end

theorem refer_tested {test : Expr} {base next stop : Nat} {inner others : List Line}
    {tag span : Span} {t u v : Tables} (htest : test.Proper) (hu : (expr tag test base t).2.Le u)
    (hinner : Refer (inner, u)) (hv : u.Le v) (hothers : Refer (others, v)) :
    Refer ((expr tag test base t).1 ++ line .popJumpIfFalse next tag ::
      (inner ++ line .jump stop span :: others), v) :=
  (refer_expr tag test base t htest).append (hu.trans hv)
    ((hinner.append hv (hothers.cons (by trivial))).cons (by trivial))

mutual

theorem refer_stmt {file : String} {inFunction : Bool} : ∀ {st : Stmt} {base : Nat} {t : Tables}
    {r : List Line × Tables}, st.Proper → stmt file inFunction st base t = .ok r → Refer r
  | .assign target value span, base, t, _, hp, h => by
    cases h
    exact (refer_expr span value base t hp).append (Tables.le_name _ _)
      (refer_singleton (Tables.refers_name _ _ (.inr rfl)))
  | .expr e, base, t, _, hp, h => by
    cases h
    exact (refer_expr e.span e base t hp).concat trivial
  | .pass _, _, _, _, _, h => by
    cases h
    exact refer_singleton trivial
  | .ret none span, base, t, _, hp, h => by
    rw [stmt] at h
    split at h <;> cases h
    exact (refer_singleton (t.refers_loadConst _)).concat trivial
  | .ret (some value) span, base, t, _, hp, h => by
    rw [stmt] at h
    split at h <;> cases h
    exact (refer_expr span value base t (hp value rfl)).concat trivial
  | .loop test header body, base, t, _, hp, h => by
    obtain ⟨r, hr, h⟩ := exists_of_bind_eq_ok h
    cases h
    exact (refer_expr header test base t hp.1).append (grows_stmts hp.2 hr).le
      (((refer_stmts hp.2 hr).concat (by trivial)).cons (by trivial))
  | .choose test header body rest, base, t, _, hp, h => by
    obtain ⟨r, hr, h⟩ := exists_of_bind_eq_ok h
    obtain ⟨q, hq, h⟩ := exists_of_bind_eq_ok h
    cases h
    exact refer_tested hp.1 (grows_stmts hp.2.1 hr).le (refer_stmts hp.2.1 hr)
      (grows_choice hp.2.2 hq).le (refer_choice hp.2.2 hq)
  | .define name params header body, base, t, _, hp, h => by
    obtain ⟨r, hr, h⟩ := exists_of_bind_eq_ok h
    cases h
    refine (refer_singleton ?_).append (Tables.le_name _ _)
      (refer_singleton (Tables.refers_name _ _ (.inr rfl)))
    exact ⟨0, _, t.getElem?_constant_code 0 _⟩

theorem refer_choice {file : String} {inFunction : Bool} : ∀ {c : Choice} {base : Nat} {t : Tables}
    {r : List Line × Tables}, c.Proper → choice file inFunction c base t = .ok r → Refer r
  | .branch test header body rest, base, t, _, hp, h => by
    obtain ⟨r, hr, h⟩ := exists_of_bind_eq_ok h
    obtain ⟨q, hq, h⟩ := exists_of_bind_eq_ok h
    cases h
    exact refer_tested hp.1 (grows_stmts hp.2.1 hr).le (refer_stmts hp.2.1 hr)
      (grows_choice hp.2.2 hq).le (refer_choice hp.2.2 hq)
  | .otherwise body, base, t, r, hp, h => by
    have hp : Stmt.AllProper body := hp
    exact refer_stmts hp h

theorem refer_stmts {file : String} {inFunction : Bool} : ∀ {sts : List Stmt} {base : Nat}
    {t : Tables} {r : List Line × Tables}, Stmt.AllProper sts →
    stmts file inFunction sts base t = .ok r → Refer r
  | [], _, _, _, _, h => by
    cases h
    exact fun _ h => nomatch h
  | st :: sts, base, t, _, hp, h => by
    obtain ⟨r, hr, h⟩ := exists_of_bind_eq_ok h
    obtain ⟨q, hq, h⟩ := exists_of_bind_eq_ok h
    cases h
    exact (refer_stmt hp.1 hr).append (grows_stmts hp.2 hq).le (refer_stmts hp.2 hq)

end

end Refer

/-! The code objects of a body are those of the definitions in it. -/

section Definitions

variable {P : Chunk → Prop} {t : Tables}

theorem Tables.Holds.constant (ht : t.Holds P) {v : Value}
    (hv : ∀ n c, v = .code n c → P c) : (t.constant v).2.Holds P := by
  unfold Tables.constant
  split
  · exact ht
  · intro i n c h
    rw [Array.getElem?_push] at h
    split at h
    · exact hv n c (Option.some.inj h)
    · exact ht i n c h

theorem Tables.Holds.literal (ht : t.Holds P) (l : Literal) :
    (t.constant (.ofLiteral l)).2.Holds P :=
  ht.constant fun n c h => by cases l <;> cases h

theorem Tables.Holds.name (ht : t.Holds P) (word : String) : (t.name word).2.Holds P := by
  unfold Tables.name
  split <;> exact ht

mutual

theorem holds_expr (tag : Span) : ∀ (e : Expr) (base : Nat) {t : Tables}, t.Holds P →
    (expr tag e base t).2.Holds P
  | .literal l _, _, _, ht => ht.literal l
  | .name w _, _, _, ht => ht.name w
  | .unary _ e _, base, _, ht => holds_expr tag e base ht
  | .binary (.logic _) l r _, base, _, ht => holds_expr tag r _ (holds_expr tag l base ht)
  | .binary (.arith _) l r _, base, _, ht => holds_expr tag r _ (holds_expr tag l base ht)
  | .binary (.compare _) l r _, base, _, ht => holds_expr tag r _ (holds_expr tag l base ht)
  | .call f args _, base, _, ht => holds_exprs tag args _ (holds_expr tag f (base + 1) ht)

theorem holds_exprs (tag : Span) : ∀ (es : List Expr) (base : Nat) {t : Tables}, t.Holds P →
    (exprs tag es base t).2.Holds P
  | [], _, _, ht => ht
  | e :: es, base, _, ht => holds_exprs tag es _ (holds_expr tag e base ht)

end

def FromBody (file : String) (bodies : List (List Stmt)) (chunk : Chunk) : Prop :=
  ∃ body ∈ bodies, Compiles file true body chunk

theorem forall_fromBody_append {file : String} {bs cs : List (List Stmt)} :
    (∀ c, FromBody file (bs ++ cs) c → P c) ↔
      (∀ c, FromBody file bs c → P c) ∧ ∀ c, FromBody file cs c → P c := by
  simp only [FromBody, List.mem_append, or_and_right, exists_or, or_imp, forall_and]

mutual

theorem holds_stmt {file : String} {inFunction : Bool} : ∀ {st : Stmt} {base : Nat} {t : Tables}
    {r : List Line × Tables}, stmt file inFunction st base t = .ok r →
    (∀ c, FromBody file st.bodies c → P c) → t.Holds P → r.2.Holds P
  | .assign target value span, base, t, _, h, _, ht => by
    cases h
    exact (holds_expr span value base ht).name target
  | .expr e, base, t, _, h, _, ht => by
    cases h
    exact holds_expr e.span e base ht
  | .pass _, _, _, _, h, _, ht => by
    cases h
    exact ht
  | .ret value span, base, t, _, h, _, ht => by
    rw [stmt] at h
    split at h <;> cases h
    exact holds_expr span _ base ht
  | .loop test header body, base, t, _, h, hb, ht => by
    obtain ⟨r, hr, h⟩ := exists_of_bind_eq_ok h
    have hbody := holds_stmts hr hb (holds_expr header test base ht)
    cases h
    exact hbody
  | .choose test header body rest, base, t, _, h, hb, ht => by
    obtain ⟨r, hr, h⟩ := exists_of_bind_eq_ok h
    obtain ⟨q, hq, h⟩ := exists_of_bind_eq_ok h
    obtain ⟨hbody, hrest⟩ := forall_fromBody_append.1 hb
    have hchoice := holds_choice hq hrest (holds_stmts hr hbody (holds_expr header test base ht))
    cases h
    exact hchoice
  | .define name params header body, base, t, _, h, hb, ht => by
    obtain ⟨r, hr, h⟩ := exists_of_bind_eq_ok h
    cases h
    refine Tables.Holds.name (ht.constant fun n c hc => hb c ?_) name
    cases hc
    exact ⟨body, List.mem_singleton.2 rfl, name, header.line, params, r.1, r.2, hr, rfl⟩

theorem holds_choice {file : String} {inFunction : Bool} : ∀ {c : Choice} {base : Nat} {t : Tables}
    {r : List Line × Tables}, choice file inFunction c base t = .ok r →
    (∀ d, FromBody file c.bodies d → P d) → t.Holds P → r.2.Holds P
  | .branch test header body rest, base, t, _, h, hb, ht => by
    obtain ⟨r, hr, h⟩ := exists_of_bind_eq_ok h
    obtain ⟨q, hq, h⟩ := exists_of_bind_eq_ok h
    obtain ⟨hbody, hrest⟩ := forall_fromBody_append.1 hb
    have hchoice := holds_choice hq hrest (holds_stmts hr hbody (holds_expr header test base ht))
    cases h
    exact hchoice
  | .otherwise body, base, t, r, h, hb, ht => by
    have h : stmts file inFunction body base t = .ok r := h
    exact holds_stmts h hb ht

theorem holds_stmts {file : String} {inFunction : Bool} : ∀ {sts : List Stmt} {base : Nat}
    {t : Tables} {r : List Line × Tables}, stmts file inFunction sts base t = .ok r →
    (∀ c, FromBody file (Stmt.allBodies sts) c → P c) → t.Holds P → r.2.Holds P
  | [], _, _, _, h, _, ht => by
    cases h
    exact ht
  | st :: sts, base, t, _, h, hb, ht => by
    obtain ⟨r, hr, h⟩ := exists_of_bind_eq_ok h
    obtain ⟨q, hq, h⟩ := exists_of_bind_eq_ok h
    obtain ⟨hfirst, hrest⟩ := forall_fromBody_append.1 hb
    have hothers := holds_stmts hq hrest (holds_stmt hr hfirst ht)
    cases h
    exact hothers

end

end Definitions

/-! Every unit. -/

section Compiles

variable {file : String} {inFunction : Bool} {body : List Stmt} {chunk : Chunk}

def bodyHeights (body : List Stmt) (pc : Nat) : Nat :=
  (Stmt.allHeights body ++ [0, 1])[pc]?.getD 0

theorem carries_bodyHeights (body : List Stmt) :
    Carries (bodyHeights body) 0 (Stmt.allHeights body) ∧
      bodyHeights body (Stmt.totalSize body) = 0 ∧
      bodyHeights body (Stmt.totalSize body + 1) = 1 := by
  have hc : Carries (bodyHeights body) 0 (Stmt.allHeights body ++ [0, 1]) := by
    intro i h hi
    rw [Nat.zero_add, bodyHeights, hi, Option.getD_some]
  simpa only [Carries, along_append, along_cons, along_nil, and_true, Stmt.length_allHeights,
    Nat.zero_add] using hc

theorem Compiles.agrees (h : Compiles file inFunction body chunk) :
    chunk.code.size = Stmt.totalSize body + 2 ∧
      ∀ (pc : Nat) (i : Instr), chunk.code[pc]? = some i →
        i.Agrees (bodyHeights body) chunk.code.size pc := by
  obtain ⟨name, firstLine, params, inner, t, hinner, rfl⟩ := h
  have hlength : inner.length = Stmt.totalSize body := length_stmts hinner
  have hsize : (assemble file name firstLine params (inner ++ (close body t).1)
      (close body t).2).code.size = Stmt.totalSize body + 2 := by
    simp [assemble, close, hlength]
  obtain ⟨hbody, hzero, hone⟩ := carries_bodyHeights body
  have hall : Agree (bodyHeights body) (Stmt.totalSize body + 2) 0 (inner ++ (close body t).1) := by
    simp only [Agree, close, along_append, along_cons, along_nil, and_true, hlength, Nat.zero_add]
    refine ⟨agree_stmts hinner hbody (by rw [Nat.zero_add, hzero]) (by omega), ?_, ?_⟩
    · exact .of_next (Nat.zero_le _) (by simp) (by simp [Instr.successors, hzero]) (by omega) hone
    · exact ⟨by simp [Instr.needs, hone], fun _ => hone, by simp [Instr.successors]⟩
  refine ⟨hsize, fun pc i hi => ?_⟩
  rw [hsize]
  simp only [assemble, List.getElem?_toArray, List.getElem?_map, Option.map_eq_some_iff] at hi
  obtain ⟨l, hl, rfl⟩ := hi
  have := hall pc l hl
  rwa [Nat.zero_add] at this

theorem Compiles.refers (hp : Stmt.AllProper body) (h : Compiles file inFunction body chunk)
    {pc : Nat} {i : Instr} (hi : chunk.code[pc]? = some i) : i.Refers (.ofChunk chunk) := by
  obtain ⟨name, firstLine, params, inner, t, hinner, rfl⟩ := h
  have hclose : Refer (close body t) :=
    Refer.concat (refer_singleton (t.refers_loadConst _)) trivial
  have hall := (refer_stmts hp hinner).append (t.le_constant .none) hclose
  simp only [assemble, List.getElem?_toArray, List.getElem?_map, Option.map_eq_some_iff] at hi
  obtain ⟨l, hl, rfl⟩ := hi
  exact hall l (List.mem_of_getElem? hl)

theorem Compiles.isConstant (hp : Stmt.AllProper body) (h : Compiles file inFunction body chunk)
    {i : Nat} {v : Value} (hi : chunk.constants[i]? = some v) : IsConstant v := by
  obtain ⟨name, firstLine, params, inner, t, hinner, rfl⟩ := h
  have ht := (grows_stmts hp hinner).proper .empty
  exact ht.constant (.literal (l := .none) trivial) i v hi

theorem Compiles.nested (h : Compiles file inFunction body chunk) {i n : Nat} {c : Chunk}
    (hi : chunk.constants[i]? = some (.code n c)) : FromBody file (Stmt.allBodies body) c := by
  obtain ⟨name, firstLine, params, inner, t, hinner, rfl⟩ := h
  have hempty : Tables.empty.Holds (FromBody file (Stmt.allBodies body)) := fun i n c h => by
    simp [Tables.empty] at h
  exact (holds_stmts hinner (fun _ hc => hc) hempty).literal .none i n c hi

theorem Compiles.height_eq (h : Compiles file inFunction body chunk) {pc height : Nat}
    (hr : Reaches chunk pc height) : pc < chunk.code.size ∧ height = bodyHeights body pc := by
  obtain ⟨hsize, hall⟩ := h.agrees
  obtain ⟨hbody, hzero, -⟩ := carries_bodyHeights body
  exact hr.height_eq (height_stmts hbody (by rw [Nat.zero_add, hzero])) (by omega) hall

theorem Compiles.wellFormed (hp : Stmt.AllProper body)
    (h : Compiles file inFunction body chunk) : WellFormed chunk := by
  refine ⟨?_, fun pc i hi => h.refers hp hi, fun pc i hi hj => (h.agrees.2 pc i hi).arg_lt hj, ?_,
    fun pc height hr => ?_, fun pc height height' hr hr' => ?_⟩
  · obtain ⟨name, firstLine, params, inner, t, -, rfl⟩ := h
    simp [assemble]
  · obtain ⟨name, firstLine, params, inner, t, -, rfl⟩ := h
    exact ⟨⟨.returnValue, 0⟩, by simp [assemble, close], rfl⟩
  · obtain ⟨hlt, rfl⟩ := h.height_eq hr
    have hi := Array.getElem?_eq_getElem hlt
    have hagrees := h.agrees.2 _ _ hi
    exact ⟨_, hi, hagrees.needs, hagrees.returns⟩
  · rw [(h.height_eq hr).2, (h.height_eq hr').2]

theorem Compiles.starts (h : Compiles file inFunction body chunk) {pc height : Nat}
    (hpc : pc ∈ Stmt.allStarts body 0) (hr : Reaches chunk pc height) : height = 0 := by
  obtain ⟨hbody, hzero, -⟩ := carries_bodyHeights body
  rw [(h.height_eq hr).2]
  exact height_starts_stmts hbody (by rw [Nat.zero_add, hzero]) hpc

theorem compiles_body {text : String} {unit : Chunk} (h : compile file text = .ok chunk)
    (hu : IsUnit chunk unit) :
    ∃ tree inFunction body, parse text = .ok tree ∧ IsBody tree body ∧
      Compiles file inFunction body unit := by
  obtain ⟨tree, hparse, h⟩ := exists_of_bind_eq_ok h
  induction hu with
  | self =>
    obtain ⟨r, hr, h⟩ := exists_of_bind_eq_ok h
    cases h
    exact ⟨tree, false, tree, hparse, .self, moduleName, 1, [], r.1, r.2, hr, rfl⟩
  | nested _ hi ih =>
    obtain ⟨tree, inFunction, body, hparse, hbody, hc⟩ := ih
    obtain ⟨inner, hinner, hc⟩ := hc.nested hi
    exact ⟨tree, true, inner, hparse, .nested hbody hinner, hc⟩

theorem compiles_unit {text : String} {unit : Chunk} (h : compile file text = .ok chunk)
    (hu : IsUnit chunk unit) :
    ∃ inFunction body, Stmt.AllProper body ∧ Compiles file inFunction body unit := by
  obtain ⟨tree, inFunction, body, hparse, hbody, hc⟩ := compiles_body h hu
  exact ⟨inFunction, body, hbody.proper (proper_parse hparse), hc⟩

end Compiles

end Stepwise.Code
