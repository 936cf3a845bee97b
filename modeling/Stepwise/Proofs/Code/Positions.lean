import Stepwise.Debug.Tracer
import Stepwise.Machine.Step
import Stepwise.Proofs.Code.Roots
import Stepwise.Proofs.Source.Extent

/-! Positions of compiled code. Every instruction of a body that is not empty bears a span that
marks the text; that of an operator or a call is inside the header of the statement that it is in.
So are the faults that the compiler finds itself. -/

namespace Stepwise.Source

section Placed

variable {text : List Char}

mutual

theorem Stmt.Placed.bodies : ∀ {st : Stmt}, st.Placed text →
    ∀ body ∈ st.bodies, Stmt.AllPlaced text body
  | .choose _ _ _ _, h, b, hb => (List.mem_append.1 hb).elim
    (Stmt.AllPlaced.bodies h.2.1 b) (Choice.Placed.bodies h.2.2 b)
  | .loop _ _ _, h, b, hb => Stmt.AllPlaced.bodies h.2 b hb
  | .define _ _ _ _, h, _, hb => List.mem_singleton.1 hb ▸ h.2
  | .assign _ _ _, _, _, hb => nomatch hb
  | .expr _, _, _, hb => nomatch hb
  | .ret _ _, _, _, hb => nomatch hb
  | .pass _, _, _, hb => nomatch hb

theorem Choice.Placed.bodies : ∀ {c : Choice}, c.Placed text →
    ∀ body ∈ c.bodies, Stmt.AllPlaced text body
  | .branch _ _ _ _, h, b, hb => (List.mem_append.1 hb).elim
    (Stmt.AllPlaced.bodies h.2.1 b) (Choice.Placed.bodies h.2.2 b)
  | .otherwise _, h, b, hb => Stmt.AllPlaced.bodies h b hb

theorem Stmt.AllPlaced.bodies : ∀ {sts : List Stmt}, Stmt.AllPlaced text sts →
    ∀ body ∈ Stmt.allBodies sts, Stmt.AllPlaced text body
  | [], _, _, hb => nomatch hb
  | _ :: _, h, b, hb => (List.mem_append.1 hb).elim (h.1.bodies b) (Stmt.AllPlaced.bodies h.2 b)

end

theorem IsBody.placed {tree body : List Stmt} (h : IsBody tree body)
    (ht : Stmt.AllPlaced text tree) : Stmt.AllPlaced text body := by
  induction h with
  | self => exact ht
  | nested _ hi ih => exact ih.bodies _ hi

end Placed

end Stepwise.Source

namespace Stepwise.Code

open Source

section Marks

variable {text : List Char}

mutual

theorem marks_lastSpan : ∀ {st : Stmt}, st.Placed text → (lastSpan st).Marks text
  | .assign _ _ _, h => h.1
  | .expr _, h => h.span.1
  | .choose _ header body rest, h => by
    rw [lastSpan]
    cases hlast : lastOfChoice (lastOfBody body) rest with
    | none => exact h.1.1
    | some s =>
      exact marks_lastOfChoice h.2.2 (fun s hs => marks_lastOfBody h.2.1 s hs) s hlast
  | .loop _ _ _, h => h.1.1
  | .define _ _ _ _, h => h.1
  | .ret _ _, h => h.1
  | .pass _, h => h

theorem marks_lastOfChoice : ∀ {c : Choice} {before : Option Span}, c.Placed text →
    (∀ s ∈ before, s.Marks text) → ∀ s ∈ lastOfChoice before c, s.Marks text
  | .branch _ _ _ _, _, h, _, s, hs =>
    marks_lastOfChoice h.2.2 (fun s hs => marks_lastOfBody h.2.1 s hs) s hs
  | .otherwise body, before, h, hb, s, hs => by
    rw [lastOfChoice, Option.mem_def, Option.or_eq_some_iff] at hs
    rcases hs with hs | ⟨-, hs⟩
    · exact marks_lastOfBody h s hs
    · exact hb s hs

theorem marks_lastOfBody : ∀ {sts : List Stmt}, Stmt.AllPlaced text sts →
    ∀ s ∈ lastOfBody sts, s.Marks text
  | [], _, _, hs => nomatch hs
  | [_], h, _, hs => Option.some.inj hs ▸ marks_lastSpan h.1
  | _ :: st :: sts, h, s, hs =>
    have hrest : Stmt.AllPlaced text (st :: sts) := h.2
    marks_lastOfBody hrest s hs

end

theorem exists_lastOfBody : ∀ {sts : List Stmt}, sts ≠ [] → ∃ s, lastOfBody sts = some s
  | [], h => absurd rfl h
  | [_], _ => ⟨_, rfl⟩
  | _ :: st :: sts, _ =>
    have ⟨s, hs⟩ := exists_lastOfBody (List.cons_ne_nil st sts)
    ⟨s, hs⟩

def Line.Inside (text : List Char) (header : Span) (l : Line) : Prop :=
  ∃ span, l.span = some span ∧ span.Marks text ∧ span.Within header

mutual

theorem inside_expr {header : Span} (hh : header.Marks text) : ∀ (e : Expr) (base : Nat)
    (t : Tables), e.Placed text header → ∀ l ∈ (expr header e base t).1, l.Inside text header
  | .literal _ _, _, _, _, l, hl => List.mem_singleton.1 hl ▸ ⟨header, rfl, hh, .refl header⟩
  | .name _ _, _, _, _, l, hl => List.mem_singleton.1 hl ▸ ⟨header, rfl, hh, .refl header⟩
  | .unary _ e s, base, t, h, l, hl => by
    rcases List.mem_append.1 hl with hl | hl
    · exact inside_expr hh e base t (h.2.mono h.1.2) l hl
    · exact List.mem_singleton.1 hl ▸ ⟨s, rfl, h.1⟩
  | .binary (.logic _) left right s, base, t, h, l, hl => by
    rcases List.mem_append.1 hl with hl | hl
    · exact inside_expr hh left base t (h.2.1.mono h.1.2) l hl
    rcases List.mem_cons.1 hl with rfl | hl
    · exact ⟨header, rfl, hh, .refl header⟩
    · exact inside_expr hh right _ _ (h.2.2.mono h.1.2) l hl
  | .binary (.arith _) left right s, base, t, h, l, hl => by
    rcases List.mem_append.1 hl with hl | hl
    · rcases List.mem_append.1 hl with hl | hl
      · exact inside_expr hh left base t (h.2.1.mono h.1.2) l hl
      · exact inside_expr hh right _ _ (h.2.2.mono h.1.2) l hl
    · exact List.mem_singleton.1 hl ▸ ⟨s, rfl, h.1⟩
  | .binary (.compare _) left right s, base, t, h, l, hl => by
    rcases List.mem_append.1 hl with hl | hl
    · rcases List.mem_append.1 hl with hl | hl
      · exact inside_expr hh left base t (h.2.1.mono h.1.2) l hl
      · exact inside_expr hh right _ _ (h.2.2.mono h.1.2) l hl
    · exact List.mem_singleton.1 hl ▸ ⟨s, rfl, h.1⟩
  | .call f args s, base, t, h, l, hl => by
    rcases List.mem_append.1 hl with hl | hl
    · rcases List.mem_append.1 hl with hl | hl
      · rcases List.mem_cons.1 hl with rfl | hl
        · exact ⟨header, rfl, hh, .refl header⟩
        · exact inside_expr hh f _ t (h.2.1.mono h.1.2) l hl
      · exact inside_exprs hh args _ _ (Expr.Placed.all h.2.2 h.1.2) l hl
    · exact List.mem_singleton.1 hl ▸ ⟨s, rfl, h.1⟩

theorem inside_exprs {header : Span} (hh : header.Marks text) : ∀ (es : List Expr) (base : Nat)
    (t : Tables), Expr.AllPlaced text header es →
    ∀ l ∈ (exprs header es base t).1, l.Inside text header
  | [], _, _, _, _, hl => nomatch hl
  | e :: es, base, t, h, l, hl => (List.mem_append.1 hl).elim
    (inside_expr hh e base t h.1 l) (inside_exprs hh es _ _ h.2 l)

end

/-- The line at this place bears a part of the text; where it is an operator or a call, it belongs
to a root, and its part is inside the header of that. -/
def Line.Sits (text : List Char) (roots : List Root) (pc : Nat) (l : Line) : Prop :=
  ∃ span, l.span = some span ∧ span.Marks text ∧
    (l.instr.op.operates = true → ∃ r ∈ roots, r.base ≤ pc ∧ pc < r.last ∧ span.Within r.header)

def Settles (text : List Char) (roots : List Root) (base : Nat) :
    Except SyntaxError (List Line × Tables) → Prop
  | .ok r => Along (Line.Sits text roots) base r.1
  | .error e => e.Lies text

variable {roots more : List Root} {base : Nat} {lines : List Line}

theorem Settles.bind {x : Except SyntaxError (List Line × Tables)}
    {f : List Line × Tables → Except SyntaxError (List Line × Tables)} {base' : Nat}
    (hx : Settles text roots base x)
    (hf : ∀ r, x = .ok r → Along (Line.Sits text roots) base r.1 → Settles text more base' (f r)) :
    Settles text more base' (x >>= f) := by
  cases x with
  | error e => exact hx
  | ok r => exact hf r rfl hx

theorem sits_mono (h : Along (Line.Sits text roots) base lines) (hs : roots ⊆ more) :
    Along (Line.Sits text more) base lines := by
  intro i l hl
  obtain ⟨span, hspan, hm, hop⟩ := h i l hl
  refine ⟨span, hspan, hm, fun ho => ?_⟩
  obtain ⟨r, hr, hpc⟩ := hop ho
  exact ⟨r, hs hr, hpc⟩

theorem sits_line {op : Opcode} {span : Span} (hop : op.operates = false) (hs : span.Marks text)
    (pc arg : Nat) : Line.Sits text roots pc (line op arg span) :=
  ⟨span, rfl, hs, fun ho => nomatch hop.symm.trans ho⟩

theorem sits_root {r : Root} {t : Tables} {op : Opcode} {arg : Nat} (hop : op.operates = false)
    (hh : r.header.Marks text) (hr : r.value.Placed text r.header) (hmem : r ∈ roots) :
    Along (Line.Sits text roots) r.base
      ((expr r.header r.value r.base t).1 ++ [line op arg r.header]) := by
  refine along_append.2 ⟨fun i l hl => ?_, along_singleton.2 (sits_line hop hh _ arg)⟩
  obtain ⟨span, hspan, hm, hw⟩ := inside_expr hh _ _ _ hr l (List.mem_of_getElem? hl)
  have hlt : i < r.value.size := length_expr r.header r.value r.base t ▸
    (List.getElem?_eq_some_iff.1 hl).1
  exact ⟨span, hspan, hm, fun _ => ⟨r, hmem, Nat.le_add_right _ _, Nat.add_lt_add_left hlt _, hw⟩⟩

theorem along_test {P : Nat → Line → Prop} {test : Expr} {header : Span} {base : Nat} {t : Tables}
    {l : Line} {m : List Line} :
    Along P base ((expr header test base t).1 ++ l :: m) ↔
      Along P base ((expr header test base t).1 ++ [l]) ∧ Along P (base + test.size + 1) m := by
  rw [List.append_cons, along_append, List.length_append, List.length_singleton, length_expr,
    Nat.add_assoc]

theorem sits_tested {test : Expr} {header span : Span} {base next stop : Nat} {t : Tables}
    {inner others : List Line} {body : List Stmt}
    (hh : header.Marks text) (ht : test.Placed text header) (hspan : span.Marks text)
    (hinner : Along (Line.Sits text (Stmt.allRoots body (base + test.size + 1)))
      (base + test.size + 1) inner)
    (hlength : inner.length = Stmt.totalSize body)
    (hothers : Along (Line.Sits text roots) (base + test.size + 1 + Stmt.totalSize body + 1)
      others) :
    Along (Line.Sits text
      (⟨base, header, test⟩ :: (Stmt.allRoots body (base + test.size + 1) ++ roots))) base
      ((expr header test base t).1 ++ line .popJumpIfFalse next header ::
        (inner ++ line .jump stop span :: others)) := by
  rw [along_test, @along_append _ _ _ inner, along_cons, hlength]
  refine ⟨?_, sits_mono hinner ?_, sits_line rfl hspan _ stop, sits_mono hothers ?_⟩
  · exact sits_root (r := ⟨base, header, test⟩) rfl hh ht List.mem_cons_self
  · exact fun r hr => List.mem_cons_of_mem _ (List.mem_append_left _ hr)
  · exact fun r hr => List.mem_cons_of_mem _ (List.mem_append_right _ hr)

theorem marks_lastOfBody_getD {body : List Stmt} {header : Span} (hb : Stmt.AllPlaced text body)
    (hh : header.Marks text) : ((lastOfBody body).getD header).Marks text := by
  cases hlast : lastOfBody body with
  | none => exact hh
  | some s => exact marks_lastOfBody hb s hlast

mutual

theorem settles_stmt (file : String) (inFunction : Bool) : ∀ {st : Stmt} (base : Nat) (t : Tables),
    st.Placed text → Settles text (st.roots base) base (stmt file inFunction st base t)
  | .assign target value span, base, t, h =>
    sits_root (r := ⟨base, span, value⟩) rfl h.1 h.2 List.mem_cons_self
  | .expr e, base, t, h =>
    sits_root (r := ⟨base, e.span, e⟩) rfl h.span.1 h List.mem_cons_self
  | .pass span, base, t, h => along_singleton.2 (sits_line rfl h base 0)
  | .ret value span, base, t, h => by
    rw [stmt]
    split
    · refine sits_root (r := ⟨base, span, returned value span⟩) rfl h.1 ?_ List.mem_cons_self
      cases value with
      | none => exact ⟨h.1, .refl span⟩
      | some value => exact h.2 value rfl
    · exact .spanning h.1.toLies rfl
  | .loop test header body, base, t, h => by
    rw [stmt]
    refine .bind (settles_stmts file inFunction _ _ h.2) fun r hr hinner => ?_
    rw [length_expr] at hr hinner
    refine along_test.2 ⟨?_, along_append.2 ⟨sits_mono hinner ?_, ?_⟩⟩
    · exact sits_root (r := ⟨base, header, test⟩) rfl h.1.1 h.1.2 List.mem_cons_self
    · exact List.subset_cons_self _ _
    · exact along_singleton.2 (sits_line rfl h.1.1 _ base)
  | .choose test header body rest, base, t, h => by
    rw [stmt]
    refine .bind (settles_stmts file inFunction _ _ h.2.1) fun r hr hinner => ?_
    refine .bind (settles_choice file inFunction _ _ h.2.2) fun q hq hothers => ?_
    rw [length_expr] at hr hinner
    simp only [length_expr, length_stmts hr] at hothers
    exact sits_tested h.1.1 h.1.2 (marks_lastOfBody_getD h.2.1 h.1.1) hinner (length_stmts hr)
      hothers
  | .define name params header body, base, t, h => by
    rw [stmt]
    refine .bind (settles_stmts file true 0 .empty h.2) fun r _ _ => ?_
    exact along_cons.2 ⟨sits_line rfl h.1 _ _, along_singleton.2 (sits_line rfl h.1 _ _)⟩

theorem settles_choice (file : String) (inFunction : Bool) : ∀ {c : Choice} (base : Nat)
    (t : Tables), c.Placed text →
    Settles text (c.roots base) base (choice file inFunction c base t)
  | .branch test header body rest, base, t, h => by
    rw [choice]
    refine .bind (settles_stmts file inFunction _ _ h.2.1) fun r hr hinner => ?_
    refine .bind (settles_choice file inFunction _ _ h.2.2) fun q hq hothers => ?_
    rw [length_expr] at hr hinner
    simp only [length_expr, length_stmts hr] at hothers
    exact sits_tested h.1.1 h.1.2 (marks_lastOfBody_getD h.2.1 h.1.1) hinner (length_stmts hr)
      hothers
  | .otherwise body, base, t, h => by
    rw [choice]
    exact settles_stmts file inFunction base t h

theorem settles_stmts (file : String) (inFunction : Bool) : ∀ {sts : List Stmt} (base : Nat)
    (t : Tables), Stmt.AllPlaced text sts →
    Settles text (Stmt.allRoots sts base) base (stmts file inFunction sts base t)
  | [], _, _, _ => along_nil
  | st :: sts, base, t, h => by
    rw [stmts]
    refine .bind (settles_stmt file inFunction base t h.1) fun r hr hfirst => ?_
    refine .bind (settles_stmts file inFunction _ _ h.2) fun q hq hothers => ?_
    rw [length_stmt hr] at hothers
    refine along_append.2 ⟨sits_mono hfirst (List.subset_append_left _ _), ?_⟩
    rw [length_stmt hr]
    exact sits_mono hothers (List.subset_append_right _ _)

end

/-- An instruction at the end of a body bears what was reached last, if the body is not empty. -/
theorem sits_close {body : List Stmt} (hb : Stmt.AllPlaced text body) (t : Tables) :
    Along (fun pc l => body = [] ∧ l.span = none ∨ Line.Sits text roots pc l) base
      (close body t).1 := by
  have hlines : (close body t).1 =
      [⟨⟨.loadConst, (t.constant .none).1⟩, lastOfBody body⟩,
        ⟨⟨.returnValue, 0⟩, lastOfBody body⟩] := rfl
  rw [hlines, along_cons, along_singleton]
  by_cases hnil : body = []
  · subst hnil
    exact ⟨.inl ⟨rfl, rfl⟩, .inl ⟨rfl, rfl⟩⟩
  · obtain ⟨span, hspan⟩ := exists_lastOfBody hnil
    have hm := marks_lastOfBody hb span hspan
    exact ⟨.inr ⟨span, hspan, hm, nofun⟩, .inr ⟨span, hspan, hm, nofun⟩⟩

theorem Compiles.sits {file : String} {inFunction : Bool} {body : List Stmt} {chunk : Chunk}
    (h : Compiles file inFunction body chunk) (hb : Stmt.AllPlaced text body) {pc : Nat} {i : Instr}
    (hi : chunk.code[pc]? = some i) :
    ∃ l : Line, l.instr = i ∧ chunk.positions[pc]? = some (l.span.elim .unknown .ofSpan) ∧
      (body = [] ∧ l.span = none ∨ l.Sits text (Stmt.allRoots body 0) pc) := by
  obtain ⟨name, firstLine, params, inner, t, hinner, rfl⟩ := h
  have hsettles := settles_stmts file inFunction 0 .empty hb
  rw [hinner] at hsettles
  have hall : Along (fun pc l => body = [] ∧ l.span = none ∨
      Line.Sits text (Stmt.allRoots body 0) pc l) 0 (inner ++ (close body t).1) :=
    along_append.2 ⟨fun i l hl => .inr (hsettles i l hl), sits_close hb t⟩
  simp only [assemble, List.getElem?_toArray, List.getElem?_map, Option.map_eq_some_iff] at hi ⊢
  obtain ⟨l, hl, rfl⟩ := hi
  have hsits := hall pc l hl
  rw [Nat.zero_add] at hsits
  exact ⟨l, rfl, ⟨l, hl, rfl⟩, hsits⟩

theorem ofSpan_injective {s u : Span} (h : Position.ofSpan s = .ofSpan u) : s = u := by
  cases s
  cases u
  cases h
  rfl

theorem Compiles.marks {file : String} {inFunction : Bool} {body : List Stmt} {chunk : Chunk}
    (h : Compiles file inFunction body chunk) (hb : Stmt.AllPlaced text body) {pc : Nat} {i : Instr}
    (hi : chunk.code[pc]? = some i) {span : Span}
    (hp : chunk.positions[pc]? = some (.ofSpan span)) : span.Marks text := by
  obtain ⟨l, -, hl, ⟨-, hnone⟩ | ⟨s, hs, hm, -⟩⟩ := h.sits hb hi
  · rw [hp, hnone] at hl
    cases hl
  · rw [hp, hs] at hl
    exact ofSpan_injective (Option.some.inj hl) ▸ hm

end Marks

end Stepwise.Code

namespace Stepwise

open Code Source

theorem Source.Span.Marks.line_le {text : String} {span : Span} (h : span.Marks text.toList) :
    span.line ≤ (Text.linesOf text).length := by
  obtain ⟨pre, c, post, htext, hstart⟩ := h.begins
  have hline : span.line = (Point.first.past pre).line := congrArg Point.line hstart
  rw [hline, Text.linesOf, List.length_map, htext]
  exact Point.line_past_le pre c post

/-- What the tracer makes of an instruction that its filters let through. -/
def Tracer.look (t : Tracer) (a : Activation) (arena : Arena) : Verdict × Tracer :=
  match t.offer? a arena with
  | (none, t) => (.answer .proceed, t)
  | (some (highlight, hint), t) => (.offer highlight hint, t)

theorem Tracer.consider_eq_look {t : Tracer} {a : Activation} (hfile : a.chunk.file = t.file)
    (hpos : 1 ≤ a.line) (hle : a.line ≤ t.lineCount) (arena : Arena) :
    t.consider .opcode false a arena = t.look a arena := by
  rw [consider, if_neg (by simp [hfile]), if_neg Bool.false_ne_true, if_neg (by omega)]
  rfl

theorem Run.current_fetch {r : Run} {i : Instr}
    (hi : r.current.chunk.code[r.current.pc]? = some i) :
    r.fetch.current = { r.current with
      lasti := r.current.pc * instrWidth
      line := (r.current.chunk.lineOf? r.current.pc).getD r.current.line
      lastLine := (r.current.chunk.lineOf? r.current.pc).getD r.current.line } := by
  simp only [fetch, hi]

namespace Code

/-- What an instruction that bears a span tells of the text. An operator or a call is in the code of
a root and inside the header of that, and the tracer of the file looks at the instruction when it is
fetched. -/
structure Shown (text : String) (unit : Chunk) (body : List Stmt) (pc : Nat) (i : Instr)
    (span : Span) : Prop where
  lies : span.Lies text.toList
  line_le : span.line ≤ (Text.linesOf text).length
  header : i.op.operates = true →
    ∃ r ∈ Stmt.allRoots body 0, r.base ≤ pc ∧ pc < r.last ∧ span.Within r.header
  look : ∀ (t : Tracer) (run : Run), t.file = unit.file →
    t.lineCount = (Text.linesOf text).length → run.current.chunk = unit → run.current.pc = pc →
    ∀ arena, t.consider .opcode false run.fetch.current arena = t.look run.fetch.current arena

theorem Shown.of_marks {text : String} {unit : Chunk} {body : List Stmt} {pc : Nat} {i : Instr}
    {span : Span} (hm : span.Marks text.toList) (hi : unit.code[pc]? = some i)
    (hp : unit.positions[pc]? = some (.ofSpan span))
    (hh : i.op.operates = true →
      ∃ r ∈ Stmt.allRoots body 0, r.base ≤ pc ∧ pc < r.last ∧ span.Within r.header) :
    Shown text unit body pc i span := by
  have hle := hm.line_le
  refine ⟨hm.toLies, hle, hh, fun t run hfile hcount hchunk hpc arena => ?_⟩
  subst hchunk hpc
  have hline : run.current.chunk.lineOf? run.current.pc = some span.line := by
    rw [ChunkOf.lineOf?, hp]
    rfl
  refine Tracer.consider_eq_look ?_ ?_ ?_ arena <;> rw [Run.current_fetch hi]
  · exact hfile.symm
  · rw [hline]
    exact hm.start.line_pos
  · rw [hline, hcount]
    exact hle

/-- Every position that is told of a text is inside it. The faults of a text are on its lines.
Each unit of it was made from a body; an instruction without a position is in one that was made
from an empty body, and all others bear spans of the text. -/
theorem compile_inside (file text : String) :
    (∀ e, compile file text = .error e → e.Inside text.toList) ∧
      ∀ chunk, compile file text = .ok chunk → ∀ unit, IsUnit chunk unit →
        ∃ tree inFunction body, parse text = .ok tree ∧ IsBody tree body ∧
          Compiles file inFunction body unit ∧ ∀ pc i, unit.code[pc]? = some i →
            ∃ p, unit.positions[pc]? = some p ∧ (p = .unknown ∧ body = [] ∨
              ∃ span, p = .ofSpan span ∧ Shown text unit body pc i span) := by
  have hparse := places_parse text
  refine ⟨fun e he => ?_, fun chunk h unit hu => ?_⟩
  · cases ht : parse text with
    | error f =>
      rw [compile, ht] at he
      rw [ht] at hparse
      cases he
      exact hparse.inside
    | ok tree =>
      rw [compile, ht] at he
      rw [ht] at hparse
      have hsettles := settles_stmts file false 0 .empty hparse
      simp only [bind, Except.bind, ofModule] at he
      cases hr : stmts file false tree 0 .empty with
      | error f =>
        rw [hr] at he hsettles
        cases he
        exact hsettles.inside
      | ok r =>
        rw [hr] at he
        cases he
  · obtain ⟨tree, inFunction, body, ht, hbody, hc⟩ := compiles_body h hu
    rw [ht] at hparse
    refine ⟨tree, inFunction, body, ht, hbody, hc, fun pc i hi => ?_⟩
    obtain ⟨l, rfl, hp, ⟨rfl, hnone⟩ | ⟨span, hspan, hm, hh⟩⟩ :=
      hc.sits (hbody.placed hparse) hi
    · exact ⟨_, hp, .inl ⟨by rw [hnone]; rfl, rfl⟩⟩
    · rw [hspan] at hp
      exact ⟨_, hp, .inr ⟨span, rfl, .of_marks hm hi hp hh⟩⟩

theorem compile_inside_sum :
    (∃ e, compile "main.py" "(" = .error e ∧ e.column = some 1 ∧ e.Inside "(".toList) ∧
      ∃ chunk, compile "main.py" "x = 1 + 2\n" = .ok chunk ∧
        chunk.code[2]? = some ⟨.binaryOp, 0⟩ ∧
        ∃ body, Shown "x = 1 + 2\n" chunk body 2 ⟨.binaryOp, 0⟩ ⟨1, 4, 1, 9⟩ := by
  constructor
  · have hcolumn : (match compile "main.py" "(" with
        | .error e => e.column
        | .ok _ => none) = some 1 := by decide +kernel
    cases he : compile "main.py" "(" with
    | error e =>
      rw [he] at hcolumn
      exact ⟨e, rfl, hcolumn, (compile_inside "main.py" "(").1 e he⟩
    | ok chunk =>
      rw [he] at hcolumn
      cases hcolumn
  · have hsum : (compile "main.py" "x = 1 + 2\n").toOption.any (fun c =>
        c.code[2]? = some ⟨.binaryOp, 0⟩ ∧
          c.positions[2]? = some (.ofSpan ⟨1, 4, 1, 9⟩)) = true := by decide +kernel
    obtain ⟨chunk, hchunk, hat⟩ := exists_of_any_toOption hsum
    obtain ⟨hcode, hposition⟩ := of_decide_eq_true hat
    obtain ⟨tree, inFunction, body, -, -, -, hall⟩ :=
      (compile_inside "main.py" "x = 1 + 2\n").2 chunk hchunk chunk .self
    obtain ⟨p, hp, hcases⟩ := hall 2 _ hcode
    obtain rfl := Option.some.inj (hposition.symm.trans hp)
    obtain ⟨h, -⟩ | ⟨span, h, hshown⟩ := hcases
    · cases h
    · cases span
      cases h
      exact ⟨chunk, hchunk, hcode, body, hshown⟩

end Code

end Stepwise
