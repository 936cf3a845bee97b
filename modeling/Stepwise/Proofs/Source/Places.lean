import Mathlib.Data.Prod.Lex
import Stepwise.Source.SyntaxError
import Stepwise.Text.Blank

/-! Places in reading order, and places of a text. A place of a text is where one of its beginnings
ends; such a place is on a line of the text and at most behind its last character. Where a
character follows, the line is one of those that the text is divided into. -/

namespace Stepwise.Source

namespace Point

instance : LinearOrder Point :=
  .lift' (fun p => toLex (p.line, p.col)) fun p q h => by
    obtain ⟨l, c⟩ := p
    obtain ⟨m, d⟩ := q
    cases h
    rfl

theorem le_iff {p q : Point} : p ≤ q ↔ p.line < q.line ∨ p.line = q.line ∧ p.col ≤ q.col :=
  Prod.Lex.le_iff

theorem lt_iff {p q : Point} : p < q ↔ p.line < q.line ∨ p.line = q.line ∧ p.col < q.col :=
  Prod.Lex.lt_iff

theorem lt_advance (p : Point) (c : Char) : p < p.advance c := by
  rw [lt_iff, advance]
  split
  · exact .inl (Nat.lt_succ_self _)
  · exact .inr ⟨rfl, Nat.lt_succ_self _⟩

theorem le_past (p : Point) (cs : List Char) : p ≤ p.past cs := by
  induction cs generalizing p with
  | nil => exact le_refl p
  | cons c cs ih => exact (p.lt_advance c).le.trans (ih (p.advance c))

theorem lt_past_cons (p : Point) (c : Char) (cs : List Char) : p < p.past (c :: cs) :=
  (p.lt_advance c).trans_le ((p.advance c).le_past cs)

theorem past_le_past_append (p : Point) (cs ds : List Char) : p.past cs ≤ p.past (cs ++ ds) := by
  rw [past_append]
  exact (p.past cs).le_past ds

theorem line_past (p : Point) (cs : List Char) : (p.past cs).line = p.line + cs.count '\n' := by
  induction cs generalizing p with
  | nil => rfl
  | cons c cs ih =>
    rw [past_cons, ih, List.count_cons, advance]
    by_cases hc : c = '\n'
    · rw [if_pos hc, if_pos (beq_iff_eq.2 hc), Nat.add_right_comm, Nat.add_assoc]
    · rw [if_neg hc, if_neg (by simpa using hc)]
      rfl

def first : Point := ⟨1, 0⟩

end Point

namespace Span

variable {s t : Span} {p q : Point}

def start (s : Span) : Point := ⟨s.line, s.col⟩

def stop (s : Span) : Point := ⟨s.endLine, s.endCol⟩

@[simp] theorem start_between (p q : Point) : (between p q).start = p := rfl

@[simp] theorem stop_between (p q : Point) : (between p q).stop = q := rfl

@[simp] theorem start_point (p : Point) : (point p).start = p := rfl

@[simp] theorem stop_point (p : Point) : (point p).stop = p := rfl

@[simp] theorem start_to (s t : Span) : (s.to t).start = s.start := rfl

@[simp] theorem stop_to (s t : Span) : (s.to t).stop = t.stop := rfl

/-- The character at this place is inside the span. -/
def Covers (s : Span) (p : Point) : Prop :=
  s.start ≤ p ∧ p < s.stop

def Within (s t : Span) : Prop :=
  t.start ≤ s.start ∧ s.stop ≤ t.stop

theorem Within.refl (s : Span) : s.Within s :=
  ⟨le_refl _, le_refl _⟩

theorem Within.trans {u : Span} (h : s.Within t) (k : t.Within u) : s.Within u :=
  ⟨k.1.trans h.1, h.2.trans k.2⟩

end Span

/-- The lines that the line feeds of a text divide it into, without them. -/
def rows (cs : List Char) : List (List Char) :=
  cs.splitOn '\n'

theorem rows_cons (c : Char) (cs : List Char) :
    rows (c :: cs) = if c = '\n' then [] :: rows cs else (rows cs).modifyHead (c :: ·) := by
  rw [rows, List.splitOn_cons_eq_if_modifyHead]
  by_cases hc : c = '\n'
  · rw [if_pos hc, if_pos (beq_iff_eq.2 hc)]
    rfl
  · rw [if_neg hc, if_neg (by simpa using hc)]
    rfl

theorem rows_zero (cs : List Char) : (rows cs)[0]? = some (cs.takeWhile (· != '\n')) := by
  induction cs with
  | nil => rfl
  | cons c cs ih =>
    rw [rows_cons]
    by_cases hc : c = '\n'
    · rw [if_pos hc, hc]
      rfl
    · rw [if_neg hc, List.getElem?_modifyHead, ih, List.takeWhile_cons_of_pos (by simpa using hc)]
      rfl

theorem exists_row (p : Point) (pre post : List Char) :
    ∃ before, (rows (pre ++ post))[pre.count '\n']? =
        some (before ++ post.takeWhile (· != '\n')) ∧
      (p.past pre).col = (if pre.count '\n' = 0 then p.col else 0) + before.length := by
  induction pre generalizing p with
  | nil => exact ⟨[], rows_zero post, rfl⟩
  | cons c pre ih =>
    obtain ⟨before, hrow, hcol⟩ := ih (p.advance c)
    rw [List.cons_append, rows_cons, List.count_cons, Point.past_cons]
    by_cases hc : c = '\n'
    · have hstart : (p.advance c).col = 0 := by rw [Point.advance, if_pos hc]
      rw [hstart, ite_self] at hcol
      rw [if_pos hc, if_pos (beq_iff_eq.2 hc), if_neg (Nat.succ_ne_zero _)]
      exact ⟨before, hrow, hcol⟩
    · have hnext : (p.advance c).col = p.col + 1 := by rw [Point.advance, if_neg hc]
      rw [hnext] at hcol
      rw [if_neg hc, if_neg (by simpa using hc), Nat.add_zero, List.getElem?_modifyHead]
      by_cases hzero : pre.count '\n' = 0
      · rw [hzero] at hrow ⊢
        rw [if_pos hzero] at hcol
        refine ⟨c :: before, by rw [hrow]; rfl, ?_⟩
        rw [if_pos rfl, List.length_cons]
        omega
      · rw [if_neg hzero] at hcol ⊢
        rw [if_neg hzero]
        exact ⟨before, hrow, hcol⟩

theorem exists_row_past (pre post : List Char) :
    ∃ before, (rows (pre ++ post))[(Point.first.past pre).line - 1]? =
        some (before ++ post.takeWhile (· != '\n')) ∧
      (Point.first.past pre).col = before.length := by
  obtain ⟨before, hrow, hcol⟩ := exists_row Point.first pre post
  refine ⟨before, ?_, ?_⟩
  · rw [Point.line_past, Point.first, Nat.add_sub_cancel_left]
    exact hrow
  · rw [hcol, Point.first, ite_self, Nat.zero_add]

/-- A place that the text has: it is on one of its lines, and at most behind the end of that. -/
structure Point.Inside (cs : List Char) (p : Point) : Prop where
  line_pos : 1 ≤ p.line
  line_le : p.line ≤ 1 + cs.count '\n'
  col_le : ∃ row, (rows cs)[p.line - 1]? = some row ∧ p.col ≤ row.length

theorem Point.inside_past (pre post : List Char) : (first.past pre).Inside (pre ++ post) := by
  have hline : (first.past pre).line = 1 + pre.count '\n' := line_past first pre
  obtain ⟨before, hrow, hcol⟩ := exists_row_past pre post
  refine ⟨?_, ?_, _, hrow, ?_⟩
  · omega
  · rw [hline, List.count_append]
    omega
  · rw [hcol, List.length_append]
    exact Nat.le_add_right _ _

/-- From one place of a text to another that is not before it. -/
structure Span.Lies (cs : List Char) (s : Span) : Prop where
  start : s.start.Inside cs
  stop : s.stop.Inside cs
  le : s.start ≤ s.stop

theorem Span.lies_between (pre cs post : List Char) :
    (between (Point.first.past pre) (Point.first.past (pre ++ cs))).Lies (pre ++ (cs ++ post)) where
  start := Point.inside_past pre (cs ++ post)
  stop := List.append_assoc pre cs post ▸ Point.inside_past (pre ++ cs) post
  le := Point.past_le_past_append _ _ _

inductive SyntaxError.Lies (cs : List Char) (e : SyntaxError) : Prop
  | spanning {span : Span} (h : span.Lies cs) (he : e = .spanning e.cause span)
  | onLine {p : Point} (h : p.Inside cs) (he : e = .onLine e.cause p.line)

/-- A fault as it is told: its lines are lines of the text, its columns count from one and are at
most one behind the last character of their line, and it does not end before it starts. -/
structure SyntaxError.Inside (cs : List Char) (e : SyntaxError) : Prop where
  line : 1 ≤ e.line ∧ e.line ≤ 1 + cs.count '\n'
  endLine : 1 ≤ e.endLine ∧ e.endLine ≤ 1 + cs.count '\n'
  column : ∀ c ∈ e.column, 1 ≤ c ∧
    ∃ row, (rows cs)[e.line - 1]? = some row ∧ c ≤ 1 + row.length
  endColumn : ∀ c ∈ e.endColumn, 1 ≤ c ∧
    ∃ row, (rows cs)[e.endLine - 1]? = some row ∧ c ≤ 1 + row.length
  le : e.line < e.endLine ∨
    e.line = e.endLine ∧ ∀ c ∈ e.column, ∀ d ∈ e.endColumn, c ≤ d

theorem Point.Inside.column {cs : List Char} {p : Point} (h : p.Inside cs) :
    1 ≤ p.col + 1 ∧ ∃ row, (rows cs)[p.line - 1]? = some row ∧ p.col + 1 ≤ 1 + row.length := by
  obtain ⟨row, hrow, hcol⟩ := h.col_le
  exact ⟨Nat.le_add_left 1 _, row, hrow, by omega⟩

theorem SyntaxError.Lies.inside {cs : List Char} {e : SyntaxError} (h : e.Lies cs) :
    e.Inside cs := by
  cases h with
  | @spanning span h he =>
    rw [he]
    refine ⟨⟨h.start.line_pos, h.start.line_le⟩, ⟨h.stop.line_pos, h.stop.line_le⟩, ?_, ?_, ?_⟩
    · rintro c ⟨⟩
      exact h.start.column
    · rintro c ⟨⟩
      exact h.stop.column
    · refine (Point.le_iff.1 h.le).imp_right fun ⟨hline, hcol⟩ => ⟨hline, ?_⟩
      rintro c ⟨⟩ d ⟨⟩
      exact Nat.succ_le_succ hcol
  | onLine h he =>
    rw [he]
    exact ⟨⟨h.line_pos, h.line_le⟩, ⟨h.line_pos, h.line_le⟩, nofun, nofun, .inr ⟨rfl, nofun⟩⟩

theorem linesFrom_newline (line cs : List Char) :
    ∃ first, Text.linesFrom line ('\n' :: cs) = first :: Text.linesFrom [] cs ∧
      (line.reverse = first ∨ line.reverse = first ++ ['\r']) := by
  rw [Text.linesFrom.eq_def]
  refine ⟨_, rfl, ?_⟩
  split
  · exact .inr List.reverse_cons
  · exact .inl rfl

theorem length_linesFrom_pos {line : List Char} (hline : line ≠ []) (cs : List Char) :
    1 ≤ (Text.linesFrom line cs).length := by
  induction cs generalizing line with
  | nil => simp [Text.linesFrom, hline]
  | cons c cs ih =>
    by_cases hc : c = '\n'
    · subst hc
      obtain ⟨first, h, -⟩ := linesFrom_newline line cs
      rw [h]
      exact Nat.le_add_left 1 _
    · rw [Text.linesFrom]
      · exact ih (List.cons_ne_nil c line)
      · exact hc

theorem count_lt_length_linesFrom (line pre : List Char) (c : Char) (post : List Char) :
    pre.count '\n' < (Text.linesFrom line (pre ++ c :: post)).length := by
  induction pre generalizing line with
  | nil =>
    by_cases hc : c = '\n'
    · subst hc
      obtain ⟨first, h, -⟩ := linesFrom_newline line post
      rw [List.nil_append, h]
      exact Nat.succ_pos _
    · rw [List.nil_append, Text.linesFrom]
      · exact length_linesFrom_pos (List.cons_ne_nil c line) post
      · exact hc
  | cons d pre ih =>
    by_cases hd : d = '\n'
    · subst hd
      obtain ⟨first, h, -⟩ := linesFrom_newline line (pre ++ c :: post)
      rw [List.cons_append, h, List.length_cons, List.count_cons_self]
      exact Nat.succ_lt_succ (ih [])
    · rw [List.cons_append, Text.linesFrom, List.count_cons_of_ne hd]
      · exact ih (d :: line)
      · exact hd

theorem Point.line_past_le (pre : List Char) (c : Char) (post : List Char) :
    (first.past pre).line ≤ (Text.lines (pre ++ c :: post)).length := by
  have hline : (first.past pre).line = 1 + pre.count '\n' := line_past first pre
  have hlt := count_lt_length_linesFrom [] pre c post
  rw [hline, Text.lines]
  omega

theorem modifyHead_reverse_nil (rs : List (List Char)) :
    rs.modifyHead (([] : List Char).reverse ++ ·) = rs :=
  congrFun List.modifyHead_id rs

theorem exists_row_of_linesFrom (cs : List Char) {line shown : List Char} {i : Nat}
    (h : (Text.linesFrom line cs)[i]? = some shown) :
    ∃ row, ((rows cs).modifyHead (line.reverse ++ ·))[i]? = some row ∧
      (row = shown ∨ row = shown ++ ['\r']) := by
  induction cs generalizing line i with
  | nil =>
    rw [Text.linesFrom] at h
    split at h
    · cases h
    · cases i with
      | zero =>
        cases h
        exact ⟨line.reverse ++ [], rfl, .inl (List.append_nil _)⟩
      | succ i => cases h
  | cons c cs ih =>
    rw [rows_cons]
    by_cases hc : c = '\n'
    · subst hc
      obtain ⟨first, hfirst, hshown⟩ := linesFrom_newline line cs
      rw [hfirst] at h
      rw [if_pos rfl]
      cases i with
      | zero =>
        cases h
        exact ⟨line.reverse ++ [], rfl, (List.append_nil line.reverse).symm ▸ hshown⟩
      | succ i =>
        rw [← modifyHead_reverse_nil (rows cs)]
        exact ih h
    · rw [Text.linesFrom] at h
      · obtain ⟨row, hrow, hshown⟩ := ih h
        refine ⟨row, ?_, hshown⟩
        rw [if_neg hc, List.modifyHead_modifyHead]
        simpa [Function.comp_def] using hrow
      · exact hc

theorem exists_row_of_lines {cs shown : List Char} {i : Nat}
    (h : (Text.lines cs)[i]? = some shown) :
    ∃ row, (rows cs)[i]? = some row ∧ (row = shown ∨ row = shown ++ ['\r']) := by
  rw [← modifyHead_reverse_nil (rows cs)]
  exact exists_row_of_linesFrom cs h

end Stepwise.Source
