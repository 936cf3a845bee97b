import Stepwise.Code.Assembly
import Stepwise.Debug.Report
import Stepwise.Proofs.Source.Clear

/-! The caret row of a report. A text that does not compile is shown by the line of the fault,
without the blanks around that, and by carets under the columns of the fault. The column counts
the characters of the line from its start, and the first caret stands there, unless the fault is
one of the blanks that are not shown. -/

namespace Stepwise

open Source

theorem length_takeWhile_append_le {α : Type} {p : α → Bool} (as : List α) {bs : List α}
    (h : ∀ b ∈ bs.head?, p b = false) : ((as ++ bs).takeWhile p).length ≤ as.length := by
  rw [List.takeWhile_append]
  split
  · have hnil : bs.takeWhile p = [] := by
      cases bs with
      | nil => rfl
      | cons b bs => exact List.takeWhile_cons_of_neg (by simpa using h b rfl)
    rw [hnil, List.append_nil]
  · exact (List.takeWhile_prefix p).length_le

theorem exists_of_shown {shown before rest : List Char} {c : Char} (hc : c ≠ '\r')
    (h : before ++ c :: rest = shown ∨ before ++ c :: rest = shown ++ ['\r']) :
    ∃ after, shown = before ++ c :: after := by
  rcases h with h | h
  · exact ⟨rest, h.symm⟩
  · rcases append_eq_append_cons h.symm with ⟨after, hafter, -⟩ | ⟨more, -, hmore⟩
    · exact ⟨after, hafter⟩
    · have hmem : c ∈ ['\r'] := hmore ▸ List.mem_append_right more List.mem_cons_self
      exact absurd (List.mem_singleton.1 hmem) hc

namespace Code

variable {P : Point → Prop}

def FaultsAt (P : Point → Prop) {α : Type} (x : Except SyntaxError α) : Prop :=
  ∀ e, x = .error e → e.StartsAt P

theorem FaultsAt.bind {α β : Type} {x : Except SyntaxError α} {f : α → Except SyntaxError β}
    (hx : FaultsAt P x) (hf : ∀ a, FaultsAt P (f a)) : FaultsAt P (x >>= f) := by
  cases x with
  | error e =>
    rintro _ ⟨⟩
    exact hx e rfl
  | ok a => exact hf a

mutual

theorem faultsAt_stmt (file : String) (inFunction : Bool) : ∀ {st : Stmt} (base : Nat)
    (t : Tables), st.ReturnsAt P → FaultsAt P (stmt file inFunction st base t)
  | .assign _ _ _, _, _, _ => nofun
  | .expr _, _, _, _ => nofun
  | .pass _, _, _, _ => nofun
  | .ret _ span, _, _, h => by
    rw [stmt]
    split
    · exact nofun
    · rintro _ ⟨⟩
      exact SyntaxError.startsAt_spanning _ h
  | .loop _ _ body, _, _, h => by
    rw [stmt]
    exact .bind (faultsAt_stmts file inFunction _ _ h) fun _ => nofun
  | .choose _ _ body rest, _, _, h => by
    rw [stmt]
    exact .bind (faultsAt_stmts file inFunction _ _ h.1) fun _ =>
      .bind (faultsAt_choice file inFunction _ _ h.2) fun _ => nofun
  | .define _ _ _ body, _, _, h => by
    rw [stmt]
    exact .bind (faultsAt_stmts file true 0 .empty h) fun _ => nofun

theorem faultsAt_choice (file : String) (inFunction : Bool) : ∀ {c : Choice} (base : Nat)
    (t : Tables), c.ReturnsAt P → FaultsAt P (choice file inFunction c base t)
  | .branch _ _ body rest, _, _, h => by
    rw [choice]
    exact .bind (faultsAt_stmts file inFunction _ _ h.1) fun _ =>
      .bind (faultsAt_choice file inFunction _ _ h.2) fun _ => nofun
  | .otherwise body, base, t, h => by
    rw [choice]
    exact faultsAt_stmts file inFunction base t h

theorem faultsAt_stmts (file : String) (inFunction : Bool) : ∀ {sts : List Stmt} (base : Nat)
    (t : Tables), Stmt.AllReturnAt P sts → FaultsAt P (stmts file inFunction sts base t)
  | [], _, _, _ => nofun
  | st :: sts, base, t, h => by
    rw [stmts]
    exact .bind (faultsAt_stmt file inFunction base t h.1) fun _ =>
      .bind (faultsAt_stmts file inFunction _ _ h.2) fun _ => nofun

end

theorem seen_compile {file text : String} {e : SyntaxError} (h : compile file text = .error e) :
    e.Seen text.toList := by
  have hparse := returns_parse text
  unfold compile at h
  cases ht : parse text with
  | error f =>
    rw [ht] at h hparse
    cases h
    exact hparse
  | ok tree =>
    rw [ht] at h hparse
    have hfaults : FaultsAt (Point.Clear text.toList) (ofModule file tree) :=
      .bind (faultsAt_stmts file false 0 .empty hparse) fun _ => nofun
    exact .inl (hfaults e h)

end Code

/-- The fault is one of the blanks before the first other character of its line. -/
inductive Source.SyntaxError.Unshown (e : SyntaxError) (line : String) : Prop
  | intro {before after : List Char} {c : Char} (hline : line.toList = before ++ c :: after)
      (hblank : ∀ d ∈ before ++ [c], Text.isBlank d = true)
      (hcause : e.cause = .invalidCharacter c) (hcolumn : e.column = some (before.length + 1))

namespace Report

/-- The blanks before the first other character of a line. -/
def margin (line : String) : List Char :=
  line.toList.takeWhile Text.isBlank

/-- The report shows the line without the blanks around it, and below it a caret row that begins
behind so many spaces. -/
def PutsCaret (r : Report) (file : String) (number : Nat) (line : String) (gap : Nat) : Prop :=
  ∃ carets, 1 ≤ carets ∧ r.message = headline file number ++ "\n" ++
    (indented (Text.trim line.toList) ++
      indented (List.replicate gap ' ' ++ List.replicate carets '^')) ++ r.summary

theorem one_le_caretCount (e : SyntaxError) (column : Nat) : 1 ≤ caretCount e column := by
  unfold caretCount
  split
  · split
    · omega
    · exact le_refl 1
  · exact le_refl 1

theorem putsCaret_ofSyntaxError {e : SyntaxError} {file line : String} {files : Files}
    {column : Nat} (hcolumn : e.column = some column)
    (hline : files.line? file e.line = some line) :
    (ofSyntaxError e file files).PutsCaret file e.line line
      (column - 1 - (margin line).length) := by
  have hmargin : line.toList.length - (Text.trimStart line.toList).length =
      (margin line).length := by
    have := congrArg List.length (Text.takeWhile_append_trimStart line.toList)
    rw [List.length_append] at this
    rw [margin]
    omega
  refine ⟨caretCount e column, one_le_caretCount e column, ?_⟩
  simp only [ofSyntaxError, hline, Option.map_some, Option.getD_some, excerpt, hcolumn, caretRow,
    hmargin, Text.trim]

theorem margin_le_of_prefix {line : String} {row : List Char} (h : line.toList <+: row) :
    (margin line).length ≤ (row.takeWhile Text.isBlank).length := by
  obtain ⟨rest, rfl⟩ := h
  rw [margin, List.takeWhile_append]
  split
  · next hall =>
    rw [hall, List.length_append]
    exact Nat.le_add_right _ _
  · exact le_refl _

theorem column_le_margin {e : SyntaxError} {line : String} {column : Nat} (h : e.Unshown line)
    (hcolumn : e.column = some column) : column ≤ (margin line).length := by
  obtain ⟨hline, hblank, -, hat⟩ := h
  obtain rfl := Option.some.inj (hcolumn.symm.trans hat)
  rw [margin, hline, List.append_cons, List.takeWhile_append_of_pos hblank, List.length_append,
    List.length_append]
  exact Nat.le_add_right _ _

end Report

namespace Source.SyntaxError

variable {text : List Char} {e : SyntaxError} {column : Nat} {line : String}

/-- The fault is at a character of its row or at the end of that, behind the margin of the line
that is shown or in it. -/
structure Points (e : SyntaxError) (column : Nat) (line : String) (row : List Char) : Prop where
  pos : 1 ≤ column
  le : column ≤ row.length + 1
  margin : (Report.margin line).length < column ∨ e.Unshown line

theorem StartsAt.points (h : e.StartsAt (Point.Clear text)) (hcolumn : e.column = some column)
    {row : List Char} (hrow : (rows text)[e.line - 1]? = some row) (hline : line.toList <+: row) :
    e.Points column line row := by
  obtain ⟨p, ⟨pre, post, rfl, rfl, hclear⟩, hl, rfl⟩ := h column hcolumn
  obtain ⟨before, hat, hcol⟩ := exists_row_past pre post
  have hbefore : row = before ++ post.takeWhile (· != '\n') := by
    rw [hl, hat] at hrow
    exact (Option.some.inj hrow).symm
  have hstop : ∀ c ∈ (post.takeWhile (· != '\n')).head?, Text.isBlank c = false := by
    cases post with
    | nil => nofun
    | cons c post =>
      by_cases hc : c = '\n'
      · rw [List.takeWhile_cons_of_neg (by simpa using hc)]
        nofun
      · rw [List.takeWhile_cons_of_pos (by simpa using hc)]
        exact fun d hd => (hclear d hd).resolve_left (Option.some.inj hd ▸ hc)
  have hmargin : (Report.margin line).length ≤ before.length :=
    (Report.margin_le_of_prefix (hbefore ▸ hline)).trans (length_takeWhile_append_le before hstop)
  refine ⟨Nat.le_add_left 1 _, ?_, .inl ?_⟩
  · rw [hcol, hbefore, List.length_append]
    omega
  · rw [hcol]
    omega

theorem Stray.points (h : e.Stray text) (hcolumn : e.column = some column) {row : List Char}
    (hrow : (rows text)[e.line - 1]? = some row)
    (hline : row = line.toList ∨ row = line.toList ++ ['\r']) :
    e.Points column line row := by
  obtain @⟨pre, post, c, rfl, hstray, he⟩ := h
  have hc : c ≠ '\n' ∧ c ≠ '\r' := by
    constructor <;>
      · rintro rfl
        cases (Bool.and_eq_true_iff.1 hstray).2
  obtain ⟨before, hat, hcol⟩ := exists_row_past pre (c :: post)
  rw [List.takeWhile_cons_of_pos (by simpa using hc.1)] at hat
  have hbefore : row = before ++ c :: post.takeWhile (· != '\n') := by
    rw [he] at hrow
    exact Option.some.inj (hrow.symm.trans hat)
  have hat : e.column = some (before.length + 1) := by
    rw [he, ← hcol]
    rfl
  obtain rfl : column = before.length + 1 := Option.some.inj (hcolumn.symm.trans hat)
  obtain ⟨after, hafter⟩ := exists_of_shown hc.2 (hbefore ▸ hline)
  refine ⟨Nat.le_add_left 1 _, ?_, ?_⟩
  · rw [hbefore, List.length_append]
    omega
  rcases Nat.lt_or_ge (Report.margin line).length (before.length + 1) with hlt | hge
  · exact .inl hlt
  · refine .inr (.intro hafter (fun d hd => ?_) (by rw [he]; rfl) hat)
    have hfront : before ++ [c] <+: line.toList := ⟨after, by rw [hafter, ← List.append_cons]⟩
    have hblanks : before ++ [c] <+: Report.margin line :=
      List.prefix_of_prefix_length_le hfront (List.takeWhile_prefix _)
        (by rw [List.length_append]; exact hge)
    exact List.mem_takeWhile_imp (hblanks.mem hd)

end Source.SyntaxError

namespace Report

/-- The column of a fault counts the characters of its line: it is that of one of them, or one
behind the last. The report shows the line without the blanks around it, and the first caret
stands under the column, unless the fault is one of the blanks that are not shown; then it stands
at the start of what is. -/
theorem caret_under_column {file text line : String} {e : SyntaxError} {column : Nat}
    {files : Files} (h : Code.compile file text = .error e) (hcolumn : e.column = some column)
    (htext : files.get? file = some text) (hline : files.line? file e.line = some line) :
    ∃ row gap, (rows text.toList)[e.line - 1]? = some row ∧
      (row = line.toList ∨ row = line.toList ++ ['\r']) ∧ 1 ≤ column ∧ column ≤ row.length + 1 ∧
      (ofSyntaxError e file files).PutsCaret file e.line line gap ∧
      (¬e.Unshown line ∧ (margin line).length + gap + 1 = column ∨ e.Unshown line ∧ gap = 0) := by
  have hlines : (Text.lines text.toList)[e.line - 1]? = some line.toList := by
    unfold Files.line? at hline
    split at hline
    · cases hline
    · rw [htext, Option.bind_some, Text.linesOf, List.getElem?_map,
        Option.map_eq_some_iff] at hline
      obtain ⟨cs, hcs, rfl⟩ := hline
      rw [hcs, String.toList_ofList]
  obtain ⟨row, hrow, hshown⟩ := exists_row_of_lines hlines
  have hprefix : line.toList <+: row := by
    rcases hshown with rfl | rfl
    · exact List.prefix_rfl
    · exact List.prefix_append _ _
  have hpoints : e.Points column line row :=
    (Code.seen_compile h).elim (·.points hcolumn hrow hprefix) (·.points hcolumn hrow hshown)
  refine ⟨row, column - 1 - (margin line).length, hrow, hshown, hpoints.pos, hpoints.le,
    putsCaret_ofSyntaxError hcolumn hline, ?_⟩
  by_cases hunshown : e.Unshown line
  · have := column_le_margin hunshown hcolumn
    exact .inr ⟨hunshown, by omega⟩
  · have := hpoints.margin.resolve_right hunshown
    exact .inl ⟨hunshown, by omega⟩

def faultOf? {α : Type} : Except SyntaxError α → Option SyntaxError
  | .error e => some e
  | .ok _ => none

theorem eq_error_of_faultOf? {α : Type} {x : Except SyntaxError α} {e : SyntaxError}
    (h : faultOf? x = some e) : x = .error e := by
  cases x with
  | error f => exact congrArg _ (Option.some.inj h)
  | ok a => cases h

theorem caret_under_column_blank :
    ∃ (e : SyntaxError) (files : Files),
      Code.compile "main.py" "\tx = \u3000 1\n" = .error e ∧ e.column = some 6 ∧
      files.get? "main.py" = some "\tx = \u3000 1\n" ∧
      files.line? "main.py" e.line = some "\tx = \u3000 1" ∧
      (ofSyntaxError e "main.py" files).PutsCaret "main.py" e.line "\tx = \u3000 1" 4 := by
  let e : SyntaxError := .spanning (.invalidCharacter '\u3000') ⟨1, 5, 1, 6⟩
  let files : Files := ⟨[("main.py", "\tx = \u3000 1\n")], List.pairwise_singleton _ _⟩
  have herror : Code.compile "main.py" "\tx = \u3000 1\n" = .error e :=
    eq_error_of_faultOf? (by decide +kernel)
  have hcolumn : e.column = some 6 := rfl
  have htext : files.get? "main.py" = some "\tx = \u3000 1\n" := rfl
  have hline : files.line? "main.py" e.line = some "\tx = \u3000 1" := by decide +kernel
  have hmargin : (margin "\tx = \u3000 1").length = 1 := by decide +kernel
  obtain ⟨row, gap, -, -, -, -, hputs, ⟨-, hgap⟩ | ⟨hunshown, -⟩⟩ :=
    caret_under_column herror hcolumn htext hline
  · obtain rfl : gap = 4 := by omega
    exact ⟨e, files, herror, hcolumn, htext, hline, hputs⟩
  · have := column_le_margin hunshown hcolumn
    omega

/-- A blank that may not stand before the first word of its line is not shown, and no caret stands
under it. -/
theorem caret_beside_column :
    ¬∀ (file text line : String) (e : SyntaxError) (column : Nat) (files : Files),
      Code.compile file text = .error e → e.column = some column → files.get? file = some text →
      files.line? file e.line = some line →
      ∃ gap, (ofSyntaxError e file files).PutsCaret file e.line line gap ∧
        (margin line).length + gap + 1 = column := by
  intro hall
  have hmargin : (margin "\u00a0x = 1").length = 1 := by decide +kernel
  obtain ⟨gap, -, hgap⟩ := hall "main.py" "\u00a0x = 1\n" "\u00a0x = 1"
    (.spanning (.invalidCharacter '\u00a0') ⟨1, 0, 1, 1⟩) 1
    ⟨[("main.py", "\u00a0x = 1\n")], List.pairwise_singleton _ _⟩
    (eq_error_of_faultOf? (by decide +kernel)) rfl rfl (by decide +kernel)
  omega

end Report

end Stepwise
