import Mathlib.Data.List.Forall2
import Stepwise.Proofs.Source.Scan
import Stepwise.Text.Newline

/-! Line feeds with and without a carriage return before them. The scan of a text and the scan of
the same text with returns are run side by side: they stand at the same place, but for a return
that only one of them has just passed. -/

namespace Stepwise.Source

/-- A carriage return before each line feed. -/
def withReturns (cs : List Char) : List Char :=
  cs.flatMap Text.expandLineFeed

/-- The same token, and if it has characters, at the same place. -/
structure Token.Alike (t u : Token) : Prop where
  kind : t.kind = u.kind
  span : t.kind.isLayout = false → t.kind ≠ .eof → t.span = u.span

section withReturns

variable {cs ds : List Char} {c : Char}

@[simp] theorem withReturns_nil : withReturns [] = [] := rfl

@[simp] theorem withReturns_newline (cs : List Char) :
    withReturns ('\n' :: cs) = '\r' :: '\n' :: withReturns cs := rfl

theorem withReturns_cons (hc : c ≠ '\n') (cs : List Char) :
    withReturns (c :: cs) = c :: withReturns cs := by
  rw [withReturns, List.flatMap_cons, Text.expandLineFeed, if_neg hc]
  rfl

theorem withReturns_append (cs ds : List Char) :
    withReturns (cs ++ ds) = withReturns cs ++ withReturns ds :=
  List.flatMap_append

theorem withReturns_eq_self (h : '\n' ∉ cs) : withReturns cs = cs := by
  induction cs with
  | nil => rfl
  | cons c cs ih =>
    obtain ⟨hc, hcs⟩ := not_or.1 (List.mem_cons.not.1 h)
    rw [withReturns_cons (fun he => hc he.symm), ih hcs]

theorem mem_withReturns (h : '\n' ∈ cs) : '\n' ∈ withReturns cs :=
  List.mem_flatMap.2 ⟨'\n', h, List.mem_cons_of_mem _ List.mem_cons_self⟩

theorem past_withReturns (p : Point) (cs : List Char) : p.past (withReturns cs) = p.past cs := by
  induction cs generalizing p with
  | nil => rfl
  | cons c cs ih =>
    by_cases hc : c = '\n'
    · subst hc
      exact ih _
    · rw [withReturns_cons hc, Point.past_cons, Point.past_cons, ih]

theorem drop_withReturns (h : ds <+: cs) :
    (withReturns cs).drop (withReturns ds).length = withReturns (cs.drop ds.length) := by
  obtain ⟨rest, rfl⟩ := h
  rw [withReturns_append, List.drop_left, List.drop_left]

theorem drop_withReturns_of_notMem (h : ds <+: cs) (hds : '\n' ∉ ds) :
    (withReturns cs).drop ds.length = withReturns (cs.drop ds.length) := by
  have hdrop := drop_withReturns h
  rwa [withReturns_eq_self hds] at hdrop

theorem head?_withReturns_ne (cs : List Char) : (withReturns cs).head? ≠ some '\n' := by
  cases cs with
  | nil => exact nofun
  | cons c cs =>
    by_cases hc : c = '\n'
    · subst hc
      exact fun h => absurd (Option.some.inj h) (by decide)
    · rw [withReturns_cons hc]
      exact fun h => hc (Option.some.inj h)

theorem head?_withReturns_any {p : Char → Bool} (hn : p '\n' = false) (hr : p '\r' = false)
    (cs : List Char) : (withReturns cs).head?.any p = cs.head?.any p := by
  cases cs with
  | nil => rfl
  | cons c cs =>
    by_cases hc : c = '\n'
    · subst hc
      exact hr.trans hn.symm
    · rw [withReturns_cons hc]
      rfl

theorem takeWhile_withReturns {p : Char → Bool} (hn : p '\n' = false) (hr : p '\r' = false)
    (cs : List Char) : (withReturns cs).takeWhile p = cs.takeWhile p := by
  induction cs with
  | nil => rfl
  | cons c cs ih =>
    by_cases hc : c = '\n'
    · subst hc
      rw [withReturns_newline, List.takeWhile_cons_of_neg (by simp [hr]),
        List.takeWhile_cons_of_neg (by simp [hn])]
    · rw [withReturns_cons hc, List.takeWhile_cons, List.takeWhile_cons, ih]

/-- A character of the text with returns that is no line feed, and no return before one, is one
of the text. -/
theorem exists_of_withReturns_eq {a b : List Char} (hn : c ≠ '\n')
    (hr : c ≠ '\r' ∨ b.head? ≠ some '\n')
    (h : withReturns cs = a ++ c :: b) :
    ∃ a' b', cs = a' ++ c :: b' ∧ a = withReturns a' ∧ b = withReturns b' := by
  induction cs generalizing a with
  | nil => exact absurd h (by simp)
  | cons d cs ih =>
    by_cases hd : d = '\n'
    · subst hd
      rw [withReturns_newline] at h
      match a, h with
      | [], h =>
        obtain ⟨rfl, rfl⟩ := List.cons.inj h
        exact absurd hr (by simp)
      | [_], h => exact absurd (List.cons.inj (List.cons.inj h).2).1.symm hn
      | _ :: _ :: a, h =>
        simp only [List.cons_append, List.cons.injEq] at h
        obtain ⟨rfl, rfl, h⟩ := h
        obtain ⟨a', b', rfl, rfl, hb⟩ := ih h
        exact ⟨'\n' :: a', b', rfl, rfl, hb⟩
    · rw [withReturns_cons hd] at h
      cases a with
      | nil =>
        obtain ⟨rfl, rfl⟩ := List.cons.inj h
        exact ⟨[], cs, rfl, rfl, rfl⟩
      | cons e a =>
        simp only [List.cons_append, List.cons.injEq] at h
        obtain ⟨rfl, h⟩ := h
        obtain ⟨a', b', rfl, rfl, hb⟩ := ih h
        exact ⟨d :: a', b', rfl, (withReturns_cons hd a').symm, hb⟩

end withReturns

namespace Lexer

theorem mantissa_withReturns (point : Bool) (cs : List Char) :
    mantissa point (withReturns cs) = mantissa point cs := by
  induction cs generalizing point with
  | nil => rfl
  | cons c cs ih =>
    by_cases hc : c = '\n'
    · subst hc
      cases point <;> rfl
    · rw [withReturns_cons hc, mantissa, mantissa, ih, ih]

theorem sign_withReturns (cs : List Char) : sign (withReturns cs) = sign cs := by
  cases cs with
  | nil => rfl
  | cons c cs =>
    by_cases hc : c = '\n'
    · subst hc
      rfl
    · rw [withReturns_cons hc]
      rfl

theorem notMem_mantissa (point : Bool) (cs : List Char) : '\n' ∉ mantissa point cs := by
  fun_induction mantissa point cs with
  | case1 => exact List.not_mem_nil
  | case2 point c cs hc ih =>
    refine fun h => (List.mem_cons.1 h).elim (fun he => ?_) ih
    subst he
    exact absurd hc (by decide)
  | case3 point c cs _ hc ih =>
    refine fun h => (List.mem_cons.1 h).elim (fun he => ?_) ih
    rw [← he] at hc
    exact absurd (Bool.and_eq_true_iff.1 hc).1 (by decide)
  | case4 => exact List.not_mem_nil

theorem notMem_sign (cs : List Char) : '\n' ∉ sign cs := by
  unfold sign
  split
  · next c _ =>
    split
    · next hc =>
      intro h
      rw [← List.mem_singleton.1 h] at hc
      exact absurd hc (by decide)
    · exact List.not_mem_nil
  · exact List.not_mem_nil

theorem notMem_exponent (cs : List Char) : '\n' ∉ exponent cs := by
  unfold exponent
  split
  · exact List.not_mem_nil
  · next e cs =>
    dsimp only
    split
    · next he =>
      intro h
      rcases List.mem_cons.1 h with rfl | h
      · exact absurd (Bool.and_eq_true_iff.1 he).1 (by decide)
      rcases List.mem_append.1 h with h | h
      · exact notMem_sign cs h
      · exact absurd (List.mem_takeWhile_imp h) (by decide)
    · exact List.not_mem_nil

theorem exponent_withReturns (cs : List Char) : exponent (withReturns cs) = exponent cs := by
  cases cs with
  | nil => rfl
  | cons e cs =>
    by_cases he : e = '\n'
    · subst he
      rfl
    · rw [withReturns_cons he]
      dsimp only [exponent]
      rw [sign_withReturns, drop_withReturns_of_notMem (prefix_sign cs) (notMem_sign cs),
        head?_withReturns_any rfl rfl, takeWhile_withReturns rfl rfl]

theorem markAt_withReturns (c : Char) (cs : List Char) :
    markAt? c (withReturns cs) = markAt? c cs := by
  cases cs with
  | nil => rfl
  | cons d cs =>
    by_cases hd : d = '\n'
    · subst hd
      unfold markAt?
      rw [withReturns_newline, List.head?_cons, List.head?_cons]
      split <;> simp_all
    · rw [withReturns_cons hd]
      rfl

theorem notMem_spelling (m : Mark) : '\n' ∉ m.spelling := by
  cases m <;> decide

theorem isWordStart_newline : isWordStart '\n' = false := by decide

theorem isWordStart_return : isWordStart '\r' = false := by decide

theorem isWordPart_newline : isWordPart '\n' = false := by decide

theorem isWordPart_return : isWordPart '\r' = false := by decide

section pieceAt

variable {c : Char} {cs : List Char}

theorem notMem_number (point : Bool) (cs : List Char) :
    '\n' ∉ mantissa point cs ++ exponent (cs.drop (mantissa point cs).length) :=
  fun h => (List.mem_append.1 h).elim (notMem_mantissa _ _) (notMem_exponent _)

/-- Other than a comment, a string or a joined line end, a piece is the same with returns. -/
theorem pieceAt_withReturns (hhash : c ≠ '#') (hquote : ¬(c = '"' ∨ c = '\''))
    (hjoin : ¬(c = '\\' ∧ cs.head? = some '\n')) : pieceAt c (withReturns cs) = pieceAt c cs := by
  have hcomment : (c == '#') = false := beq_false_of_ne hhash
  have hstring : (c == '"' || c == '\'') = false := by simpa using hquote
  have hjoined : (c == '\\' && cs.head? == some '\n') = false := by simpa using hjoin
  have hreturn : (c == '\\' && (withReturns cs).head? == some '\n') = false := by
    simp [head?_withReturns_ne]
  have hnumber := prefix_append (prefix_mantissa (c == '.') cs) (prefix_exponent _)
  unfold pieceAt
  dsimp only
  rw [hcomment, hstring, hjoined, hreturn, head?_withReturns_any rfl rfl, mantissa_withReturns,
    drop_withReturns_of_notMem (prefix_mantissa _ cs) (notMem_mantissa _ cs), exponent_withReturns,
    drop_withReturns_of_notMem hnumber (notMem_number _ cs),
    head?_withReturns_any isWordStart_newline isWordStart_return,
    takeWhile_withReturns isWordPart_newline isWordPart_return, markAt_withReturns]
  rfl

theorem notMem_pieceAt (hquote : ¬(c = '"' ∨ c = '\''))
    (hjoin : ¬(c = '\\' ∧ cs.head? = some '\n')) : '\n' ∉ (pieceAt c cs).2 := by
  unfold pieceAt
  dsimp only
  split
  · exact List.not_mem_nil
  split
  · exact List.not_mem_nil
  split
  · exact notMem_takeWhile_ne '\n' cs
  split
  · next h => exact absurd (by simpa using h) hjoin
  split
  · split
    · exact notMem_number _ cs
    · split <;> exact notMem_number _ cs
  split
  · next h => exact absurd (by simpa using h) hquote
  split
  · exact fun h => absurd (List.mem_takeWhile_imp h) (by rw [isWordPart_newline]; decide)
  split
  · next m _ => exact fun h => notMem_spelling m (List.mem_of_mem_drop h)
  · exact List.not_mem_nil

theorem pieceAt_quote (hc : c = '"' ∨ c = '\'') (cs : List Char) : pieceAt c cs =
    if (scanString c cs).closed then
      (.token (.str (String.ofList (scanString c cs).value)), (scanString c cs).taken)
    else (.fault .unterminatedString, (scanString c cs).taken) := by
  rcases hc with rfl | rfl <;> rfl

theorem pieceAt_withReturns_string (hc : c = '"' ∨ c = '\'')
    (hclosed : (scanString c cs).closed = true) (hline : '\n' ∉ (scanString c cs).taken) :
    pieceAt c (withReturns cs) = pieceAt c cs := by
  have hmark : c ≠ '\\' := by
    rcases hc with rfl | rfl <;> decide
  obtain ⟨rest, hrest⟩ := prefix_scanString c cs
  have hsplit : withReturns cs = (scanString c cs).taken ++ withReturns rest := by
    conv_lhs => rw [← hrest, withReturns_append, withReturns_eq_self hline]
  rw [pieceAt_quote hc, pieceAt_quote hc, hsplit, scanString_taken_append hmark hclosed]

end pieceAt

/-- What is left of a line: the text ends, or a line feed follows, and only in the text with
returns a return before it. -/
theorem span_withReturns (cs : List Char) :
    (cs.dropWhile (· != '\n') = [] ∧
      (withReturns cs).takeWhile (· != '\n') = cs.takeWhile (· != '\n') ∧
      (withReturns cs).dropWhile (· != '\n') = []) ∨
    ∃ rest, cs.dropWhile (· != '\n') = '\n' :: rest ∧
      (withReturns cs).takeWhile (· != '\n') = cs.takeWhile (· != '\n') ++ ['\r'] ∧
      (withReturns cs).dropWhile (· != '\n') = '\n' :: withReturns rest := by
  induction cs with
  | nil => exact .inl ⟨rfl, rfl, rfl⟩
  | cons c cs ih =>
    by_cases hc : c = '\n'
    · subst hc
      exact .inr ⟨cs, rfl, rfl, rfl⟩
    · have hne : (c != '\n') = true := bne_iff_ne.2 hc
      rw [withReturns_cons hc]
      simp only [List.takeWhile_cons_of_pos (p := (· != '\n')) hne,
        List.dropWhile_cons_of_pos (p := (· != '\n')) hne]
      rcases ih with ⟨hend, hline, hrest⟩ | ⟨rest, hend, hline, hrest⟩
      · exact .inl ⟨hend, congrArg (c :: ·) hline, hrest⟩
      · exact .inr ⟨rest, hend, congrArg (c :: ·) hline, hrest⟩

theorem prefix_throughLineEnd (cs : List Char) : throughLineEnd cs <+: cs :=
  prefix_append (List.takeWhile_prefix _)
    (drop_length_takeWhile (· != '\n') cs ▸ List.take_prefix 1 _)

theorem throughLineEnd_withReturns (cs : List Char) :
    throughLineEnd (withReturns cs) = withReturns (throughLineEnd cs) := by
  have hplain := withReturns_eq_self (notMem_takeWhile_ne '\n' cs)
  unfold throughLineEnd
  rw [withReturns_append, hplain]
  rcases span_withReturns cs with ⟨hend, hline, hrest⟩ | ⟨rest, hend, hline, hrest⟩
  · rw [hline, hrest, hend]
    rfl
  · rw [hline, hrest, hend, List.append_assoc]
    rfl

structure State.Akin (s u : State) : Prop where
  indents : u.indents = s.indents
  parens : u.parens = s.parens
  lineStart : u.lineStart = s.lineStart
  tokens : List.Forall₂ Token.Alike s.tokens u.tokens

structure State.Twins (s u : State) : Prop extends s.Akin u where
  rest : u.rest = withReturns s.rest
  place : u.place = s.place

structure State.Halfway (s u : State) : Prop extends s.Akin u where
  inLine : s.lineStart = false
  ahead : ∃ rest, s.rest = '\n' :: rest ∧ u.rest = '\n' :: withReturns rest
  line : u.place.line = s.place.line

namespace State

variable {s t u : State} {c : Char} {cs : List Char}

theorem openLine_nil (h : (s.skip (s.rest.takeWhile isIndentation)).rest = []) :
    s.openLine = .ok { s.skip (s.rest.takeWhile isIndentation) with lineStart := false } := by
  unfold State.openLine
  dsimp only
  rw [h]

theorem openLine_cons (h : (s.skip (s.rest.takeWhile isIndentation)).rest = c :: cs) :
    s.openLine =
      if c == '\n' || c == '\r' || c == '#' then
        .ok ((s.skip (s.rest.takeWhile isIndentation)).skip (throughLineEnd (c :: cs)))
      else (s.skip (s.rest.takeWhile isIndentation)).indentTo
        (indentWidth (s.rest.takeWhile isIndentation)) := by
  unfold State.openLine
  dsimp only
  rw [h]

theorem takePiece_newline (s : State) (cs : List Char) :
    s.takePiece '\n' cs =
      if s.parens.isEmpty then
        .ok { (s.skip ['\n']).newline (.point s.place) with lineStart := true }
      else .ok (s.skip ['\n']) := rfl

theorem takePiece_return (s : State) (cs : List Char) :
    s.takePiece '\r' cs = .ok (s.skip ['\r']) := rfl

theorem takePiece_comment (s : State) (cs : List Char) :
    s.takePiece '#' cs = .ok (s.skip ('#' :: cs.takeWhile (· != '\n'))) := rfl

theorem takePiece_join (s : State) (cs : List Char) :
    s.takePiece '\\' ('\n' :: cs) = .ok (s.skip ['\\', '\n']) := rfl

theorem takePiece_string {word : String} {more : List Char}
    (h : pieceAt c cs = (.token (.str word), more)) : s.takePiece c cs = .ok
      ((s.skip (c :: more)).push (.str word) (.between s.place (s.skip (c :: more)).place)) := by
  unfold State.takePiece
  rw [h]

theorem takePiece_fault {cause : SyntaxError.Cause} {more : List Char}
    (h : pieceAt c cs = (.fault cause, more)) : s.takePiece c cs =
      .error (.spanning cause (.between s.place (s.skip (c :: more)).place)) := by
  unfold State.takePiece
  rw [h]

theorem run_openLine (hs : s.lineStart = true) (h : s.openLine = .ok t) : s.run = t.run := by
  rw [State.run, dif_pos hs]
  split
  · next he => cases he.symm.trans h
  · next ht => exact congrArg State.run (Except.ok.inj (ht.symm.trans h))

theorem run_takePiece (hs : s.lineStart = false) (hr : s.rest = c :: cs)
    (h : s.takePiece c cs = .ok t) : s.run = t.run := by
  rw [State.run, dif_neg (by simp [hs])]
  split
  · next hnil => cases hnil.symm.trans hr
  · next hcons =>
    obtain ⟨rfl, rfl⟩ := List.cons.inj (hcons.symm.trans hr)
    split
    · next he => cases he.symm.trans h
    · next ht => exact congrArg State.run (Except.ok.inj (ht.symm.trans h))

theorem run_finish (hs : s.lineStart = false) (hr : s.rest = []) : s.run = s.finish := by
  rw [State.run, dif_neg (by simp [hs])]
  split
  · rfl
  · next hcons => cases hr.symm.trans hcons

theorem Akin.push (h : s.Akin u) {kind : Token.Kind} {a b : Span}
    (hspan : kind.isLayout = false → kind ≠ .eof → a = b) : (s.push kind a).Akin (u.push kind b) :=
  ⟨h.indents, h.parens, h.lineStart, .cons ⟨rfl, hspan⟩ h.tokens⟩

theorem any_isLayout {ts us : List Token} (h : List.Forall₂ Token.Alike ts us) :
    (us.head?.any fun t => !t.kind.isLayout) = ts.head?.any fun t => !t.kind.isLayout := by
  cases h with
  | nil => rfl
  | cons ht _ => exact congrArg (fun k : Token.Kind => !k.isLayout) ht.kind.symm

theorem Akin.newline (h : s.Akin u) (a b : Span) : (s.newline a).Akin (u.newline b) := by
  unfold State.newline
  rw [any_isLayout h.tokens]
  split
  · exact h.push nofun
  · exact h

theorem Twins.skip (h : s.Twins u) (hcs : cs <+: s.rest) :
    (s.skip cs).Twins (u.skip (withReturns cs)) where
  indents := h.indents
  parens := h.parens
  lineStart := h.lineStart
  tokens := h.tokens
  rest := by rw [skip_rest, skip_rest, h.rest, drop_withReturns hcs]
  place := (congrArg (Point.past · _) h.place).trans (past_withReturns s.place cs)

theorem Twins.skip_line (h : s.Twins u) (hcs : cs <+: s.rest) (hline : '\n' ∉ cs) :
    (s.skip cs).Twins (u.skip cs) := by
  have hskip := h.skip hcs
  rwa [withReturns_eq_self hline] at hskip

theorem Twins.push (h : s.Twins u) (kind : Token.Kind) (span : Span) :
    (s.push kind span).Twins (u.push kind span) :=
  ⟨h.toAkin.push fun _ _ => rfl, h.rest, h.place⟩

theorem Twins.withParens (h : s.Twins u) (parens : List Span) :
    ({ s with parens := parens } : State).Twins { u with parens := parens } :=
  ⟨⟨h.indents, rfl, h.lineStart, h.tokens⟩, h.rest, h.place⟩

theorem Twins.indentTo (h : s.Twins u) {width : Nat} (ht : s.indentTo width = .ok t) :
    ∃ v, u.indentTo width = .ok v ∧ t.Twins v := by
  unfold State.indentTo at ht ⊢
  rw [h.indents, h.place]
  by_cases hw : s.indents.headD 0 < width
  · rw [if_pos hw] at ht ⊢
    cases ht
    exact ⟨_, rfl, ⟨⟨rfl, h.parens, rfl, .cons ⟨rfl, nofun⟩ h.tokens⟩, h.rest, rfl⟩⟩
  · rw [if_neg hw] at ht ⊢
    dsimp only at ht ⊢
    by_cases hk : (s.indents.dropWhile (width < ·)).headD 0 = width
    · rw [if_pos hk] at ht ⊢
      cases ht
      refine ⟨_, rfl, ⟨⟨rfl, h.parens, rfl, ?_⟩, h.rest, rfl⟩⟩
      exact List.rel_append (List.forall₂_same.2 fun _ _ => ⟨rfl, fun _ _ => rfl⟩) h.tokens
    · rw [if_neg hk] at ht
      cases ht

theorem Twins.openLine (h : s.Twins u) (ht : s.openLine = .ok t) :
    ∃ v, u.openLine = .ok v ∧ t.Twins v := by
  have hmargin : u.rest.takeWhile isIndentation = s.rest.takeWhile isIndentation := by
    rw [h.rest, takeWhile_withReturns rfl rfl]
  have hplain : '\n' ∉ s.rest.takeWhile isIndentation :=
    fun hm => absurd (List.mem_takeWhile_imp hm) (by decide)
  have hskip := h.skip_line (List.takeWhile_prefix isIndentation) hplain
  have hrest := hskip.rest
  cases hr : (s.skip (s.rest.takeWhile isIndentation)).rest with
  | nil =>
    rw [hr] at hrest
    rw [openLine_nil hr] at ht
    cases ht
    refine ⟨_, openLine_nil (hmargin ▸ hrest), ?_⟩
    rw [hmargin]
    exact ⟨⟨hskip.indents, hskip.parens, rfl, hskip.tokens⟩, hskip.rest, hskip.place⟩
  | cons c cs =>
    have hline : ((s.skip (s.rest.takeWhile isIndentation)).skip (throughLineEnd (c :: cs))).Twins
        ((u.skip (s.rest.takeWhile isIndentation)).skip
          (throughLineEnd (withReturns (c :: cs)))) := by
      rw [throughLineEnd_withReturns]
      exact hskip.skip (hr ▸ prefix_throughLineEnd (c :: cs))
    rw [openLine_cons hr] at ht
    rw [hr] at hrest
    by_cases hc : c = '\n'
    · subst hc
      rw [withReturns_newline] at hrest
      refine ⟨_, (openLine_cons (hmargin ▸ hrest)).trans (if_pos rfl), ?_⟩
      have hblank : ('\n' == '\n' || '\n' == '\r' || '\n' == '#') = true := rfl
      rw [if_pos hblank] at ht
      cases ht
      rw [hmargin]
      exact hline
    · rw [withReturns_cons hc] at hrest hline
      rw [openLine_cons (hmargin ▸ hrest), hmargin]
      split at ht
      · next hblank =>
        cases ht
        exact ⟨_, if_pos hblank, hline⟩
      · next hcode =>
        rw [if_neg hcode]
        exact hskip.indentTo ht

theorem Twins.takePiece (h : s.Twins u) (hr : s.rest = c :: cs)
    (hc : c ≠ '\n') (hsame : pieceAt c (withReturns cs) = pieceAt c cs)
    (hmore : '\n' ∉ (pieceAt c cs).2) (ht : s.takePiece c cs = .ok t) :
    ∃ v, u.takePiece c (withReturns cs) = .ok v ∧ t.Twins v := by
  have hspells := pieceAt_spells c cs
  have hprefix : c :: (pieceAt c cs).2 <+: s.rest :=
    hr ▸ (List.prefix_cons_inj c).2 (prefix_pieceAt c cs)
  have hplain : '\n' ∉ c :: (pieceAt c cs).2 :=
    fun hm => (List.mem_cons.1 hm).elim (fun he => hc he.symm) hmore
  have hnext := h.skip_line hprefix hplain
  have hspan : Span.between u.place (u.skip (c :: (pieceAt c cs).2)).place =
      .between s.place (s.skip (c :: (pieceAt c cs).2)).place := by
    rw [h.place, hnext.place]
  unfold State.takePiece at ht ⊢
  rw [hsame]
  dsimp only at ht ⊢
  rw [hspan, h.parens]
  revert ht
  split
  · rintro ht
    cases ht
    exact ⟨_, rfl, hnext⟩
  · next hp =>
    rw [hp] at hspells
    exact absurd (List.cons.inj hspells).1 hc
  · exact nofun
  · rintro ht
    cases ht
    exact ⟨_, rfl, (hnext.withParens _).push _ _⟩
  · split
    · exact nofun
    · rintro ht
      cases ht
      exact ⟨_, rfl, (hnext.withParens _).push _ _⟩
  · rintro ht
    cases ht
    exact ⟨_, rfl, hnext.push _ _⟩

theorem Halfway.takePiece (h : s.Halfway u) (hr : s.rest = '\n' :: cs)
    (ht : s.takePiece '\n' cs = .ok t) :
    ∃ v, u.rest = '\n' :: withReturns cs ∧ u.takePiece '\n' (withReturns cs) = .ok v ∧
      t.Twins v := by
  obtain ⟨rest, hrest, hahead⟩ := h.ahead
  obtain ⟨-, rfl⟩ := List.cons.inj (hr.symm.trans hrest)
  have hnext : (s.skip ['\n']).Twins (u.skip ['\n']) := by
    refine ⟨⟨h.indents, h.parens, h.lineStart, h.tokens⟩, ?_, ?_⟩
    · rw [skip_rest, skip_rest, hahead, hrest]
      rfl
    · change Point.mk (u.place.line + 1) 0 = Point.mk (s.place.line + 1) 0
      rw [h.line]
  rw [takePiece_newline, ← h.parens] at ht
  rw [takePiece_newline]
  split at ht
  · next hp =>
    cases ht
    rw [if_pos hp]
    have hakin := hnext.toAkin.newline (.point s.place) (.point u.place)
    refine ⟨_, hahead, rfl, ⟨hakin.indents, hakin.parens, rfl, hakin.tokens⟩, ?_, ?_⟩
    · exact (newline_rest _ _).trans (hnext.rest.trans (congrArg _ (newline_rest _ _).symm))
    · exact (newline_place _ _).trans (hnext.place.trans (newline_place _ _).symm)
  · next hp =>
    cases ht
    rw [if_neg hp]
    exact ⟨_, hahead, rfl, hnext⟩

theorem Twins.finish (h : s.Twins u) {ts : List Token} (ht : s.finish = .ok ts) :
    ∃ us, u.finish = .ok us ∧ List.Forall₂ Token.Alike ts us := by
  unfold State.finish at ht ⊢
  rw [h.parens]
  split at ht
  · cases ht
  · cases ht
    have hnewline := h.toAkin.newline (.point s.place) (.point u.place)
    refine ⟨_, rfl, List.rel_append (List.rel_append ?_ ?_) (.cons ⟨rfl, nofun⟩ .nil)⟩
    · exact List.rel_reverse hnewline.tokens
    · rw [hnewline.indents, h.place]
      exact List.forall₂_same.2 fun _ _ => ⟨rfl, fun _ _ => rfl⟩

theorem Twins.halfway (h : s.Twins u) (hs : s.lineStart = false) (hr : s.rest = '\n' :: cs) :
    u.run = (u.skip ['\r']).run ∧ s.Halfway (u.skip ['\r']) := by
  have hrest : u.rest = '\r' :: '\n' :: withReturns cs := by rw [h.rest, hr, withReturns_newline]
  refine ⟨run_takePiece (h.lineStart.trans hs) hrest (takePiece_return _ _), ?_⟩
  refine ⟨⟨h.indents, h.parens, h.lineStart, h.tokens⟩, hs, ⟨cs, hr, ?_⟩, ?_⟩
  · rw [skip_rest, hrest]
    rfl
  · change u.place.line = s.place.line
    rw [h.place]

theorem Twins.comment (h : s.Twins u) (hs : s.lineStart = false) (hr : s.rest = '#' :: cs)
    (ht : s.takePiece '#' cs = .ok t) :
    ∃ v, u.takePiece '#' (withReturns cs) = .ok v ∧ (t.Twins v ∨ t.Halfway v) := by
  rw [takePiece_comment] at ht
  cases ht
  refine ⟨_, takePiece_comment u _, ?_⟩
  have hahead : '#' :: cs.takeWhile (· != '\n') <+: s.rest :=
    hr ▸ (List.prefix_cons_inj '#').2 (List.takeWhile_prefix _)
  have hline := h.skip_line hahead
    (fun hm => (List.mem_cons.1 hm).elim (by decide) (notMem_takeWhile_ne '\n' cs))
  rcases span_withReturns cs with ⟨hend, htake, hdrop⟩ | ⟨rest, hend, htake, hdrop⟩
  · rw [htake]
    exact .inl hline
  · rw [htake, ← List.cons_append, skip_append]
    have hahead : (s.skip ('#' :: cs.takeWhile (· != '\n'))).rest = '\n' :: rest := by
      rw [skip_rest, hr, List.length_cons, List.drop_succ_cons, drop_length_takeWhile, hend]
    refine .inr ⟨⟨hline.indents, hline.parens, hline.lineStart, hline.tokens⟩, hs,
      ⟨rest, hahead, ?_⟩, ?_⟩
    · rw [skip_rest, hline.rest, hahead]
      rfl
    · change (u.skip ('#' :: cs.takeWhile (· != '\n'))).place.line = _
      rw [hline.place]

end State

theorem Scan.covered_of_hash {text : List Char} {k : Scan} (h : (Scan.start text).Leads k)
    (hk : ¬AtLineEnd k.ahead) : ∀ before line, k.gone = before ++ '#' :: line → '\n' ∉ line →
      Covered k.tokens (Point.first.past before) := by
  have earlier {cs rest line : List Char} (hk : ¬AtLineEnd rest) (hline : '\n' ∉ line ++ cs) :
      ¬AtLineEnd (cs ++ rest) := by
    cases cs with
    | nil => exact hk
    | cons c cs =>
      rintro (he | he)
      · exact absurd he (by simp)
      · exact hline (by simp [Option.some.inj he])
  induction h with
  | refl => exact fun before line he => absurd he (by simp [start])
  | tail h hstep ih =>
    cases hstep with
    | @token gone cs rest ts kind hs =>
      intro before line he hline
      rcases append_eq_append_cons he with ⟨line, hgone, rfl⟩ | ⟨a, rfl, rfl⟩
      · exact (ih (earlier hk hline) before line hgone
          fun hm => hline (List.mem_append_left _ hm)).cons _
      · refine ⟨_, List.mem_cons_self, Point.past_le_past_append _ _ _, ?_⟩
        rw [Span.stop_between, ← List.append_assoc, Point.past_append _ (gone ++ a)]
        exact Point.lt_past_cons _ _ _
    | @gap gone cs rest ts hg =>
      intro before line he hline
      rcases append_eq_append_cons he with ⟨line, hgone, rfl⟩ | ⟨a, -, hcs⟩
      · exact ih (earlier hk hline) before line hgone fun hm => hline (List.mem_append_left _ hm)
      · have hmem : '#' ∈ cs := hcs ▸ List.mem_append_right a List.mem_cons_self
        cases hg with
        | spaces hg => exact absurd (hg '#' hmem) (by decide)
        | comment _ hend => exact absurd hend hk
        | joined => exact absurd hmem (by decide)
    | hidden _ _ _ hend => exact absurd hend hk

namespace State

variable {s t u : State} {text cs : List Char} {c : Char} {k : Scan} {ts : List Token}

theorem Agrees.restart (h : s.Agrees text k) : ∃ gone, text = gone ++ s.rest ∧
    s.place = Point.first.past gone ∧ k.Leads ⟨gone, s.rest, s.tokens⟩ ∧
    s.Agrees text ⟨gone, s.rest, s.tokens⟩ := by
  obtain ⟨gone, htext, hplace, hleads⟩ := h.scanned
  exact ⟨gone, htext, hplace, hleads, ⟨⟨gone, htext, hplace, .refl⟩, h.parens⟩, h.fresh⟩

theorem Agrees.tokens_eq (h : s.Agrees text k) (hrun : s.run = .ok ts) :
    ∃ new, ts.reverse = new ++ s.tokens ∧ ∀ t ∈ new, s.place ≤ t.span.start := by
  obtain ⟨gone, -, hplace, -, hagain⟩ := h.restart
  have hscans := hagain.run
  rw [hrun] at hscans
  exact hplace ▸ hscans.tokens_eq

theorem Agrees.mem_of_run (h : s.Agrees text k) (hrun : s.run = .ok ts) {t : Token}
    (ht : t ∈ s.tokens) : t ∈ ts := by
  obtain ⟨new, hnew, -⟩ := h.tokens_eq hrun
  exact List.mem_reverse.1 (hnew ▸ List.mem_append_right new ht)

theorem Agrees.not_covered_join (h : s.Agrees text (.start text)) (hs : s.lineStart = false)
    (hr : s.rest = '\\' :: '\n' :: cs) (hrun : (s.skip ['\\', '\n']).run = .ok ts) :
    ∃ gone post, text = gone ++ '\\' :: '\n' :: post ∧ ¬Covered ts (Point.first.past gone) ∧
      ¬Commented ts gone '\\' := by
  obtain ⟨gone, htext, hplace, hleads, -⟩ := h.restart
  have hnext : (s.skip ['\\', '\n']).Agrees text (.start text) :=
    (h.gap ⟨cs, hr.symm⟩ .joined).agrees hs
  obtain ⟨new, hnew, hlater⟩ := hnext.tokens_eq hrun
  have hbehind : Point.first.past gone < (s.skip ['\\', '\n']).place :=
    hplace ▸ Point.lt_past_cons s.place '\\' ['\n']
  refine ⟨gone, cs, hr ▸ htext, ?_, ?_⟩
  · rintro ⟨t, ht, hcovers⟩
    rw [← List.mem_reverse, hnew] at ht
    rcases List.mem_append.1 ht with ht | ht
    · exact (hcovers.1.trans_lt (hbehind.trans_le (hlater t ht))).false
    · exact (hcovers.2.trans_le (Scan.stop_le hleads t ht)).false
  · rintro ⟨hline, hfree, hout⟩
    rcases append_eq_append_cons hline with ⟨line, hgone, rfl⟩ | ⟨a, -, ha⟩
    · have hahead : ¬AtLineEnd s.rest := by simp [AtLineEnd, hr]
      obtain ⟨t, ht, hcovers⟩ := Scan.covered_of_hash hleads hahead _ line hgone
        fun hm => hfree (List.mem_append_left _ hm)
      exact hout ⟨t, List.mem_reverse.1 (hnew ▸ List.mem_append_right new ht), hcovers⟩
    · have hmem : '#' ∈ ['\\'] := ha ▸ List.mem_append_right a List.mem_cons_self
      exact absurd hmem (by decide)

theorem Agrees.string_line (h : s.Agrees text k) (hs : s.lineStart = false) (hr : s.rest = c :: cs)
    (hc : c = '"' ∨ c = '\'') (ht : s.takePiece c cs = .ok t) (hrun : t.run = .ok ts)
    (hstrings : ∀ t ∈ ts, ∀ w, t.kind = .str w → t.span.line = t.span.endLine) :
    (scanString c cs).closed = true ∧ '\n' ∉ (scanString c cs).taken := by
  have hstep := h.takePiece hs hr
  rw [ht] at hstep
  have hpiece := pieceAt_quote hc cs
  by_cases hclosed : (scanString c cs).closed = true
  · refine ⟨hclosed, fun hm => ?_⟩
    rw [if_pos hclosed] at hpiece
    rw [takePiece_string hpiece] at ht
    cases ht
    have hline := hstrings _ (hstep.mem_of_run hrun List.mem_cons_self) _ rfl
    have hcount := Point.line_past s.place (c :: (scanString c cs).taken)
    have hpos := List.count_pos_iff.2 (List.mem_cons_of_mem c hm)
    have hend : s.place.line = (s.place.past (c :: (scanString c cs).taken)).line := hline
    omega
  · rw [if_neg hclosed] at hpiece
    rw [takePiece_fault hpiece] at ht
    cases ht

theorem Agrees.step_withReturns (h : s.Agrees text (.start text)) (hs : s.lineStart = false)
    (hr : s.rest = c :: cs) (ht : s.takePiece c cs = .ok t) (hrun : t.run = .ok ts)
    (hjoins : ∀ gone post, text = gone ++ '\\' :: '\n' :: post →
      Covered ts (Point.first.past gone) ∨ Commented ts gone '\\')
    (hstrings : ∀ t ∈ ts, ∀ w, t.kind = .str w → t.span.line = t.span.endLine)
    (hu : s.Twins u ∨ s.Halfway u) : ∃ v, u.run = v.run ∧ (t.Twins v ∨ t.Halfway v) := by
  by_cases hc : c = '\n'
  · subst hc
    have half {w : State} (hw : s.Halfway w) : ∃ v, w.run = v.run ∧ (t.Twins v ∨ t.Halfway v) := by
      obtain ⟨v, hrest, hv, htwins⟩ := hw.takePiece hr ht
      exact ⟨v, run_takePiece (hw.lineStart.trans hs) hrest hv, .inl htwins⟩
    rcases hu with hu | hu
    · obtain ⟨hpass, hhalf⟩ := hu.halfway hs hr
      exact hpass ▸ half hhalf
    · exact half hu
  have hu : s.Twins u := hu.resolve_right fun ⟨_, _, ⟨_, hrest, _⟩, _⟩ =>
    hc (List.cons.inj (hr.symm.trans hrest)).1
  have hrest : u.rest = c :: withReturns cs := by rw [hu.rest, hr, withReturns_cons hc]
  have hinLine : u.lineStart = false := hu.lineStart.trans hs
  have same (hsame : pieceAt c (withReturns cs) = pieceAt c cs) (hmore : '\n' ∉ (pieceAt c cs).2) :
      ∃ v, u.run = v.run ∧ (t.Twins v ∨ t.Halfway v) := by
    obtain ⟨v, hv, htwins⟩ := hu.takePiece hr hc hsame hmore ht
    exact ⟨v, run_takePiece hinLine hrest hv, .inl htwins⟩
  by_cases hhash : c = '#'
  · subst hhash
    obtain ⟨v, hv, htwins⟩ := hu.comment hs hr ht
    exact ⟨v, run_takePiece hinLine hrest hv, htwins⟩
  by_cases hquote : c = '"' ∨ c = '\''
  · obtain ⟨hclosed, hline⟩ := h.string_line hs hr hquote ht hrun hstrings
    refine same (pieceAt_withReturns_string hquote hclosed hline) ?_
    rw [pieceAt_quote hquote, if_pos hclosed]
    exact hline
  · have hjoin : ¬(c = '\\' ∧ cs.head? = some '\n') := by
      rintro ⟨rfl, hhead⟩
      obtain ⟨rest, rfl⟩ := List.head?_eq_some_iff.1 hhead
      rw [takePiece_join] at ht
      cases ht
      obtain ⟨gone, post, htext, hcovered, hcommented⟩ := h.not_covered_join hs hr hrun
      exact (hjoins gone post htext).elim hcovered hcommented
    exact same (pieceAt_withReturns hhash hquote hjoin) (notMem_pieceAt hquote hjoin)

theorem Agrees.run_withReturns (h : s.Agrees text (.start text)) (hrun : s.run = .ok ts)
    (hjoins : ∀ gone post, text = gone ++ '\\' :: '\n' :: post →
      Covered ts (Point.first.past gone) ∨ Commented ts gone '\\')
    (hstrings : ∀ t ∈ ts, ∀ w, t.kind = .str w → t.span.line = t.span.endLine)
    (hu : s.Twins u ∨ s.Halfway u) :
    ∃ us, u.run = .ok us ∧ List.Forall₂ Token.Alike ts us := by
  fun_induction State.run s generalizing u with
  | case1 => cases hrun
  | case2 s hs t ht ih =>
    have hstep := h.openLine hs
    rw [ht] at hstep
    have hu : s.Twins u := hu.resolve_right fun hhalf =>
      absurd (hhalf.inLine.symm.trans hs) Bool.false_ne_true
    obtain ⟨v, hv, htwins⟩ := hu.openLine ht
    rw [run_openLine (hu.lineStart.trans hs) hv]
    exact ih hstep hrun (.inl htwins)
  | case3 s hs hr =>
    obtain hu | ⟨_, _, ⟨_, hrest, _⟩, _⟩ := hu
    swap
    · cases hr.symm.trans hrest
    have hend : u.rest = [] := by rw [hu.rest, hr, withReturns_nil]
    rw [run_finish (hu.lineStart.trans (by simpa using hs)) hend]
    exact hu.finish hrun
  | case4 => cases hrun
  | case5 s hs c cs hr t ht ih =>
    have hinLine : s.lineStart = false := by simpa using hs
    have hstep := h.takePiece hinLine hr
    rw [ht] at hstep
    obtain ⟨v, hv, htwins⟩ := h.step_withReturns hinLine hr ht hrun hjoins hstrings hu
    rw [hv]
    exact ih hstep hrun htwins

end State

theorem not_covers_of_shape {text : List Char} {t : Token} (h : t.PartOf text)
    (hkind : t.kind.isLayout = true ∨ t.kind = .eof) (p : Point) : ¬t.span.Covers p := by
  obtain ⟨before, cs, after, -, hspan, hspelled⟩ := h
  have hcs : cs = [] := by
    obtain ⟨kind, span⟩ := t
    cases kind <;> simp_all [Token.Kind.isLayout, Token.Kind.SpelledBy]
  rintro ⟨hstart, hstop⟩
  rw [hspan, hcs, List.append_nil] at hstart hstop
  exact (hstart.trans_lt hstop).false

theorem covered_of_alike {text : List Char} {ts us : List Token} {p : Point}
    (h : List.Forall₂ Token.Alike ts us) (hts : ∀ t ∈ ts, t.PartOf text) (hp : Covered ts p) :
    Covered us p := by
  induction h with
  | nil => exact hp
  | cons halike hrest ih =>
    obtain ⟨x, hx, hcovers⟩ := hp
    rcases List.mem_cons.1 hx with rfl | hx
    · have hshape := mt (not_covers_of_shape (hts x List.mem_cons_self) · p) (not_not_intro hcovers)
      obtain ⟨hlayout, heof⟩ := not_or.1 hshape
      exact ⟨_, List.mem_cons_self, halike.span (by simpa using hlayout) heof ▸ hcovers⟩
    · exact (ih (fun t ht => hts t (List.mem_cons_of_mem _ ht)) ⟨x, hx, hcovers⟩).cons _

theorem alike_symm {ts us : List Token} (h : List.Forall₂ Token.Alike ts us) :
    List.Forall₂ Token.Alike us ts :=
  List.Forall₂.flip <| h.imp fun _ _ ha =>
    ⟨ha.kind.symm, fun hlayout heof => (ha.span (ha.kind ▸ hlayout) (ha.kind ▸ heof)).symm⟩

/-- A text without returns, whose strings are each on one line, has the same tokens with returns
if and only if no backslash joins two lines. -/
theorem tokenize_withReturns {text : String} {ts : List Token} (h : tokenize text = .ok ts)
    (hreturn : '\r' ∉ text.toList)
    (hstrings : ∀ t ∈ ts, ∀ w, t.kind = .str w → t.span.line = t.span.endLine) :
    (∃ us, tokenize (String.ofList (withReturns text.toList)) = .ok us ∧
        List.Forall₂ Token.Alike ts us) ↔
      ∀ gone post, text.toList = gone ++ '\\' :: '\n' :: post →
        Covered ts (Point.first.past gone) ∨ Commented ts gone '\\' := by
  obtain ⟨-, hts, -⟩ := tokenize_accounts h
  constructor
  · rintro ⟨us, hus, halike⟩ gone post htext
    obtain ⟨-, hparts, haccounts⟩ := tokenize_accounts hus
    rw [String.toList_ofList] at hparts haccounts
    have hwhole : withReturns text.toList =
        withReturns gone ++ '\\' :: '\r' :: '\n' :: withReturns post := by
      rw [htext, withReturns_append, withReturns_cons (by decide), withReturns_newline]
    have hplace : Point.first.past (withReturns gone) = Point.first.past gone :=
      past_withReturns _ _
    rcases haccounts _ _ _ hwhole with hcovered | (hspace | hcomment | ⟨-, hpost⟩) | hbehind
    · exact .inl (covered_of_alike (alike_symm halike) hparts (hplace ▸ hcovered))
    · exact absurd hspace (by decide)
    · obtain ⟨hline, hfree, hout⟩ := hcomment
      have hshort : withReturns (gone ++ ['\\']) = withReturns gone ++ ['\\'] :=
        withReturns_append gone ['\\']
      obtain ⟨before, line, hgone, rfl, rfl⟩ :=
        exists_of_withReturns_eq (by decide) (.inl (by decide)) (hshort.trans hline)
      refine .inr ⟨hgone, fun hm => hfree (mem_withReturns hm), fun hcovered => hout ?_⟩
      rw [past_withReturns]
      exact covered_of_alike halike hts hcovered
    · exact absurd (List.cons.inj hpost).1 (by decide)
    · obtain ⟨hgone, -, -, hfree, -⟩ := hbehind
      rw [← List.append_assoc] at hgone
      obtain ⟨before, line, hgone, -, -⟩ := exists_of_withReturns_eq (by decide)
        (.inr fun hhead => hfree (List.mem_of_mem_head? hhead)) hgone
      have hmem : '\r' ∈ gone := hgone ▸ List.mem_append_right before List.mem_cons_self
      exact absurd (htext ▸ List.mem_append_left _ hmem) hreturn
  · intro hjoins
    have hstart : (State.start text.toList).Twins
        (State.start (withReturns text.toList)) := ⟨⟨rfl, rfl, rfl, .nil⟩, rfl, rfl⟩
    unfold tokenize
    rw [String.toList_ofList]
    exact (State.Agrees.start text.toList).run_withReturns h hjoins hstrings (.inl hstart)

theorem tokenize_withReturns_block :
    ∃ ts, tokenize "if x:\n  y = 'a' # b \\\n" = .ok ts ∧
      '\r' ∉ "if x:\n  y = 'a' # b \\\n".toList ∧
      (∀ t ∈ ts, ∀ w, t.kind = .str w → t.span.line = t.span.endLine) ∧
      ((∃ us, tokenize (String.ofList (withReturns "if x:\n  y = 'a' # b \\\n".toList)) = .ok us ∧
          List.Forall₂ Token.Alike ts us) ↔
        ∀ gone post, "if x:\n  y = 'a' # b \\\n".toList = gone ++ '\\' :: '\n' :: post →
          Covered ts (Point.first.past gone) ∨ Commented ts gone '\\') := by
  have hspans : (tokenize "if x:\n  y = 'a' # b \\\n").toOption.map (·.map Token.span) =
      some [⟨1, 0, 1, 2⟩, ⟨1, 3, 1, 4⟩, ⟨1, 4, 1, 5⟩, ⟨1, 5, 1, 5⟩, ⟨2, 2, 2, 2⟩, ⟨2, 2, 2, 3⟩,
        ⟨2, 4, 2, 5⟩, ⟨2, 6, 2, 9⟩, ⟨2, 15, 2, 15⟩, ⟨3, 0, 3, 0⟩, ⟨3, 0, 3, 0⟩] := by
    decide +kernel
  obtain ⟨ts, hts, hspans⟩ := exists_of_spans hspans
  have hreturn : '\r' ∉ "if x:\n  y = 'a' # b \\\n".toList := by decide
  have hlines : ∀ s ∈ ts.map Token.span, s.line = s.endLine := by
    rw [hspans]
    decide
  have hstrings : ∀ t ∈ ts, ∀ w, t.kind = .str w → t.span.line = t.span.endLine :=
    fun t ht _ _ => hlines t.span (List.mem_map_of_mem ht)
  exact ⟨ts, hts, hreturn, hstrings, tokenize_withReturns hts hreturn hstrings⟩

/-- With a return between them, a backslash and a line feed do not join two lines. -/
theorem return_breaks_join :
    ∃ ts, tokenize "x = 1 + \\\n2\n" = .ok ts ∧ '\r' ∉ "x = 1 + \\\n2\n".toList ∧
      (∀ t ∈ ts, t.span.line = t.span.endLine) ∧
      ∀ us, tokenize (String.ofList (withReturns "x = 1 + \\\n2\n".toList)) ≠ .ok us := by
  have hspans : (tokenize "x = 1 + \\\n2\n").toOption.map (·.map Token.span) =
      some [⟨1, 0, 1, 1⟩, ⟨1, 2, 1, 3⟩, ⟨1, 4, 1, 5⟩, ⟨1, 6, 1, 7⟩, ⟨2, 0, 2, 1⟩, ⟨2, 1, 2, 1⟩,
        ⟨3, 0, 3, 0⟩] := by
    decide +kernel
  obtain ⟨ts, hts, hspans⟩ := exists_of_spans hspans
  have hlines : ∀ s ∈ ts.map Token.span, s.line = s.endLine := by
    rw [hspans]
    decide
  have hnone : (tokenize (String.ofList (withReturns "x = 1 + \\\n2\n".toList))).toOption.isNone =
      true := by
    decide +kernel
  refine ⟨ts, hts, by decide, fun t ht => hlines t.span (List.mem_map_of_mem ht), fun us hus => ?_⟩
  rw [hus] at hnone
  exact absurd hnone Bool.false_ne_true

end Lexer

end Stepwise.Source
