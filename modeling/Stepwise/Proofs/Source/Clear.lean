import Stepwise.Proofs.Source.Extent
import Stepwise.Proofs.Source.Starts
import Stepwise.Text.Blank

/-! Where tokens start. More characters are blank than may stand between tokens, and one of the
others is a fault wherever the scan comes to it. A block may begin or end before such a character,
but then the scan gets no further; so what is scanned to the end has tokens only where no blank
follows on the line. -/

namespace Stepwise.Source

namespace Lexer

def isStray (c : Char) : Bool :=
  Text.isBlank c && !(c == ' ' || c == '\t' || c == '\r' || c == '\n')

end Lexer

def Point.Clear (text : List Char) (p : Point) : Prop :=
  ∃ pre post, text = pre ++ post ∧ p = first.past pre ∧
    ∀ c ∈ post.head?, c = '\n' ∨ Text.isBlank c = false

inductive SyntaxError.Stray (text : List Char) (e : SyntaxError) : Prop
  | intro {pre post : List Char} {c : Char} (htext : text = pre ++ c :: post)
      (hc : Lexer.isStray c = true)
      (he : e = .spanning (.invalidCharacter c)
        (.between (Point.first.past pre) (Point.first.past (pre ++ [c]))))

def SyntaxError.Seen (text : List Char) (e : SyntaxError) : Prop :=
  e.StartsAt (Point.Clear text) ∨ e.Stray text

namespace Lexer

section Blank

variable {c : Char}

def blanks : List Char :=
  Text.blankRanges.flatMap fun r => (List.range' r.1 (r.2 + 1 - r.1)).map Char.ofNat

theorem mem_blanks (hc : Text.isBlank c = true) : c ∈ blanks := by
  obtain ⟨r, hr, hin⟩ := List.any_eq_true.1 hc
  obtain ⟨hlow, hhigh⟩ := Bool.and_eq_true_iff.1 hin
  refine List.mem_flatMap.2 ⟨r, hr, List.mem_map.2 ⟨c.toNat, List.mem_range'_1.2 ?_, ?_⟩⟩
  · have := of_decide_eq_true hlow
    have := of_decide_eq_true hhigh
    omega
  · exact Char.ofNat_toNat c

def opensPiece (c : Char) : Bool :=
  isWordStart c || c.isDigit || c == '#' || c == '\\' || c == '.' || c == '"' || c == '\''

theorem opensPiece_blank (hc : Text.isBlank c = true) : opensPiece c = false := by
  have hall : blanks.all (fun d => !opensPiece d) = true := by decide +kernel
  simpa using List.all_eq_true.1 hall c (mem_blanks hc)

theorem markAt_blank (hc : Text.isBlank c = true) (cs : List Char) : markAt? c cs = none := by
  have hmark (m : Mark) : m.spelling.head?.any Text.isBlank = false := by cases m <;> rfl
  cases hm : markAt? c cs with
  | none => rfl
  | some m =>
    have hhead : m.spelling.head? = some c := by
      rw [(markAt_spelling hm).1]
      rfl
    have hblank := hmark m
    rw [hhead] at hblank
    exact nomatch hc.symm.trans hblank

theorem pieceAt_stray (hc : isStray c = true) (cs : List Char) :
    pieceAt c cs = (.fault (.invalidCharacter c), []) := by
  obtain ⟨hblank, hother⟩ := Bool.and_eq_true_iff.1 hc
  have hopens := opensPiece_blank hblank
  have hspace : (c == ' ' || c == '\t' || c == '\r') = false ∧ (c == '\n') = false := by
    simpa [and_assoc] using hother
  simp only [opensPiece, Bool.or_eq_false_iff] at hopens
  simp [pieceAt, hspace, hopens, markAt_blank hblank]

end Blank

def State.Blocked (s : State) : Prop :=
  s.lineStart = false ∧ ∃ c ∈ s.rest.head?, isStray c = true

structure State.Clears (text : List Char) (s : State) : Prop where
  tokens : s.Blocked ∨ ∀ t ∈ s.tokens, t.span.start.Clear text
  parens : ∀ span ∈ s.parens, span.start.Clear text

def Reaches (text : List Char) {α : Type} (Q : α → Prop) : Except SyntaxError α → Prop
  | .ok a => Q a
  | .error e => e.Seen text

section Clears

variable {text : List Char} {k : Scan} {s : State} {c : Char} {cs : List Char}

theorem State.Through.clear (h : s.Through text k)
    (hs : ∀ c ∈ s.rest.head?, c = '\n' ∨ Text.isBlank c = false) : s.place.Clear text := by
  obtain ⟨gone, htext, hplace, -⟩ := h.scanned
  exact ⟨gone, s.rest, htext, hplace, hs⟩

theorem State.newline_clears {p : Point} (hp : p.Clear text)
    (hs : ∀ t ∈ s.tokens, t.span.start.Clear text) :
    ∀ t ∈ (s.newline (.point p)).tokens, t.span.start.Clear text := by
  unfold State.newline
  split
  · exact List.forall_mem_cons.2 ⟨hp, hs⟩
  · exact hs

theorem State.newline_parens (s : State) (span : Span) : (s.newline span).parens = s.parens := by
  unfold State.newline
  split <;> rfl

/-- A block begins or ends at a character that begins a token, or that the scan cannot take. -/
theorem State.Through.indentTo_clears (h : s.Through text k)
    (htokens : ∀ t ∈ s.tokens, t.span.start.Clear text)
    (hparens : ∀ span ∈ s.parens, span.start.Clear text) (hr : s.rest = c :: cs)
    (hspace : (c == ' ' || c == '\t' || c == '\r' || c == '\n') = false) (width : Nat) :
    Reaches text (State.Clears text) (s.indentTo width) := by
  have hplace : isStray c = true ∨ s.place.Clear text := by
    by_cases hc : Text.isBlank c = true
    · exact .inl (by rw [isStray, hc, hspace]; rfl)
    · refine .inr (h.clear ?_)
      rw [hr]
      rintro d ⟨⟩
      exact .inr (Bool.eq_false_iff.2 hc)
  have blocked {t : State} (ht : t.rest = s.rest) (hline : t.lineStart = false)
      (hc : isStray c = true) : t.Blocked :=
    ⟨hline, c, by rw [ht, hr]; rfl, hc⟩
  unfold State.indentTo
  split
  · exact ⟨hplace.imp (blocked rfl rfl) fun hp => List.forall_mem_cons.2 ⟨hp, htokens⟩, hparens⟩
  · dsimp only
    split
    · refine ⟨hplace.imp (blocked rfl rfl) fun hp t ht => ?_, hparens⟩
      rcases List.mem_append.1 ht with ht | ht
      · rw [List.eq_of_mem_replicate ht]
        exact hp
      · exact htokens t ht
    · exact .inl (SyntaxError.startsAt_onLine _ _)

theorem State.Agrees.openLine_clears (h : s.Agrees text k) (hc : s.Clears text)
    (hs : s.lineStart = true) : Reaches text (State.Clears text) s.openLine := by
  have htokens : ∀ t ∈ s.tokens, t.span.start.Clear text :=
    hc.tokens.resolve_left fun hb => nomatch hb.1.symm.trans hs
  have hbehind : (s.skip (s.rest.takeWhile isIndentation)).Through text k :=
    h.gap (List.takeWhile_prefix _)
      (.spaces fun c hc => isSpace_of_isIndentation (List.mem_takeWhile_imp hc))
  unfold State.openLine
  dsimp only
  split
  · exact ⟨.inr htokens, hc.parens⟩
  · next c cs hahead =>
    split
    · exact ⟨.inr htokens, hc.parens⟩
    · next hline =>
      refine hbehind.indentTo_clears htokens hc.parens hahead ?_ _
      have hmargin : isIndentation c = false := by
        have hdrop : s.rest.dropWhile isIndentation = c :: cs := by
          rw [← drop_length_takeWhile]
          exact hahead
        have hhead := List.head?_dropWhile_not isIndentation s.rest
        rw [hdrop] at hhead
        simpa using hhead
      simp only [isIndentation, Bool.or_eq_false_iff] at hmargin
      simp only [Bool.not_eq_true, Bool.or_eq_false_iff] at hline ⊢
      exact ⟨⟨hmargin.1, hline.1.2⟩, hline.1.1⟩

theorem State.Agrees.takePiece_clears (h : s.Agrees text k) (hc : s.Clears text)
    (hr : s.rest = c :: cs) : Reaches text (State.Clears text) (s.takePiece c cs) := by
  by_cases hstray : isStray c = true
  · obtain ⟨gone, htext, hplace, -⟩ := h.scanned
    have hnext : (s.skip [c]).place = Point.first.past (gone ++ [c]) := by
      rw [Point.past_append, ← hplace]
      rfl
    rw [State.takePiece, pieceAt_stray hstray]
    refine .inr (.intro (hr ▸ htext) hstray ?_)
    rw [← hplace, ← hnext]
  have htokens : ∀ t ∈ s.tokens, t.span.start.Clear text := by
    refine hc.tokens.resolve_left fun ⟨_, d, hd, hblank⟩ => hstray ?_
    rw [hr] at hd
    cases hd
    exact hblank
  have hplace : (pieceAt c cs).1 = .skipped ∨ s.place.Clear text := by
    by_cases hspace : (c == ' ' || c == '\t' || c == '\r') = true
    · exact .inl (congrArg Prod.fst (if_pos hspace))
    · refine .inr (h.clear ?_)
      rw [hr]
      rintro d ⟨⟩
      by_cases hline : c = '\n'
      · exact .inl hline
      · refine .inr (Bool.eq_false_iff.2 fun hblank => hstray ?_)
        rw [isStray, hblank, Bool.eq_false_iff.2 hspace, Bool.false_or, beq_eq_false_iff_ne.2 hline]
        rfl
  have clear (hp : (pieceAt c cs).1 ≠ .skipped) : s.place.Clear text := hplace.resolve_left hp
  unfold State.takePiece
  dsimp only
  split
  · exact ⟨.inr htokens, hc.parens⟩
  · next hp =>
    have hplace := clear (hp ▸ nofun)
    split
    · refine ⟨.inr (State.newline_clears hplace htokens), ?_⟩
      exact (State.newline_parens _ _).symm ▸ hc.parens
    · exact ⟨.inr htokens, hc.parens⟩
  · next hp => exact .inl (SyntaxError.startsAt_spanning _ (clear (hp ▸ nofun)))
  · next hp =>
    have hplace := clear (hp ▸ nofun)
    exact ⟨.inr (List.forall_mem_cons.2 ⟨hplace, htokens⟩),
      List.forall_mem_cons.2 ⟨hplace, hc.parens⟩⟩
  · next hp =>
    have hplace := clear (hp ▸ nofun)
    split
    · exact .inl (SyntaxError.startsAt_spanning _ hplace)
    · next hparens =>
      refine ⟨.inr (List.forall_mem_cons.2 ⟨hplace, htokens⟩), fun span hspan => ?_⟩
      exact hc.parens span (hparens ▸ List.mem_cons_of_mem _ hspan)
  · next hp =>
    exact ⟨.inr (List.forall_mem_cons.2 ⟨clear (hp ▸ nofun), htokens⟩), hc.parens⟩

theorem State.Agrees.finish_clears (h : s.Agrees text k) (hc : s.Clears text) (hr : s.rest = []) :
    Reaches text (fun ts => ∀ t ∈ ts, t.span.start.Clear text) s.finish := by
  have hplace : s.place.Clear text := h.clear (by rw [hr]; nofun)
  have htokens : ∀ t ∈ s.tokens, t.span.start.Clear text := by
    refine hc.tokens.resolve_left fun ⟨_, d, hd, _⟩ => ?_
    rw [hr] at hd
    cases hd
  unfold State.finish
  split
  · next hparens =>
    exact .inl (SyntaxError.startsAt_spanning _ (hc.parens _ (hparens ▸ List.mem_cons_self)))
  · intro t ht
    rcases List.mem_append.1 ht with ht | ht
    · rcases List.mem_append.1 ht with ht | ht
      · exact State.newline_clears hplace htokens t (List.mem_reverse.1 ht)
      · rw [List.eq_of_mem_replicate ht]
        exact hplace
    · rw [List.mem_singleton.1 ht]
      exact hplace

theorem State.Agrees.run_clears (h : s.Agrees text k) (hc : s.Clears text) :
    Reaches text (fun ts => ∀ t ∈ ts, t.span.start.Clear text) s.run := by
  fun_induction State.run s with
  | case1 s hs e he =>
    have hclears := h.openLine_clears hc hs
    rw [he] at hclears
    exact hclears
  | case2 s hs t ht ih =>
    have hstep := h.openLine hs
    have hclears := h.openLine_clears hc hs
    rw [ht] at hstep hclears
    exact ih hstep hclears
  | case3 s hs hr => exact h.finish_clears hc hr
  | case4 s hs c cs hr e he =>
    have hclears := h.takePiece_clears hc hr
    rw [he] at hclears
    exact hclears
  | case5 s hs c cs hr t ht ih =>
    have hstep := h.takePiece (by simpa using hs) hr
    have hclears := h.takePiece_clears hc hr
    rw [ht] at hstep hclears
    exact ih hstep hclears

end Clears

theorem clears_tokenize (text : String) :
    Reaches text.toList (fun ts => ∀ t ∈ ts, t.span.start.Clear text.toList) (tokenize text) :=
  (State.Agrees.start text.toList).run_clears ⟨.inr nofun, nofun⟩

end Lexer

theorem returns_parse (text : String) :
    Lexer.Reaches text.toList (Stmt.AllReturnAt (Point.Clear text.toList)) (parse text) := by
  have hclears := Lexer.clears_tokenize text
  unfold parse
  cases ht : Lexer.tokenize text with
  | error e =>
    rw [ht] at hclears
    exact hclears
  | ok ts =>
    rw [ht] at hclears
    have hstart : (Tokens.ofList ts).StartAt (Point.Clear text.toList) := by
      obtain ⟨us, span, rfl⟩ := Lexer.State.exists_of_run ht
      rw [Tokens.ofList_concat]
      exact hclears
    have hstarts := Grammar.starts_program (Grammar.depthBound (.ofList ts)) hstart
    simp only [bind, Except.bind]
    cases hr : Grammar.program (Grammar.depthBound (.ofList ts)) (.ofList ts) with
    | error e =>
      rw [hr] at hstarts
      exact .inl hstarts
    | ok r =>
      rw [hr] at hstarts
      exact hstarts.1

end Stepwise.Source
