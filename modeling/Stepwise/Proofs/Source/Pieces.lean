import Mathlib.Data.List.TakeWhile
import Stepwise.Source.Lexer

/-! The piece of a line that begins with a character. Its other characters stand directly behind
that one, and it is what they spell: a token, the end of a line, or a stretch that gives none. -/

namespace Stepwise.Source

/-- The characters are a spelling of the token. Line ends and blocks are shaped by what stands
around them, and have no characters of their own. -/
def Token.Kind.SpelledBy : Token.Kind → List Char → Prop
  | .name word, cs => ∃ c more, cs = c :: more ∧ Lexer.isWordStart c = true ∧
      more.all Lexer.isWordPart = true ∧ word = String.ofList cs ∧ Keyword.ofWord? word = none
  | .keyword k, cs => cs = k.spelling.toList
  | .mark m, cs => cs = m.spelling
  | .int n, cs => ∃ c more, cs = c :: more ∧ c.isDigit = true ∧
      more.all Lexer.isDigitPart = true ∧ n.toInt = Number.ofDigits (cs.filter (· != '_'))
  | .float x, cs => ∃ c more, cs = c :: more ∧ (c.isDigit = true ∨ c = '.') ∧
      Number.readUnsigned? (cs.filter (· != '_')) = some x
  | .str s, cs => ∃ mark body, (mark = '"' ∨ mark = '\'') ∧ cs = mark :: (body ++ [mark]) ∧
      Lexer.scanString mark (body ++ [mark]) = ⟨s.toList, body ++ [mark], true⟩
  | .newline, cs | .indent, cs | .dedent, cs | .eof, cs => cs = []

namespace Lexer

def isSpace (c : Char) : Bool :=
  c == ' ' || c == '\t' || c == '\r' || c == '\n' || c == '\x0c'

def AtLineEnd (cs : List Char) : Prop :=
  cs = [] ∨ cs.head? = some '\n'

/-- Characters between tokens, and the text behind them: blanks, a comment up to the end of its
line, or a backslash that joins a line to the next. -/
inductive Gap : List Char → List Char → Prop
  | spaces {cs rest : List Char} (h : ∀ c ∈ cs, isSpace c = true) : Gap cs rest
  | comment {cs rest : List Char} (h : '\n' ∉ cs) (hend : AtLineEnd rest) : Gap ('#' :: cs) rest
  | joined {rest : List Char} : Gap ['\\', '\n'] rest

theorem notMem_takeWhile_ne (c : Char) (cs : List Char) : c ∉ cs.takeWhile (· != c) :=
  fun h => bne_iff_ne.1 (List.mem_takeWhile_imp (p := (· != c)) h) rfl

theorem drop_length_takeWhile {α : Type} (p : α → Bool) (xs : List α) :
    xs.drop (xs.takeWhile p).length = xs.dropWhile p :=
  List.append_cancel_left
    ((List.prefix_iff_eq_append.1 (List.takeWhile_prefix p)).trans
      List.takeWhile_append_dropWhile.symm)

theorem atLineEnd_dropWhile (cs : List Char) : AtLineEnd (cs.dropWhile (· != '\n')) := by
  have h := List.head?_dropWhile_not (· != '\n') cs
  cases hd : cs.dropWhile (· != '\n') with
  | nil => exact .inl rfl
  | cons d ds =>
    rw [hd] at h
    exact .inr (congrArg some (by simpa using h))

theorem prefix_append {pre more cs : List Char} (h : pre <+: cs) (k : more <+: cs.drop pre.length) :
    pre ++ more <+: cs := by
  obtain ⟨rest, rfl⟩ := h
  rw [List.drop_left] at k
  exact (List.prefix_append_right_inj pre).2 k

theorem prefix_mantissa (point : Bool) (cs : List Char) : mantissa point cs <+: cs := by
  fun_induction mantissa point cs with
  | case1 => exact List.prefix_rfl
  | case2 point c cs _ ih => exact (List.prefix_cons_inj c).2 ih
  | case3 point c cs _ _ ih => exact (List.prefix_cons_inj c).2 ih
  | case4 => exact List.nil_prefix

theorem prefix_sign (cs : List Char) : sign cs <+: cs := by
  unfold sign
  split
  · split
    · exact (List.prefix_cons_inj _).2 List.nil_prefix
    · exact List.nil_prefix
  · exact List.nil_prefix

theorem prefix_exponent (cs : List Char) : exponent cs <+: cs := by
  unfold exponent
  split
  · exact List.prefix_rfl
  · next e cs =>
    dsimp only
    split
    · exact (List.prefix_cons_inj e).2 (prefix_append (prefix_sign cs) (List.takeWhile_prefix _))
    · exact List.nil_prefix

theorem prefix_scanString (mark : Char) (cs : List Char) : (scanString mark cs).taken <+: cs := by
  fun_induction scanString mark cs with
  | case1 => exact List.prefix_rfl
  | case2 => exact List.prefix_rfl
  | case3 c cs ih => exact (List.prefix_cons_inj _).2 ((List.prefix_cons_inj _).2 ih)
  | case4 => exact (List.prefix_cons_inj _).2 List.nil_prefix
  | case5 => exact List.nil_prefix
  | case6 c cs _ _ _ _ ih => exact (List.prefix_cons_inj _).2 ih

theorem scanString_cons {c : Char} (hc : c ≠ '\\') (mark : Char) (cs : List Char) :
    scanString mark (c :: cs) =
      if c = mark then ⟨[], [c], true⟩
      else if c = '\n' then ⟨[], [], false⟩
      else (scanString mark cs).after [c] [c] := by
  rw [scanString]
  · exact fun h => absurd h hc
  · exact fun _ _ h => absurd h hc

theorem scanString_taken_append {mark : Char} (hm : mark ≠ '\\') {cs : List Char}
    (h : (scanString mark cs).closed = true) (rest : List Char) :
    scanString mark ((scanString mark cs).taken ++ rest) = scanString mark cs := by
  fun_induction scanString mark cs with
  | case1 => cases h
  | case2 => cases h
  | case3 c cs ih =>
    exact congrArg (fun s : StringScan => s.after (unescape c) ['\\', c]) (ih h)
  | case4 => exact (scanString_cons hm mark rest).trans (if_pos rfl)
  | case5 => cases h
  | case6 c cs hend hescape hmark hline ih =>
    have hc : c ≠ '\\' := by
      rintro rfl
      cases cs with
      | nil => exact hend rfl rfl
      | cons d cs => exact hescape d cs rfl rfl
    refine (scanString_cons hc mark _).trans ?_
    rw [if_neg hmark, if_neg hline]
    exact congrArg (fun s : StringScan => s.after [c] [c]) (ih h)

theorem scanString_taken_concat {mark : Char} {cs : List Char}
    (h : (scanString mark cs).closed = true) :
    ∃ body, (scanString mark cs).taken = body ++ [mark] := by
  fun_induction scanString mark cs with
  | case1 => cases h
  | case2 => cases h
  | case3 c cs ih =>
    obtain ⟨body, hbody⟩ := ih h
    exact ⟨'\\' :: c :: body, congrArg (['\\', c] ++ ·) hbody⟩
  | case4 => exact ⟨[], rfl⟩
  | case5 => cases h
  | case6 c cs _ _ _ _ ih =>
    obtain ⟨body, hbody⟩ := ih h
    exact ⟨c :: body, congrArg ([c] ++ ·) hbody⟩

theorem markAt_spelling {c : Char} {cs : List Char} {m : Mark} (h : markAt? c cs = some m) :
    m.spelling = c :: m.spelling.drop 1 ∧ m.spelling.drop 1 <+: cs := by
  cases cs with
  | nil =>
    unfold markAt? at h
    split at h <;> cases h <;> first | exact ⟨rfl, List.nil_prefix⟩ | contradiction
  | cons d cs =>
    unfold markAt? at h
    split at h
    all_goals
      cases h
    all_goals
      first
      | exact ⟨rfl, List.nil_prefix⟩
      | next hd =>
        cases hd
        exact ⟨rfl, (List.prefix_cons_inj _).2 List.nil_prefix⟩

theorem spelledBy_numeral {c : Char} {more : List Char} {kind : Token.Kind}
    (hc : c.isDigit = true ∨ c = '.') (h : numeral (c :: more) = .ok kind) :
    kind.SpelledBy (c :: more) := by
  unfold numeral at h
  dsimp only at h
  split at h
  · next hall =>
    obtain ⟨hhead, hmore⟩ := Bool.and_eq_true_iff.1 (List.all_cons.symm.trans hall)
    have hdigit : c.isDigit = true := by
      refine hc.resolve_right ?_
      rintro rfl
      revert hhead
      decide
    split at h
    · next hn =>
      cases h
      exact ⟨c, more, rfl, hdigit, hmore, Int64.toInt_ofNat_of_lt (Nat.lt_succ_of_le hn)⟩
    · cases h
  · split at h
    · next hx =>
      cases h
      exact ⟨c, more, rfl, hc, hx⟩
    · cases h

theorem spelledBy_word {c : Char} (hc : isWordStart c = true) {more : List Char}
    (hmore : more.all isWordPart = true) :
    ((Keyword.ofWord? (String.ofList (c :: more))).elim
      (.name (String.ofList (c :: more))) .keyword : Token.Kind).SpelledBy (c :: more) := by
  cases hk : Keyword.ofWord? (String.ofList (c :: more)) with
  | none => exact ⟨c, more, rfl, hc, hmore, rfl, hk⟩
  | some k =>
    have hword : k.spelling = String.ofList (c :: more) := by simpa using List.find?_some hk
    exact (congrArg String.toList hword).trans (String.toList_ofList) |>.symm

theorem spelledBy_string {mark : Char} (hm : mark = '"' ∨ mark = '\'') {cs : List Char}
    (h : (scanString mark cs).closed = true) :
    (Token.Kind.str (String.ofList (scanString mark cs).value)).SpelledBy
      (mark :: (scanString mark cs).taken) := by
  have hb : mark ≠ '\\' := by
    rcases hm with rfl | rfl <;> decide
  obtain ⟨body, hbody⟩ := scanString_taken_concat h
  have hagain := scanString_taken_append hb h []
  rw [List.append_nil] at hagain
  refine ⟨mark, body, hm, congrArg (mark :: ·) hbody, ?_⟩
  rw [← hbody, hagain, String.toList_ofList, ← h]

def Piece.Spells : Piece → List Char → List Char → Prop
  | .skipped, cs, rest => Gap cs rest
  | .lineEnd, cs, _ => cs = ['\n']
  | .token kind, cs, _ => kind.SpelledBy cs
  | .fault _, _, _ => True

theorem pieceAt_spells (c : Char) (cs : List Char) :
    (pieceAt c cs).1.Spells (c :: (pieceAt c cs).2) (cs.drop (pieceAt c cs).2.length) := by
  unfold pieceAt
  dsimp only
  split
  · next hc =>
    refine .spaces fun d hd => ?_
    rw [List.mem_singleton.1 hd, isSpace, hc]
    rfl
  split
  · next hc => rw [beq_iff_eq.1 hc]; rfl
  split
  · next hc =>
    rw [beq_iff_eq.1 hc]
    exact .comment (notMem_takeWhile_ne '\n' cs)
      (drop_length_takeWhile (· != '\n') cs ▸ atLineEnd_dropWhile cs)
  split
  · next hc =>
    rw [beq_iff_eq.1 (Bool.and_eq_true_iff.1 hc).1]
    exact .joined
  split
  · next hc =>
    have hstart : c.isDigit = true ∨ c = '.' :=
      (Bool.or_eq_true_iff.1 hc).imp_right fun h => beq_iff_eq.1 (Bool.and_eq_true_iff.1 h).1
    split
    · trivial
    · split
      · next hk => exact spelledBy_numeral hstart hk
      · trivial
  split
  · next hc =>
    split
    · next hs => exact spelledBy_string (by simpa using hc) hs
    · trivial
  split
  · next hc => exact spelledBy_word hc (List.all_takeWhile)
  split
  · next hm => exact (markAt_spelling hm).1.symm
  · trivial

theorem prefix_pieceAt (c : Char) (cs : List Char) : (pieceAt c cs).2 <+: cs := by
  unfold pieceAt
  dsimp only
  split
  · exact List.nil_prefix
  split
  · exact List.nil_prefix
  split
  · exact List.takeWhile_prefix _
  split
  · next hc =>
    cases cs with
    | nil => simp at hc
    | cons d cs =>
      simp at hc
      rw [hc.2]
      exact (List.prefix_cons_inj _).2 List.nil_prefix
  split
  · have hnumber := prefix_append (prefix_mantissa (c == '.') cs) (prefix_exponent _)
    split
    · exact hnumber
    · split <;> exact hnumber
  split
  · split <;> exact prefix_scanString c cs
  split
  · exact List.takeWhile_prefix _
  split
  · next hm => exact (markAt_spelling hm).2
  · exact List.nil_prefix

end Lexer

end Stepwise.Source
