import Stepwise.Proofs.Source.LineEnds
import Stepwise.Proofs.Source.Printer

/-! What is printed for a token is read as that token. The characters of a word, a number or an
operator are taken together, since what is printed behind them belongs to none of these. -/

namespace Stepwise.Source.Lexer

def stops : List Char :=
  [' ', '(', ')', ',', ':', '\n']

def Stops (cs : List Char) : Prop :=
  ∃ c more, cs = c :: more ∧ c ∈ stops

/-- Wherever such a text follows, the token is read from the characters that are printed for it. -/
def Reads (k : Token.Kind) : Prop :=
  ∃ c cs, k.chars = c :: cs ∧ ∀ rest, Stops rest → pieceAt c (cs ++ rest) = (.token k, cs)

section Pieces

variable {c : Char} {cs rest : List Char}

theorem takeWhile_stops {p : Char → Bool} (hp : stops.all (!p ·) = true) (hcs : cs.all p = true)
    (hrest : Stops rest) : (cs ++ rest).takeWhile p = cs := by
  obtain ⟨d, more, rfl, hd⟩ := hrest
  have hstop : p d = false := by simpa using List.all_eq_true.1 hp d hd
  rw [List.takeWhile_append_of_pos (List.all_eq_true.1 hcs),
    List.takeWhile_cons_of_neg (by rw [hstop]; decide), List.append_nil]

theorem head?_any_stops {p : Char → Bool} (hp : stops.all (!p ·) = true) (hrest : Stops rest) :
    rest.head?.any p = false := by
  obtain ⟨d, more, rfl, hd⟩ := hrest
  simpa using List.all_eq_true.1 hp d hd

theorem isDigit_of_isAlpha (hc : c.isAlpha = true) : c.isDigit = false := by
  by_contra hd
  have hle : c.val ≤ '9'.val :=
    of_decide_eq_true (Bool.and_eq_true_iff.1 (Bool.not_eq_false _ ▸ hd)).2
  have hge : 'A'.val ≤ c.val := by
    rcases Bool.or_eq_true_iff.1 hc with h | h
    · exact (of_decide_eq_true h).1
    · exact UInt32.le_trans (by decide) (of_decide_eq_true (Bool.and_eq_true_iff.1 h).1)
  exact absurd (UInt32.le_trans hge hle) (by decide)

theorem pieceAt_word (hc : (c.isAlpha || c == '_') = true) (hcs : cs.all isWordPart = true)
    (hrest : Stops rest) : pieceAt c (cs ++ rest) =
      (.token ((Keyword.ofWord? (String.ofList (c :: cs))).elim
        (.name (String.ofList (c :: cs))) .keyword), cs) := by
  have hne (d : Char) (hd : (d.isAlpha || d == '_') = false) : (c == d) = false := by
    refine beq_eq_false_iff_ne.2 ?_
    rintro rfl
    rw [hc] at hd
    cases hd
  have hdigit : c.isDigit = false := by
    rcases Bool.or_eq_true_iff.1 hc with hc | hc
    · exact isDigit_of_isAlpha hc
    · rw [eq_of_beq hc]
      decide
  have hstart : isWordStart c = true := by
    rcases Bool.or_eq_true_iff.1 hc with hc | hc
    · exact Bool.or_eq_true_iff.2 (.inl (Text.isLetter_of_isAlpha hc))
    · exact Bool.or_eq_true_iff.2 (.inr hc)
  unfold pieceAt
  simp only [hne ' ' (by decide), hne '\t' (by decide), hne '\r' (by decide), hne '\n' (by decide),
    hne '#' (by decide), hne '\\' (by decide), hne '.' (by decide), hne '"' (by decide),
    hne '\'' (by decide), hdigit, hstart, Bool.or_false, Bool.false_and, Bool.false_eq_true,
    if_false, if_true, takeWhile_stops (by decide) hcs hrest]

end Pieces

theorem reads_name {w : String} (h : isIdentifier w = true) : Reads (.name w) := by
  unfold isIdentifier at h
  split at h
  · cases h
  · next c cs hw =>
    simp only [Bool.and_eq_true, Option.isNone_iff_eq_none] at h
    obtain ⟨⟨hc, hcs⟩, hkeyword⟩ := h
    have hpart : cs.all isWordPart = true := by
      refine List.all_eq_true.2 fun d hd => ?_
      have hd := List.all_eq_true.1 hcs d hd
      unfold Char.isAlphanum at hd
      simp only [Bool.or_eq_true] at hd
      obtain (hd | hd) | hd := hd
      · simp [isWordPart, Text.isLetter_of_isAlpha hd]
      · simp [isWordPart, Text.isNumeral_of_isDigit hd]
      · simp only [isWordPart, hd, Bool.or_true]
    refine ⟨c, cs, hw, fun rest hrest => ?_⟩
    have hname : String.ofList (c :: cs) = w := by rw [← hw, String.ofList_toList]
    rw [pieceAt_word hc hpart hrest, hname, hkeyword]
    rfl

theorem reads_keyword (k : Keyword) : Reads (.keyword k) := by
  have hspelling : ∃ c cs, k.spelling.toList = c :: cs ∧ (c.isAlpha || c == '_') = true ∧
      cs.all isWordPart = true ∧ Keyword.ofWord? (String.ofList (c :: cs)) = some k := by
    cases k <;> exact ⟨_, _, rfl, by decide, by decide, by decide⟩
  obtain ⟨c, cs, hk, hc, hcs, hword⟩ := hspelling
  refine ⟨c, cs, hk, fun rest hrest => ?_⟩
  rw [pieceAt_word hc hcs hrest, hword]
  rfl

theorem reads_mark (m : Mark) : Reads (.mark m) := by
  cases m <;> refine ⟨_, _, rfl, fun rest hrest => ?_⟩ <;>
    · obtain ⟨d, more, rfl, hd⟩ := hrest
      simp only [stops, List.mem_cons, List.not_mem_nil, or_false] at hd
      rcases hd with rfl | rfl | rfl | rfl | rfl | rfl <;> rfl

theorem pieceAt_minus (rest : List Char) : pieceAt '-' rest = (.token (.mark .minus), []) := rfl

theorem mantissa_stops {cs rest : List Char} (hcs : cs.all isDigitPart = true)
    (hrest : Stops rest) : mantissa false (cs ++ rest) = cs := by
  induction cs with
  | nil =>
    obtain ⟨d, more, rfl, hd⟩ := hrest
    simp only [stops, List.mem_cons, List.not_mem_nil, or_false] at hd
    rcases hd with rfl | rfl | rfl | rfl | rfl | rfl <;> rfl
  | cons c cs ih =>
    obtain ⟨hc, hcs⟩ := Bool.and_eq_true_iff.1 (List.all_cons.symm.trans hcs)
    rw [List.cons_append, mantissa, if_pos hc, ih hcs]

theorem exponent_stops {rest : List Char} (hrest : Stops rest) : exponent rest = [] := by
  obtain ⟨d, more, rfl, hd⟩ := hrest
  simp only [stops, List.mem_cons, List.not_mem_nil, or_false] at hd
  rcases hd with rfl | rfl | rfl | rfl | rfl | rfl <;> rfl

theorem numeral_toDigits {n : Nat} (hn : n ≤ maxInt) :
    numeral (Nat.toDigits 10 n) = .ok (.int (Int64.ofNat n)) := by
  have hdigit : (Nat.toDigits 10 n).all isDigitPart = true :=
    List.all_eq_true.2 fun c hc =>
      Bool.or_eq_true_iff.2 (.inl (Nat.isDigit_of_mem_toDigits (by decide) (by decide) hc))
  have hplain : (Nat.toDigits 10 n).filter (· != '_') = Nat.toDigits 10 n := by
    refine List.filter_eq_self.2 fun c hc => bne_iff_ne.2 ?_
    rintro rfl
    exact Nat.underscore_not_in_toDigits hc
  have hvalue : Number.ofDigits (Nat.toDigits 10 n) = n := Nat.ofDigitChars_ten_toDigits
  rw [numeral, hplain, hvalue, if_pos hdigit, if_pos hn]

theorem reads_int {n : Int64} (hn : 0 ≤ n) : Reads (.int n) := by
  have hle : n.toNatClampNeg ≤ maxInt := Nat.le_of_lt_succ n.toNatClampNeg_lt
  have hnumeral := numeral_toDigits hle
  have hall : ∀ c ∈ Nat.toDigits 10 n.toNatClampNeg, c.isDigit = true := fun c hc =>
    Nat.isDigit_of_mem_toDigits (by decide) (by decide) hc
  obtain ⟨c, cs, hdigits⟩ := List.exists_cons_of_ne_nil
    (Nat.toDigits_ne_nil (n := n.toNatClampNeg) (b := 10))
  rw [hdigits] at hnumeral hall
  obtain ⟨hc, hcs⟩ := List.forall_mem_cons.1 hall
  refine ⟨c, cs, hdigits, fun rest hrest => ?_⟩
  have hne (d : Char) (hd : d.isDigit = false) : (c == d) = false := by
    refine beq_eq_false_iff_ne.2 ?_
    rintro rfl
    rw [hc] at hd
    cases hd
  have hpart : cs.all isDigitPart = true :=
    List.all_eq_true.2 fun d hd => Bool.or_eq_true_iff.2 (.inl (hcs d hd))
  rw [Int64.ofNat_toNatClampNeg n hn] at hnumeral
  unfold pieceAt
  simp only [hne ' ' (by decide), hne '\t' (by decide), hne '\r' (by decide), hne '\n' (by decide),
    hne '#' (by decide), hne '\\' (by decide), hne '.' (by decide), hc, Bool.or_false,
    Bool.false_and, Bool.false_eq_true, if_false, if_true, mantissa_stops hpart hrest, List.drop_left,
    exponent_stops hrest, List.append_nil, head?_any_stops (p := isWordStart) (by decide) hrest,
    hnumeral]

theorem quoteMark_cases (cs : List Char) :
    Text.quoteMark cs = '"' ∨ Text.quoteMark cs = '\'' := by
  unfold Text.quoteMark
  split
  · exact .inl rfl
  · exact .inr rfl

theorem scanString_escape {mark : Char} (hm : mark = '"' ∨ mark = '\'') (cs rest : List Char) :
    scanString mark (cs.flatMap (Text.escape mark) ++ mark :: rest) =
      ⟨cs, cs.flatMap (Text.escape mark) ++ [mark], true⟩ := by
  have hback : mark ≠ '\\' := by rcases hm with rfl | rfl <;> decide
  induction cs with
  | nil => exact (scanString_cons hback mark rest).trans (if_pos rfl)
  | cons c cs ih =>
    have hescaped (d : Char) (hd : unescape d = [c]) (hc : Text.escape mark c = ['\\', d]) :
        scanString mark ((c :: cs).flatMap (Text.escape mark) ++ mark :: rest) =
          ⟨c :: cs, (c :: cs).flatMap (Text.escape mark) ++ [mark], true⟩ := by
      rw [List.flatMap_cons, hc]
      change (scanString mark (cs.flatMap (Text.escape mark) ++ mark :: rest)).after
        (unescape d) ['\\', d] = _
      rw [ih, hd]
      rfl
    by_cases hslash : c = '\\'
    · subst hslash
      exact hescaped '\\' rfl rfl
    by_cases hline : c = '\n'
    · subst hline
      exact hescaped 'n' rfl rfl
    by_cases hreturn : c = '\r'
    · subst hreturn
      exact hescaped 'r' rfl rfl
    by_cases htab : c = '\t'
    · subst htab
      exact hescaped 't' rfl rfl
    have hescape : Text.escape mark c = if c = mark then ['\\', c] else [c] := by
      rw [Text.escape, if_neg hslash, if_neg hline, if_neg hreturn, if_neg htab]
    by_cases hmark : c = mark
    · refine hescaped c ?_ (hescape.trans (if_pos hmark))
      rcases hm with rfl | rfl <;> rw [hmark] <;> rfl
    · rw [List.flatMap_cons, hescape, if_neg hmark]
      refine (scanString_cons hslash mark _).trans ?_
      rw [if_neg hmark, if_neg hline]
      exact congrArg (fun s : StringScan => s.after [c] [c]) ih

theorem reads_str (s : String) : Reads (.str s) := by
  refine ⟨Text.quoteMark s.toList, _, rfl, fun rest _ => ?_⟩
  have hm := quoteMark_cases s.toList
  rw [pieceAt_quote hm, List.append_assoc, List.singleton_append, scanString_escape hm,
    String.ofList_toList]
  rfl

theorem reads_literal {v : Literal} (h : v.isPrintable = true) : Reads v.kind := by
  cases v with
  | none => exact reads_keyword .none
  | bool b => cases b <;> exact reads_keyword _
  | int n => exact reads_int (of_decide_eq_true h)
  | float x => cases h
  | str s => exact reads_str s

end Stepwise.Source.Lexer
