import Mathlib
import Stepwise.Json.Reader
import Stepwise.Json.Writer

/-! JSON data is read as it was written, as long as it holds no floating-point numbers, its
integers fit 64 bits and it is not nested too deeply for the reader. What the writer appends to a
text is first given as a list of characters that follows the data, and the reader is taken along
that list: every character that is escaped, every number and every part of a list or an object
is read whatever follows it. -/

namespace Stepwise.Json

def quoted (s : String) : List Char :=
  '"' :: (s.toList.flatMap escape ++ ['"'])

mutual

def chars : Json → List Char
  | null => "null".toList
  | bool b => (if b then "true" else "false").toList
  | number n => n.text.toList
  | str s => quoted s
  | arr [] => ['[', ']']
  | arr (j :: rest) => '[' :: (chars j ++ charsItems rest)
  | obj [] => ['\x7b', '\x7d']
  | obj ((name, j) :: rest) => '\x7b' :: (quoted name ++ ':' :: (chars j ++ charsFields rest))

def charsItems : List Json → List Char
  | [] => [']']
  | j :: rest => ',' :: (chars j ++ charsItems rest)

def charsFields : List (String × Json) → List Char
  | [] => ['\x7d']
  | (name, j) :: rest => ',' :: (quoted name ++ ':' :: (chars j ++ charsFields rest))

end

theorem toList_foldl_push (acc : String) (cs : List Char) :
    (cs.foldl String.push acc).toList = acc.toList ++ cs := by
  induction cs generalizing acc with
  | nil => simp
  | cons c cs ih => rw [List.foldl_cons, ih]; simp

theorem toList_quoteOnto (acc s : String) : (quoteOnto acc s).toList = acc.toList ++ quoted s := by
  have hfold (cs : List Char) (acc : String) :
      (cs.foldl (fun acc c => (escape c).foldl String.push acc) acc).toList =
        acc.toList ++ cs.flatMap escape := by
    induction cs generalizing acc with
    | nil => simp
    | cons c cs ih =>
      rw [List.foldl_cons, ih, toList_foldl_push, List.flatMap_cons, List.append_assoc]
  rw [quoteOnto, String.toList_push, String.foldl_eq_foldl_toList, hfold]
  simp [quoted]

mutual

theorem toList_writeOnto (acc : String) :
    (j : Json) → (writeOnto acc j).toList = acc.toList ++ chars j
  | null => by simp [writeOnto, chars]
  | bool b => by simp [writeOnto, chars]
  | number n => by simp [writeOnto, chars]
  | str s => by simp [writeOnto, chars, toList_quoteOnto]
  | arr [] => by simp [writeOnto, chars]
  | arr (j :: rest) => by
    simp [writeOnto, chars, toList_writeItemsOnto _ rest, toList_writeOnto _ j]
  | obj [] => by simp [writeOnto, chars]
  | obj ((name, j) :: rest) => by
    simp [writeOnto, chars, toList_writeFieldsOnto _ rest, toList_writeOnto _ j, toList_quoteOnto]

theorem toList_writeItemsOnto (acc : String) :
    (items : List Json) →
      (writeItemsOnto acc items).toList ++ [']'] = acc.toList ++ charsItems items
  | [] => by simp [writeItemsOnto, charsItems]
  | j :: rest => by
    simp [writeItemsOnto, charsItems, toList_writeItemsOnto _ rest, toList_writeOnto _ j]

theorem toList_writeFieldsOnto (acc : String) :
    (fields : List (String × Json)) →
      (writeFieldsOnto acc fields).toList ++ ['\x7d'] = acc.toList ++ charsFields fields
  | [] => by simp [writeFieldsOnto, charsFields]
  | (name, j) :: rest => by
    simp [writeFieldsOnto, charsFields, toList_writeFieldsOnto _ rest, toList_writeOnto _ j,
      toList_quoteOnto]

end

theorem toList_text (j : Json) : j.text.toList = chars j := by
  simp [text, toList_writeOnto]

section Strings

variable {done rest : List Char} {c : Char}

theorem readString?_unit {a b c d : Char} {unit : Nat} (h : hexUnit? a b c d = some unit)
    (hunit : unit < 0xD800) :
    readString? done ('\\' :: 'u' :: a :: b :: c :: d :: rest) =
      readString? (Char.ofNat unit :: done) rest := by
  have hhigh : isHighSurrogate unit = false := by simp [isHighSurrogate]; omega
  have hlow : isLowSurrogate unit = false := by simp [isLowSurrogate]; omega
  conv_lhs => unfold readString?
  split
  case h_3 | h_4 => simp_all
  all_goals grind

theorem readString?_plain (hquote : c ≠ '"') (hslash : c ≠ '\\') (hc : 0x20 ≤ c.toNat) :
    readString? done (c :: rest) = readString? (c :: done) rest := by
  conv_lhs => unfold readString?
  split <;> simp_all

theorem hexUnit?_small : ∀ n < 0x20, hexUnit? '0' '0' (hexDigits.getD (n / 16) '0')
    (hexDigits.getD (n % 16) '0') = some n := by
  decide

theorem readString?_escape (c : Char) (done rest : List Char) :
    readString? done (escape c ++ rest) = readString? (c :: done) rest := by
  unfold escape
  split
  case h_8 =>
    split
    · next hsmall =>
      rw [List.cons_append, List.cons_append, List.cons_append, List.cons_append,
        List.cons_append, List.cons_append, List.nil_append,
        readString?_unit (hexUnit?_small _ hsmall) (by omega), Char.ofNat_toNat]
    · apply readString?_plain <;> simp_all
  all_goals rfl

theorem readString?_flatMap (cs done rest : List Char) :
    readString? done (cs.flatMap escape ++ '"' :: rest) =
      some (String.ofList (done.reverse ++ cs), rest) := by
  induction cs generalizing done with
  | nil => simp [readString?]
  | cons c cs ih =>
    rw [List.flatMap_cons, List.append_assoc, readString?_escape, ih, List.reverse_cons,
      List.append_assoc, List.singleton_append]

theorem readText?_quoted (strict : Bool) (s : String) (rest : List Char) :
    readText? strict (s.toList.flatMap escape ++ '"' :: rest) = some (some s, rest) := by
  rw [readText?, readString?_flatMap, List.reverse_nil, List.nil_append, String.ofList_toList]

end Strings

def Stops (rest : List Char) : Prop :=
  ∀ c ∈ rest.head?, c.isDigit = false ∧ c ≠ '.' ∧ isExponentMark c = false

theorem stops_cons {c : Char} {rest : List Char} (hc : c = ',' ∨ c = ']' ∨ c = '\x7d') :
    Stops (c :: rest) := by
  intro d hd
  cases hd
  rcases hc with rfl | rfl | rfl <;> decide

theorem le_ofDigitChars (cs : List Char) (n : Nat) : n ≤ Nat.ofDigitChars 10 cs n := by
  induction cs generalizing n with
  | nil => exact le_rfl
  | cons c cs ih =>
    rw [Nat.ofDigitChars_cons]
    exact le_trans (by omega) (ih _)

theorem keepDigits_eq {significand : Nat} {cs : List Char} (hdigits : ∀ c ∈ cs, c.isDigit = true)
    (h : Nat.ofDigitChars 10 cs significand ≤ maxSignificand) :
    keepDigits significand cs = (Nat.ofDigitChars 10 cs significand, []) := by
  induction cs generalizing significand with
  | nil => rfl
  | cons c cs ih =>
    obtain ⟨hc, hcs⟩ := List.forall_mem_cons.1 hdigits
    rw [Nat.ofDigitChars_cons] at h ⊢
    rw [keepDigits]
    simp only [hc, Bool.true_and, decide_eq_true_eq, if_pos ((le_ofDigitChars _ _).trans h)]
    exact ih hcs h

theorem head?_toDigits {n : Nat} (h : n ≠ 0) : (Nat.toDigits 10 n).head? ≠ some '0' := by
  induction n using Nat.strongRecOn with
  | _ n ih =>
    rw [Nat.toDigits_eq_if (by decide)]
    split
    · next hlt =>
      have hsmall : ∀ n < 10, n ≠ 0 → [n.digitChar].head? ≠ some '0' := by decide
      exact hsmall n hlt h
    · rw [List.head?_append_of_ne_nil _ Nat.toDigits_ne_nil]
      exact ih (n / 10) (by omega) (by omega)

theorem readUnsigned?_toDigits (negative : Bool) {n : Nat} {rest : List Char}
    (hn : n ≤ maxSignificand) (hrest : Stops rest) :
    readUnsigned? negative (Nat.toDigits 10 n ++ rest) = some (ofInteger negative n, rest) := by
  have hdigits : ∀ c ∈ Nat.toDigits 10 n, c.isDigit = true := fun c hc =>
    Nat.isDigit_of_mem_toDigits (by decide) (by decide) hc
  have hvalue : Nat.ofDigitChars 10 (Nat.toDigits 10 n) 0 = n := Nat.ofDigitChars_ten_toDigits
  have hkeep : keepDigits 0 (Nat.toDigits 10 n) = (n, []) := by
    rw [keepDigits_eq hdigits (hvalue.symm ▸ hn), hvalue]
  have htake : (Nat.toDigits 10 n ++ rest).takeWhile Char.isDigit = Nat.toDigits 10 n := by
    rw [List.takeWhile_append_of_pos hdigits]
    cases rest with
    | nil => simp
    | cons c rest => simp [(hrest c rfl).1]
  have hdrop : (Nat.toDigits 10 n ++ rest).dropWhile Char.isDigit = rest := by
    rw [List.dropWhile_append_of_pos hdigits]
    cases rest with
    | nil => rfl
    | cons c rest => simp [(hrest c rfl).1]
  have hlead : ((Nat.toDigits 10 n).isEmpty ||
      ((Nat.toDigits 10 n).head? == some '0' && 1 < (Nat.toDigits 10 n).length)) = false := by
    rw [List.isEmpty_eq_false_iff.2 Nat.toDigits_ne_nil, Bool.false_or]
    rcases eq_or_ne n 0 with rfl | hzero
    · rfl
    · rw [beq_eq_false_iff_ne.2 (head?_toDigits hzero), Bool.false_and]
  have hmark : rest.head?.any isExponentMark = false := by
    cases rest with
    | nil => rfl
    | cons c rest => exact (hrest c rfl).2.2
  unfold readUnsigned?
  simp only [htake, hdrop, hkeep, hlead, Bool.false_eq_true, if_false]
  split
  · next hdot => exact absurd rfl (hrest '.' rfl).2.1
  · simp [hmark]

def Number.isExact : Number → Bool
  | .int n => -0x8000000000000000 ≤ n && n ≤ maxSignificand
  | .float _ => false

theorem readNumber?_text {n : Number} {rest : List Char} (hn : n.isExact = true)
    (hrest : Stops rest) : readNumber? (n.text.toList ++ rest) = some (n, rest) := by
  cases n with
  | float x => cases hn
  | int n =>
    simp only [Number.isExact, Bool.and_eq_true, decide_eq_true_eq] at hn
    obtain ⟨hlow, hhigh⟩ := hn
    cases n with
    | ofNat n =>
      have htext : (Number.text (.int (Int.ofNat n))).toList = Nat.toDigits 10 n := Nat.toList_repr
      obtain ⟨c, cs, hdigits⟩ := List.exists_cons_of_ne_nil
        (Nat.toDigits_ne_nil (n := n) (b := 10))
      have hc : c ≠ '-' := by
        rintro rfl
        have := Nat.isDigit_of_mem_toDigits (by decide) (by decide)
          (hdigits ▸ List.mem_cons_self : '-' ∈ Nat.toDigits 10 n)
        cases this
      have hread := readUnsigned?_toDigits false (n := n) (by simpa using hhigh) hrest
      rw [htext]
      rw [hdigits, List.cons_append] at hread ⊢
      unfold readNumber?
      split
      · next heq => exact absurd (List.cons.inj heq).1 hc
      · exact hread
    | negSucc n =>
      have htext :
          (Number.text (.int (Int.negSucc n))).toList = '-' :: Nat.toDigits 10 (n + 1) := by
        change ("-" ++ (n + 1).repr).toList = _
        rw [String.toList_append, Nat.toList_repr]
        rfl
      have hread := readUnsigned?_toDigits true (n := n + 1)
        (by simp only [maxSignificand]; omega) hrest
      rw [htext, List.cons_append, readNumber?, hread]
      have hle : n + 1 ≤ 0x8000000000000000 := by omega
      simp [ofInteger, hle]
      omega

mutual

def isExact (depth : Nat) : Json → Bool
  | null | bool _ | str _ => true
  | number n => n.isExact
  | arr items => 1 < depth && areExact (depth - 1) items
  | obj fields => 1 < depth && areExactFields (depth - 1) fields

def areExact (depth : Nat) : List Json → Bool
  | [] => true
  | j :: rest => j.isExact depth && areExact depth rest

def areExactFields (depth : Nat) : List (String × Json) → Bool
  | [] => true
  | (_, j) :: rest => j.isExact depth && areExactFields depth rest

end

theorem head_text {n : Number} (hn : n.isExact = true) :
    ∃ c cs, n.text.toList = c :: cs ∧ (c.isDigit = true ∨ c = '-') := by
  cases n with
  | float x => cases hn
  | int n =>
    cases n with
    | ofNat n =>
      obtain ⟨c, cs, hdigits⟩ := List.exists_cons_of_ne_nil
        (Nat.toDigits_ne_nil (n := n) (b := 10))
      refine ⟨c, cs, Nat.toList_repr.trans hdigits, .inl ?_⟩
      exact Nat.isDigit_of_mem_toDigits (by decide) (by decide) (hdigits ▸ List.mem_cons_self)
    | negSucc n => exact ⟨'-', (n + 1).repr.toList, String.toList_append, .inr rfl⟩

theorem ne_of_head {c d : Char} (hc : c.isDigit = true ∨ c = '-') (hd : d.isDigit = false)
    (hminus : d ≠ '-') : c ≠ d := by
  rintro rfl
  rcases hc with hc | hc
  · rw [hc] at hd
    cases hd
  · exact hminus hc

theorem isSpace_head {c : Char} (hc : c.isDigit = true ∨ c = '-') : isSpace c = false := by
  simp [isSpace, ne_of_head hc]

theorem head_chars {j : Json} {depth : Nat} (h : j.isExact depth = true) :
    ∃ c cs, chars j = c :: cs ∧ isSpace c = false ∧ c ≠ ']' := by
  cases j with
  | null => exact ⟨_, _, rfl, rfl, by decide⟩
  | bool b => cases b <;> exact ⟨_, _, rfl, rfl, by decide⟩
  | number n =>
    obtain ⟨c, cs, hcs, hc⟩ := head_text h
    exact ⟨c, cs, hcs, isSpace_head hc, ne_of_head hc (by decide) (by decide)⟩
  | str s => exact ⟨_, _, rfl, rfl, by decide⟩
  | arr items => cases items <;> exact ⟨_, _, rfl, rfl, by decide⟩
  | obj fields => rcases fields with - | ⟨⟨name, j⟩, rest⟩ <;> exact ⟨_, _, rfl, rfl, by decide⟩

section Parts

variable {strict : Bool} {fuel depth : Nat} {cs next rest : List Char} {c : Char} {j : Json}
  {name : String}

theorem readValue?_number {n : Number} (hn : n.isExact = true) (hrest : Stops rest) :
    readValue? strict (fuel + 1) depth (n.text.toList ++ rest) = some (.number n, rest) := by
  have hread := readNumber?_text hn hrest
  have hinf : n.isInfinite = false := by
    cases n with
    | int n => rfl
    | float x => cases hn
  obtain ⟨c, cs, hcs, hc⟩ := head_text hn
  rw [hcs, List.cons_append] at hread ⊢
  have hskip : skipSpace (c :: (cs ++ rest)) = c :: (cs ++ rest) := by
    simp [skipSpace, isSpace_head hc]
  unfold readValue?
  rw [hskip]
  split
  case h_7 => simp [hread, hinf]
  all_goals
    next heq => exact absurd (List.cons.inj heq).1 (ne_of_head hc (by decide) (by decide))

theorem readValue?_arr {items : List Json} (hdepth : 1 < depth) (hspace : isSpace c = false)
    (hc : c ≠ ']') (h : readItems? strict fuel (depth - 1) (c :: cs) = some (items, rest)) :
    readValue? strict (fuel + 1) depth ('[' :: c :: cs) = some (.arr items, rest) := by
  have hskip : skipSpace (c :: cs) = c :: cs := by simp [skipSpace, hspace]
  have hskip' : skipSpace ('[' :: c :: cs) = '[' :: c :: cs := rfl
  unfold readValue?
  rw [hskip']
  simp only [if_neg (not_le.2 hdepth), hskip]
  split
  · next heq => exact absurd (List.cons.inj heq).1 hc
  · rw [h]
    rfl

theorem readItems?_last (h : readValue? strict fuel depth cs = some (j, ']' :: rest)) :
    readItems? strict (fuel + 1) depth cs = some ([j], rest) := by
  simp [readItems?, h, skipSpace, isSpace]

theorem readItems?_more {items : List Json}
    (h : readValue? strict fuel depth cs = some (j, ',' :: next))
    (hmore : readItems? strict fuel depth next = some (items, rest)) :
    readItems? strict (fuel + 1) depth cs = some (j :: items, rest) := by
  simp [readItems?, h, skipSpace, isSpace, hmore]

theorem ofFields_map (fields : List (String × Json)) :
    ofFields (fields.map fun f => (some f.1, f.2)) = .obj fields := by
  have h : (fields.map fun f => (some f.1, f.2)).mapM namedField? = some fields := by
    induction fields with
    | nil => rfl
    | cons f fields ih => simp [List.mapM_cons, namedField?, ih]
  rw [ofFields, h]

theorem readValue?_obj {fields : List (String × Json)} (hdepth : 1 < depth)
    (h : readFields? strict fuel (depth - 1) ('"' :: cs) =
      some (fields.map fun f => (some f.1, f.2), rest)) :
    readValue? strict (fuel + 1) depth ('\x7b' :: '"' :: cs) = some (.obj fields, rest) := by
  simp [readValue?, skipSpace, isSpace, if_neg (not_le.2 hdepth), h, ofFields_map]

theorem readFields?_last (h : readValue? strict fuel depth cs = some (j, '\x7d' :: rest)) :
    readFields? strict (fuel + 1) depth (quoted name ++ ':' :: cs) =
      some ([(some name, j)], rest) := by
  simp [readFields?, quoted, readText?_quoted, h, skipSpace, isSpace]

theorem readFields?_more {fields : List (Option String × Json)}
    (h : readValue? strict fuel depth cs = some (j, ',' :: next))
    (hmore : readFields? strict fuel depth next = some (fields, rest)) :
    readFields? strict (fuel + 1) depth (quoted name ++ ':' :: cs) =
      some ((some name, j) :: fields, rest) := by
  simp [readFields?, quoted, readText?_quoted, h, hmore, skipSpace, isSpace]

end Parts

theorem length_chars_pos {j : Json} {depth : Nat} (h : j.isExact depth = true) :
    0 < (chars j).length := by
  obtain ⟨c, cs, hcs, -⟩ := head_chars h
  simp [hcs]

-- A character takes at most two steps: one for the value that it begins, one for the list.
theorem exists_fuel {j : Json} {depth fuel : Nat} (ends : List Char) (h : j.isExact depth = true)
    (hfuel : 2 * ((chars j).length + (ends.length + 1)) ≤ fuel + 1) : ∃ k, fuel = k + 2 := by
  have := length_chars_pos h
  exact ⟨fuel - 2, by omega⟩

mutual

theorem readValue?_chars {strict : Bool} {fuel depth : Nat} {rest : List Char}
    (hrest : Stops rest) :
    (j : Json) → j.isExact depth = true → 2 * (chars j).length ≤ fuel + 1 →
      readValue? strict (fuel + 1) depth (chars j ++ rest) = some (j, rest)
  | null, _, _ => rfl
  | bool true, _, _ => rfl
  | bool false, _, _ => rfl
  | number n, h, _ => readValue?_number h hrest
  | str s, _, _ => by simp [chars, quoted, readValue?, skipSpace, isSpace, readText?_quoted]
  | arr [], h, _ => by
    have hdepth : ¬depth ≤ 1 := by simp [isExact] at h; omega
    simp [chars, readValue?, skipSpace, isSpace, hdepth]
  | obj [], h, _ => by
    have hdepth : ¬depth ≤ 1 := by simp [isExact] at h; omega
    simp [chars, readValue?, skipSpace, isSpace, hdepth]
  | arr (j :: items), h, hfuel => by
    simp only [isExact, areExact, Bool.and_eq_true, decide_eq_true_eq] at h
    obtain ⟨hdepth, hj, hitems⟩ := h
    simp only [chars, List.length_cons, List.length_append] at hfuel
    have hread : readItems? strict fuel (depth - 1) (chars j ++ (charsItems items ++ rest)) =
        some (j :: items, rest) := readItems?_chars j items hj hitems (by omega)
    obtain ⟨c, cs, hcs, hspace, hc⟩ := head_chars hj
    rw [hcs, List.cons_append] at hread
    simp only [chars, hcs, List.cons_append, List.append_assoc]
    exact readValue?_arr hdepth hspace hc hread
  | obj ((name, j) :: fields), h, hfuel => by
    simp only [isExact, areExactFields, Bool.and_eq_true, decide_eq_true_eq] at h
    obtain ⟨hdepth, hj, hfields⟩ := h
    simp only [chars, List.length_cons, List.length_append] at hfuel
    have hread : readFields? strict fuel (depth - 1)
        (quoted name ++ ':' :: (chars j ++ (charsFields fields ++ rest))) =
          some (((name, j) :: fields).map fun f => (some f.1, f.2), rest) :=
      readFields?_chars name j fields hj hfields (by omega)
    simp only [quoted, List.cons_append] at hread
    simp only [chars, quoted, List.cons_append, List.append_assoc] at hread ⊢
    exact readValue?_obj hdepth hread

theorem readItems?_chars {strict : Bool} {fuel depth : Nat} {rest : List Char} :
    (j : Json) → (items : List Json) → j.isExact depth = true → areExact depth items = true →
      2 * ((chars j).length + (charsItems items).length) ≤ fuel + 1 →
      readItems? strict fuel depth (chars j ++ (charsItems items ++ rest)) =
        some (j :: items, rest)
  | j, [], h, _, hfuel => by
    obtain ⟨fuel, rfl⟩ := exists_fuel [] h hfuel
    simp only [charsItems, List.length_singleton] at hfuel
    exact readItems?_last (readValue?_chars (stops_cons (.inr (.inl rfl))) j h (by omega))
  | j, j' :: items, h, hs, hfuel => by
    obtain ⟨fuel, rfl⟩ := exists_fuel (chars j' ++ charsItems items) h hfuel
    simp only [areExact, Bool.and_eq_true] at hs
    simp only [charsItems, List.length_cons, List.length_append] at hfuel
    have hread : readItems? strict (fuel + 1) depth (chars j' ++ (charsItems items ++ rest)) =
        some (j' :: items, rest) := readItems?_chars j' items hs.1 hs.2 (by omega)
    simp only [charsItems, List.cons_append, List.append_assoc]
    exact readItems?_more (readValue?_chars (stops_cons (.inl rfl)) j h (by omega)) hread

theorem readFields?_chars {strict : Bool} {fuel depth : Nat} {rest : List Char} :
    (name : String) → (j : Json) → (fields : List (String × Json)) → j.isExact depth = true →
      areExactFields depth fields = true →
      2 * ((chars j).length + (charsFields fields).length) ≤ fuel + 1 →
      readFields? strict fuel depth
          (quoted name ++ ':' :: (chars j ++ (charsFields fields ++ rest))) =
        some (((name, j) :: fields).map fun f => (some f.1, f.2), rest)
  | name, j, [], h, _, hfuel => by
    obtain ⟨fuel, rfl⟩ := exists_fuel [] h hfuel
    simp only [charsFields, List.length_singleton] at hfuel
    exact readFields?_last (readValue?_chars (stops_cons (.inr (.inr rfl))) j h (by omega))
  | name, j, (name', j') :: fields, h, hs, hfuel => by
    obtain ⟨fuel, rfl⟩ := exists_fuel
      (quoted name' ++ ':' :: (chars j' ++ charsFields fields)) h hfuel
    simp only [areExactFields, Bool.and_eq_true] at hs
    simp only [charsFields, List.length_cons, List.length_append] at hfuel
    have hread : readFields? strict (fuel + 1) depth
        (quoted name' ++ ':' :: (chars j' ++ (charsFields fields ++ rest))) =
          some (((name', j') :: fields).map fun f => (some f.1, f.2), rest) :=
      readFields?_chars name' j' fields hs.1 hs.2 (by omega)
    simp only [charsFields, List.cons_append, List.append_assoc]
    exact readFields?_more (readValue?_chars (stops_cons (.inl rfl)) j h (by omega)) hread

end

theorem read?_text {j : Json} (h : j.isExact maxDepth = true) : read? j.text.toList = some j := by
  have hstops : Stops [] := fun c hc => by cases hc
  have hread : readValue? true (2 * (chars j).length + 1 + 1) maxDepth (chars j ++ []) =
      some (j, []) := readValue?_chars hstops j h (by omega)
  rw [List.append_nil] at hread
  rw [read?, readAll?, toList_text, hread]
  rfl

end Stepwise.Json
