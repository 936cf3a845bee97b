import Mathlib.Data.List.Chain
import Mathlib.Data.List.TakeWhile
import Stepwise.Terminal.Key

/-! The data of a terminal is a sequence of keys. Texts of whole keys, one after the other, are
decoded as each of them is alone, whatever its neighbours are; only a line feed that follows a
carriage return is taken along with it. Any data at all, cut off or not, is divided into parts
without a gap, each of which gives one key. -/

namespace Stepwise.Key

inductive Spelling : List Char → Prop
  | alone {c : Char} (h : c ≠ escape) : Spelling [c]
  | lineEnd : Spelling ['\r', '\n']
  | bracketed {body : List Char} {final : Char} (hbody : ∀ c ∈ body, isFinal c = false)
    (hfinal : isFinal final = true) : Spelling (escape :: '[' :: (body ++ [final]))
  | lettered (final : Char) : Spelling [escape, 'O', final]

/-- Read one after the other, the two are taken for one key. -/
def Merges (t u : List Char) : Prop :=
  t = ['\r'] ∧ u = ['\n']

instance (t u : List Char) : Decidable (Merges t u) :=
  inferInstanceAs (Decidable (_ ∧ _))

section Next

variable {c : Char} {body rest t : List Char}

theorem next_alone (hc : c ≠ escape) (hrest : c = '\r' → rest.head? ≠ some '\n') :
    next c rest = (ofChar c, rest) := by
  unfold next
  split
  · exact absurd rfl (hrest rfl)
  · exact absurd rfl hc
  · exact absurd rfl hc
  · exact absurd rfl hc
  · rfl

theorem bracketed_append {final : Char} (hbody : ∀ c ∈ body, isFinal c = false)
    (hfinal : isFinal final = true) (rest : List Char) :
    Key.bracketed (body ++ final :: rest) = (ofBracketed (body ++ [final]), rest) := by
  have hopen : ∀ c ∈ body, (!isFinal c) = true := fun c hc => by rw [hbody c hc]; rfl
  have hstop : ¬ (!isFinal final) = true := by rw [hfinal]; decide
  rw [Key.bracketed, List.takeWhile_append_of_pos hopen, List.dropWhile_append_of_pos hopen,
    List.takeWhile_cons_of_neg (p := fun c => !isFinal c) hstop,
    List.dropWhile_cons_of_neg (p := fun c => !isFinal c) hstop, List.append_nil]

theorem bracketed_of_forall (hbody : ∀ c ∈ body, isFinal c = false) :
    Key.bracketed body = (ofBracketed body, []) := by
  have hopen : ∀ c ∈ body, (!isFinal c) = true := fun c hc => by rw [hbody c hc]; rfl
  rw [Key.bracketed, List.takeWhile_eq_self_iff.2 hopen, List.dropWhile_eq_nil_iff.2 hopen]

theorem Spelling.exists_next (h : Spelling t) : ∃ c cs key, t = c :: cs ∧
    ∀ rest, (t = ['\r'] → rest.head? ≠ some '\n') → next c (cs ++ rest) = (key, rest) := by
  cases h with
  | @alone c hc =>
    exact ⟨c, [], ofChar c, rfl, fun rest hrest => next_alone hc fun h => hrest (by rw [h])⟩
  | lineEnd => exact ⟨'\r', ['\n'], enter, rfl, fun rest _ => rfl⟩
  | @bracketed body final hbody hfinal =>
    refine ⟨escape, _, ofBracketed (body ++ [final]), rfl, fun rest _ => ?_⟩
    rw [List.cons_append, List.append_assoc]
    exact bracketed_append hbody hfinal rest
  | lettered final => exact ⟨escape, _, ofLettered final, rfl, fun rest _ => rfl⟩

theorem Spelling.exists_decode (h : Spelling t) : ∃ key, decode t = [key] ∧
    ∀ rest, (t = ['\r'] → rest.head? ≠ some '\n') → decode (t ++ rest) = key :: decode rest := by
  obtain ⟨c, cs, key, rfl, hnext⟩ := h.exists_next
  have happend (rest : List Char) (hrest : c :: cs = ['\r'] → rest.head? ≠ some '\n') :
      decode (c :: cs ++ rest) = key :: decode rest := by
    rw [List.cons_append, decode, hnext rest hrest]
  refine ⟨key, ?_, happend⟩
  have halone := happend [] fun _ => by simp
  rwa [List.append_nil, decode] at halone

theorem Spelling.eq_of_head? (h : Spelling t) (hhead : t.head? = some '\n') : t = ['\n'] := by
  cases h with
  | alone => rw [Option.some.inj hhead]
  | lineEnd | bracketed | lettered => exact absurd (Option.some.inj hhead) (by decide)

theorem Spelling.ne_nil (h : Spelling t) : t ≠ [] := by
  cases h <;> exact List.cons_ne_nil _ _

theorem decode_spellings {texts : List (List Char)} (htexts : ∀ t ∈ texts, Spelling t)
    (hapart : texts.IsChain fun t u => ¬ Merges t u) :
    decode texts.flatten = texts.flatMap decode := by
  induction texts with
  | nil => exact decode.eq_1
  | cons t texts ih =>
    obtain ⟨ht, htexts⟩ := List.forall_mem_cons.1 htexts
    obtain ⟨hnext, hapart⟩ := List.isChain_cons.1 hapart
    obtain ⟨key, hkey, happend⟩ := ht.exists_decode
    have hrest : t = ['\r'] → texts.flatten.head? ≠ some '\n' := by
      intro hreturn hhead
      cases texts with
      | nil => cases hhead
      | cons u texts =>
        have hu := htexts u List.mem_cons_self
        obtain ⟨c, cs, rfl⟩ := List.exists_cons_of_ne_nil hu.ne_nil
        exact hnext _ rfl ⟨hreturn, hu.eq_of_head? hhead⟩
    rw [List.flatten_cons, List.flatMap_cons, happend _ hrest, ih htexts hapart, hkey]
    rfl

end Next

/-! Any data. -/

/-- The steps of the decoder: each takes some of the characters that are left, from the first on,
and gives a key. -/
inductive Steps : List Char → List (List Char × Key) → Prop
  | done : Steps [] []
  | step {c : Char} {more rest : List Char} {key : Key} {steps : List (List Char × Key)}
    (h : next c (more ++ rest) = (key, rest)) (hrest : Steps rest steps) :
    Steps (c :: (more ++ rest)) ((c :: more, key) :: steps)

/-- What a sequence takes behind its bracket would give the same key if nothing followed. -/
theorem exists_bracketed_eq (cs : List Char) : ∃ more, cs = more ++ (Key.bracketed cs).2 ∧
    Key.bracketed more = ((Key.bracketed cs).1, []) := by
  cases hfind : cs.find? isFinal with
  | none =>
    have hcs : ∀ c ∈ cs, isFinal c = false := by simpa using hfind
    refine ⟨cs, ?_, ?_⟩ <;> rw [bracketed_of_forall hcs]
    exact (List.append_nil cs).symm
  | some final =>
    obtain ⟨hfinal, body, rest, rfl, hbody⟩ := List.find?_eq_some_iff_append.1 hfind
    have hbody : ∀ c ∈ body, isFinal c = false := by simpa using hbody
    refine ⟨body ++ [final], ?_, ?_⟩
    · rw [bracketed_append hbody hfinal, List.append_assoc]
      rfl
    · rw [bracketed_append hbody hfinal, bracketed_append hbody hfinal]

theorem next_nil (c : Char) : next c [] = (ofChar c, []) := by
  by_cases hc : c = escape
  · rw [hc]
    rfl
  · exact next_alone hc fun _ => nofun

theorem exists_next_eq (c : Char) (cs : List Char) :
    ∃ more, cs = more ++ (next c cs).2 ∧ next c more = ((next c cs).1, []) := by
  fun_cases next c cs with
  | case1 rest => exact ⟨['\n'], rfl, rfl⟩
  | case2 rest =>
    obtain ⟨more, hrest, hmore⟩ := exists_bracketed_eq rest
    exact ⟨'[' :: more, congrArg ('[' :: ·) hrest, hmore⟩
  | case3 => exact ⟨['O'], rfl, rfl⟩
  | case4 final rest => exact ⟨['O', final], rfl, rfl⟩
  | case5 => exact ⟨[], rfl, next_nil c⟩

theorem exists_steps (cs : List Char) : ∃ steps, Steps cs steps ∧
    (steps.map Prod.fst).flatten = cs ∧ steps.map Prod.snd = decode cs ∧
    ∀ x ∈ steps, x.1 ≠ [] ∧ decode x.1 = [x.2] := by
  fun_induction decode cs with
  | case1 => exact ⟨[], .done, rfl, rfl, List.forall_mem_nil _⟩
  | case2 c cs ih =>
    obtain ⟨steps, hsteps, htexts, hkeys, hall⟩ := ih
    obtain ⟨more, hcs, hmore⟩ := exists_next_eq c cs
    have hnext : next c (more ++ (next c cs).2) = ((next c cs).1, (next c cs).2) := by rw [← hcs]
    have hsteps := Steps.step hnext hsteps
    rw [← hcs] at hsteps
    refine ⟨_, hsteps, ?_, congrArg (_ :: ·) hkeys, List.forall_mem_cons.2 ⟨⟨?_, ?_⟩, hall⟩⟩
    · rw [List.map_cons, List.flatten_cons, htexts, List.cons_append, ← hcs]
    · exact List.cons_ne_nil _ _
    · rw [decode, hmore, decode]

/-- Texts of whole keys are decoded one by one, unless a line feed follows a carriage return; and
the decoder takes any data part by part, each of them once and none of them empty, and from each
the one key that it gives alone. -/
theorem decode_flatten :
    (∀ texts : List (List Char), (∀ t ∈ texts, Spelling t) →
      (texts.IsChain fun t u => ¬ Merges t u) →
        (∀ t ∈ texts, ∃ key, decode t = [key]) ∧
          decode texts.flatten = texts.flatMap decode) ∧
      ∀ cs, ∃ steps, Steps cs steps ∧ (steps.map Prod.fst).flatten = cs ∧
        steps.map Prod.snd = decode cs ∧ ∀ x ∈ steps, x.1 ≠ [] ∧ decode x.1 = [x.2] := by
  refine ⟨fun texts htexts hapart => ⟨fun t ht => ?_, decode_spellings htexts hapart⟩,
    exists_steps⟩
  obtain ⟨key, hkey, -⟩ := (htexts t ht).exists_decode
  exact ⟨key, hkey⟩

def burst : List (List Char) :=
  [['a'], ['\r'], [escape, '[', '3', '~'], ['\n'], ['\r', '\n'], ['\n'], [escape, 'O', 'H'],
    [escape, '[', escape, '\r', 'D'], ['\x03'], [escape, 'O', escape], ['[']]

theorem decode_flatten_burst : decode burst.flatten = [char 'a', enter, delete, enter, enter, enter,
    home, unknown (String.ofList [escape, '[', escape, '\r', 'D']), interrupt,
    unknown (String.ofList [escape, 'O', escape]), char '['] := by
  have hspelling : ∀ t ∈ burst, Spelling t := by
    simp only [burst, List.forall_mem_cons]
    exact ⟨.alone (by decide), .alone (by decide),
      @Spelling.bracketed ['3'] '~' (by simp [isFinal]) (by decide), .alone (by decide), .lineEnd,
      .alone (by decide), .lettered 'H',
      @Spelling.bracketed [escape, '\r'] 'D' (by simp [isFinal, escape]) (by decide), .alone (by decide),
      .lettered escape, .alone (by decide), List.forall_mem_nil _⟩
  have hapart : burst.IsChain fun t u => ¬ Merges t u := by decide
  rw [(decode_flatten.1 burst hspelling hapart).2]
  decide +kernel

end Stepwise.Key
