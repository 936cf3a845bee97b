import Mathlib.Data.List.SplitBy
import Stepwise.Debug.Tracer

/-! Which instructions a run may pause at, and at which of them it does. An instruction may be
shown if it is in the file, on one of its lines, not skipped by the rules, and has a position. Of
every block of such instructions with one range the tracer shows the first. -/

namespace Stepwise

section Blocks

variable {α β : Type} (key : α → β)

theorem getLast?_append_toList (l : List α) (o : Option α) :
    (l ++ o.toList).getLast?.map key = (o.map key).or (l.getLast?.map key) := by
  cases o with
  | none => simp
  | some a => rw [Option.toList_some, List.getLast?_concat, Option.map_some, Option.some_or]

variable [DecidableEq β]

/-- Blocks of successive elements with one key. -/
def blocks (l : List α) : List (List α) :=
  l.splitBy fun a b => key a = key b

def firsts (l : List α) : List α :=
  (blocks key l).filterMap List.head?

variable {key} {l : List α} {x a : α}

theorem firsts_append_cons (m : List α) (h : l.getLast?.map key ≠ some (key a)) :
    firsts key (l ++ a :: m) = firsts key l ++ firsts key (a :: m) := by
  have hblocks : blocks key (l ++ a :: m) = blocks key l ++ blocks key (a :: m) := by
    refine List.splitBy_append_cons m fun x hx => ?_
    have hlast : l.getLast? = some x := hx
    simpa [hlast] using h
  rw [firsts, hblocks, List.filterMap_append]
  rfl

theorem exists_firsts_cons (a : α) (m : List α) : ∃ rest, firsts key (a :: m) = a :: rest := by
  have hne : blocks key (a :: m) ≠ [] := List.splitBy_ne_nil.2 (List.cons_ne_nil a m)
  have hhead := List.head_head_splitBy (fun a b => decide (key a = key b)) (List.cons_ne_nil a m)
  have hfirst : ((blocks key (a :: m)).head hne).head? = some a := by
    rw [List.head?_eq_some_head (List.ne_nil_of_mem_splitBy (List.head_mem hne))]
    exact congrArg some hhead
  refine ⟨(blocks key (a :: m)).tail.filterMap List.head?, ?_⟩
  rw [firsts, ← List.cons_head_tail hne, List.filterMap_cons_some hfirst]
  rfl

theorem firsts_concat_of_eq (h : l.getLast?.map key = some (key a)) :
    firsts key (l ++ [a]) = firsts key l := by
  obtain ⟨x, hx, hkey⟩ := Option.map_eq_some_iff.1 h
  have hne : blocks key l ≠ [] := by
    refine List.splitBy_ne_nil.2 ?_
    rintro rfl
    cases hx
  obtain ⟨init, last, hinit⟩ := (List.eq_nil_or_concat (blocks key l)).resolve_left hne
  obtain ⟨hflat, hnil, hchain, hborders⟩ := List.splitBy_eq_iff.1 hinit
  have hlast : last ≠ [] := by
    rintro rfl
    simp at hnil
  have hx : last.getLast? = some x := by
    rw [hflat] at hx
    simpa [List.getLast?_append_of_ne_nil _ hlast] using hx
  have hgrown : blocks key (l ++ [a]) = init ++ [last ++ [a]] := by
    refine List.splitBy_eq_iff.2 ⟨?_, ?_, ?_, ?_⟩
    · simp [hflat]
    · simpa using fun h => hnil (by simp [h])
    · intro m hm
      obtain hm | hm := List.mem_append.1 hm
      · exact hchain m (by simp [hm])
      · rw [List.mem_singleton.1 hm]
        refine List.isChain_append.2 ⟨hchain last (by simp), .singleton a, ?_⟩
        simp [hx, hkey]
    · rw [List.concat_eq_append] at hborders
      obtain ⟨hleft, -, hborder⟩ := List.isChain_append.1 hborders
      refine List.isChain_append.2 ⟨hleft, .singleton _, ?_⟩
      rintro m hm n ⟨⟩
      obtain ⟨hm', hlast', hr⟩ := hborder m hm last rfl
      exact ⟨hm', by simp, by rwa [List.head_append_of_ne_nil hlast']⟩
  have hhead : (last ++ [a]).head? = last.head? := List.head?_append_of_ne_nil last hlast
  simp only [firsts, hgrown, hinit, List.concat_eq_append, List.filterMap_append,
    List.filterMap_cons, hhead]

theorem firsts_concat (l : List α) (a : α) :
    firsts key (l ++ [a]) =
      if l.getLast?.map key = some (key a) then firsts key l else firsts key l ++ [a] := by
  split
  · next h => exact firsts_concat_of_eq h
  · next h => exact firsts_append_cons [] h

theorem firsts_append_toList (l : List α) (o : Option α) :
    firsts key (l ++ o.toList) =
      firsts key l ++ (o.filter fun a => l.getLast?.map key ≠ some (key a)).toList := by
  cases o with
  | none => simp
  | some a =>
    rw [Option.toList_some, firsts_concat]
    by_cases h : l.getLast?.map key = some (key a) <;> simp [Option.filter, h]

theorem getLast?_firsts (l : List α) :
    (firsts key l).getLast?.map key = l.getLast?.map key := by
  induction l using List.reverseRecOn with
  | nil => rfl
  | append_singleton l a ih =>
    rw [firsts_concat]
    split
    · next h => rw [ih, h, List.getLast?_concat, Option.map_some]
    · rw [List.getLast?_concat, List.getLast?_concat]

/-- Of more elements the first ones of their blocks are some, if any, and no other ones come. -/
theorem exists_firsts_append (l m : List α) :
    ∃ k, firsts key (l ++ m) = firsts key l ++ k ∧ k.Sublist m := by
  induction m using List.reverseRecOn with
  | nil => exact ⟨[], by rw [List.append_nil, List.append_nil], .slnil⟩
  | append_singleton m a ih =>
    obtain ⟨k, hk, hsub⟩ := ih
    rw [← List.append_assoc, firsts_concat]
    split
    · exact ⟨k, hk, hsub.trans (List.sublist_append_left m [a])⟩
    · exact ⟨k ++ [a], by rw [hk, List.append_assoc], hsub.append (.refl [a])⟩

theorem firsts_append_of_forall {b : β} {m : List α} (h : ∀ a ∈ m, key a = b) :
    firsts key (l ++ m) =
      firsts key l ++ (m.head?.filter fun _ => l.getLast?.map key ≠ some b).toList := by
  induction m using List.reverseRecOn with
  | nil => simp
  | append_singleton m a ih =>
    obtain ⟨hm, ha⟩ := List.forall_mem_append.1 h
    rw [← List.append_assoc, firsts_concat, ih hm, List.forall_mem_singleton.1 ha]
    cases m with
    | nil => by_cases hl : l.getLast?.map key = some b <;> simp [Option.filter, hl]
    | cons c m =>
      have hlast : (l ++ c :: m).getLast?.map key = some b := by
        rw [List.getLast?_append_of_ne_nil l (List.cons_ne_nil c m),
          List.getLast?_eq_some_getLast (List.cons_ne_nil c m), Option.map_some,
          hm _ (List.getLast_mem _)]
      rw [if_pos hlast]
      rfl

theorem isChain_firsts (l : List α) : (firsts key l).IsChain fun a b => key a ≠ key b := by
  induction l using List.reverseRecOn with
  | nil => exact .nil
  | append_singleton l a ih =>
    rw [firsts_concat]
    split
    · exact ih
    · next h =>
      refine List.isChain_append.2 ⟨ih, .singleton a, ?_⟩
      rintro x hx y ⟨⟩ he
      rw [← getLast?_firsts, Option.mem_def.1 hx, Option.map_some, he] at h
      exact h rfl

end Blocks

namespace Hint

variable (i : Code.Instr) (chunk : Chunk) (lookup : NameLookup)

def Rule.isSkip : Rule → Bool
  | .skip => true
  | _ => false

/-- The value that an instruction is about to load, by its rule. -/
def Rule.loaded : Rule → Hint
  | .skip | .nothing => none
  | .constant => chunk.constants[i.arg]?
  | .name => chunk.names[i.arg]?.bind lookup
  | .custom rule => rule i.arg chunk lookup

theorem resolve_eq (rules : Rules) :
    resolve rules i chunk lookup =
      ((rules i.op).loaded i chunk lookup, !(rules i.op).isSkip) := by
  unfold resolve
  split <;> next h => rw [h]; rfl

end Hint

/-- A run at an instruction, as it is about to execute it. -/
structure Instant where
  activation : Activation
  arena : Arena

/-- What is shown of an instruction, and of which activation. -/
structure Offer where
  range : Range
  hint : Hint
  frame : FrameId
  chunk : Chunk
  lasti : Nat
  line : Nat

def Pause.offer (p : Pause) : Offer :=
  ⟨p.highlight, p.hint, p.snapshot.frame, p.snapshot.chunk, p.snapshot.lasti, p.snapshot.line⟩

/-- What may be shown of an instruction: it is in the file, on one of its lines, not skipped by
the rules, and has a position. -/
def Instant.offer? (t : Tracer) (x : Instant) : Option Offer :=
  let a := x.activation
  if a.chunk.file = t.file ∧ 1 ≤ a.line ∧ a.line ≤ t.lineCount then
    (a.chunk.instrAt? a.lasti).bind fun i =>
      if (t.rules i.op).isSkip then none
      else
        (Range.at? a.chunk a.lasti a.line).map fun range =>
          ⟨range, (t.rules i.op).loaded i a.chunk (x.arena.lookup a.frame), a.frame, a.chunk,
            a.lasti, a.line⟩
  else none

namespace Tracer

variable {t : Tracer} {a : Activation} {arena : Arena}

/-- An instruction with a position is offered unless it is skipped or has the range that was
offered last. -/
theorem offer?_of_range {i : Code.Instr} {range : Range}
    (hi : a.chunk.instrAt? a.lasti = some i)
    (hr : Range.at? a.chunk a.lasti a.line = some range) :
    t.offer? a arena =
      if (t.rules i.op).isSkip = true ∨ t.last = some range then (none, t)
      else (some (range, (t.rules i.op).loaded i a.chunk (arena.lookup a.frame)),
        { t with last := some range }) := by
  simp only [offer?, hi, hr, Hint.resolve_eq, offers]
  cases (t.rules i.op).isSkip with
  | true => simp
  | false =>
    by_cases hlast : t.last = some range
    · simp only [hlast, Bool.not_false, Bool.not_true, Bool.false_or, decide_true, if_true, or_true,
        Bool.false_eq_true, if_false]
      rw [← hlast]
    · simp [hlast]

theorem offer?_of_no_range {i : Code.Instr} (hi : a.chunk.instrAt? a.lasti = some i)
    (hr : Range.at? a.chunk a.lasti a.line = none) : t.offer? a arena = (none, t) := by
  simp only [offer?, hi, hr, offers, Bool.false_eq_true, if_false]

theorem consider_of_none (h : Instant.offer? t ⟨a, arena⟩ = none) :
    t.consider .opcode false a arena = (.answer .proceed, t) := by
  unfold consider
  unfold Instant.offer? at h
  by_cases hfile : a.chunk.file = t.file
  · rw [if_neg (by simp [hfile]), if_neg (by simp)]
    by_cases hline : 1 ≤ a.line ∧ a.line ≤ t.lineCount
    · rw [if_pos ⟨hfile, hline⟩] at h
      rw [if_neg (by omega)]
      cases hi : a.chunk.instrAt? a.lasti with
      | none => simp only [offer?, hi]
      | some i =>
        simp only [hi, Option.bind_some] at h
        cases hr : Range.at? a.chunk a.lasti a.line with
        | none => rw [offer?_of_no_range hi hr]
        | some range =>
          have hskip : (t.rules i.op).isSkip = true := by
            by_contra hskip
            simp [hskip, hr] at h
          rw [offer?_of_range hi hr, if_pos (.inl hskip)]
    · rw [if_pos (by omega)]
  · rw [if_pos (.inr hfile)]

theorem consider_of_some {o : Offer} (h : Instant.offer? t ⟨a, arena⟩ = some o) :
    t.consider .opcode false a arena =
      if t.last = some o.range then (.answer .proceed, t)
      else (.offer o.range o.hint, { t with last := some o.range }) := by
  unfold consider
  unfold Instant.offer? at h
  dsimp only at h
  split at h
  · next hin =>
    obtain ⟨hfile, hline⟩ := hin
    rw [if_neg (by simp [hfile]), if_neg (by simp), if_neg (by omega)]
    obtain ⟨i, hi, h⟩ := Option.bind_eq_some_iff.1 h
    split at h
    · cases h
    · next hskip =>
      obtain ⟨range, hr, rfl⟩ := Option.map_eq_some_iff.1 h
      rw [offer?_of_range hi hr]
      by_cases hlast : t.last = some range
      · rw [if_pos (.inr hlast), if_pos hlast]
      · rw [if_neg (not_or.2 ⟨hskip, hlast⟩), if_neg hlast]
  · cases h

theorem eq_of_offer? {o : Offer} (h : Instant.offer? t ⟨a, arena⟩ = some o) :
    o = ⟨o.range, o.hint, a.frame, a.chunk, a.lasti, a.line⟩ := by
  unfold Instant.offer? at h
  dsimp only at h
  split at h
  · obtain ⟨i, -, h⟩ := Option.bind_eq_some_iff.1 h
    split at h
    · cases h
    · obtain ⟨range, -, rfl⟩ := Option.map_eq_some_iff.1 h
      rfl
  · cases h

theorem consider_snd (t : Tracer) (event : TraceEvent) (interrupted : Bool) (a : Activation)
    (arena : Arena) : ∃ last, (t.consider event interrupted a arena).2 = { t with last } := by
  have hsame : ∃ last, t = { t with last } := ⟨t.last, rfl⟩
  have hoffer : ∃ last, (t.offer? a arena).2 = { t with last } := by
    unfold offer?
    split
    · exact hsame
    · exact ⟨_, rfl⟩
  unfold consider
  split
  · exact hsame
  · split
    · exact hsame
    · split
      · exact hsame
      · split <;> next h => rwa [h] at hoffer

theorem of_pauseAt {t' : Tracer} {highlight : Range} {hint : Hint} {g g' : Gallery} {p : Pause}
    (h : t.pauseAt highlight hint a g = .ok (p, g', t')) :
    ∃ arena, g.arena.pin a.frame = some arena ∧
      p = ⟨t.seq + 1, ⟨g.pinnings.size, a.frame, a.chunk, a.lasti, a.line⟩, highlight, hint⟩ ∧
      g' = ⟨arena, g.pinnings.push ⟨a.frame, 1, false⟩⟩ ∧
      t' = { t with seq := t.seq + 1 } := by
  unfold pauseAt Gallery.capture at h
  split at h
  · cases h
  · next hc =>
    split at hc <;> cases hc
    next arena hpin =>
      cases h
      exact ⟨arena, hpin, rfl, rfl, rfl⟩

end Tracer

end Stepwise
