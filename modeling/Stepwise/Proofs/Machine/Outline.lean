import Stepwise.Proofs.Machine.Arena

/-! The outline of a frame in an arena: what is left of it when the names and the position that
the program writes to are taken away. For each operation there is one equation that says what
becomes of the outline behind every handle. -/

namespace Stepwise

structure Outline where
  pins : Nat
  retired : Bool
  chunk : Chunk
  parent : Option FrameId

def Outline.released (o : Outline) : Option Outline :=
  if 0 < o.pins then some { o with retired := true } else none

def Outline.unpinned (o : Outline) : Option Outline :=
  if o.pins ≤ 1 && o.retired then none else some { o with pins := o.pins - 1 }

def Slot.outline (s : Slot) : Option Outline :=
  s.frame.map fun f => ⟨s.pins, s.retired, f.chunk, f.parent⟩

def Slot.written (g : Frame → Frame) (s : Slot) : Slot :=
  if s.retired then s else { s with frame := s.frame.map g }

namespace Arena

variable {a b : Arena} {id j : FrameId} {s : Slot}

theorem bind_slot? {α : Type} (view : Slot → Option α) {t : Option Slot}
    (h : ∀ j, b.slot? j = if j = id then t else a.slot? j) (j : FrameId) :
    (b.slot? j).bind view = if j = id then t.bind view else (a.slot? j).bind view := by
  rw [h j]
  split <;> rfl

def outline? (a : Arena) (id : FrameId) : Option Outline :=
  (a.slot? id).bind Slot.outline

theorem outline?_eq_some_iff {o : Outline} :
    a.outline? id = some o ↔ ∃ s f, a.slot? id = some s ∧ s.frame = some f ∧
      (⟨s.pins, s.retired, f.chunk, f.parent⟩ : Outline) = o := by
  simp only [outline?, Option.bind_eq_some_iff, Slot.outline, Option.map_eq_some_iff,
    exists_and_left]

theorem outline?_eq_none_iff : a.outline? id = none ↔ a.slot? id = none := by
  refine ⟨fun h => ?_, fun h => by rw [outline?, h, Option.bind_none]⟩
  cases hs : a.slot? id with
  | none => rfl
  | some s =>
    rw [outline?, hs, Option.bind_some, Slot.outline, Option.map_eq_none_iff] at h
    exact absurd (slot?_eq_some_iff.1 hs).2.2 (by simp [h])

theorem isLive_iff_outline? : a.isLive id = true ↔ ∃ o, a.outline? id = some o := by
  rw [← Option.isSome_iff_exists, ← Option.ne_none_iff_isSome, ne_eq, outline?_eq_none_iff, isLive,
    Option.isSome_iff_ne_none]

theorem eq_of_index_eq (hid : a.isLive id = true) (hj : a.isLive j = true)
    (h : j.index = id.index) : j = id := by
  obtain ⟨s, hs⟩ := isLive_iff.1 hid
  obtain ⟨t, ht⟩ := isLive_iff.1 hj
  obtain ⟨hs, hgen, -⟩ := slot?_eq_some_iff.1 hs
  obtain ⟨ht, hgen', -⟩ := slot?_eq_some_iff.1 ht
  rw [h, hs] at ht
  cases ht
  cases id
  cases j
  cases h
  cases hgen.symm.trans hgen'
  rfl

theorem slot?_eq_none_of_ne (hid : a.isLive id = true) (h : j.index = id.index) (hne : j ≠ id) :
    a.slot? j = none := by
  rw [Option.eq_none_iff_forall_ne_some]
  exact fun s hs => hne (eq_of_index_eq hid (isLive_iff.2 ⟨s, hs⟩) h)

theorem slot?_modifySlot {g : Slot → Slot} (h : a.slot? id = some s)
    (hgen : ∀ s, (g s).generation = s.generation)
    (hframe : ∀ s, (g s).frame.isSome = s.frame.isSome) (j : FrameId) :
    (a.modifySlot id g).slot? j = if j = id then some (g s) else a.slot? j := by
  have hlive : a.isLive id = true := isLive_iff.2 ⟨s, h⟩
  have hself := slot?_modifySlot_self h (hgen s) (hframe s)
  split
  · next he => rw [he, hself]
  · next he =>
    by_cases hi : j.index = id.index
    · rw [slot?_eq_none_of_ne hlive hi he]
      exact slot?_eq_none_of_ne (isLive_iff.2 ⟨_, hself⟩) hi he
    · exact slot?_modifySlot_of_ne hi

theorem slot?_modifyFrame (a : Arena) (id : FrameId) (g : Frame → Frame) (j : FrameId) :
    (a.modifyFrame id g).slot? j =
      if j = id then (a.slot? id).map (Slot.written g) else a.slot? j := by
  cases hs : a.slot? id with
  | none =>
    have hw : a.isWritable id = false := by rw [isWritable, hs, Option.any_none]
    rw [modifyFrame, hw, if_neg Bool.false_ne_true]
    split
    · next he => rw [he, hs, Option.map_none]
    · rfl
  | some s =>
    have hw : a.isWritable id = !s.retired := by rw [isWritable, hs, Option.any_some]
    rw [modifyFrame, hw, Option.map_some, Slot.written]
    by_cases hr : s.retired = true
    · rw [if_neg (by simp [hr]), if_pos hr]
      split
      · next he => rw [he, hs]
      · rfl
    · rw [if_pos (by simp [hr]), if_neg hr]
      exact slot?_modifySlot hs (by simp) (by simp) j

theorem slot?_freeSlot (h : a.slot? id = some s) (j : FrameId) :
    (a.freeSlot id.index).slot? j = if j = id then none else a.slot? j := by
  by_cases hi : j.index = id.index
  · have hold : j ≠ id → a.slot? j = none := slot?_eq_none_of_ne (isLive_iff.2 ⟨s, h⟩) hi
    have hnone : (a.freeSlot id.index).slot? j = none := by
      rw [slot?, hi, getElem?_freeSlot, if_pos rfl, (slot?_eq_some_iff.1 h).1]
      simp [Slot.freed]
    rw [hnone]
    split
    · rfl
    · next he => rw [hold he]
  · rw [slot?_freeSlot_of_ne hi, if_neg fun he : j = id => hi (congrArg FrameId.index he)]

theorem slot?_alloc (ha : a.Sound) (f : Frame) (j : FrameId) :
    (a.alloc f).2.slot? j =
      if j = (a.alloc f).1 then some (.holding f (a.alloc f).1.generation) else a.slot? j := by
  have hself := slot?_alloc_self ha f
  split
  · next he => rw [he, hself]
  · next he =>
    by_cases hi : j.index = (a.alloc f).1.index
    · rw [slot?_eq_none_of_ne (isLive_iff.2 ⟨_, hself⟩) hi he, eq_comm,
        Option.eq_none_iff_forall_ne_some]
      intro s hs
      obtain ⟨hs, -, hsome⟩ := slot?_eq_some_iff.1 hs
      exact index_alloc_fresh ha f hs hsome hi
    · rw [slot?_congr (getElem?_alloc_of_ne hi)]

theorem outline?_alloc (ha : a.Sound) (f : Frame) (j : FrameId) :
    (a.alloc f).2.outline? j =
      if j = (a.alloc f).1 then some ⟨0, false, f.chunk, f.parent⟩ else a.outline? j := by
  unfold outline?
  rw [slot?_alloc ha f j]
  split <;> rfl

theorem outline?_alloc_eq_none (ha : a.Sound) (f : Frame) : a.outline? (a.alloc f).1 = none := by
  have hdead := isLive_alloc_eq_false ha f
  rw [← Bool.not_eq_true, isLive_iff_outline?] at hdead
  rw [Option.eq_none_iff_forall_ne_some]
  exact fun o ho => hdead ⟨o, ho⟩

theorem outline?_modifyFrame {g : Frame → Frame} (hchunk : ∀ f, (g f).chunk = f.chunk)
    (hparent : ∀ f, (g f).parent = f.parent) (j : FrameId) :
    (a.modifyFrame id g).outline? j = a.outline? j := by
  have hwritten (s : Slot) : (s.written g).outline = s.outline := by
    unfold Slot.written
    split
    · rfl
    · simp only [Slot.outline, Option.map_map, Function.comp_def, hchunk, hparent]
  rw [outline?, bind_slot? Slot.outline (slot?_modifyFrame a id g) j, Option.bind_map]
  simp only [Function.comp_def, hwritten]
  split
  · next he => rw [he, outline?]
  · rfl

theorem outline?_setPosition (a : Arena) (id : FrameId) (lasti line : Nat) (j : FrameId) :
    (a.setPosition id lasti line).outline? j = a.outline? j :=
  outline?_modifyFrame (by simp) (by simp) j

theorem outline?_store (a : Arena) (id : FrameId) (name : String) (v : Value) (j : FrameId) :
    (a.store id name v).outline? j = a.outline? j := by
  unfold store
  split
  · rfl
  · split
    · rfl
    · exact outline?_modifyFrame (by simp) (by simp) j

theorem outline?_of_slot? {t : Option Slot}
    (h : ∀ j, b.slot? j = if j = id then t else a.slot? j) (j : FrameId) :
    b.outline? j = if j = id then t.bind Slot.outline else a.outline? j :=
  bind_slot? Slot.outline h j

theorem outline?_eq_ite {o : Option Outline} (h : a.outline? id = o) :
    a.outline? j = if j = id then o else a.outline? j := by
  split
  · next he => rw [he, h]
  · rfl

theorem outline?_release (a : Arena) (id j : FrameId) :
    (a.release id).outline? j =
      if j = id then (a.outline? id).bind Outline.released else a.outline? j := by
  cases ho : a.outline? id with
  | none =>
    rw [release, outline?_eq_none_iff.1 ho]
    exact outline?_eq_ite ho
  | some o =>
    obtain ⟨s, f, hs, hf, rfl⟩ := outline?_eq_some_iff.1 ho
    rw [release, hs, Option.bind_some, Outline.released]
    simp only
    split
    · rw [outline?_of_slot? (slot?_modifySlot hs (by simp) (by simp)), Option.bind_some,
        Slot.outline, hf, Option.map_some]
    · rw [outline?_of_slot? (slot?_freeSlot hs), Option.bind_none]

theorem outline?_pin {b : Arena} (h : a.pin id = some b) (j : FrameId) :
    b.outline? j =
      if j = id then (a.outline? id).map fun o => { o with pins := o.pins + 1 }
      else a.outline? j := by
  unfold pin at h
  split at h
  · next hlive =>
    cases h
    obtain ⟨o, ho⟩ := isLive_iff_outline?.1 hlive
    obtain ⟨s, f, hs, hf, rfl⟩ := outline?_eq_some_iff.1 ho
    rw [ho, outline?_of_slot? (slot?_modifySlot hs (by simp) (by simp)), Option.bind_some,
      Slot.outline, hf, Option.map_some, Option.map_some]
  · cases h

theorem outline?_unpin (a : Arena) (id j : FrameId) :
    (a.unpin id).outline? j =
      if j = id then (a.outline? id).bind Outline.unpinned else a.outline? j := by
  cases ho : a.outline? id with
  | none =>
    rw [unpin, outline?_eq_none_iff.1 ho]
    exact outline?_eq_ite ho
  | some o =>
    obtain ⟨s, f, hs, hf, rfl⟩ := outline?_eq_some_iff.1 ho
    rw [unpin, hs, Option.bind_some, Outline.unpinned]
    simp only
    split
    · rw [outline?_of_slot? (slot?_freeSlot hs), Option.bind_none]
    · rw [outline?_of_slot? (slot?_modifySlot hs (by simp) (by simp)), Option.bind_some,
        Slot.outline, hf, Option.map_some]

theorem occupied_eq_zero (h : ∀ id, a.outline? id = none) : a.occupied = 0 := by
  rw [occupied, List.countP_eq_zero]
  intro s hs hsome
  obtain ⟨i, hi⟩ := List.mem_iff_getElem?.1 hs
  have hslot : a.slot? ⟨i, s.generation⟩ = some s :=
    slot?_eq_some_iff.2 ⟨by rwa [Array.getElem?_toList] at hi, rfl, hsome⟩
  rw [outline?_eq_none_iff.1 (h _)] at hslot
  cases hslot

end Arena

end Stepwise
