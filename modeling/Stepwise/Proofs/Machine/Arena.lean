import Stepwise.Machine.Frame

/-! What the operations on an arena do to its slots. Each of them touches one slot at most, and
leaves the handles of all other frames as they were. In a sound arena the free list names every
empty slot once, so that a new frame never takes the place of one that is there. -/

namespace Stepwise.Arena

variable {a : Arena} {id j : FrameId} {s : Slot} {f : Frame}

theorem slot?_eq_some_iff :
    a.slot? id = some s ↔
      a.slots[id.index]? = some s ∧ s.generation = id.generation ∧ s.frame.isSome = true := by
  simp only [slot?, Option.filter_eq_some_iff, Bool.and_eq_true, beq_iff_eq]

theorem isLive_iff : a.isLive id = true ↔ ∃ s, a.slot? id = some s := by
  rw [isLive, Option.isSome_iff_exists]

theorem frame?_of_slot? (h : a.slot? id = some s) : a.frame? id = s.frame := by
  rw [frame?, h, Option.bind_some]

theorem slot?_congr {b : Arena} (h : b.slots[id.index]? = a.slots[id.index]?) :
    b.slot? id = a.slot? id := by
  rw [slot?, slot?, h]

/-- The free list names the empty slots, each of them once. -/
structure Sound (a : Arena) : Prop where
  mem_free : ∀ i, i ∈ a.free ↔ ∃ s, a.slots[i]? = some s ∧ s.frame = none
  nodup : a.free.Nodup

theorem sound_new (builtins : Scope) : (new builtins).Sound :=
  ⟨fun i => by simp [new], .nil⟩

section Alloc

@[simp] theorem globals_alloc (a : Arena) (f : Frame) : (a.alloc f).2.globals = a.globals := by
  unfold alloc
  split <;> rfl

@[simp] theorem builtins_alloc (a : Arena) (f : Frame) : (a.alloc f).2.builtins = a.builtins := by
  unfold alloc
  split <;> rfl

theorem index_alloc_fresh (ha : a.Sound) (f : Frame) {i : Nat} (hi : a.slots[i]? = some s)
    (hs : s.frame.isSome = true) : i ≠ (a.alloc f).1.index := by
  intro he
  unfold alloc at he
  split at he
  · next k rest hfree =>
    obtain ⟨t, ht, hnone⟩ := (ha.mem_free k).1 (hfree ▸ List.mem_cons_self)
    subst he
    rw [hi] at ht
    cases ht
    rw [hnone] at hs
    cases hs
  · subst he
    simp at hi

theorem getElem?_alloc_self (ha : a.Sound) (f : Frame) :
    (a.alloc f).2.slots[(a.alloc f).1.index]? = some (.holding f (a.alloc f).1.generation) := by
  unfold alloc
  split
  · next k rest hfree =>
    obtain ⟨t, ht, -⟩ := (ha.mem_free k).1 (hfree ▸ List.mem_cons_self)
    simp [Array.getElem?_modify, ht]
  · simp

theorem getElem?_alloc_of_ne {i : Nat} (hi : i ≠ (a.alloc f).1.index) :
    (a.alloc f).2.slots[i]? = a.slots[i]? := by
  unfold alloc at hi ⊢
  split
  · next k rest hfree =>
    rw [hfree] at hi
    simp only [Array.getElem?_modify, if_neg (Ne.symm hi)]
  · next hfree =>
    rw [hfree] at hi
    rw [Array.getElem?_push, if_neg hi]

theorem slot?_alloc_self (ha : a.Sound) (f : Frame) :
    (a.alloc f).2.slot? (a.alloc f).1 = some (.holding f (a.alloc f).1.generation) :=
  slot?_eq_some_iff.2 ⟨getElem?_alloc_self ha f, rfl, rfl⟩

theorem slot?_alloc_of_live (ha : a.Sound) (f : Frame) (hj : a.isLive j = true) :
    (a.alloc f).2.slot? j = a.slot? j := by
  obtain ⟨s, hs⟩ := isLive_iff.1 hj
  have h := slot?_eq_some_iff.1 hs
  exact slot?_congr (getElem?_alloc_of_ne (index_alloc_fresh ha f h.1 h.2.2))

theorem isLive_alloc_eq_false (ha : a.Sound) (f : Frame) : a.isLive (a.alloc f).1 = false := by
  rw [← Bool.not_eq_true, isLive_iff]
  rintro ⟨s, hs⟩
  obtain ⟨hi, -, hsome⟩ := slot?_eq_some_iff.1 hs
  exact index_alloc_fresh ha f hi hsome rfl

theorem sound_alloc (ha : a.Sound) (f : Frame) : (a.alloc f).2.Sound := by
  have hself := getElem?_alloc_self ha f
  have hne := fun i => getElem?_alloc_of_ne (a := a) (f := f) (i := i)
  have hfree : (a.alloc f).2.free = a.free.tail := by
    unfold alloc
    split
    · next h => rw [h, List.tail_cons]
    · next h => rw [h, List.tail_nil]
  have hmem : ∀ i, i ∈ a.free.tail ↔ i ≠ (a.alloc f).1.index ∧ i ∈ a.free := by
    intro i
    have hn := ha.nodup
    unfold alloc
    split
    · next k rest h =>
      rw [h] at hn ⊢
      obtain ⟨hk, -⟩ := List.nodup_cons.1 hn
      simp only [List.tail_cons, List.mem_cons]
      constructor
      · exact fun hi => ⟨fun he => hk (he ▸ hi), .inr hi⟩
      · exact fun hi => hi.2.resolve_left hi.1
    · next h => simp [h]
  refine ⟨fun i => ?_, hfree ▸ ha.nodup.sublist (List.tail_sublist _)⟩
  rw [hfree, hmem]
  by_cases hi : i = (a.alloc f).1.index
  · subst hi
    rw [hself]
    simp [Slot.holding]
  · rw [hne i hi, ha.mem_free]
    exact and_iff_right hi

end Alloc

section Modify

variable {g : Slot → Slot}

theorem getElem?_modifySlot (a : Arena) (id : FrameId) (g : Slot → Slot) (i : Nat) :
    (a.modifySlot id g).slots[i]? =
      if id.index = i then (a.slots[i]?).map g else a.slots[i]? := by
  rw [modifySlot, Array.getElem?_modify]

theorem slot?_modifySlot_self (h : a.slot? id = some s) (hgen : (g s).generation = s.generation)
    (hframe : (g s).frame.isSome = s.frame.isSome) : (a.modifySlot id g).slot? id = some (g s) := by
  obtain ⟨hs, hid, hsome⟩ := slot?_eq_some_iff.1 h
  refine slot?_eq_some_iff.2 ⟨?_, hgen.trans hid, hframe.trans hsome⟩
  rw [getElem?_modifySlot, if_pos rfl, hs]
  rfl

theorem slot?_modifySlot_of_ne (h : j.index ≠ id.index) : (a.modifySlot id g).slot? j = a.slot? j :=
  slot?_congr (by rw [getElem?_modifySlot, if_neg (Ne.symm h)])

theorem sound_modifySlot (ha : a.Sound) (h : ∀ s, (g s).frame = none ↔ s.frame = none) :
    (a.modifySlot id g).Sound := by
  refine ⟨fun i => (ha.mem_free i).trans ?_, ha.nodup⟩
  rw [getElem?_modifySlot]
  split
  · cases a.slots[i]? with
    | none => simp
    | some s => simp [h s]
  · exact Iff.rfl

theorem modifySlot_modifySlot_eq_self {g' : Slot → Slot} (h : ∀ s, g' (g s) = s) :
    (a.modifySlot id g).modifySlot id g' = a := by
  obtain ⟨slots, free, globals, builtins⟩ := a
  simp only [modifySlot, Arena.mk.injEq, and_true]
  refine Array.ext_getElem? fun i => ?_
  rw [Array.getElem?_modify, Array.getElem?_modify]
  split
  · cases slots[i]? with
    | none => rfl
    | some s => simp [h]
  · rfl

end Modify

section Free

theorem getElem?_freeSlot (a : Arena) (i k : Nat) :
    (a.freeSlot i).slots[k]? = if i = k then (a.slots[k]?).map Slot.freed else a.slots[k]? := by
  rw [freeSlot, Array.getElem?_modify]

theorem slot?_freeSlot_of_ne {i : Nat} (h : j.index ≠ i) : (a.freeSlot i).slot? j = a.slot? j :=
  slot?_congr (by rw [getElem?_freeSlot, if_neg (Ne.symm h)])

theorem sound_freeSlot (ha : a.Sound) {i : Nat} (hi : a.slots[i]? = some s)
    (hs : s.frame.isSome = true) : (a.freeSlot i).Sound := by
  have hnot : i ∉ a.free := by
    intro hmem
    obtain ⟨t, ht, hnone⟩ := (ha.mem_free i).1 hmem
    rw [hi] at ht
    cases ht
    rw [hnone] at hs
    cases hs
  refine ⟨fun k => ?_, List.nodup_cons.2 ⟨hnot, ha.nodup⟩⟩
  rw [getElem?_freeSlot]
  change k ∈ i :: a.free ↔ _
  rw [List.mem_cons, ha.mem_free k]
  split
  · next h =>
    subst h
    simp [hi, Slot.freed]
  · next h => simp [Ne.symm h]

end Free

section Release

@[simp] theorem globals_release (a : Arena) (id : FrameId) :
    (a.release id).globals = a.globals := by
  unfold release
  split
  · rfl
  · split <;> rfl

@[simp] theorem builtins_release (a : Arena) (id : FrameId) :
    (a.release id).builtins = a.builtins := by
  unfold release
  split
  · rfl
  · split <;> rfl

theorem slot?_release_of_ne (h : j.index ≠ id.index) : (a.release id).slot? j = a.slot? j := by
  unfold release
  split
  · rfl
  · split
    · exact slot?_modifySlot_of_ne h
    · exact slot?_freeSlot_of_ne h

theorem sound_release (ha : a.Sound) (id : FrameId) : (a.release id).Sound := by
  unfold release
  split
  · exact ha
  · next s hs =>
    obtain ⟨hi, -, hsome⟩ := slot?_eq_some_iff.1 hs
    split
    · exact sound_modifySlot ha fun _ => Iff.rfl
    · exact sound_freeSlot ha hi hsome

end Release

section Pins

theorem isLive_of_pin {b : Arena} (h : a.pin id = some b) : a.isLive id = true := by
  unfold pin at h
  split at h
  · assumption
  · cases h

theorem exists_pin (h : a.isLive id = true) : ∃ b, a.pin id = some b :=
  ⟨_, if_pos h⟩

theorem sound_pin (ha : a.Sound) {b : Arena} (h : a.pin id = some b) : b.Sound := by
  unfold pin at h
  split at h
  · cases h
    exact sound_modifySlot ha fun _ => Iff.rfl
  · cases h

theorem sound_unpin (ha : a.Sound) (id : FrameId) : (a.unpin id).Sound := by
  unfold unpin
  split
  · exact ha
  · next s hs =>
    obtain ⟨hi, -, hsome⟩ := slot?_eq_some_iff.1 hs
    split
    · exact sound_freeSlot ha hi hsome
    · exact sound_modifySlot ha fun _ => Iff.rfl

end Pins

section Frames

theorem slot?_modifyFrame_of_ne {g : Frame → Frame} (h : j.index ≠ id.index) :
    (a.modifyFrame id g).slot? j = a.slot? j := by
  unfold modifyFrame
  split
  · exact slot?_modifySlot_of_ne h
  · rfl

theorem sound_modifyFrame (ha : a.Sound) (id : FrameId) (g : Frame → Frame) :
    (a.modifyFrame id g).Sound := by
  unfold modifyFrame
  split
  · exact sound_modifySlot ha fun s => by simp
  · exact ha

theorem sound_store (ha : a.Sound) (id : FrameId) (name : String) (v : Value) :
    (a.store id name v).Sound := by
  unfold store
  split
  · exact ha
  · split
    · exact ⟨ha.mem_free, ha.nodup⟩
    · exact sound_modifyFrame ha id _

@[simp] theorem globals_modifyFrame (a : Arena) (id : FrameId) (g : Frame → Frame) :
    (a.modifyFrame id g).globals = a.globals := by
  unfold modifyFrame
  split <;> rfl

@[simp] theorem builtins_modifyFrame (a : Arena) (id : FrameId) (g : Frame → Frame) :
    (a.modifyFrame id g).builtins = a.builtins := by
  unfold modifyFrame
  split <;> rfl

theorem slot?_modifyFrame_self {g : Frame → Frame}
    (h : a.slot? id = some (.holding f id.generation)) :
    (a.modifyFrame id g).slot? id = some (.holding (g f) id.generation) := by
  have hw : a.isWritable id = true := by
    rw [isWritable, h]
    rfl
  rw [modifyFrame, if_pos hw, slot?_modifySlot_self h rfl rfl]
  rfl

end Frames

def Holds (a : Arena) (id : FrameId) (f : Frame) : Prop :=
  a.slot? id = some (.holding f id.generation)

namespace Holds

theorem isLive (h : a.Holds id f) : a.isLive id = true :=
  isLive_iff.2 ⟨_, h⟩

theorem frame? (h : a.Holds id f) : a.frame? id = some f :=
  frame?_of_slot? h

theorem alloc (ha : a.Sound) (f : Frame) : (a.alloc f).2.Holds (a.alloc f).1 f :=
  slot?_alloc_self ha f

theorem modifyFrame (h : a.Holds id f) (g : Frame → Frame) : (a.modifyFrame id g).Holds id (g f) :=
  slot?_modifyFrame_self h

theorem setPosition (h : a.Holds id f) (lasti line : Nat) :
    (a.setPosition id lasti line).Holds id { f with lasti, line } :=
  h.modifyFrame _

theorem lookup (h : a.Holds id f) (name : String) :
    a.lookup id name = (((if f.chunk.isModule then a.globals else f.locals).get? name).or
      (a.globals.get? name)).or (a.builtins.get? name) := by
  rw [Arena.lookup, locals?, h.frame?]
  rfl

theorem store (h : a.Holds id f) (name : String) (v : Value) :
    a.store id name v = if f.chunk.isModule then { a with globals := a.globals.insert name v }
      else a.modifyFrame id fun f => { f with locals := f.locals.insert name v } := by
  rw [Arena.store, h.frame?]

theorem pin (h : a.Holds id f) : ∃ b, a.pin id = some b ∧ b.unpin id = a := by
  refine ⟨_, if_pos h.isLive, ?_⟩
  have hpinned := slot?_modifySlot_self (g := fun s => { s with pins := s.pins + 1 }) h rfl rfl
  simp only [unpin, hpinned, Slot.holding, Bool.and_false, Bool.false_eq_true, if_false]
  exact modifySlot_modifySlot_eq_self fun _ => rfl

end Holds

end Stepwise.Arena
