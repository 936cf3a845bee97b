import Stepwise.Proofs.Machine.Bindings
import Stepwise.Proofs.Machine.Outline

/-! The frames in use: those that were put into a slot and not yet released. For each operation
there is one equation that says what becomes of the frame behind every handle; pins change
nothing. A frame that is no longer in use is there only while it is pinned. -/

namespace Stepwise

def Slot.active? (s : Slot) : Option Frame :=
  if s.retired then none else s.frame

def Frame.written (f : Frame) (name : String) (v : Value) : Frame :=
  if f.chunk.isModule then f else { f with locals := f.locals.insert name v }

namespace Arena

variable {a b : Arena} {id j : FrameId} {s : Slot} {f : Frame}

def active? (a : Arena) (id : FrameId) : Option Frame :=
  (a.slot? id).bind Slot.active?

theorem active?_eq_some_iff :
    a.active? id = some f ↔ ∃ s, a.slot? id = some s ∧ s.retired = false ∧ s.frame = some f := by
  simp only [active?, Option.bind_eq_some_iff, Slot.active?]
  refine exists_congr fun s => and_congr_right fun _ => ?_
  cases s.retired <;> simp

theorem frame?_of_active? (h : a.active? id = some f) : a.frame? id = some f := by
  obtain ⟨s, hs, -, hf⟩ := active?_eq_some_iff.1 h
  rw [frame?_of_slot? hs, hf]

theorem isLive_of_active? (h : a.active? id = some f) : a.isLive id = true := by
  obtain ⟨s, hs, -⟩ := active?_eq_some_iff.1 h
  exact isLive_iff.2 ⟨s, hs⟩

theorem locals?_of_active? (h : a.active? id = some f) :
    a.locals? id = some (if f.chunk.isModule then a.globals else f.locals) := by
  rw [locals?, frame?_of_active? h, Option.map_some]

theorem store_of_active? (h : a.active? id = some f) (name : String) (v : Value) :
    a.store id name v = if f.chunk.isModule then { a with globals := a.globals.insert name v }
      else a.modifyFrame id fun f => { f with locals := f.locals.insert name v } := by
  rw [store, frame?_of_active? h]

theorem active?_of_slot? {t : Option Slot}
    (h : ∀ j, b.slot? j = if j = id then t else a.slot? j) (j : FrameId) :
    b.active? j = if j = id then t.bind Slot.active? else a.active? j :=
  bind_slot? Slot.active? h j

theorem active?_congr (h : b.slots = a.slots) (id : FrameId) : b.active? id = a.active? id := by
  have hslot : b.slot? id = a.slot? id := slot?_congr (by rw [h])
  rw [active?, active?, hslot]

theorem active?_new (builtins : Scope) (id : FrameId) : (new builtins).active? id = none := by
  simp [active?, slot?, new]

theorem active?_alloc (ha : a.Sound) (f : Frame) (j : FrameId) :
    (a.alloc f).2.active? j = if j = (a.alloc f).1 then some f else a.active? j :=
  active?_of_slot? (slot?_alloc ha f) j

theorem active?_modifyFrame (g : Frame → Frame) (j : FrameId) :
    (a.modifyFrame id g).active? j =
      if j = id then (a.active? id).map g else a.active? j := by
  have hwritten (s : Slot) : (s.written g).active? = s.active?.map g := by
    unfold Slot.written Slot.active?
    cases hr : s.retired <;> simp [hr]
  rw [active?, bind_slot? Slot.active? (slot?_modifyFrame a id g) j, Option.bind_map, active?,
    Option.map_bind]
  simp only [Function.comp_def, hwritten]
  rfl

theorem active?_setPosition (a : Arena) (id : FrameId) (lasti line : Nat) (j : FrameId) :
    (a.setPosition id lasti line).active? j =
      if j = id then (a.active? id).map fun f => { f with lasti, line } else a.active? j :=
  active?_modifyFrame _ j

theorem active?_store (h : a.active? id = some f) (name : String) (v : Value) (j : FrameId) :
    (a.store id name v).active? j =
      if j = id then some (f.written name v) else a.active? j := by
  rw [store_of_active? h, Frame.written]
  split
  · have hslots (k : FrameId) :
        ({ a with globals := a.globals.insert name v } : Arena).active? k = a.active? k :=
      active?_congr rfl k
    rw [hslots]
    split
    · next he => rw [he, h]
    · rfl
  · rw [active?_modifyFrame, h, Option.map_some]

theorem globals_store (h : a.active? id = some f) (name : String) (v : Value) :
    (a.store id name v).globals =
      if f.chunk.isModule then a.globals.insert name v else a.globals := by
  rw [store_of_active? h]
  split
  · rfl
  · rw [globals_modifyFrame]

@[simp] theorem builtins_store (a : Arena) (id : FrameId) (name : String) (v : Value) :
    (a.store id name v).builtins = a.builtins := by
  unfold store
  split
  · rfl
  · split
    · rfl
    · rw [builtins_modifyFrame]

theorem active?_release (a : Arena) (id j : FrameId) :
    (a.release id).active? j = if j = id then none else a.active? j := by
  unfold release
  split
  · next hs =>
    split
    · next he => rw [he, active?, hs, Option.bind_none]
    · rfl
  · next s hs =>
    split
    · rw [active?_of_slot? (slot?_modifySlot hs (by simp) (by simp))]
      simp [Slot.active?]
    · rw [active?_of_slot? (slot?_freeSlot hs), Option.bind_none]

theorem active?_pin (h : a.pin id = some b) (j : FrameId) : b.active? j = a.active? j := by
  unfold pin at h
  split at h
  · next hlive =>
    cases h
    obtain ⟨s, hs⟩ := isLive_iff.1 hlive
    rw [active?_of_slot? (slot?_modifySlot hs (by simp) (by simp))]
    split
    · next he =>
      rw [he, active?, hs]
      rfl
    · rfl
  · cases h

theorem active?_unpin (a : Arena) (id j : FrameId) : (a.unpin id).active? j = a.active? j := by
  unfold unpin
  split
  · rfl
  · next s hs =>
    split
    · next hlast =>
      have hr : s.retired = true := (Bool.and_eq_true_iff.1 hlast).2
      rw [active?_of_slot? (slot?_freeSlot hs)]
      split
      · next he =>
        rw [he, active?, hs]
        simp [Slot.active?, hr]
      · rfl
    · rw [active?_of_slot? (slot?_modifySlot hs (by simp) (by simp))]
      split
      · next he =>
        rw [he, active?, hs]
        rfl
      · rfl

section Repinned

theorem Repinned.active? (h : a.Repinned b) (j : FrameId) : b.active? j = a.active? j := by
  induction h with
  | refl => rfl
  | pin _ hc ih => rw [active?_pin hc, ih]
  | unpin _ id ih => rw [active?_unpin, ih]

theorem Repinned.sound (h : a.Repinned b) (ha : a.Sound) : b.Sound := by
  induction h with
  | refl => exact ha
  | pin _ hc ih => exact sound_pin ih hc
  | unpin _ id ih => exact sound_unpin ih id

theorem scopes_pin (h : a.pin id = some b) : b.globals = a.globals ∧ b.builtins = a.builtins := by
  unfold pin at h
  split at h
  · cases h
    exact ⟨rfl, rfl⟩
  · cases h

theorem scopes_unpin (a : Arena) (id : FrameId) :
    (a.unpin id).globals = a.globals ∧ (a.unpin id).builtins = a.builtins := by
  unfold unpin
  split
  · exact ⟨rfl, rfl⟩
  · split <;> exact ⟨rfl, rfl⟩

theorem Repinned.scopes (h : a.Repinned b) :
    b.globals = a.globals ∧ b.builtins = a.builtins := by
  induction h with
  | refl => exact ⟨rfl, rfl⟩
  | pin _ hc ih => rwa [(scopes_pin hc).1, (scopes_pin hc).2]
  | unpin _ id ih => rwa [(scopes_unpin _ id).1, (scopes_unpin _ id).2]

end Repinned

def Kept (a : Arena) : Prop :=
  ∀ id o, a.outline? id = some o → o.retired = true → 0 < o.pins

namespace Kept

theorem new (builtins : Scope) : (new builtins).Kept := by
  intro id o ho
  simp [outline?, slot?, Arena.new] at ho

theorem alloc (h : a.Kept) (ha : a.Sound) (f : Frame) : (a.alloc f).2.Kept := by
  intro id o ho hr
  rw [outline?_alloc ha] at ho
  split at ho
  · cases ho
    cases hr
  · exact h id o ho hr

theorem release (h : a.Kept) (id : FrameId) : (a.release id).Kept := by
  intro j o ho hr
  rw [outline?_release] at ho
  split at ho
  · obtain ⟨p, hp, ho⟩ := Option.bind_eq_some_iff.1 ho
    unfold Outline.released at ho
    split at ho
    · next hpins =>
      cases ho
      exact hpins
    · cases ho
  · exact h j o ho hr

theorem pin (h : a.Kept) (hb : a.pin id = some b) : b.Kept := by
  intro j o ho hr
  rw [outline?_pin hb] at ho
  split at ho
  · obtain ⟨p, hp, rfl⟩ := Option.map_eq_some_iff.1 ho
    exact Nat.succ_pos _
  · exact h j o ho hr

theorem unpin (h : a.Kept) (id : FrameId) : (a.unpin id).Kept := by
  intro j o ho hr
  rw [outline?_unpin] at ho
  split at ho
  · obtain ⟨p, hp, ho⟩ := Option.bind_eq_some_iff.1 ho
    unfold Outline.unpinned at ho
    split at ho
    · cases ho
    · next hlast =>
      cases ho
      have hpr : p.retired = true := hr
      simp only [hpr, Bool.and_true, decide_eq_true_eq, Nat.not_le] at hlast
      exact Nat.sub_pos_of_lt hlast
  · exact h j o ho hr

theorem repinned (h : a.Kept) (hb : a.Repinned b) : b.Kept := by
  induction hb with
  | refl => exact h
  | pin _ hc ih => exact ih.pin hc
  | unpin _ id ih => exact ih.unpin id

theorem of_outline? (h : a.Kept) (hb : ∀ id, b.outline? id = a.outline? id) : b.Kept :=
  fun id o ho => h id o (by rw [← hb id, ho])

theorem setPosition (h : a.Kept) (id : FrameId) (lasti line : Nat) :
    (a.setPosition id lasti line).Kept :=
  h.of_outline? (outline?_setPosition a id lasti line)

theorem store (h : a.Kept) (id : FrameId) (name : String) (v : Value) :
    (a.store id name v).Kept :=
  h.of_outline? (outline?_store a id name v)

end Kept

section Handles

/-- The number of frames that were not yet released. -/
def unreleased (a : Arena) : Nat :=
  a.slots.toList.countP fun s => s.frame.isSome && !s.retired

def handles (a : Arena) (p : Slot → Bool) : List FrameId :=
  (a.slots.toList.zipIdx.filter fun x => x.1.frame.isSome && p x.1).map fun x =>
    ⟨x.2, x.1.generation⟩

theorem mem_handles {p : Slot → Bool} :
    id ∈ a.handles p ↔ ∃ s, a.slot? id = some s ∧ p s = true := by
  simp only [handles, List.mem_map, List.mem_filter, Prod.exists, List.mem_zipIdx_iff_getElem?,
    Array.getElem?_toList, Bool.and_eq_true]
  constructor
  · rintro ⟨s, i, ⟨hs, hsome, hp⟩, rfl⟩
    exact ⟨s, slot?_eq_some_iff.2 ⟨hs, rfl, hsome⟩, hp⟩
  · rintro ⟨s, hslot, hp⟩
    obtain ⟨hs, hgen, hsome⟩ := slot?_eq_some_iff.1 hslot
    exact ⟨s, id.index, ⟨hs, hsome, hp⟩, by rw [hgen]⟩

theorem nodup_handles (a : Arena) (p : Slot → Bool) : (a.handles p).Nodup := by
  refine List.Nodup.of_map FrameId.index ?_
  rw [handles, List.map_map]
  exact (List.nodup_zipIdx_map_snd _).sublist (List.filter_sublist.map _)

theorem length_handles (a : Arena) (p : Slot → Bool) :
    (a.handles p).length = a.slots.toList.countP fun s => s.frame.isSome && p s := by
  rw [handles, List.length_map, ← List.countP_eq_length_filter]
  conv_rhs => rw [← List.zipIdx_map_fst 0 a.slots.toList, List.countP_map]
  rfl

theorem length_handles_true (a : Arena) : (a.handles fun _ => true).length = a.occupied := by
  rw [length_handles, occupied]
  simp only [Bool.and_true]

theorem mem_handles_active : (id ∈ a.handles fun s => !s.retired) ↔ ∃ f, a.active? id = some f := by
  simp only [mem_handles, active?_eq_some_iff]
  constructor
  · rintro ⟨s, hs, hr⟩
    obtain ⟨f, hf⟩ := Option.isSome_iff_exists.1 (slot?_eq_some_iff.1 hs).2.2
    exact ⟨f, s, hs, by simpa using hr, hf⟩
  · rintro ⟨f, s, hs, hr, -⟩
    exact ⟨s, hs, by rw [hr]; rfl⟩

theorem unreleased_eq_length {ids : List FrameId} (hids : ids.Nodup)
    (h : ∀ id, id ∈ ids ↔ ∃ f, a.active? id = some f) : a.unreleased = ids.length := by
  have hperm : (a.handles fun s => !s.retired).Perm ids := by
    rw [List.perm_ext_iff_of_nodup (nodup_handles a _) hids]
    exact fun id => mem_handles_active.trans (h id).symm
  rw [unreleased, ← length_handles, hperm.length_eq]

end Handles

end Arena

end Stepwise
