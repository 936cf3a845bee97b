import Stepwise.Proofs.Machine.Active
import Stepwise.Proofs.Machine.Handles

/-! Retired frames: those that were released and are still pinned. A frame becomes retired by its
release and by nothing else, with the names and the position that it has then, and it keeps these
until its last pin goes. Nothing can be written to it through its handle. A store through the
handle of a retired module is the one call that still shows, since its names are the global
names. -/

namespace Stepwise

def Slot.retired? (s : Slot) : Option Frame :=
  if s.retired then s.frame else none

namespace Arena

variable {a b : Arena} {id j : FrameId} {f : Frame} {s : Slot} {o : Outline}

def retired? (a : Arena) (id : FrameId) : Option Frame :=
  (a.slot? id).bind Slot.retired?

theorem retired?_eq_some_iff :
    a.retired? id = some f ↔ ∃ s, a.slot? id = some s ∧ s.retired = true ∧ s.frame = some f := by
  simp only [retired?, Option.bind_eq_some_iff, Slot.retired?]
  refine exists_congr fun s => and_congr_right fun _ => ?_
  cases s.retired <;> simp

theorem isRetired_iff : a.isRetired id = true ↔ ∃ f, a.retired? id = some f := by
  simp only [isRetired, Option.any_eq_true, retired?_eq_some_iff]
  constructor
  · rintro ⟨s, hs, hr⟩
    obtain ⟨f, hf⟩ := Option.isSome_iff_exists.1 (slot?_eq_some_iff.1 hs).2.2
    exact ⟨f, s, hs, hr, hf⟩
  · rintro ⟨f, s, hs, hr, -⟩
    exact ⟨s, hs, hr⟩

section Reads

theorem frame?_of_retired? (h : a.retired? id = some f) : a.frame? id = some f := by
  obtain ⟨s, hs, -, hf⟩ := retired?_eq_some_iff.1 h
  rw [frame?_of_slot? hs, hf]

theorem locals?_of_retired? (h : a.retired? id = some f) :
    a.locals? id = some (if f.chunk.isModule then a.globals else f.locals) := by
  rw [locals?, frame?_of_retired? h, Option.map_some]

end Reads

section Writes

theorem isWritable_of_retired? (h : a.retired? id = some f) : a.isWritable id = false := by
  obtain ⟨s, hs, hr, -⟩ := retired?_eq_some_iff.1 h
  rw [isWritable, hs, Option.any_some, hr]
  rfl

theorem modifyFrame_of_retired? (h : a.retired? id = some f) (g : Frame → Frame) :
    a.modifyFrame id g = a := by
  rw [modifyFrame, isWritable_of_retired? h]
  rfl

theorem store_of_retired? (h : a.retired? id = some f) (name : String) (v : Value) :
    a.store id name v =
      if f.chunk.isModule then { a with globals := a.globals.insert name v } else a := by
  rw [store, frame?_of_retired? h]
  simp only [modifyFrame_of_retired? h]

end Writes

theorem retired?_of_slot? {t : Option Slot}
    (h : ∀ j, b.slot? j = if j = id then t else a.slot? j) (j : FrameId) :
    b.retired? j = if j = id then t.bind Slot.retired? else a.retired? j :=
  bind_slot? Slot.retired? h j

theorem retired?_eq_ite (h : a.outline? id = none) :
    a.retired? j = if j = id then none else a.retired? j := by
  split
  · next he =>
    rw [he, retired?, outline?_eq_none_iff.1 h]
    rfl
  · rfl

theorem retired?_new (builtins : Scope) (id : FrameId) : (new builtins).retired? id = none := by
  simp [retired?, slot?, new]

theorem retired?_alloc (ha : a.Sound) (f : Frame) (j : FrameId) :
    (a.alloc f).2.retired? j = a.retired? j := by
  rw [retired?_of_slot? (slot?_alloc ha f)]
  split
  · next he =>
    have hnone : a.slot? j = none := by
      rw [he, ← outline?_eq_none_iff]
      exact outline?_alloc_eq_none ha f
    rw [retired?, hnone]
    rfl
  · rfl

theorem retired?_modifyFrame (g : Frame → Frame) (j : FrameId) :
    (a.modifyFrame id g).retired? j = a.retired? j := by
  have hwritten (s : Slot) : (s.written g).retired? = s.retired? := by
    unfold Slot.written Slot.retired?
    cases hr : s.retired <;> simp [hr]
  rw [retired?, bind_slot? Slot.retired? (slot?_modifyFrame a id g) j, Option.bind_map]
  simp only [Function.comp_def, hwritten]
  split
  · next he => rw [he, retired?]
  · rfl

theorem retired?_store (name : String) (v : Value) (j : FrameId) :
    (a.store id name v).retired? j = a.retired? j := by
  unfold store
  split
  · rfl
  · split
    · rfl
    · exact retired?_modifyFrame _ j

theorem retired?_release (a : Arena) (id j : FrameId) :
    (a.release id).retired? j =
      if j = id then (a.outline? id).bind fun o => if 0 < o.pins then a.frame? id else none
      else a.retired? j := by
  cases ho : a.outline? id with
  | none =>
    rw [release, outline?_eq_none_iff.1 ho]
    exact retired?_eq_ite ho
  | some o =>
    obtain ⟨s, f, hs, hf, rfl⟩ := outline?_eq_some_iff.1 ho
    rw [release, hs, frame?_of_slot? hs]
    simp only [Option.bind_some]
    split
    · rw [retired?_of_slot? (slot?_modifySlot hs (by simp) (by simp))]
      rfl
    · rw [retired?_of_slot? (slot?_freeSlot hs)]
      rfl

theorem retired?_pin (h : a.pin id = some b) (j : FrameId) : b.retired? j = a.retired? j := by
  unfold pin at h
  split at h
  · next hlive =>
    cases h
    obtain ⟨s, hs⟩ := isLive_iff.1 hlive
    rw [retired?_of_slot? (slot?_modifySlot hs (by simp) (by simp))]
    split
    · next he =>
      rw [he, retired?, hs]
      rfl
    · rfl
  · cases h

theorem retired?_unpin (a : Arena) (id j : FrameId) :
    (a.unpin id).retired? j =
      if j = id then (a.outline? id).bind fun o => if o.pins ≤ 1 then none else a.retired? id
      else a.retired? j := by
  cases ho : a.outline? id with
  | none =>
    rw [unpin, outline?_eq_none_iff.1 ho]
    exact retired?_eq_ite ho
  | some o =>
    obtain ⟨s, f, hs, hf, rfl⟩ := outline?_eq_some_iff.1 ho
    rw [unpin, hs]
    simp only [Option.bind_some]
    split
    · next hlast =>
      have hpins : s.pins ≤ 1 := by simpa using (Bool.and_eq_true_iff.1 hlast).1
      rw [retired?_of_slot? (slot?_freeSlot hs), if_pos hpins]
      rfl
    · next hlast =>
      rw [retired?_of_slot? (slot?_modifySlot hs (by simp) (by simp))]
      split
      · split
        · next hpins =>
          have hr : s.retired = false := by simpa [hpins] using hlast
          simp [Slot.retired?, hr]
        · rw [retired?, hs]
          rfl
      · rfl

theorem outline?_of_retired? (h : a.retired? id = some f) :
    ∃ o, a.outline? id = some o ∧ o.retired = true := by
  obtain ⟨s, hs, hr, hf⟩ := retired?_eq_some_iff.1 h
  exact ⟨_, outline?_eq_some_iff.2 ⟨s, f, hs, hf, rfl⟩, hr⟩

theorem kept_act (h : a.Kept) (ha : a.Sound) (c : Call) : (c.act a).Kept := by
  cases c with
  | alloc f => exact h.alloc ha f
  | release id => exact h.release id
  | pin id =>
    simp only [Call.act]
    cases hp : a.pin id with
    | none => exact h
    | some b => exact h.pin hp
  | unpin id => exact h.unpin id
  | store id name v => exact h.store id name v
  | setPosition id lasti line => exact h.setPosition id lasti line

theorem kept_after (h : a.Kept) (ha : a.Sound) (cs : List Call) : (a.after cs).Kept := by
  induction cs generalizing a with
  | nil => exact h
  | cons c cs ih => exact ih (kept_act h ha c) (sound_act ha c)

theorem retired?_of_act (ha : a.Sound) {c : Call} (h : (c.act a).retired? id = some f) :
    a.retired? id = some f ∨ c = .release id ∧ a.active? id = some f := by
  cases c with
  | alloc g => exact .inl (retired?_alloc ha g id ▸ h)
  | store j name v => exact .inl (retired?_store name v id ▸ h)
  | setPosition j lasti line => exact .inl (retired?_modifyFrame _ id ▸ h)
  | pin j =>
    simp only [Call.act] at h
    cases hp : a.pin j with
    | none => exact .inl (by simpa [hp] using h)
    | some b => exact .inl (by simpa [hp, retired?_pin hp] using h)
  | unpin j =>
    simp only [Call.act, retired?_unpin] at h
    split at h
    · next he =>
      obtain ⟨o, -, h⟩ := Option.bind_eq_some_iff.1 h
      split at h
      · cases h
      · exact .inl (he ▸ h)
    · exact .inl h
  | release j =>
    simp only [Call.act, retired?_release] at h
    split at h
    · next he =>
      subst he
      obtain ⟨o, ho, h⟩ := Option.bind_eq_some_iff.1 h
      obtain ⟨s, f', hs, hf, rfl⟩ := outline?_eq_some_iff.1 ho
      rw [frame?_of_slot? hs, hf] at h
      split at h <;> cases h
      cases hr : s.retired with
      | false => exact .inr ⟨rfl, active?_eq_some_iff.2 ⟨s, hs, hr, hf⟩⟩
      | true => exact .inl (retired?_eq_some_iff.2 ⟨s, hs, hr, hf⟩)
    · exact .inl h

theorem retired?_act (ha : a.Sound) (hk : a.Kept) (h : a.retired? id = some f) (c : Call) :
    (c.act a).retired? id = some f ∨
      c = .unpin id ∧ ∃ s, a.slot? id = some s ∧ s.pins = 1 := by
  obtain ⟨o, ho, hr⟩ := outline?_of_retired? h
  have hpos : 0 < o.pins := hk id o ho hr
  cases c with
  | alloc g => exact .inl ((retired?_alloc ha g id).trans h)
  | store j name v => exact .inl ((retired?_store name v id).trans h)
  | setPosition j lasti line => exact .inl ((retired?_modifyFrame _ id).trans h)
  | pin j =>
    simp only [Call.act]
    cases hp : a.pin j with
    | none => exact .inl h
    | some b => exact .inl ((retired?_pin hp id).trans h)
  | release j =>
    simp only [Call.act, retired?_release]
    split
    · next he =>
      subst he
      rw [ho, Option.bind_some, if_pos hpos, frame?_of_retired? h]
      exact .inl rfl
    · exact .inl h
  | unpin j =>
    simp only [Call.act, retired?_unpin]
    split
    · next he =>
      subst he
      rw [ho, Option.bind_some]
      split
      · next hlast =>
        obtain ⟨s, f', hs, -, rfl⟩ := outline?_eq_some_iff.1 ho
        exact .inr ⟨rfl, s, hs, Nat.le_antisymm hlast hpos⟩
      · exact .inl h
    · exact .inl h

theorem after_append (a : Arena) (cs ds : List Call) :
    a.after (cs ++ ds) = (a.after cs).after ds := by
  induction cs generalizing a with
  | nil => rfl
  | cons c cs ih => exact ih (c.act a)

theorem exists_release (ha : a.Sound) (hnone : a.retired? id = none) (cs : List Call)
    (h : (a.after cs).retired? id = some f) :
    ∃ before since, cs = before ++ .release id :: since ∧ (a.after before).active? id = some f := by
  induction cs using List.reverseRecOn with
  | nil =>
    rw [after, hnone] at h
    cases h
  | append_singleton cs c ih =>
    rw [after_append] at h
    rcases retired?_of_act (sound_after ha cs) h with hstill | ⟨rfl, hf⟩
    · obtain ⟨before, since, rfl, hf⟩ := ih hstill
      exact ⟨before, since ++ [c], by simp, hf⟩
    · exact ⟨cs, [], rfl, hf⟩

/-- Whatever is called on an arena, a retired frame is what it was when it was released, and is
read as that. Through its handle no frame can be changed and no position set. A store changes
nothing either, unless the frame is a module's: then it changes the global names, as if the
module still ran. The frame stays so until its last pin goes. -/
theorem retired_frozen (builtins : Scope) (cs : List Call) {id : FrameId} {f : Frame}
    (h : ((new builtins).after cs).retired? id = some f) :
    let a := (new builtins).after cs
    (∃ before since, cs = before ++ .release id :: since ∧
        ((new builtins).after before).active? id = some f) ∧
      a.frame? id = some f ∧
      a.locals? id = some (if f.chunk.isModule then a.globals else f.locals) ∧
      a.isWritable id = false ∧ (∀ g, a.modifyFrame id g = a) ∧
      (∀ lasti line, a.setPosition id lasti line = a) ∧
      (∀ name v, a.store id name v =
        if f.chunk.isModule then { a with globals := a.globals.insert name v } else a) ∧
      ∀ c, (Call.act c a).retired? id = some f ∨
        c = .unpin id ∧ ∃ s, a.slot? id = some s ∧ s.pins = 1 := by
  intro a
  have hsound : a.Sound := sound_after (sound_new builtins) cs
  have hkept : a.Kept := kept_after (.new builtins) (sound_new builtins) cs
  exact ⟨exists_release (sound_new builtins) (retired?_new builtins id) cs h,
    frame?_of_retired? h, locals?_of_retired? h, isWritable_of_retired? h,
    modifyFrame_of_retired? h, fun _ _ => modifyFrame_of_retired? h _, store_of_retired? h,
    retired?_act hsound hkept h⟩

def blank (name : String) : Chunk :=
  ⟨"<blank>", name, 1, ["n"], #[], #[], #[], #[]⟩

def shelving : List Call :=
  [.alloc (.new (blank Code.moduleName) none .empty),
    .alloc (.new (blank "f") (some ⟨0, 0⟩) (.ofList [("n", .int 7)])),
    .pin ⟨1, 0⟩, .release ⟨1, 0⟩]

theorem retired_frozen_shelving :
    let a := (new .empty).after shelving
    a.isRetired ⟨1, 0⟩ = true ∧ a.store ⟨1, 0⟩ "n" (.int 8) = a ∧
      a.setPosition ⟨1, 0⟩ 4 2 = a ∧ a.lookup ⟨1, 0⟩ "n" = some (.int 7) := by
  intro a
  obtain ⟨f, hf⟩ := isRetired_iff.1 (show a.isRetired ⟨1, 0⟩ = true by rfl)
  have hlocals : a.locals? ⟨1, 0⟩ = some (.ofList [("n", .int 7)]) := rfl
  obtain ⟨-, hframe, -, -, -, hposition, hstore, -⟩ := retired_frozen .empty shelving hf
  have hmodule : f.chunk.isModule = false := by
    cases hframe.symm.trans (show a.frame? ⟨1, 0⟩ = some _ from rfl)
    rfl
  refine ⟨rfl, (hstore _ _).trans (if_neg (by simp [hmodule])), hposition 4 2, ?_⟩
  rw [lookup, hlocals]
  rfl

/-- A store through the handle of a retired module is seen by everybody. -/
theorem retired_module_written :
    let a := (new .empty).after
      [.alloc (.new (blank Code.moduleName) none .empty), .pin ⟨0, 0⟩, .release ⟨0, 0⟩]
    a.isRetired ⟨0, 0⟩ = true ∧ a.globals.get? "x" = none ∧
      (a.store ⟨0, 0⟩ "x" (.int 5)).globals.get? "x" = some (.int 5) :=
  ⟨rfl, rfl, rfl⟩

end Arena

end Stepwise
