import Stepwise.Proofs.Machine.Arena

/-! Handles over the life of an arena. A call leaves a slot as it is, writes to the frame in it,
empties it or fills it, and only emptying changes its generation. The generation of a slot is
therefore the number of times it was emptied, as far as 32 bits show it, and a handle resolves
as long as that number is the one it was made at. -/

namespace Stepwise.Arena

inductive Call where
  | alloc (frame : Frame)
  | release (id : FrameId)
  | pin (id : FrameId)
  | unpin (id : FrameId)
  | store (id : FrameId) (name : String) (v : Value)
  | setPosition (id : FrameId) (lasti line : Nat)

def Call.act : Call → Arena → Arena
  | .alloc frame, a => (a.alloc frame).2
  | .release id, a => a.release id
  | .pin id, a => (a.pin id).getD a
  | .unpin id, a => a.unpin id
  | .store id name v, a => a.store id name v
  | .setPosition id lasti line, a => a.setPosition id lasti line

def after (a : Arena) : List Call → Arena
  | [] => a
  | c :: cs => (c.act a).after cs

def isTaken (a : Arena) (i : Nat) : Bool :=
  a.slots[i]?.any fun s => s.frame.isSome

def generation (a : Arena) (i : Nat) : UInt32 :=
  (a.slots[i]?.map Slot.generation).getD 0

/-- How many of the calls empty the slot. -/
def frees (i : Nat) : Arena → List Call → Nat
  | _, [] => 0
  | a, c :: cs =>
    (if a.isTaken i && !(c.act a).isTaken i then 1 else 0) + frees i (c.act a) cs

/-- Nothing can be had through the handle. -/
structure Gone (a : Arena) (id : FrameId) : Prop where
  isLive : a.isLive id = false
  frame? : a.frame? id = none
  isWritable : a.isWritable id = false
  locals? : a.locals? id = none
  pin : a.pin id = none

inductive Turns : Option Slot → Option Slot → Prop
  | absent : Turns none none
  | kept {s t : Slot} (hgen : t.generation = s.generation)
      (hframe : t.frame.isSome = s.frame.isSome) : Turns (some s) (some t)
  | emptied {s : Slot} (hs : s.frame.isSome = true) : Turns (some s) (some s.freed)
  | filled {s : Slot} (hs : s.frame = none) (f : Frame) :
      Turns (some s) (some (.holding f s.generation))
  | added (f : Frame) : Turns none (some (.holding f 0))

variable {a : Arena} {id : FrameId} {s : Slot} {i : Nat}

theorem gone_of_isLive (h : a.isLive id = false) : a.Gone id := by
  have hslot : a.slot? id = none := Option.isNone_iff_eq_none.1 (by simpa [isLive] using h)
  have hframe : a.frame? id = none := by rw [frame?, hslot, Option.bind_none]
  exact ⟨h, hframe, by rw [isWritable, hslot]; rfl, by rw [locals?, hframe, Option.map_none],
    by rw [pin, h]; rfl⟩

theorem isLive_iff_generation :
    a.isLive id = true ↔ a.isTaken id.index = true ∧ a.generation id.index = id.generation := by
  rw [isLive, slot?, isTaken, generation]
  cases a.slots[id.index]? with
  | none => simp
  | some s => simp [Option.isSome_filter, and_comm]

theorem Turns.refl (o : Option Slot) : Turns o o := by
  cases o with
  | none => exact .absent
  | some s => exact .kept rfl rfl

theorem turns_alloc (ha : a.Sound) (f : Frame) (i : Nat) :
    Turns a.slots[i]? (a.alloc f).2.slots[i]? := by
  by_cases hi : i = (a.alloc f).1.index
  · rw [hi, getElem?_alloc_self ha]
    unfold alloc
    split
    · next k rest hfree =>
      obtain ⟨t, ht, hnone⟩ := (ha.mem_free k).1 (hfree ▸ List.mem_cons_self)
      simp only [ht, Option.map_some, Option.getD_some]
      exact .filled hnone f
    · simp only [Array.getElem?_size]
      exact .added f
  · rw [getElem?_alloc_of_ne hi]
    exact .refl _

theorem turns_modifySlot {g : Slot → Slot} (hgen : ∀ s, (g s).generation = s.generation)
    (hframe : ∀ s, (g s).frame.isSome = s.frame.isSome) (i : Nat) :
    Turns a.slots[i]? (a.modifySlot id g).slots[i]? := by
  rw [getElem?_modifySlot]
  split
  · cases a.slots[i]? with
    | none => exact .absent
    | some s => exact .kept (hgen s) (hframe s)
  · exact .refl _

theorem turns_freeSlot (h : a.slot? id = some s) (i : Nat) :
    Turns a.slots[i]? (a.freeSlot id.index).slots[i]? := by
  obtain ⟨hs, -, hsome⟩ := slot?_eq_some_iff.1 h
  rw [getElem?_freeSlot]
  split
  · next he =>
    rw [← he, hs]
    exact .emptied hsome
  · exact .refl _

theorem turns_modifyFrame (g : Frame → Frame) (i : Nat) :
    Turns a.slots[i]? (a.modifyFrame id g).slots[i]? := by
  unfold modifyFrame
  split
  · exact turns_modifySlot (by simp) (by simp) i
  · exact .refl _

theorem turns_act (ha : a.Sound) (c : Call) (i : Nat) :
    Turns a.slots[i]? (c.act a).slots[i]? := by
  cases c with
  | alloc f => exact turns_alloc ha f i
  | release id =>
    simp only [Call.act, release]
    split
    · exact .refl _
    · next s hs =>
      split
      · exact turns_modifySlot (by simp) (by simp) i
      · exact turns_freeSlot hs i
  | pin id =>
    simp only [Call.act, pin]
    split
    · exact turns_modifySlot (by simp) (by simp) i
    · exact .refl _
  | unpin id =>
    simp only [Call.act, unpin]
    split
    · exact .refl _
    · next s hs =>
      split
      · exact turns_freeSlot hs i
      · exact turns_modifySlot (by simp) (by simp) i
  | store id name v =>
    simp only [Call.act, store]
    split
    · exact .refl _
    · split
      · exact .refl _
      · exact turns_modifyFrame _ i
  | setPosition id lasti line => exact turns_modifyFrame _ i

theorem sound_act (ha : a.Sound) (c : Call) : (c.act a).Sound := by
  cases c with
  | alloc f => exact sound_alloc ha f
  | release id => exact sound_release ha id
  | pin id =>
    simp only [Call.act]
    cases h : a.pin id with
    | none => exact ha
    | some b => exact sound_pin ha h
  | unpin id => exact sound_unpin ha id
  | store id name v => exact sound_store ha id name v
  | setPosition id lasti line => exact sound_modifyFrame ha id _

theorem sound_after (ha : a.Sound) (cs : List Call) : (a.after cs).Sound := by
  induction cs generalizing a with
  | nil => exact ha
  | cons c cs ih => exact ih (sound_act ha c)

theorem generation_act (ha : a.Sound) (c : Call) (i : Nat) :
    (c.act a).generation i =
      a.generation i + if a.isTaken i && !(c.act a).isTaken i then 1 else 0 := by
  have h := turns_act ha c i
  unfold generation isTaken
  generalize a.slots[i]? = o at h ⊢
  generalize (c.act a).slots[i]? = p at h ⊢
  cases h with
  | absent => simp
  | kept hgen hframe => simp only [Option.map_some, Option.getD_some, Option.any_some, hgen, hframe,
      Bool.and_not_self, Bool.false_eq_true, if_false, UInt32.add_zero]
  | emptied hs => simp [hs, Slot.freed]
  | filled hs f => simp [hs, Slot.holding]
  | added f => simp [Slot.holding]

theorem generation_after (ha : a.Sound) (cs : List Call) (i : Nat) :
    (a.after cs).generation i = a.generation i + UInt32.ofNat (frees i a cs) := by
  induction cs generalizing a with
  | nil => simp [after, frees]
  | cons c cs ih =>
    rw [after, ih (sound_act ha c), generation_act ha, frees, UInt32.ofNat_add, UInt32.add_assoc]
    split <;> simp

theorem isTaken_after (h : a.isTaken i = true) (cs : List Call) (hfrees : frees i a cs = 0) :
    (a.after cs).isTaken i = true := by
  induction cs generalizing a with
  | nil => exact h
  | cons c cs ih =>
    rw [frees, Nat.add_eq_zero_iff] at hfrees
    refine ih ?_ hfrees.2
    simpa [h] using hfrees.1

/-- A handle of a frame resolves later as long as the number of times its slot was emptied since
cannot be told from none. -/
theorem isLive_after_alloc (ha : a.Sound) (f : Frame) (cs : List Call) :
    ((a.alloc f).2.after cs).isLive (a.alloc f).1 = true ↔
      ((a.alloc f).2.after cs).isTaken (a.alloc f).1.index = true ∧
        UInt32.size ∣ frees (a.alloc f).1.index (a.alloc f).2 cs := by
  have hnew := isLive_iff_generation.1 (isLive_iff.2 ⟨_, slot?_alloc_self ha f⟩)
  rw [isLive_iff_generation, generation_after (sound_alloc ha f), hnew.2]
  refine and_congr_right fun _ => ?_
  rw [UInt32.add_eq_left, ← UInt32.toNat_inj, UInt32.toNat_ofNat', Nat.dvd_iff_mod_eq_zero]
  rfl

/-- Whatever is called on an arena, its free list names the empty slots, once each. A new frame
gets a handle that resolved to nothing and leaves the frames that are there alone. Its handle
resolves until the slot is emptied, and then no more, unless the slot has been emptied a multiple
of 2^32 times since. -/
theorem handles_safe (builtins : Scope) (cs : List Call) (frame : Frame) (later : List Call) :
    let a := (new builtins).after cs
    let id := (a.alloc frame).1
    let b := (a.alloc frame).2
    let n := frees id.index b later
    a.Sound ∧
      a.isLive id = false ∧
      (∀ j, a.isLive j = true → b.slot? j = a.slot? j) ∧
      b.globals = a.globals ∧ b.builtins = a.builtins ∧
      b.frame? id = some frame ∧
      (n = 0 → (b.after later).isLive id = true) ∧
      (0 < n → ¬ UInt32.size ∣ n → (b.after later).Gone id) := by
  intro a id b n
  have ha : a.Sound := sound_after (sound_new builtins) cs
  have hnew : b.slot? id = some (.holding frame id.generation) := slot?_alloc_self ha frame
  refine ⟨ha, isLive_alloc_eq_false ha frame, fun j hj => slot?_alloc_of_live ha frame hj,
    globals_alloc a frame, builtins_alloc a frame, frame?_of_slot? hnew, fun hn => ?_,
    fun _ hn => gone_of_isLive ?_⟩
  · have htaken := (isLive_iff_generation.1 (isLive_iff.2 ⟨_, hnew⟩)).1
    exact (isLive_after_alloc ha frame later).2 ⟨isTaken_after htaken later hn, ⟨0, hn⟩⟩
  · rw [← Bool.not_eq_true, isLive_after_alloc ha]
    exact fun h => hn h.2

end Stepwise.Arena
