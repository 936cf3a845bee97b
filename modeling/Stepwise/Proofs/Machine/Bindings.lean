import Stepwise.Proofs.Evaluator.Matching
import Stepwise.Proofs.Machine.Arena

/-! The values that names in an arena stand for. What holds of all of them goes on holding while
frames come and go, and a store adds the one value that is stored. -/

namespace Stepwise

def Scope.All (P : Value → Prop) (s : Scope) : Prop :=
  ∀ name v, s.get? name = some v → P v

namespace Scope.All

variable {P : Value → Prop} {s : Scope}

theorem empty : Scope.All P .empty := by
  intro name v h
  simp at h

theorem insert (h : Scope.All P s) {v : Value} (hv : P v) (name : String) :
    Scope.All P (s.insert name v) := by
  intro key w hw
  rw [Dictionary.get?_insert] at hw
  split at hw
  · cases hw
    exact hv
  · exact h key w hw

theorem ofList {entries : List (String × Value)} (h : ∀ e ∈ entries, P e.2) :
    Scope.All P (.ofList entries) :=
  fun _ _ hv => h _ (Dictionary.mem_of_get?_ofList hv)

end Scope.All

namespace Arena

structure All (P : Value → Prop) (a : Arena) : Prop where
  locals : ∀ (i : Nat) (s : Slot) (f : Frame), a.slots[i]? = some s → s.frame = some f →
    Scope.All P f.locals
  globals : Scope.All P a.globals
  builtins : Scope.All P a.builtins

namespace All

variable {P : Value → Prop} {a : Arena}

theorem new {builtins : Scope} (h : Scope.All P builtins) : (Arena.new builtins).All P where
  locals i s f hs := by simp [Arena.new] at hs
  globals := .empty
  builtins := h

theorem modifySlot (h : a.All P) (id : FrameId) {g : Slot → Slot}
    (hg : ∀ s f, (g s).frame = some f →
      ∃ f', s.frame = some f' ∧ (Scope.All P f'.locals → Scope.All P f.locals)) :
    (a.modifySlot id g).All P where
  locals i t f ht hf := by
    rw [getElem?_modifySlot] at ht
    split at ht
    · obtain ⟨s, hs, rfl⟩ := Option.map_eq_some_iff.1 ht
      obtain ⟨f', hf', himp⟩ := hg s f hf
      exact himp (h.locals i s f' hs hf')
    · exact h.locals i t f ht hf
  globals := h.globals
  builtins := h.builtins

theorem freeSlot (h : a.All P) (index : Nat) : (a.freeSlot index).All P where
  locals i t f ht hf := by
    rw [getElem?_freeSlot] at ht
    split at ht
    · obtain ⟨s, -, rfl⟩ := Option.map_eq_some_iff.1 ht
      cases hf
    · exact h.locals i t f ht hf
  globals := h.globals
  builtins := h.builtins

theorem alloc (h : a.All P) {frame : Frame} (hframe : Scope.All P frame.locals) :
    (a.alloc frame).2.All P := by
  unfold Arena.alloc
  split
  · next k rest _ =>
    refine ⟨fun i t f ht hf => ?_, h.globals, h.builtins⟩
    rw [Array.getElem?_modify] at ht
    split at ht
    · obtain ⟨s, -, rfl⟩ := Option.map_eq_some_iff.1 ht
      cases hf
      exact hframe
    · exact h.locals i t f ht hf
  · refine ⟨fun i t f ht hf => ?_, h.globals, h.builtins⟩
    rw [Array.getElem?_push] at ht
    split at ht
    · cases ht
      cases hf
      exact hframe
    · exact h.locals i t f ht hf

theorem release (h : a.All P) (id : FrameId) : (a.release id).All P := by
  unfold Arena.release
  split
  · exact h
  · split
    · exact h.modifySlot id fun s f hf => ⟨f, hf, fun hl => hl⟩
    · exact h.freeSlot id.index

theorem pin (h : a.All P) {id : FrameId} {b : Arena} (hb : a.pin id = some b) : b.All P := by
  unfold Arena.pin at hb
  split at hb <;> cases hb
  exact h.modifySlot id fun s f hf => ⟨f, hf, fun hl => hl⟩

theorem unpin (h : a.All P) (id : FrameId) : (a.unpin id).All P := by
  unfold Arena.unpin
  split
  · exact h
  · split
    · exact h.freeSlot id.index
    · exact h.modifySlot id fun s f hf => ⟨f, hf, fun hl => hl⟩

theorem modifyFrame (h : a.All P) (id : FrameId) {g : Frame → Frame}
    (hg : ∀ f, Scope.All P f.locals → Scope.All P (g f).locals) : (a.modifyFrame id g).All P := by
  unfold Arena.modifyFrame
  split
  · refine h.modifySlot id fun s f hf => ?_
    obtain ⟨f', hf', rfl⟩ := Option.map_eq_some_iff.1 hf
    exact ⟨f', hf', hg f'⟩
  · exact h

theorem setPosition (h : a.All P) (id : FrameId) (lasti line : Nat) :
    (a.setPosition id lasti line).All P :=
  h.modifyFrame id fun _ hl => hl

theorem store (h : a.All P) (id : FrameId) (name : String) {v : Value} (hv : P v) :
    (a.store id name v).All P := by
  unfold Arena.store
  split
  · exact h
  · split
    · exact ⟨h.locals, h.globals.insert hv name, h.builtins⟩
    · exact h.modifyFrame id fun _ hl => hl.insert hv name

theorem lookup (h : a.All P) {id : FrameId} {name : String} {v : Value}
    (hv : a.lookup id name = some v) : P v := by
  rw [Arena.lookup, Option.or_eq_some_iff, Option.or_eq_some_iff] at hv
  obtain (hv | ⟨-, hv⟩) | ⟨-, hv⟩ := hv
  · obtain ⟨scope, hscope, hv⟩ := Option.bind_eq_some_iff.1 hv
    obtain ⟨f, hf, rfl⟩ := Option.map_eq_some_iff.1 hscope
    obtain ⟨s, hs, hframe⟩ := Option.bind_eq_some_iff.1 hf
    split at hv
    · exact h.globals name v hv
    · exact h.locals _ s f (slot?_eq_some_iff.1 hs).1 hframe name v hv
  · exact h.globals name v hv
  · exact h.builtins name v hv

end All

/-- What observers do to an arena: they pin frames and let go of them. -/
inductive Repinned (a : Arena) : Arena → Prop
  | refl : Repinned a a
  | pin {b c : Arena} {id : FrameId} (h : Repinned a b) (hc : b.pin id = some c) : Repinned a c
  | unpin {b : Arena} (h : Repinned a b) (id : FrameId) : Repinned a (b.unpin id)

theorem All.repinned {P : Value → Prop} {a b : Arena} (h : a.All P) (hb : a.Repinned b) :
    b.All P := by
  induction hb with
  | refl => exact h
  | pin _ hc ih => exact ih.pin hc
  | unpin _ id ih => exact ih.unpin id

end Arena

end Stepwise
