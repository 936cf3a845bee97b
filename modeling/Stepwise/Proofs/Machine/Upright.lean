import Stepwise.Proofs.Machine.Active
import Stepwise.Proofs.Machine.Faultless
import Stepwise.Proofs.Machine.Turn

/-! The frames in use are those of the activations. A call puts a frame into the arena and links it
to that of its caller, the fetch of an instruction writes down where the activation stands, and
whatever ends an activation releases its frame; so at any time the arena tells the same of the
activations as the run does, however observers pin frames. -/

namespace Stepwise

structure Activation.Framed (x : Activation) (caller : Option FrameId) (f : Frame) : Prop where
  chunk : f.chunk = x.chunk
  lasti : f.lasti = x.lasti
  line : f.line = x.line
  parent : f.parent = caller

namespace Arena

variable {a b : Arena} {x y : Activation} {xs : List Activation} {f : Frame}

inductive Linked (a : Arena) : List Activation → Prop
  | nil : Linked a []
  | cons {x : Activation} {xs : List Activation} {f : Frame} (hf : a.active? x.frame = some f)
    (hx : x.Framed (xs.head?.map Activation.frame) f) (h : Linked a xs) : Linked a (x :: xs)

theorem Linked.congr (h : a.Linked xs) (hb : ∀ x ∈ xs, b.active? x.frame = a.active? x.frame) :
    b.Linked xs := by
  induction h with
  | nil => exact .nil
  | cons hf hx _ ih =>
    refine .cons (by rwa [hb _ List.mem_cons_self]) hx (ih fun y hy => ?_)
    exact hb y (List.mem_cons_of_mem _ hy)

theorem Linked.exists_active? (h : a.Linked xs) (hx : x ∈ xs) :
    ∃ f, a.active? x.frame = some f ∧ f.chunk = x.chunk := by
  induction h with
  | nil => cases hx
  | cons hf hframed _ ih =>
    rcases List.mem_cons.1 hx with rfl | hx
    · exact ⟨_, hf, hframed.chunk⟩
    · exact ih hx

structure Bears (a : Arena) (xs : List Activation) : Prop where
  sound : a.Sound
  kept : a.Kept
  linked : a.Linked xs
  nodup : (xs.map Activation.frame).Nodup
  only : ∀ id f, a.active? id = some f → id ∈ xs.map Activation.frame

namespace Bears

theorem new (builtins : Scope) : (Arena.new builtins).Bears [] where
  sound := sound_new builtins
  kept := .new builtins
  linked := .nil
  nodup := .nil
  only id f hf := by
    rw [active?_new] at hf
    cases hf

theorem head (h : a.Bears (x :: xs)) :
    ∃ f, a.active? x.frame = some f ∧ x.Framed (xs.head?.map Activation.frame) f := by
  cases h.linked with
  | cons hf hx _ => exact ⟨_, hf, hx⟩

theorem not_mem_tail (h : a.Bears (x :: xs)) : x.frame ∉ xs.map Activation.frame :=
  (List.nodup_cons.1 h.nodup).1

theorem ne_of_mem_tail (h : a.Bears (x :: xs)) (hy : y ∈ xs) : y.frame ≠ x.frame :=
  fun he => h.not_mem_tail (he ▸ List.mem_map_of_mem hy)

theorem unreleased_eq (h : a.Bears xs) : a.unreleased = xs.length := by
  rw [unreleased_eq_length h.nodup, List.length_map]
  refine fun id => ⟨fun hid => ?_, fun ⟨f, hf⟩ => h.only id f hf⟩
  obtain ⟨x, hx, rfl⟩ := List.mem_map.1 hid
  obtain ⟨f, hf, -⟩ := h.linked.exists_active? hx
  exact ⟨f, hf⟩

theorem alloc (h : a.Bears xs) (hid : x.frame = (a.alloc f).1)
    (hx : x.Framed (xs.head?.map Activation.frame) f) : (a.alloc f).2.Bears (x :: xs) := by
  have hfresh (y : Activation) (hy : y ∈ xs) : y.frame ≠ x.frame := by
    obtain ⟨g, hg, -⟩ := h.linked.exists_active? hy
    intro he
    have hlive := isLive_of_active? hg
    rw [he, hid, isLive_alloc_eq_false h.sound f] at hlive
    cases hlive
  refine ⟨sound_alloc h.sound f, h.kept.alloc h.sound f, .cons ?_ hx ?_, ?_, fun id g hg => ?_⟩
  · rw [active?_alloc h.sound, if_pos hid]
  · refine h.linked.congr fun y hy => ?_
    rw [active?_alloc h.sound, if_neg (hid ▸ hfresh y hy)]
  · refine List.nodup_cons.2 ⟨fun hmem => ?_, h.nodup⟩
    obtain ⟨y, hy, he⟩ := List.mem_map.1 hmem
    exact hfresh y hy he
  · rw [active?_alloc h.sound] at hg
    split at hg
    · next he => exact List.mem_cons.2 (.inl (he.trans hid.symm))
    · exact List.mem_cons_of_mem _ (h.only id g hg)

theorem release (h : a.Bears (x :: xs)) : (a.release x.frame).Bears xs where
  sound := sound_release h.sound _
  kept := h.kept.release _
  linked := by
    cases h.linked with
    | cons _ _ hxs =>
      refine hxs.congr fun y hy => ?_
      rw [active?_release, if_neg (h.ne_of_mem_tail hy)]
  nodup := (List.nodup_cons.1 h.nodup).2
  only id f hf := by
    rw [active?_release] at hf
    split at hf
    · cases hf
    · next hne => exact (List.mem_cons.1 (h.only id f hf)).resolve_left hne

theorem update (h : a.Bears (x :: xs)) (hb : b.Sound) (hkept : b.Kept) (hy : y.frame = x.frame)
    (hactive : ∀ j, b.active? j = if j = x.frame then some f else a.active? j)
    (hframed : y.Framed (xs.head?.map Activation.frame) f) : b.Bears (y :: xs) where
  sound := hb
  kept := hkept
  linked := by
    cases h.linked with
    | cons _ _ hxs =>
      refine .cons (f := f) ?_ hframed (hxs.congr fun z hz => ?_)
      · rw [hactive, if_pos hy]
      · rw [hactive, if_neg (h.ne_of_mem_tail hz)]
  nodup := by
    rw [List.map_cons, hy]
    exact h.nodup
  only id g hg := by
    rw [List.map_cons, hy]
    rw [hactive] at hg
    split at hg
    · next he => exact he ▸ List.mem_cons_self
    · exact h.only id g hg

theorem turned (h : a.Bears (x :: xs)) (pc : Nat) (stack : List Value) :
    a.Bears ({ x with pc, stack } :: xs) := by
  obtain ⟨f, hf, hx⟩ := h.head
  refine h.update h.sound h.kept rfl (fun j => ?_) ⟨hx.chunk, hx.lasti, hx.line, hx.parent⟩
  split
  · next he => rw [he, hf]
  · rfl

theorem setPosition (h : a.Bears (x :: xs)) (lasti line lastLine : Nat) :
    (a.setPosition x.frame lasti line).Bears ({ x with lasti, line, lastLine } :: xs) := by
  obtain ⟨f, hf, hx⟩ := h.head
  refine h.update (f := { f with lasti, line }) (sound_modifyFrame h.sound _ _)
    (h.kept.setPosition _ _ _) rfl (fun j => ?_) ⟨hx.chunk, rfl, rfl, hx.parent⟩
  rw [active?_setPosition, hf, Option.map_some]

theorem store (h : a.Bears (x :: xs)) (name : String) (v : Value) :
    (a.store x.frame name v).Bears (x :: xs) := by
  obtain ⟨f, hf, hx⟩ := h.head
  refine h.update (sound_store h.sound _ _ _) (h.kept.store _ _ _) rfl (active?_store hf name v) ?_
  unfold Frame.written
  split
  · exact hx
  · exact ⟨hx.chunk, hx.lasti, hx.line, hx.parent⟩

theorem repinned (h : a.Bears xs) (hb : a.Repinned b) : b.Bears xs where
  sound := hb.sound h.sound
  kept := h.kept.repinned hb
  linked := h.linked.congr fun x _ => hb.active? x.frame
  nodup := h.nodup
  only id f hf := h.only id f (by rw [← hb.active? id, hf])

end Bears

end Arena

namespace Run

open Code (Instr)
open Relation (ReflTransGen)

/-- The activations of a run, innermost first; a run that has ended has none. -/
def activations (r : Run) : List Activation :=
  match r.phase with
  | .ended _ => []
  | _ => r.current :: r.callers

/-- The arena, the counter and the run tell the same of the activations, and there are no more of
them than the limit allows. -/
structure Upright (r : Run) : Prop where
  bears : r.machine.arena.Bears r.activations
  depth : r.machine.depth = r.activations.length
  bound : r.height ≤ max 1 r.machine.recursionLimit
  finished : ∀ ending, r.phase = .ended ending → r.callers = [] ∧ r.machine.tracing = false
  builtins : r.machine.arena.builtins = builtinScope

variable {r : Run} {given : String → Prop}

theorem activations_of_running (hp : ∀ ending, r.phase ≠ .ended ending) :
    r.activations = r.current :: r.callers := by
  unfold activations
  split
  · next ending h => exact absurd h (hp ending)
  · rfl

theorem activations_of_ended {ending : Ending} (hp : r.phase = .ended ending) :
    r.activations = [] := by
  unfold activations
  rw [hp]

theorem Upright.of_bears (hp : ∀ ending, r.phase ≠ .ended ending)
    (hb : r.machine.arena.Bears (r.current :: r.callers)) (hdepth : r.machine.depth = r.height)
    (hbound : r.height ≤ max 1 r.machine.recursionLimit)
    (hbuiltins : r.machine.arena.builtins = builtinScope) : r.Upright where
  bears := by rwa [activations_of_running hp]
  depth := by rwa [activations_of_running hp]
  bound := hbound
  finished ending h := absurd h (hp ending)
  builtins := hbuiltins

theorem running_of_bare {phase : Phase} (h : phase.Bare) (ending : Ending) :
    phase ≠ .ended ending := by
  rintro rfl
  exact h

namespace Upright

theorem start {m : Machine} (hb : m.arena.Bears []) (hbuiltins : m.arena.builtins = builtinScope)
    (chunk : Chunk) : (Run.start m chunk).Upright := by
  refine .of_bears (by simp [Run.start]) (hb.alloc rfl ⟨rfl, rfl, rfl, rfl⟩) rfl ?_ ?_
  · exact Nat.le_max_left 1 _
  · exact (Arena.builtins_alloc ..).trans hbuiltins

theorem running (h : r.Upright) (hp : ∀ ending, r.phase ≠ .ended ending) :
    r.machine.arena.Bears (r.current :: r.callers) :=
  activations_of_running hp ▸ h.bears

theorem counts (h : r.Upright) (hp : ∀ ending, r.phase ≠ .ended ending) :
    r.machine.depth = r.height :=
  h.depth.trans (congrArg List.length (activations_of_running hp))

theorem withPhase (h : r.Upright) (hr : ∀ ending, r.phase ≠ .ended ending) {phase : Phase}
    (hp : ∀ ending, phase ≠ .ended ending) : (r.withPhase phase).Upright :=
  .of_bears hp (h.running hr) (h.counts hr) h.bound h.builtins

theorem turns (hb : r.machine.arena.Bears (r.current :: r.callers))
    (hdepth : r.machine.depth = r.height) (hbound : r.height ≤ max 1 r.machine.recursionLimit)
    (hbuiltins : r.machine.arena.builtins = builtinScope) {r' s' : Run} (ht : Turns r r r' s') :
    r'.Upright := by
  cases ht with
  | goes pc stack n hp =>
    exact .of_bears (running_of_bare hp) (hb.turned pc stack) hdepth hbound hbuiltins
  | stores name v stack =>
    refine .of_bears (by simp [stored, Run.next]) ((hb.store name v).turned _ stack) hdepth hbound ?_
    exact (Arena.builtins_store ..).trans hbuiltins
  | enters stack chunk args hl =>
    refine .of_bears (by simp [entered, enter]) ?_ (congrArg Nat.succ hdepth) ?_ ?_
    · exact (hb.turned r.current.pc stack).alloc rfl ⟨rfl, rfl, rfl, rfl⟩
    · rw [hdepth] at hl
      exact Nat.le_trans hl (Nat.le_max_right 1 _)
    · exact (Arena.builtins_alloc ..).trans hbuiltins

theorem executeFetched (h : r.Upright) (hp : r.phase = .execute) : r.executeFetched.Upright := by
  have hr : ∀ ending, r.phase ≠ .ended ending := by simp [hp]
  cases hi : r.current.chunk.code[r.current.pc]? with
  | none => exact executeFetched_of_none hi ▸ h.withPhase hr (by simp)
  | some i =>
    rw [executeFetched_of_some hi]
    exact turns (r := r.stepped) ((h.running hr).turned _ _) (h.counts hr) h.bound h.builtins
      (turns_execute r.stepped i)

theorem fetch (h : r.Upright) (hp : r.phase = .fetch) : r.fetch.Upright := by
  have hr : ∀ ending, r.phase ≠ .ended ending := by simp [hp]
  cases hi : r.current.chunk.code[r.current.pc]? with
  | none =>
    simp only [Run.fetch, hi]
    exact h.withPhase hr (by simp)
  | some i =>
    simp only [Run.fetch, hi]
    refine .of_bears (fun ending => ?_) ((h.running hr).setPosition _ _ _) (h.counts hr)
      h.bound ?_
    · dsimp only
      split <;> simp
    · exact (Arena.builtins_modifyFrame ..).trans h.builtins

theorem leave (h : r.Upright) (hr : ∀ ending, r.phase ≠ .ended ending) (ending : Ending) :
    (r.leave ending).Upright := by
  have hb := (h.running hr).release
  have hcounts := h.counts hr
  have hbound := h.bound
  have hbuiltins : (r.machine.arena.release r.current.frame).builtins = builtinScope :=
    (Arena.builtins_release ..).trans h.builtins
  obtain ⟨m, a, callers, phase⟩ := r
  simp only [Run.leave, Run.withArena]
  generalize ending.mapError (noteLeaving a) = left
  cases callers with
  | nil => exact ⟨hb, rfl, Nat.le_max_left 1 _, fun _ _ => ⟨rfl, rfl⟩, hbuiltins⟩
  | cons caller callers =>
    have hcount : m.depth - 1 = callers.length + 1 := Nat.sub_eq_of_eq_add hcounts
    have hlimit : callers.length + 1 ≤ max 1 m.recursionLimit := Nat.le_of_succ_le hbound
    cases left with
    | ok v => exact .of_bears (by simp [Run.push, Run.next]) (hb.turned _ _) hcount hlimit hbuiltins
    | error u => exact .of_bears (by simp [Run.fail, Run.withPhase]) hb hcount hlimit hbuiltins

theorem advance (h : r.Upright) : r.advance.Upright := by
  unfold Run.advance
  split
  · next hp => exact h.withPhase (by simp [hp]) (by simp)
  · next hp => exact h.fetch hp
  · next hp => exact h.withPhase (by simp [hp]) (by simp)
  · next hp => exact h.withPhase (by simp [hp]) (by simp)
  · next hp => exact h.executeFetched hp
  · next ending hp => exact h.leave (by simp [hp]) ending
  · exact h

theorem quieted (h : r.Upright) : r.quieted.Upright :=
  ⟨h.bears, h.depth, h.bound, fun ending hp => ⟨(h.finished ending hp).1, rfl⟩, h.builtins⟩

theorem control (h : r.Upright) (hr : ∀ ending, r.phase ≠ .ended ending) (c : Control) :
    (r.control c).Upright := by
  cases c with
  | proceed => exact control_proceed r ▸ h.advance
  | untrace => exact control_untrace r ▸ h.quieted.advance
  | cancel | abort reason =>
    unfold Run.control
    simp only [reduceCtorEq, if_false]
    split
    · exact h.leave hr _
    · exact h.withPhase hr (by simp)

theorem polled (h : r.Upright) (hr : ∀ ending, r.phase ≠ .ended ending) (interrupted : Bool) :
    (r.polled interrupted).Upright := by
  cases interrupted with
  | true => exact h.withPhase hr (by simp)
  | false => exact h.withPhase hr (by simp)

theorem push (h : r.Upright) (hr : ∀ ending, r.phase ≠ .ended ending) (v : Value) :
    (r.push v).Upright :=
  .of_bears (by simp [Run.push, Run.next]) ((h.running hr).turned _ _) (h.counts hr) h.bound
    h.builtins

theorem shown (h : r.Upright) (hr : ∀ ending, r.phase ≠ .ended ending) : r.shown.Upright := by
  unfold Run.shown
  split
  · exact h.withPhase hr (by simp)
  · exact h.push hr .none

theorem received (h : r.Upright) (hr : ∀ ending, r.phase ≠ .ended ending)
    (line : Except Unwind String) : (r.received line).Upright := by
  cases line with
  | ok line => exact h.push hr _
  | error u => exact h.withPhase hr (by simp)

theorem repinned (h : r.Upright) {a : Arena} (ha : r.machine.arena.Repinned a) :
    (r.withArena a).Upright :=
  ⟨h.bears.repinned ha, h.depth, h.bound, h.finished, ha.scopes.2.trans h.builtins⟩

theorem moves (h : r.Upright) {r' : Run} (hm : Moves given r r') : r'.Upright := by
  cases hm with
  | advance => exact h.advance
  | control hn c hc => exact h.control (of_need_control hn).2.2 c
  | polled hn interrupted => exact h.polled (by simp [phase_of_need_cell hn]) interrupted
  | wrote hn =>
    obtain ⟨thenRead, hp⟩ := phase_of_need_write hn
    exact h.shown (by simp [hp])
  | cleared hn => exact h.shown (by simp [phase_of_need_clear hn])
  | received hn line hline => exact h.received (by simp [phase_of_need_line hn]) line
  | repinned ha => exact h.repinned ha

theorem reaches (h : r.Upright) {r' : Run} (hr : ReflTransGen (Moves given) r r') :
    r'.Upright := by
  induction hr with
  | refl => exact h
  | tail _ hm ih => exact ih.moves hm

end Upright

section Settings

theorem settings_turns {s r' s' : Run} (h : Turns r s r' s') :
    r'.machine.recursionLimit = r.machine.recursionLimit ∧
      r'.machine.tracing = r.machine.tracing := by
  cases h <;> exact ⟨rfl, rfl⟩

theorem settings_leave (r : Run) (ending : Ending) :
    (r.leave ending).machine.recursionLimit = r.machine.recursionLimit ∧
      ((∀ e, (r.leave ending).phase ≠ .ended e) →
        (r.leave ending).machine.tracing = r.machine.tracing) := by
  obtain ⟨m, x, callers, phase⟩ := r
  cases callers with
  | nil => exact ⟨rfl, fun h => absurd rfl (h _)⟩
  | cons caller callers => cases ending <;> exact ⟨rfl, fun _ => rfl⟩

theorem settings_advance (r : Run) :
    r.advance.machine.recursionLimit = r.machine.recursionLimit ∧
      ((∀ e, r.advance.phase ≠ .ended e) → r.advance.machine.tracing = r.machine.tracing) := by
  unfold advance
  split
  · exact ⟨rfl, fun _ => rfl⟩
  · unfold fetch
    dsimp only
    split <;> exact ⟨rfl, fun _ => rfl⟩
  · exact ⟨rfl, fun _ => rfl⟩
  · exact ⟨rfl, fun _ => rfl⟩
  · cases hi : r.current.chunk.code[r.current.pc]? with
    | none => exact executeFetched_of_none hi ▸ ⟨rfl, fun _ => rfl⟩
    | some i =>
      rw [executeFetched_of_some hi]
      have h := settings_turns (r := r.stepped) (turns_execute r.stepped i)
      exact ⟨h.1, fun _ => h.2⟩
  · exact settings_leave r _
  · exact ⟨rfl, fun _ => rfl⟩

theorem recursionLimit_control (r : Run) (c : Control) :
    (r.control c).machine.recursionLimit = r.machine.recursionLimit := by
  cases c with
  | proceed => exact control_proceed r ▸ (settings_advance r).1
  | untrace => exact control_untrace r ▸ (settings_advance r.quieted).1
  | cancel | abort reason =>
    unfold control
    simp only [reduceCtorEq, if_false]
    split
    · exact (settings_leave r _).1
    · rfl

theorem recursionLimit_moves {r' : Run} (h : Moves given r r') :
    r'.machine.recursionLimit = r.machine.recursionLimit := by
  cases h with
  | advance => exact (settings_advance r).1
  | control _ c => exact recursionLimit_control r c
  | polled _ interrupted => cases interrupted <;> rfl
  | wrote | cleared =>
    unfold shown
    split <;> rfl
  | received _ line => cases line <;> rfl
  | repinned => rfl

theorem recursionLimit_reaches {r' : Run} (h : ReflTransGen (Moves given) r r') :
    r'.machine.recursionLimit = r.machine.recursionLimit := by
  induction h with
  | refl => rfl
  | tail _ hm ih => rw [recursionLimit_moves hm, ih]

end Settings

end Run

end Stepwise
