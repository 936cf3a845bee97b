import Stepwise.Debug.Snapshot
import Stepwise.Proofs.Machine.Retired

/-! Call stacks. The parent of a frame is a handle that was given out before its own, and as long
as no slot was emptied 2^32 times no handle is given out twice. The handles that a walk up the
parents meets were therefore given out earlier and earlier, although slots are used again, and the
walk ends at a module or at a frame that is gone. -/

namespace Stepwise.Arena

variable {a : Arena} {id : FrameId} {f : Frame} {o : Outline} {builtins : Scope}
  {bs : List (FrameId × Frame)} {cs : List Call} {ids : List FrameId}

section Births

def Call.birth : Call → Arena → List (FrameId × Frame)
  | .alloc f, a => [((a.alloc f).1, f)]
  | _, _ => []

/-- The handles that the calls give out, in their order. -/
def births : Arena → List Call → List (FrameId × Frame)
  | _, [] => []
  | a, c :: cs => c.birth a ++ births (c.act a) cs

/-- Every parent was given out before. -/
def ParentsFirst (bs : List (FrameId × Frame)) : Prop :=
  ∀ (n : Nat) (id : FrameId) (f : Frame) (p : FrameId), bs[n]? = some (id, f) →
    f.parent = some p → ∃ m < n, ∃ g, bs[m]? = some (p, g)

theorem births_concat (a : Arena) (cs : List Call) (c : Call) :
    a.births (cs ++ [c]) = a.births cs ++ c.birth (a.after cs) := by
  induction cs generalizing a with
  | nil => simp [births, after]
  | cons d cs ih => simp only [List.cons_append, births, after, ih, List.append_assoc]

theorem frees_concat (i : Nat) (a : Arena) (cs : List Call) (c : Call) :
    frees i a (cs ++ [c]) = frees i a cs +
      if (a.after cs).isTaken i && !(c.act (a.after cs)).isTaken i then 1 else 0 := by
  induction cs generalizing a with
  | nil => simp [frees, after]
  | cons d cs ih => rw [List.cons_append, frees, ih, frees, after, Nat.add_assoc]

theorem frees_le_length (i : Nat) (a : Arena) (cs : List Call) : frees i a cs ≤ cs.length := by
  induction cs generalizing a with
  | nil => exact Nat.le_refl 0
  | cons c cs ih =>
    have := ih (c.act a)
    rw [frees, List.length_cons]
    split <;> omega

/-- No slot was emptied so often that a handle of it could come again. -/
def Fresh (builtins : Scope) (cs : List Call) : Prop :=
  ∀ i, frees i (new builtins) cs < 2 ^ 32

theorem Fresh.of_concat {c : Call} (h : Fresh builtins (cs ++ [c])) : Fresh builtins cs :=
  fun i => Nat.lt_of_le_of_lt (by rw [frees_concat]; exact Nat.le_add_right _ _) (h i)

theorem Fresh.toNat_generation (h : Fresh builtins cs) (i : Nat) :
    (((new builtins).after cs).generation i).toNat = frees i (new builtins) cs := by
  have hnew : (new builtins).generation i = 0 := rfl
  rw [generation_after (sound_new builtins), hnew, UInt32.zero_add, UInt32.toNat_ofNat']
  exact Nat.mod_eq_of_lt (h i)

theorem Fresh.of_isLive (h : Fresh builtins cs) (hlive : ((new builtins).after cs).isLive id = true) :
    id.generation.toNat = frees id.index (new builtins) cs := by
  rw [← h.toNat_generation, (isLive_iff_generation.1 hlive).2]

theorem isLive_of_alloc (builtins : Scope) (cs : List Call) (f : Frame) :
    ((new builtins).after (cs ++ [.alloc f])).isLive (((new builtins).after cs).alloc f).1 = true := by
  rw [after_append]
  exact isLive_iff.2 ⟨_, slot?_alloc_self (sound_after (sound_new builtins) cs) f⟩

/-- A handle that was given out has a number that its slot has reached, and while the two are the
same its frame is there. -/
theorem Fresh.of_mem_births (h : Fresh builtins cs) (hid : (id, f) ∈ (new builtins).births cs) :
    id.generation.toNat ≤ frees id.index (new builtins) cs ∧
      (id.generation.toNat = frees id.index (new builtins) cs →
        ((new builtins).after cs).isLive id = true) := by
  induction cs using List.reverseRecOn with
  | nil => cases hid
  | append_singleton cs c ih =>
    rw [births_concat, List.mem_append] at hid
    rcases hid with hid | hid
    · obtain ⟨hle, hlive⟩ := ih h.of_concat hid
      have hnow := h.toNat_generation id.index
      have hconcat := frees_concat id.index (new builtins) cs c
      rw [after_append] at hnow ⊢
      refine ⟨by omega, fun hlast => isLive_iff_generation.2 ⟨?_, ?_⟩⟩
      · have htaken := (isLive_iff_generation.1 (hlive (by omega))).1
        by_contra hempty
        rw [htaken, if_pos (by simpa [after] using hempty)] at hconcat
        omega
      · exact UInt32.toNat_inj.1 (hnow.trans hlast.symm)
    · cases c with
      | alloc g =>
        cases List.mem_singleton.1 hid
        have hlive := isLive_of_alloc builtins cs f
        exact ⟨Nat.le_of_eq (h.of_isLive hlive), fun _ => hlive⟩
      | _ => cases hid

theorem Fresh.nodup_births (h : Fresh builtins cs) :
    (((new builtins).births cs).map Prod.fst).Nodup := by
  induction cs using List.reverseRecOn with
  | nil => exact List.nodup_nil
  | append_singleton cs c ih =>
    have hnodup := ih h.of_concat
    rw [births_concat, List.map_append]
    cases c with
    | alloc f =>
      rw [Call.birth, List.map_singleton, ← List.concat_eq_append]
      refine (List.nodup_concat _ _).2 ⟨fun hmem => ?_, hnodup⟩
      obtain ⟨⟨id, g⟩, hid, heq⟩ := List.mem_map.1 hmem
      have hnew := isLive_of_alloc builtins cs f
      rw [← heq] at hnew
      have hnumber : id.generation.toNat = frees id.index (new builtins) cs := by
        have htaken := (isLive_iff_generation.1 hnew).1
        rw [after_append, after, after] at htaken
        rw [h.of_isLive hnew, frees_concat, htaken, if_neg (by simp), Nat.add_zero]
      have hold := (h.of_concat.of_mem_births hid).2 hnumber
      rw [show id = _ from heq, isLive_alloc_eq_false (sound_after (sound_new builtins) cs) f] at hold
      cases hold
    | _ => simpa [Call.birth] using hnodup

theorem outline?_of_act (ha : a.Sound) {c : Call} (h : (c.act a).outline? id = some o) :
    (∃ f, (id, f) ∈ c.birth a ∧ f.chunk = o.chunk ∧ f.parent = o.parent) ∨
      ∃ old, a.outline? id = some old ∧ old.chunk = o.chunk ∧ old.parent = o.parent := by
  cases c with
  | alloc f =>
    simp only [Call.act, outline?_alloc ha] at h
    split at h
    · next he =>
      cases h
      exact .inl ⟨f, he ▸ List.mem_singleton_self _, rfl, rfl⟩
    · exact .inr ⟨o, h, rfl, rfl⟩
  | release j =>
    simp only [Call.act, outline?_release] at h
    split at h
    · next he =>
      obtain ⟨old, hold, h⟩ := Option.bind_eq_some_iff.1 h
      rw [Outline.released] at h
      split at h <;> cases h
      exact .inr ⟨old, he ▸ hold, rfl, rfl⟩
    · exact .inr ⟨o, h, rfl, rfl⟩
  | pin j =>
    simp only [Call.act] at h
    cases hp : a.pin j with
    | none => exact .inr ⟨o, by simpa [hp] using h, rfl, rfl⟩
    | some b =>
      rw [hp, Option.getD_some, outline?_pin hp] at h
      split at h
      · next he =>
        obtain ⟨old, hold, rfl⟩ := Option.map_eq_some_iff.1 h
        exact .inr ⟨old, he ▸ hold, rfl, rfl⟩
      · exact .inr ⟨o, h, rfl, rfl⟩
  | unpin j =>
    simp only [Call.act, outline?_unpin] at h
    split at h
    · next he =>
      obtain ⟨old, hold, h⟩ := Option.bind_eq_some_iff.1 h
      rw [Outline.unpinned] at h
      split at h <;> cases h
      exact .inr ⟨old, he ▸ hold, rfl, rfl⟩
    · exact .inr ⟨o, h, rfl, rfl⟩
  | store j name v => exact .inr ⟨o, outline?_store a j name v id ▸ h, rfl, rfl⟩
  | setPosition j lasti line => exact .inr ⟨o, outline?_setPosition a j lasti line id ▸ h, rfl, rfl⟩

theorem exists_birth (builtins : Scope) {cs : List Call}
    (h : ((new builtins).after cs).outline? id = some o) :
    ∃ f, (id, f) ∈ (new builtins).births cs ∧ f.chunk = o.chunk ∧ f.parent = o.parent := by
  induction cs using List.reverseRecOn generalizing o with
  | nil => simp [after, outline?, slot?, new] at h
  | append_singleton cs c ih =>
    rw [after_append] at h
    rw [births_concat]
    rcases outline?_of_act (sound_after (sound_new builtins) cs) h with ⟨f, hf, hsame⟩ | ⟨old, hold, hsame⟩
    · exact ⟨f, List.mem_append_right _ hf, hsame⟩
    · obtain ⟨f, hf, hchunk, hparent⟩ := ih hold
      exact ⟨f, List.mem_append_left _ hf, hchunk.trans hsame.1, hparent.trans hsame.2⟩

end Births

section Walk

/-- A walk up the parents from a handle, with no bound on its length: the handles whose frames it
meets, and the one at which it stops, if that is not a frame without a parent. -/
inductive Walks (a : Arena) : Option FrameId → List FrameId → Option FrameId → Prop
  | root : Walks a none [] none
  | freed {id : FrameId} (h : a.frame? id = none) : Walks a (some id) [] (some id)
  | step {id : FrameId} {f : Frame} {ids : List FrameId} {stop : Option FrameId}
      (h : a.frame? id = some f) (rest : Walks a f.parent ids stop) :
      Walks a (some id) (id :: ids) stop

/-- The frame behind a handle is the one that the handle was given out for, and no other was. -/
def IsNamed (a : Arena) (bs : List (FrameId × Frame)) (id : FrameId) : Prop :=
  ∃ f born, a.frame? id = some f ∧ f.chunk = born.chunk ∧ f.parent = born.parent ∧
    ∀ other, (id, other) ∈ bs ↔ other = born

theorem isLive_of_frame? (h : a.frame? id = some f) : a.isLive id = true := by
  obtain ⟨s, hs, -⟩ := Option.bind_eq_some_iff.1 h
  exact isLive_iff.2 ⟨s, hs⟩

theorem exists_frame?_of_isLive (h : a.isLive id = true) : ∃ f, a.frame? id = some f := by
  obtain ⟨s, hs⟩ := isLive_iff.1 h
  rw [frame?_of_slot? hs]
  exact Option.isSome_iff_exists.1 (slot?_eq_some_iff.1 hs).2.2

theorem IsNamed.isLive (h : a.IsNamed bs id) : a.isLive id = true := by
  obtain ⟨f, -, hf, -⟩ := h
  exact isLive_of_frame? hf

theorem eq_of_mem (hnodup : (bs.map Prod.fst).Nodup) {g : Frame} (hf : (id, f) ∈ bs)
    (hg : (id, g) ∈ bs) : g = f := by
  have := List.inj_on_of_nodup_map hnodup hf hg rfl
  exact (Prod.ext_iff.1 this).2.symm

theorem Fresh.isNamed (h : Fresh builtins cs) (hf : ((new builtins).after cs).frame? id = some f) :
    ((new builtins).after cs).IsNamed ((new builtins).births cs) id := by
  obtain ⟨s, hs, hframe⟩ := Option.bind_eq_some_iff.1 hf
  obtain ⟨born, hborn, hchunk, hparent⟩ :=
    exists_birth builtins (outline?_eq_some_iff.2 ⟨s, f, hs, hframe, rfl⟩)
  refine ⟨f, born, hf, hchunk.symm, hparent.symm, fun other => ⟨eq_of_mem h.nodup_births hborn, ?_⟩⟩
  rintro rfl
  exact hborn

/-- From a handle that was given out the walk comes to an end. The handles it meets were given out
earlier and earlier, so that none comes twice. -/
theorem exists_walks (hnamed : ∀ id f, a.frame? id = some f → a.IsNamed bs id)
    (hnodup : (bs.map Prod.fst).Nodup) (hfirst : ParentsFirst bs) (n : Nat)
    (hn : bs[n]? = some (id, f)) :
    ∃ ids stop, Walks a (some id) ids stop ∧ ids.Nodup ∧
      (∀ j ∈ ids, a.IsNamed bs j ∧ ∃ m ≤ n, ∃ g, bs[m]? = some (j, g)) ∧
      ∀ j, stop = some j → a.frame? j = none ∧ ∃ g, (j, g) ∈ bs := by
  induction n using Nat.strong_induction_on generalizing id f with
  | _ n ih =>
    cases hid : a.frame? id with
    | none =>
      refine ⟨[], some id, .freed hid, List.nodup_nil, by simp, ?_⟩
      rintro j ⟨⟩
      exact ⟨hid, f, List.mem_of_getElem? hn⟩
    | some now =>
      have hself := hnamed id now hid
      obtain ⟨_, born, hnow, -, hparent, hborn⟩ := hnamed id now hid
      cases hid.symm.trans hnow
      have hf : f = born := (hborn f).1 (List.mem_of_getElem? hn)
      cases hp : now.parent with
      | none =>
        refine ⟨[id], none, .step hid (by rw [hp]; exact .root), List.nodup_singleton id, ?_, by simp⟩
        rintro j hj
        cases List.mem_singleton.1 hj
        exact ⟨hself, n, Nat.le_refl n, f, hn⟩
      | some p =>
        obtain ⟨m, hm, g, hg⟩ := hfirst n id f p hn (by rw [hf, ← hparent, hp])
        obtain ⟨ids, stop, hwalks, hids, hmem, hstop⟩ := ih m hm hg
        refine ⟨id :: ids, stop, .step hid (by rw [hp]; exact hwalks), ?_, ?_, hstop⟩
        · refine List.nodup_cons.2 ⟨fun h => ?_, hids⟩
          obtain ⟨-, k, hk, g', hg'⟩ := hmem id h
          have hplace : (bs.map Prod.fst)[k]? = (bs.map Prod.fst)[n]? := by
            simp only [List.getElem?_map, hg', hn, Option.map_some]
          have hlt : n < (bs.map Prod.fst).length := by
            rw [List.length_map]
            exact (List.getElem?_eq_some_iff.1 hn).1
          have := (List.getElem?_inj (by omega) hnodup).1 hplace
          omega
        · rintro j hj
          rcases List.mem_cons.1 hj with rfl | hj
          · exact ⟨hself, n, Nat.le_refl n, f, hn⟩
          · obtain ⟨hj, k, hk, hborn⟩ := hmem j hj
            exact ⟨hj, k, by omega, hborn⟩

theorem nodup_index (hids : ids.Nodup) (hlive : ∀ id ∈ ids, a.isLive id = true) :
    (ids.map FrameId.index).Nodup :=
  hids.map_on fun i hi j hj h => (eq_of_index_eq (hlive i hi) (hlive j hj) h.symm).symm

theorem length_le_occupied (hids : ids.Nodup) (hlive : ∀ id ∈ ids, a.isLive id = true) :
    ids.length ≤ a.occupied := by
  rw [← length_handles_true]
  refine (List.subperm_of_subset hids fun id hid => ?_).length_le
  obtain ⟨s, hs⟩ := isLive_iff.1 (hlive id hid)
  exact mem_handles.2 ⟨s, hs, rfl⟩

end Walk

end Stepwise.Arena

namespace Stepwise.Gallery

open Arena

variable {a : Arena} {ids : List FrameId} {start stop : Option FrameId}

def entryOf? (a : Arena) (id : FrameId) : Option StackEntry :=
  (a.frame? id).map fun f => ⟨f.chunk.name, f.chunk.file, f.line⟩

/-- The bound on the number of ancestors plays no part once it lets the walk come to its end. -/
theorem ancestors_of_walks (h : Walks a start ids stop) {fuel : Nat} (hfuel : ids.length ≤ fuel) :
    (ancestors a fuel start).map some = ids.map (entryOf? a) := by
  induction h generalizing fuel with
  | root => cases fuel <;> rfl
  | freed h =>
    cases fuel with
    | zero => rfl
    | succ fuel => simp only [ancestors, h, List.map_nil]
  | @step id f ids stop h rest ih =>
    cases fuel with
    | zero => simp at hfuel
    | succ fuel =>
      have hentry : entryOf? a id = some ⟨f.chunk.name, f.chunk.file, f.line⟩ := by
        rw [entryOf?, h, Option.map_some]
      simp only [ancestors, h, List.map_cons, hentry,
        ih (Nat.le_of_succ_le_succ hfuel)]

theorem stack_of_walks {g : Gallery} {s : Snapshot} (hopen : g.isReleased s = false)
    (hwalks : Walks g.arena (some s.frame) (s.frame :: ids) stop)
    (hids : ids.length ≤ g.arena.slots.size) :
    ∃ entries, g.stack s = .ok (⟨s.chunk.name, s.chunk.file, s.line⟩ :: entries) ∧
      entries.map some = ids.map (entryOf? g.arena) := by
  cases hwalks with
  | @step _ f _ _ h rest =>
    have hlive : g.arena.isLive s.frame = true := isLive_of_frame? h
    exact ⟨_, by simp only [stack, guarded, hopen, hlive, h, Option.bind_some, if_true,
      Bool.false_eq_true, if_false], ancestors_of_walks rest hids⟩

/-- The call stack that a snapshot shows is that of the walk up the parents that the frames were
made with: its own place, and then the ancestors, each still the frame that its handle was given
out for, as far as the first one that is gone. The walk ends, it comes to no slot twice, and so the
stack has no more entries than there are slots in use. -/
theorem stack_follows_parents (builtins : Scope) {cs : List Call} (hfresh : Fresh builtins cs)
    (hfirst : ParentsFirst ((Arena.new builtins).births cs)) {g : Gallery} {s : Snapshot}
    (harena : g.arena = (Arena.new builtins).after cs) (hopen : g.isReleased s = false)
    (hlive : g.arena.isLive s.frame = true) :
    ∃ ids stop entries, Walks g.arena (some s.frame) (s.frame :: ids) stop ∧
      g.stack s = .ok (⟨s.chunk.name, s.chunk.file, s.line⟩ :: entries) ∧
      entries.map some = ids.map (entryOf? g.arena) ∧
      ((s.frame :: ids).map FrameId.index).Nodup ∧
      entries.length + 1 ≤ g.arena.occupied ∧
      (∀ id ∈ s.frame :: ids, g.arena.IsNamed ((Arena.new builtins).births cs) id) ∧
      ∀ id, stop = some id →
        g.arena.frame? id = none ∧ ∃ f, (id, f) ∈ (Arena.new builtins).births cs := by
  have hnamed : ∀ id f, g.arena.frame? id = some f →
      g.arena.IsNamed ((Arena.new builtins).births cs) id := fun id f hf => by
    rw [harena] at hf ⊢
    exact hfresh.isNamed hf
  obtain ⟨f, hf⟩ := exists_frame?_of_isLive hlive
  obtain ⟨_, born, -, -, -, hborn⟩ := hnamed s.frame f hf
  obtain ⟨n, hn⟩ := List.mem_iff_getElem?.1 ((hborn born).2 rfl)
  obtain ⟨all, stop, hwalks, hnodup, hall, hstop⟩ :=
    exists_walks hnamed hfresh.nodup_births hfirst n hn
  obtain ⟨ids, rfl⟩ : ∃ ids, all = s.frame :: ids := by
    cases hwalks with
    | freed h => cases hf.symm.trans h
    | step _ _ => exact ⟨_, rfl⟩
  have hlives : ∀ id ∈ s.frame :: ids, g.arena.isLive id = true := fun id hid =>
    (hall id hid).1.isLive
  have hlength := length_le_occupied hnodup hlives
  have hsize : g.arena.occupied ≤ g.arena.slots.size := List.countP_le_length
  rw [List.length_cons] at hlength
  obtain ⟨entries, hstack, hentries⟩ := stack_of_walks hopen hwalks (by omega)
  have hsame : entries.length = ids.length := by simpa using congrArg List.length hentries
  exact ⟨ids, stop, entries, hwalks, hstack, hentries, nodup_index hnodup hlives, by omega,
    fun id hid => (hall id hid).1, hstop⟩

/-- A module that calls `f`, which calls `g`. The module ends, and a frame that `g` calls takes its
slot. -/
def reusing : List Call :=
  [.alloc (.new (blank Code.moduleName) none .empty),
    .alloc (.new (blank "f") (some ⟨0, 0⟩) .empty),
    .alloc (.new (blank "g") (some ⟨1, 0⟩) .empty), .pin ⟨2, 0⟩, .release ⟨0, 0⟩,
    .alloc (.new (blank "h") (some ⟨2, 0⟩) .empty)]

theorem parentsFirst_reusing : ParentsFirst ((Arena.new .empty).births reusing) := by
  intro n id f p hn hp
  rcases n with _ | _ | _ | _ | n <;> cases hn <;> cases hp
  · exact ⟨0, by decide, _, rfl⟩
  · exact ⟨1, by decide, _, rfl⟩
  · exact ⟨2, by decide, _, rfl⟩

theorem stack_follows_parents_reusing :
    let g : Gallery := ⟨(Arena.new .empty).after reusing, #[⟨⟨2, 0⟩, 1, false⟩]⟩
    let s : Snapshot := ⟨0, ⟨2, 0⟩, blank "g", 0, 1⟩
    g.arena.isTaken 0 = true ∧
    g.stack s = .ok [⟨"g", "<blank>", 1⟩, ⟨"f", "<blank>", 1⟩] ∧
    ∃ ids stop, Walks g.arena (some s.frame) (s.frame :: ids) stop ∧
      ((s.frame :: ids).map FrameId.index).Nodup ∧
      ∀ id ∈ s.frame :: ids, g.arena.IsNamed ((Arena.new .empty).births reusing) id := by
  intro g s
  have hfresh : Fresh .empty reusing := fun i =>
    Nat.lt_of_le_of_lt (frees_le_length i _ reusing) (by decide)
  obtain ⟨ids, stop, _, hwalks, -, -, hnodup, -, hnamed, -⟩ :=
    stack_follows_parents .empty hfresh parentsFirst_reusing (g := g) (s := s) rfl rfl rfl
  exact ⟨rfl, rfl, ids, stop, hwalks, hnodup, hnamed⟩

end Stepwise.Gallery
