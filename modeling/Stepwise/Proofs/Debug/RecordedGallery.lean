import Stepwise.Debug.Snapshot
import Stepwise.Proofs.Machine.Outline

/-! The pins of snapshots. A recorded gallery notes what was done to it: which frames were put into
which slots, which of them still run, and of each snapshot how many handles there are and whether it
was released through one of them. The record follows the calls alone; that the gallery agrees with
it is what is proved: every open snapshot accounts for one pin of its frame, and nothing else
does. -/

namespace Stepwise

/-- A snapshot as the calls on it tell: the number of its frame in the order of their allocation,
its handles, and whether it was released through one of them. -/
structure SnapshotRecord where
  snapshot : Snapshot
  number : Nat
  handles : Nat
  closed : Bool

/-- A call through a handle of a snapshot. -/
inductive Touch where
  | clone
  | release
  | drop

namespace SnapshotRecord

/-- Not released, and not dropped for good. -/
def isOpen (e : SnapshotRecord) : Bool :=
  !e.closed && decide (0 < e.handles)

def touch (e : SnapshotRecord) : Touch → SnapshotRecord
  | .clone => { e with handles := e.handles + 1 }
  | .release => { e with closed := true }
  | .drop => { e with handles := e.handles - 1 }

def pins (e : SnapshotRecord) (id : FrameId) : Bool :=
  e.isOpen && decide (e.snapshot.frame = id)

def pinning (e : SnapshotRecord) : Pinning :=
  ⟨e.snapshot.frame, e.handles, !e.isOpen⟩

end SnapshotRecord

def Gallery.touch (g : Gallery) (s : Snapshot) : Touch → Gallery
  | .clone => g.clone s
  | .release => g.release s
  | .drop => g.drop s

/-- A gallery with the frames as they were allocated, the number of the frame that was put last into
each slot, and the frames that were not yet released. -/
structure RecordedGallery where
  gallery : Gallery
  frames : Array Frame
  tenant : Nat → Nat
  running : List FrameId
  snapshots : List SnapshotRecord

namespace RecordedGallery

/-- A call on frames, or on the snapshot with a key while there is a handle to call it through. -/
inductive Call where
  | alloc (frame : Frame)
  | release (id : FrameId)
  | store (id : FrameId) (name : String) (v : Value)
  | setPosition (id : FrameId) (lasti line : Nat)
  | capture (id : FrameId) (chunk : Chunk) (lasti line : Nat)
  | touch (key : Nat) (t : Touch)

def new (builtins : Scope) : RecordedGallery :=
  ⟨.new (.new builtins), #[], fun _ => 0, [], []⟩

def arena (b : RecordedGallery) : Arena :=
  b.gallery.arena

def withArena (b : RecordedGallery) (a : Arena) : RecordedGallery :=
  { b with gallery := { b.gallery with arena := a } }

def update (b : RecordedGallery) (g : Gallery) (snapshots : List SnapshotRecord) : RecordedGallery :=
  { b with gallery := g, snapshots }

def act (b : RecordedGallery) : Call → RecordedGallery
  | .alloc frame =>
    let (id, a) := b.arena.alloc frame
    { b.withArena a with
      frames := b.frames.push frame
      tenant := fun i => if i = id.index then b.frames.size else b.tenant i
      running := id :: b.running }
  | .release id =>
    { b.withArena (b.arena.release id) with running := b.running.filter (· ≠ id) }
  | .store id name v => b.withArena (b.arena.store id name v)
  | .setPosition id lasti line => b.withArena (b.arena.setPosition id lasti line)
  | .capture id chunk lasti line =>
    match b.gallery.capture id chunk lasti line with
    | .ok (s, g) => b.update g (b.snapshots ++ [⟨s, b.tenant id.index, 1, false⟩])
    | .error _ => b
  | .touch key t =>
    match b.snapshots[key]? with
    | some e =>
      if 0 < e.handles then
        b.update (b.gallery.touch e.snapshot t) (b.snapshots.set key (e.touch t))
      else b
    | none => b

def after (b : RecordedGallery) : List Call → RecordedGallery
  | [] => b
  | d :: ds => (b.act d).after ds

/-- The number of open snapshots of a frame. -/
def openOn (b : RecordedGallery) (id : FrameId) : Nat :=
  b.snapshots.countP fun e => e.pins id

/-- The frame behind a handle is the one that was put there last, it has a pin for each open
snapshot, and it is there for these alone once it was released. -/
structure Accounts (b : RecordedGallery) (id : FrameId) (o : Outline) : Prop where
  pins : o.pins = b.openOn id
  released : id ∉ b.running → o.retired = true ∧ 0 < o.pins
  tenant : ∃ f, b.frames[b.tenant id.index]? = some f ∧ f.chunk = o.chunk ∧ f.parent = o.parent

structure Counted (b : RecordedGallery) : Prop where
  accounts : ∀ id o, b.arena.outline? id = some o → b.Accounts id o
  shows : ∀ e ∈ b.snapshots, e.isOpen = true → b.arena.isLive e.snapshot.frame = true ∧
    b.tenant e.snapshot.frame.index = e.number

structure Agrees (b : RecordedGallery) : Prop extends Counted b where
  sound : b.arena.Sound
  size : b.gallery.pinnings.size = b.snapshots.length
  pinnings : ∀ k (e : SnapshotRecord), b.snapshots[k]? = some e →
    e.snapshot.key = k ∧ b.gallery.pinnings[k]? = some e.pinning

end RecordedGallery

namespace SnapshotRecord

theorem isOpen_eq {e : SnapshotRecord} (h : 0 < e.handles) : e.isOpen = !e.closed := by
  simp [isOpen, h]

theorem isOpen_of_touch {e : SnapshotRecord} (h : 0 < e.handles) {t : Touch}
    (ht : (e.touch t).isOpen = true) : e.isOpen = true := by
  rw [isOpen_eq h]
  cases t <;> simp_all [touch, isOpen]

end SnapshotRecord

namespace Gallery

variable {g : Gallery} {s : Snapshot} {p : Pinning}

theorem release_eq (h : g.pinnings[s.key]? = some p) :
    g.release s = ⟨if p.released then g.arena else g.arena.unpin s.frame,
      g.pinnings.modify s.key fun p => { p with released := true }⟩ := by
  have hr : g.isReleased s = p.released := by
    rw [isReleased, h]
    rfl
  rw [release, hr]
  cases hp : p.released with
  | false => rfl
  | true =>
    obtain ⟨arena, pinnings⟩ := g
    simp only [if_true, Gallery.mk.injEq, true_and]
    refine Array.ext_getElem? fun k => ?_
    rw [Array.getElem?_modify]
    split
    · next hk =>
      rw [← hk, h, Option.map_some, ← hp]
    · rfl

theorem drop_eq (h : g.pinnings[s.key]? = some p) :
    g.drop s =
      if p.handles ≤ 1 then
        ⟨if p.released then g.arena else g.arena.unpin s.frame,
          g.pinnings.modify s.key fun p => { p with handles := p.handles - 1, released := true }⟩
      else ⟨g.arena, g.pinnings.modify s.key fun p => { p with handles := p.handles - 1 }⟩ := by
  have hdown : (g.pinnings.modify s.key fun p => { p with handles := p.handles - 1 })[s.key]? =
      some { p with handles := p.handles - 1 } := by
    rw [Array.getElem?_modify, if_pos rfl, h, Option.map_some]
  simp only [drop, hdown, Option.any_some, decide_eq_true_eq, Nat.sub_eq_zero_iff_le]
  split
  · rw [release_eq hdown]
    simp only [Gallery.mk.injEq, true_and]
    refine Array.ext_getElem? fun k => ?_
    simp only [Array.getElem?_modify]
    split
    · rw [Option.map_map]
      rfl
    · rfl
  · rfl

/-- What a call does to the snapshot: its handles share what the record says, and its pin goes
when the call closes it. -/
structure Touched (g : Gallery) (e e' : SnapshotRecord) (g' : Gallery) : Prop where
  arena : g'.arena = if e.isOpen && !e'.isOpen then g.arena.unpin e.snapshot.frame else g.arena
  size : g'.pinnings.size = g.pinnings.size
  pinnings : ∀ k, g'.pinnings[k]? =
    if e.snapshot.key = k then some e'.pinning else g.pinnings[k]?

theorem touched_touch {e : SnapshotRecord} (h : g.pinnings[e.snapshot.key]? = some e.pinning)
    (hh : 0 < e.handles) (t : Touch) : Touched g e (e.touch t) (g.touch e.snapshot t) := by
  have hmodify : ∀ f : Pinning → Pinning, ∀ e' : SnapshotRecord, f e.pinning = e'.pinning → ∀ k,
      (g.pinnings.modify e.snapshot.key f)[k]? =
        if e.snapshot.key = k then some e'.pinning else g.pinnings[k]? := by
    intro f e' hf k
    rw [Array.getElem?_modify]
    split
    · next hk => rw [← hk, h, Option.map_some, hf]
    · rfl
  cases t with
  | clone =>
    have ho : (e.touch .clone).isOpen = e.isOpen := by
      simp [SnapshotRecord.touch, SnapshotRecord.isOpen, hh]
    refine ⟨by simp [ho, Gallery.touch, clone], by simp [Gallery.touch, clone], hmodify _ _ ?_⟩
    simp only [SnapshotRecord.pinning, ho]
    rfl
  | release =>
    have ho : (e.touch .release).isOpen = false := by
      simp [SnapshotRecord.touch, SnapshotRecord.isOpen]
    rw [Gallery.touch, release_eq h]
    refine ⟨?_, Array.size_modify, hmodify _ _ ?_⟩
    · cases hp : e.isOpen <;> simp [SnapshotRecord.pinning, ho, hp]
    · simp only [SnapshotRecord.pinning, ho]
      rfl
  | drop =>
    rw [Gallery.touch, drop_eq h]
    split
    · next hlast =>
      have ho : (e.touch .drop).isOpen = false := by
        have hgone : e.handles - 1 = 0 := Nat.sub_eq_zero_of_le hlast
        simp only [SnapshotRecord.touch, SnapshotRecord.isOpen, hgone, Nat.lt_irrefl, decide_false,
          Bool.and_false]
      refine ⟨?_, Array.size_modify, hmodify _ _ ?_⟩
      · cases hp : e.isOpen <;> simp [SnapshotRecord.pinning, ho, hp]
      · simp only [SnapshotRecord.pinning, ho]
        rfl
    · next hmore =>
      have ho : (e.touch .drop).isOpen = e.isOpen := by
        have hleft : 0 < e.handles - 1 := Nat.sub_pos_of_lt (Nat.lt_of_not_le hmore)
        simp only [SnapshotRecord.touch, SnapshotRecord.isOpen, hh, hleft]
      refine ⟨by simp [ho], Array.size_modify, hmodify _ _ ?_⟩
      simp only [SnapshotRecord.pinning, ho]
      rfl

end Gallery

namespace RecordedGallery

variable {b : RecordedGallery}

theorem openOn_append (g : Gallery) (e : SnapshotRecord) (id : FrameId) :
    (b.update g (b.snapshots ++ [e])).openOn id = b.openOn id + if e.pins id then 1 else 0 := by
  rw [openOn, update, List.countP_append, List.countP_singleton]
  rfl

theorem openOn_set {k : Nat} {e : SnapshotRecord} (he : b.snapshots[k]? = some e) (g : Gallery)
    (e' : SnapshotRecord) (id : FrameId) :
    (b.update g (b.snapshots.set k e')).openOn id + (if e.pins id then 1 else 0) =
      b.openOn id + if e'.pins id then 1 else 0 := by
  obtain ⟨hk, hget⟩ := List.getElem?_eq_some_iff.1 he
  have hmem : e.pins id = true → 0 < b.openOn id := fun hp =>
    List.countP_pos_iff.2 ⟨e, List.mem_of_getElem? he, hp⟩
  have hset := List.countP_set (p := fun e => e.pins id) (a := e') hk
  rw [hget] at hset
  change (b.snapshots.set k e').countP (fun e => e.pins id) + _ = _
  rw [hset]
  change b.openOn id - _ + _ + _ = _
  split
  · next hp =>
    have := hmem hp
    omega
  · omega

theorem agrees_new (builtins : Scope) : (new builtins).Agrees where
  sound := Arena.sound_new builtins
  accounts id o h := by simp [new, arena, Gallery.new, Arena.new, Arena.outline?, Arena.slot?] at h
  shows e he := by cases he
  size := rfl
  pinnings k e he := by simp [new] at he

namespace Agrees

theorem pinned (h : b.Agrees) {e : SnapshotRecord} (he : e ∈ b.snapshots) (ho : e.isOpen = true) :
    ∃ o, b.arena.outline? e.snapshot.frame = some o ∧ 0 < o.pins := by
  obtain ⟨o, hout⟩ := Arena.isLive_iff_outline?.1 (h.shows e he ho).1
  refine ⟨o, hout, ?_⟩
  rw [(h.accounts _ o hout).pins, openOn, List.countP_pos_iff]
  exact ⟨e, he, by simp [SnapshotRecord.pins, ho]⟩

theorem openOn_eq_zero (h : b.Agrees) {id : FrameId} (hid : b.arena.outline? id = none) :
    b.openOn id = 0 := by
  rw [openOn, List.countP_eq_zero]
  intro e he hp
  simp only [SnapshotRecord.pins, Bool.and_eq_true, decide_eq_true_eq] at hp
  obtain ⟨o, ho, -⟩ := h.pinned he hp.1
  rw [hp.2, hid] at ho
  cases ho

theorem alloc (h : b.Agrees) (frame : Frame) : (b.act (.alloc frame)).Agrees := by
  have hnew := Arena.outline?_alloc h.sound frame
  have hdead := Arena.outline?_alloc_eq_none h.sound frame
  have hindex : ∀ j o, b.arena.outline? j = some o →
      j ≠ (b.arena.alloc frame).1 ∧ j.index ≠ (b.arena.alloc frame).1.index := by
    intro j o ho
    have hne : j ≠ (b.arena.alloc frame).1 := by
      rintro rfl
      rw [hdead] at ho
      cases ho
    refine ⟨hne, fun hi => hne (Arena.eq_of_index_eq (a := (b.arena.alloc frame).2) ?_ ?_ hi)⟩
    · exact Arena.isLive_iff_outline?.2 ⟨_, (hnew _).trans (if_pos rfl)⟩
    · exact Arena.isLive_iff_outline?.2 ⟨o, ((hnew j).trans (if_neg hne)).trans ho⟩
  refine ⟨⟨fun j o ho => ?_, fun e he ho => ?_⟩, Arena.sound_alloc h.sound frame, h.size,
    h.pinnings⟩
  · change (b.arena.alloc frame).2.outline? j = some o at ho
    rw [hnew] at ho
    split at ho
    · next hj =>
      cases ho
      exact ⟨(h.openOn_eq_zero (hj ▸ hdead)).symm, fun hr => absurd (hj ▸ List.mem_cons_self) hr,
        frame, by simp [act, hj], rfl, rfl⟩
    · next hj =>
      obtain ⟨hpins, hreleased, f, hf, hsame⟩ := h.accounts j o ho
      refine ⟨hpins, fun hr => hreleased fun hm => hr (List.mem_cons_of_mem _ hm), f, ?_, hsame⟩
      have hlt := (Array.getElem?_eq_some_iff.1 hf).1
      simp only [act, (hindex j o ho).2, if_false]
      rw [Array.getElem?_push, if_neg (Nat.ne_of_lt hlt), hf]
  · obtain ⟨o, hout, -⟩ := h.pinned he ho
    have hother := hindex _ o hout
    refine ⟨Arena.isLive_iff_outline?.2 ⟨o, ((hnew _).trans (if_neg hother.1)).trans hout⟩, ?_⟩
    simp only [act, hother.2, if_false]
    exact (h.shows e he ho).2

theorem release (h : b.Agrees) (id : FrameId) : (b.act (.release id)).Agrees := by
  have hnew := Arena.outline?_release b.arena id
  refine ⟨⟨fun j o ho => ?_, fun e he ho => ?_⟩, Arena.sound_release h.sound id, h.size, h.pinnings⟩
  · change (b.arena.release id).outline? j = some o at ho
    rw [hnew] at ho
    split at ho
    · next hj =>
      obtain ⟨old, hold, ho⟩ := Option.bind_eq_some_iff.1 ho
      obtain ⟨hpins, -, htenant⟩ := h.accounts j old (hj ▸ hold)
      unfold Outline.released at ho
      split at ho <;> cases ho
      next hpos => exact ⟨hpins, fun _ => ⟨rfl, hpos⟩, htenant⟩
    · next hj =>
      obtain ⟨hpins, hreleased, htenant⟩ := h.accounts j o ho
      refine ⟨hpins, fun hr => hreleased fun hm => hr ?_, htenant⟩
      exact List.mem_filter.2 ⟨hm, by simpa using hj⟩
  · obtain ⟨o, hout, hpos⟩ := h.pinned he ho
    refine ⟨Arena.isLive_iff_outline?.2 ?_, (h.shows e he ho).2⟩
    change ∃ o, (b.arena.release id).outline? e.snapshot.frame = some o
    rw [hnew]
    split
    · next hj => exact ⟨_, by rw [← hj, hout, Option.bind_some, Outline.released, if_pos hpos]⟩
    · exact ⟨o, hout⟩

theorem withArena (h : b.Agrees) {a : Arena} (ha : a.Sound)
    (hsame : ∀ j, a.outline? j = b.arena.outline? j) : (b.withArena a).Agrees := by
  refine ⟨⟨fun j o ho => ?_, fun e he ho => ?_⟩, ha, h.size, h.pinnings⟩
  · obtain ⟨hpins, hreleased, htenant⟩ := h.accounts j o ((hsame j).symm.trans ho)
    exact ⟨hpins, hreleased, htenant⟩
  · obtain ⟨o, hout⟩ := Arena.isLive_iff_outline?.1 (h.shows e he ho).1
    exact ⟨Arena.isLive_iff_outline?.2 ⟨o, (hsame _).trans hout⟩, (h.shows e he ho).2⟩

theorem capture (h : b.Agrees) (id : FrameId) (chunk : Chunk) (lasti line : Nat) :
    (b.act (.capture id chunk lasti line)).Agrees := by
  simp only [RecordedGallery.act, Gallery.capture]
  cases hpin : b.gallery.arena.pin id with
  | none => exact h
  | some a =>
    have hnew := Arena.outline?_pin hpin
    have hlive : ∀ j, b.arena.isLive j = true → a.isLive j = true := by
      intro j hj
      obtain ⟨o, ho⟩ := Arena.isLive_iff_outline?.1 hj
      change b.gallery.arena.outline? j = some o at ho
      rw [Arena.isLive_iff_outline?, hnew]
      split
      · next he => exact ⟨_, by rw [← he, ho, Option.map_some]⟩
      · exact ⟨o, ho⟩
    let e : SnapshotRecord :=
      ⟨⟨b.gallery.pinnings.size, id, chunk, lasti, line⟩, b.tenant id.index, 1, false⟩
    have hpins : ∀ j, e.pins j = decide (j = id) := by
      intro j
      simp [e, SnapshotRecord.pins, SnapshotRecord.isOpen, eq_comm]
    refine ⟨⟨fun j o ho => ?_, fun x hx ho => ?_⟩, Arena.sound_pin h.sound hpin, ?_,
      fun k x hx => ?_⟩
    · change a.outline? j = some o at ho
      rw [hnew] at ho
      split at ho
      · next hj =>
        obtain ⟨old, hold, rfl⟩ := Option.map_eq_some_iff.1 ho
        have haccounts := h.accounts j old (hj ▸ hold)
        refine ⟨?_, fun hr => ⟨(haccounts.released hr).1, Nat.succ_pos _⟩, haccounts.tenant⟩
        rw [openOn_append, hpins, ← haccounts.pins, if_pos (by simpa using hj)]
      · next hj =>
        have haccounts := h.accounts j o ho
        refine ⟨?_, haccounts.released, haccounts.tenant⟩
        rw [openOn_append, hpins, ← haccounts.pins, if_neg (by simpa using hj), Nat.add_zero]
    · rcases List.mem_append.1 hx with hx | hx
      · exact ⟨hlive _ (h.shows x hx ho).1, (h.shows x hx ho).2⟩
      · cases List.mem_singleton.1 hx
        exact ⟨hlive _ (Arena.isLive_of_pin hpin), rfl⟩
    · simp [update, h.size]
    · change (b.snapshots ++ [e])[k]? = some x at hx
      change x.snapshot.key = k ∧
        (b.gallery.pinnings.push ⟨id, 1, false⟩)[k]? = some x.pinning
      rw [Array.getElem?_push, h.size]
      by_cases hk : k = b.snapshots.length
      · rw [hk, List.getElem?_concat_length] at hx
        cases hx
        exact ⟨h.size.trans hk.symm, if_pos hk⟩
      · rw [if_neg hk]
        refine h.pinnings k x ?_
        rcases List.getElem?_eq_some_iff.1 hx with ⟨hlt, -⟩
        rw [List.length_append, List.length_singleton] at hlt
        rwa [List.getElem?_append_left (by omega)] at hx

theorem closed (h : b.Agrees) {k : Nat} {e e' : SnapshotRecord} {g : Gallery}
    (he : b.snapshots[k]? = some e) (ho : e.isOpen = true) (ho' : e'.isOpen = false)
    (hg : g.arena = b.arena.unpin e.snapshot.frame) :
    (b.update g (b.snapshots.set k e')).Counted := by
  have hnew : ∀ j, (b.update g (b.snapshots.set k e')).arena.outline? j = _ := fun j =>
    (congrArg (·.outline? j) hg).trans (Arena.outline?_unpin b.arena e.snapshot.frame j)
  have hcount : ∀ j, (b.update g (b.snapshots.set k e')).openOn j +
      (if e.snapshot.frame = j then 1 else 0) = b.openOn j := by
    intro j
    simpa [SnapshotRecord.pins, ho, ho'] using openOn_set he g e' j
  refine ⟨fun j o hout => ?_, fun x hx hxo => ?_⟩
  · rw [hnew] at hout
    split at hout
    · next hj =>
      subst hj
      obtain ⟨old, hold, hout⟩ := Option.bind_eq_some_iff.1 hout
      have haccounts := h.accounts _ old hold
      have hone := hcount e.snapshot.frame
      rw [if_pos rfl, ← haccounts.pins] at hone
      unfold Outline.unpinned at hout
      split at hout <;> cases hout
      next hmore =>
      refine ⟨by rw [← hone, Nat.add_sub_cancel], fun hr => ?_, haccounts.tenant⟩
      have hretired := (haccounts.released hr).1
      refine ⟨hretired, ?_⟩
      simp only [hretired, Bool.and_true, decide_eq_true_eq] at hmore
      exact Nat.sub_pos_of_lt (Nat.lt_of_not_le hmore)
    · next hj =>
      have haccounts := h.accounts j o hout
      refine ⟨?_, haccounts.released, haccounts.tenant⟩
      rw [haccounts.pins, ← hcount j, if_neg (Ne.symm hj), Nat.add_zero]
  · have hold : x ∈ b.snapshots := by
      rcases List.mem_or_eq_of_mem_set hx with hx | rfl
      · exact hx
      · rw [ho'] at hxo
        cases hxo
    obtain ⟨o, hout, -⟩ := h.pinned hold hxo
    refine ⟨Arena.isLive_iff_outline?.2 ?_, (h.shows x hold hxo).2⟩
    rw [hnew]
    split
    · next hj =>
      have hone := hcount x.snapshot.frame
      rw [if_pos hj.symm, ← (h.accounts _ o hout).pins] at hone
      have hpos : 0 < (b.update g (b.snapshots.set k e')).openOn x.snapshot.frame :=
        List.countP_pos_iff.2 ⟨x, hx, by simp [SnapshotRecord.pins, hxo]⟩
      refine ⟨{ o with pins := o.pins - 1 }, ?_⟩
      rw [← hj, hout, Option.bind_some, Outline.unpinned, if_neg]
      simp only [Bool.and_eq_true, decide_eq_true_eq]
      omega
    · exact ⟨o, hout⟩

theorem kept (h : b.Agrees) {k : Nat} {e e' : SnapshotRecord} {g : Gallery}
    (he : b.snapshots[k]? = some e) (hsnapshot : e'.snapshot = e.snapshot)
    (hnumber : e'.number = e.number) (ho : e'.isOpen = e.isOpen) (hg : g.arena = b.arena) :
    (b.update g (b.snapshots.set k e')).Counted := by
  have harena : (b.update g (b.snapshots.set k e')).arena = b.arena := hg
  refine ⟨fun j o hout => ?_, fun x hx hxo => ?_⟩
  · have haccounts := h.accounts j o (harena ▸ hout)
    refine ⟨?_, haccounts.released, haccounts.tenant⟩
    have hcount := openOn_set he g e' j
    rw [SnapshotRecord.pins, SnapshotRecord.pins, ho, hsnapshot] at hcount
    rw [Nat.add_right_cancel hcount, haccounts.pins]
  · rw [harena]
    rcases List.mem_or_eq_of_mem_set hx with hx | rfl
    · exact h.shows x hx hxo
    · rw [hsnapshot, hnumber]
      exact h.shows e (List.mem_of_getElem? he) (ho ▸ hxo)

theorem update (h : b.Agrees) {k : Nat} {e e' : SnapshotRecord} {g : Gallery}
    (he : b.snapshots[k]? = some e) (hsnapshot : e'.snapshot = e.snapshot)
    (hnumber : e'.number = e.number) (hopen : e'.isOpen = true → e.isOpen = true)
    (hg : Gallery.Touched b.gallery e e' g) : (b.update g (b.snapshots.set k e')).Agrees := by
  obtain ⟨hkey, -⟩ := h.pinnings k e he
  have hsound : g.arena.Sound := by
    rw [hg.arena]
    split
    · exact Arena.sound_unpin h.sound _
    · exact h.sound
  have hcounted : (b.update g (b.snapshots.set k e')).Counted := by
    have harena := hg.arena
    split at harena
    · next hc =>
      simp only [Bool.and_eq_true, Bool.not_eq_true'] at hc
      exact h.closed he hc.1 hc.2 harena
    · next hc =>
      refine h.kept he hsnapshot hnumber ?_ harena
      cases ho : e.isOpen <;> cases ho' : e'.isOpen <;> simp_all
  refine ⟨hcounted, hsound, ?_, fun i x hx => ?_⟩
  · change g.pinnings.size = (b.snapshots.set k e').length
    rw [hg.size, h.size, List.length_set]
  · change (b.snapshots.set k e')[i]? = some x at hx
    change x.snapshot.key = i ∧ g.pinnings[i]? = some x.pinning
    rw [hg.pinnings, hkey]
    rw [List.getElem?_set] at hx
    split at hx
    · next hi =>
      split at hx <;> cases hx
      exact ⟨by rw [hsnapshot, hkey, hi], if_pos hi⟩
    · next hi =>
      rw [if_neg hi]
      exact h.pinnings i x hx

theorem touch (h : b.Agrees) (key : Nat) (t : Touch) : (b.act (.touch key t)).Agrees := by
  simp only [RecordedGallery.act]
  cases he : b.snapshots[key]? with
  | none => exact h
  | some e =>
    simp only
    split
    · next hh =>
      obtain ⟨rfl, hpinning⟩ := h.pinnings key e he
      exact h.update he (by cases t <;> rfl) (by cases t <;> rfl)
        (SnapshotRecord.isOpen_of_touch hh) (Gallery.touched_touch hpinning hh t)
    · exact h

theorem act (h : b.Agrees) (d : Call) : (b.act d).Agrees := by
  cases d with
  | alloc frame => exact h.alloc frame
  | release id => exact h.release id
  | store id name v =>
    exact h.withArena (Arena.sound_store h.sound id name v) (Arena.outline?_store _ id name v)
  | setPosition id lasti line =>
    exact h.withArena (Arena.sound_modifyFrame h.sound id _)
      (Arena.outline?_setPosition _ id lasti line)
  | capture id chunk lasti line => exact h.capture id chunk lasti line
  | touch key t => exact h.touch key t

theorem after (h : b.Agrees) (ds : List Call) : (b.after ds).Agrees := by
  induction ds generalizing b with
  | nil => exact h
  | cons d ds ih => exact ih (h.act d)

end Agrees

theorem snapshots_touch {k : Nat} {e : SnapshotRecord} (he : b.snapshots[k]? = some e)
    (hh : 0 < e.handles) (t : Touch) :
    (b.act (.touch k t)).snapshots[k]? = some (e.touch t) := by
  simp only [act, he, if_pos hh, update]
  rw [List.getElem?_set, if_pos rfl, if_pos (List.getElem?_eq_some_iff.1 he).1]

theorem snapshots_act {k : Nat} {e : SnapshotRecord} (he : b.snapshots[k]? = some e) (d : Call) :
    ∃ e', (b.act d).snapshots[k]? = some e' ∧ e'.snapshot = e.snapshot ∧ e'.number = e.number ∧
      (e'.isOpen = true → e.isOpen = true) := by
  cases d with
  | capture id chunk lasti line =>
    simp only [act]
    split
    · have hlt := (List.getElem?_eq_some_iff.1 he).1
      exact ⟨e, (List.getElem?_append_left hlt).trans he, rfl, rfl, fun ho => ho⟩
    · exact ⟨e, he, rfl, rfl, fun ho => ho⟩
  | touch key t =>
    by_cases hkey : key = k
    · subst hkey
      by_cases hh : 0 < e.handles
      · exact ⟨e.touch t, snapshots_touch he hh t, by cases t <;> rfl, by cases t <;> rfl,
          SnapshotRecord.isOpen_of_touch hh⟩
      · exact ⟨e, by simp only [act, he, if_neg hh], rfl, rfl, fun ho => ho⟩
    · simp only [act]
      split
      · split
        · exact ⟨e, by rw [update, List.getElem?_set, if_neg hkey, he], rfl, rfl, fun ho => ho⟩
        · exact ⟨e, he, rfl, rfl, fun ho => ho⟩
      · exact ⟨e, he, rfl, rfl, fun ho => ho⟩
  | _ => exact ⟨e, he, rfl, rfl, fun ho => ho⟩

theorem snapshots_after {k : Nat} {e : SnapshotRecord} (he : b.snapshots[k]? = some e)
    (ds : List Call) :
    ∃ e', (b.after ds).snapshots[k]? = some e' ∧ e'.snapshot = e.snapshot ∧ e'.number = e.number ∧
      (e'.isOpen = true → e.isOpen = true) := by
  induction ds generalizing b e with
  | nil => exact ⟨e, he, rfl, rfl, fun ho => ho⟩
  | cons d ds ih =>
    obtain ⟨e₁, he₁, hs₁, hn₁, ho₁⟩ := snapshots_act he d
    obtain ⟨e₂, he₂, hs₂, hn₂, ho₂⟩ := ih he₁
    exact ⟨e₂, he₂, hs₂.trans hs₁, hn₂.trans hn₁, fun ho => ho₁ (ho₂ ho)⟩

def isOpen (b : RecordedGallery) (k : Nat) : Bool :=
  b.snapshots[k]?.any SnapshotRecord.isOpen

/-- Calls on one snapshot drop its pin once if they close it, and otherwise change no frame. -/
theorem Agrees.arena_touches (h : b.Agrees) {k : Nat} {e : SnapshotRecord}
    (he : b.snapshots[k]? = some e) (ts : List Touch) :
    (b.after (ts.map (.touch k))).arena =
      if e.isOpen && !(b.after (ts.map (.touch k))).isOpen k then
        b.arena.unpin e.snapshot.frame
      else b.arena := by
  induction ts generalizing b e with
  | nil => simp [RecordedGallery.after, isOpen, he]
  | cons t ts ih =>
    rw [List.map_cons, RecordedGallery.after]
    by_cases hh : 0 < e.handles
    · have he₁ := snapshots_touch he hh t
      obtain ⟨e₂, he₂, -, -, ho₂⟩ := snapshots_after he₁ (ts.map (.touch k))
      obtain ⟨hkey, hpinning⟩ := h.pinnings k e he
      have harena : (b.act (.touch k t)).arena =
          if e.isOpen && !(e.touch t).isOpen then b.arena.unpin e.snapshot.frame else b.arena := by
        simp only [RecordedGallery.act, he, if_pos hh]
        exact (Gallery.touched_touch (hkey ▸ hpinning) hh t).arena
      have hsnapshot : (e.touch t).snapshot = e.snapshot := by cases t <;> rfl
      rw [ih (h.touch k t) he₁, harena, hsnapshot, isOpen, he₂, Option.any_some]
      cases ho₁ : (e.touch t).isOpen with
      | false =>
        have hclosed : e₂.isOpen = false := by simpa [ho₁] using ho₂
        simp [hclosed]
      | true => simp [SnapshotRecord.isOpen_of_touch hh ho₁]
    · have hsame : b.act (.touch k t) = b := by simp only [RecordedGallery.act, he, if_neg hh]
      rw [hsame]
      exact ih h he

/-- What the queries of an open snapshot give: the frame behind its handle is the one that it
was captured from, and it is read as it is now. -/
structure Reads (b : RecordedGallery) (e : SnapshotRecord) (f : Frame) : Prop where
  frame : b.arena.frame? e.snapshot.frame = some f
  tenant : b.tenant e.snapshot.frame.index = e.number
  origin : ∃ f₀, b.frames[e.number]? = some f₀ ∧ f.chunk = f₀.chunk ∧ f.parent = f₀.parent
  lookup : ∀ name, b.gallery.lookup e.snapshot name =
    .ok ((((if f.chunk.isModule then b.arena.globals else f.locals).get? name).or
      (b.arena.globals.get? name)).or (b.arena.builtins.get? name))
  locals : b.gallery.locals e.snapshot =
    .ok (if f.chunk.isModule then b.arena.globals else f.locals)
  globals : b.gallery.globals e.snapshot = .ok b.arena.globals
  stack : b.gallery.stack e.snapshot =
    .ok (⟨e.snapshot.chunk.name, e.snapshot.chunk.file, e.snapshot.line⟩ ::
      Gallery.ancestors b.arena b.arena.slots.size f.parent)

theorem Agrees.reads (h : b.Agrees) {e : SnapshotRecord} (he : e ∈ b.snapshots)
    (ho : e.isOpen = true) :
    ∃ f, b.Reads e f := by
  obtain ⟨hlive, htenant⟩ := h.shows e he ho
  obtain ⟨o, hout⟩ := Arena.isLive_iff_outline?.1 hlive
  obtain ⟨f₀, hf₀, hchunk, hparent⟩ := (h.accounts _ o hout).tenant
  obtain ⟨s, f, hs, hf, rfl⟩ := Arena.outline?_eq_some_iff.1 hout
  have hframe : b.arena.frame? e.snapshot.frame = some f := (Arena.frame?_of_slot? hs).trans hf
  have hlocals : b.arena.locals? e.snapshot.frame =
      some (if f.chunk.isModule then b.arena.globals else f.locals) := by
    rw [Arena.locals?, hframe, Option.map_some]
  obtain ⟨k, hk⟩ := List.mem_iff_getElem?.1 he
  obtain ⟨rfl, hpinning⟩ := h.pinnings k e hk
  have hguarded : ∀ {α : Type} (read : Arena → α),
      b.gallery.guarded e.snapshot read = .ok (read b.arena) := by
    intro α read
    have hr : b.gallery.isReleased e.snapshot = false := by
      rw [Gallery.isReleased, hpinning]
      simp [SnapshotRecord.pinning, ho]
    rw [Gallery.guarded, hr]
    exact if_pos hlive
  refine ⟨f, hframe, htenant, ⟨f₀, htenant ▸ hf₀, hchunk.symm, hparent.symm⟩, fun name => ?_, ?_,
    hguarded _, ?_⟩
  · rw [Gallery.lookup, hguarded, Arena.lookup, hlocals, Option.bind_some]
  · rw [Gallery.locals, hguarded, hlocals, Option.getD_some]
  · rw [Gallery.stack, hguarded, hframe, Option.bind_some]

theorem Agrees.occupied_eq_zero (h : b.Agrees) (hr : b.running = [])
    (ho : ∀ e ∈ b.snapshots, e.isOpen = false) : b.arena.occupied = 0 := by
  refine Arena.occupied_eq_zero fun id => ?_
  rw [Option.eq_none_iff_forall_ne_some]
  intro o hout
  have haccounts := h.accounts id o hout
  have hpos := (haccounts.released (hr ▸ List.not_mem_nil)).2
  rw [haccounts.pins, openOn, List.countP_pos_iff] at hpos
  obtain ⟨e, he, hp⟩ := hpos
  simp [SnapshotRecord.pins, ho e he] at hp

/-- Whatever is done with frames and snapshots: a frame that is there has one pin for each open
snapshot of it. An open snapshot reads from the frame that it was captured from. All the calls
on one snapshot together drop its pin once, when it closes, and it stays closed. When every
frame is released and every snapshot closed, no slot holds a frame. -/
theorem pins_accounted (builtins : Scope) (ds : List Call) :
    let b := (new builtins).after ds
    (∀ id s, b.arena.slot? id = some s → s.pins = b.openOn id) ∧
      (∀ e ∈ b.snapshots, e.isOpen = true → ∃ f, b.Reads e f) ∧
      (∀ (k : Nat) (e : SnapshotRecord), b.snapshots[k]? = some e → ∀ ts : List Touch,
        (b.after (ts.map (.touch k))).arena =
          if e.isOpen && !(b.after (ts.map (.touch k))).isOpen k then
            b.arena.unpin e.snapshot.frame
          else b.arena) ∧
      (∀ e ∈ b.snapshots, e.isOpen = true → ∃ o, b.arena.outline? e.snapshot.frame = some o ∧
        0 < o.pins ∧ ∀ j, (b.arena.unpin e.snapshot.frame).outline? j =
          if j = e.snapshot.frame then
            if o.pins = 1 ∧ o.retired = true then none else some { o with pins := o.pins - 1 }
          else b.arena.outline? j) ∧
      (∀ (k : Nat) (e : SnapshotRecord), b.snapshots[k]? = some e → ∀ later, ∃ e' : SnapshotRecord,
        (b.after later).snapshots[k]? = some e' ∧ e'.snapshot = e.snapshot ∧
          (e'.isOpen = true → e.isOpen = true)) ∧
      (b.running = [] → (∀ e ∈ b.snapshots, e.isOpen = false) → b.arena.occupied = 0) := by
  intro b
  have h : b.Agrees := (agrees_new builtins).after ds
  refine ⟨fun id s hs => ?_, fun e he ho => h.reads he ho, fun k e he ts => h.arena_touches he ts,
    fun e he ho => ?_, fun k e he later => ?_, h.occupied_eq_zero⟩
  · obtain ⟨f, hf⟩ := Option.isSome_iff_exists.1 (Arena.slot?_eq_some_iff.1 hs).2.2
    exact (h.accounts id _ (Arena.outline?_eq_some_iff.2 ⟨s, f, hs, hf, rfl⟩)).pins
  · obtain ⟨o, hout, hpos⟩ := h.pinned he ho
    refine ⟨o, hout, hpos, fun j => ?_⟩
    have hone : o.pins ≤ 1 ↔ o.pins = 1 := by omega
    rw [Arena.outline?_unpin, hout, Option.bind_some, Outline.unpinned]
    simp only [Bool.and_eq_true, decide_eq_true_eq, hone]
  · obtain ⟨e', he', hs, -, ho⟩ := snapshots_after he later
    exact ⟨e', he', hs, ho⟩

end RecordedGallery

end Stepwise
