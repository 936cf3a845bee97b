import Stepwise.Proofs.Session.Protocol

/-! The snapshots of a session. Whatever the order in which the two sides move, a snapshot that
is not released is that of the pause in which the run waits, and a pause that the controller
has or will take names the frame that was pinned for it. So a release pins or unpins nothing
but the frame of that pause. -/

namespace Stepwise

namespace Gallery

variable {g : Gallery} {s t : Snapshot}

theorem release_of_isReleased (h : g.isReleased s = true) : g.release s = g :=
  if_pos h

theorem isReleased_release (g : Gallery) (s : Snapshot) : (g.release s).isReleased s = true := by
  unfold release
  split
  · assumption
  · simp only [isReleased, Array.getElem?_modify, if_true]
    cases g.pinnings[s.key]? <;> rfl

theorem release_release (g : Gallery) (s : Snapshot) : (g.release s).release s = g.release s :=
  release_of_isReleased (isReleased_release g s)

theorem release_congr (hk : s.key = t.key) (hf : s.frame = t.frame) :
    g.release s = g.release t := by
  unfold release isReleased
  rw [hk, hf]

def Shows (pinnings : Array Pinning) (s : Snapshot) : Prop :=
  ∃ pin, pinnings[s.key]? = some pin ∧ pin.frame = s.frame

theorem Shows.push {pinnings : Array Pinning} (h : Shows pinnings s) (pin : Pinning) :
    Shows (pinnings.push pin) s := by
  obtain ⟨old, hold, hframe⟩ := h
  have hlt : s.key < pinnings.size := (Array.getElem?_eq_some_iff.1 hold).1
  exact ⟨old, by rw [Array.getElem?_push, if_neg (Nat.ne_of_lt hlt), hold], hframe⟩

theorem Shows.release (h : Shows g.pinnings s) (t : Snapshot) :
    Shows (g.release t).pinnings s := by
  obtain ⟨pin, hpin, hframe⟩ := h
  unfold Gallery.release
  split
  · exact ⟨pin, hpin, hframe⟩
  · simp only [Shows, Array.getElem?_modify, hpin]
    split
    · exact ⟨_, rfl, hframe⟩
    · exact ⟨pin, rfl, hframe⟩

theorem unreleased_of_release {k : Nat} {pin : Pinning}
    (h : (g.release t).pinnings[k]? = some pin) (hpin : pin.released = false) :
    k ≠ t.key ∧ g.pinnings[k]? = some pin := by
  have hself := isReleased_release g t
  by_cases hk : k = t.key
  · subst hk
    rw [isReleased, h] at hself
    exact absurd hself (by simp [hpin])
  · refine ⟨hk, ?_⟩
    unfold Gallery.release at h
    split at h
    · exact h
    · rwa [Array.getElem?_modify, if_neg (Ne.symm hk)] at h

theorem Shows.frame_eq {pinnings : Array Pinning} (hs : Shows pinnings s) (ht : Shows pinnings t)
    (hk : s.key = t.key) : s.frame = t.frame := by
  obtain ⟨pin, hpin, hframe⟩ := hs
  obtain ⟨pin', hpin', hframe'⟩ := ht
  rw [hk, hpin'] at hpin
  cases hpin
  exact hframe.symm.trans hframe'

end Gallery

open Gallery (Shows)

/-- What a step of a run does to the snapshots: nothing, or it takes that of a new pause, or it
releases that of its pause. -/
inductive Worker.Pins : Option Pause → Array Pinning → Option Pause → Array Pinning → Prop
  | same (p : Option Pause) (pinnings : Array Pinning) : Pins p pinnings p pinnings
  | capture {p : Pause} {pinnings : Array Pinning} (hp : p.snapshot.key = pinnings.size) :
    Pins none pinnings (some p) (pinnings.push ⟨p.snapshot.frame, 1, false⟩)
  | release (p : Pause) (g : Gallery) :
    Pins (some p) g.pinnings none (g.release p.snapshot).pinnings

namespace Worker.Pins

variable {p p' : Option Pause} {pinnings pinnings' : Array Pinning}

theorem shows (h : Pins p pinnings p' pinnings') {s : Snapshot} (hs : Shows pinnings s) :
    Shows pinnings' s := by
  cases h with
  | same => exact hs
  | capture _ => exact hs.push _
  | release p g => exact hs.release p.snapshot

theorem held (h : Pins p pinnings p' pinnings')
    (hp : ∀ q, p = some q → Shows pinnings q.snapshot) (q : Pause) (hq : p' = some q) :
    Shows pinnings' q.snapshot := by
  cases h with
  | same => exact hp q hq
  | capture hkey =>
    cases hq
    exact ⟨_, by rw [hkey, Array.getElem?_push_size], rfl⟩
  | release p g => cases hq

theorem released (h : Pins p pinnings p' pinnings')
    (hp : ∀ k pin, pinnings[k]? = some pin → pin.released = false →
      ∃ q, p = some q ∧ q.snapshot.key = k) (k : Nat) (pin : Pinning)
    (hk : pinnings'[k]? = some pin) (hpin : pin.released = false) :
    ∃ q, p' = some q ∧ q.snapshot.key = k := by
  cases h with
  | same => exact hp k pin hk hpin
  | @capture q _ hkey =>
    rw [Array.getElem?_push] at hk
    split at hk
    · next he => exact ⟨q, rfl, hkey.trans he.symm⟩
    · obtain ⟨q, hq, -⟩ := hp k pin hk hpin
      cases hq
  | release q g =>
    obtain ⟨hne, hold⟩ := Gallery.unreleased_of_release hk hpin
    obtain ⟨q', hq, hkey⟩ := hp k pin hold hpin
    cases hq
    exact (hne hkey.symm).elim

end Worker.Pins

theorem Worker.pins_step (b : Brief) (w : Worker) (s : Shared) :
    Pins w.pause? s.pinnings (w.step b s).1.pause? (w.step b s).2.pinnings := by
  cases w with
  | loading =>
    simp only [step, load]
    split <;> exact .same _ _
  | running run tracer =>
    simp only [step, move]
    split
    · exact .same _ _
    · split
      · exact .same _ _
      · split
        · exact .same _ _
        · next hp =>
          obtain ⟨_, -, rfl, rfl, -⟩ := Tracer.of_pauseAt hp
          exact .capture rfl
    all_goals exact .same _ _
  | suspended run tracer pause wait =>
    cases wait with
    | left result => exact .release pause ⟨run.machine.arena, s.pinnings⟩
    | _ => exact .same _ _
  | reading run tracer r =>
    simp only [step, read]
    split <;> exact .same _ _
  | concluding arena o => cases o <;> exact .same _ _
  | announcing | finished => exact .same _ _

namespace System

def pause? (s : System) : Option Pause :=
  s.session.worker.bind fun w => w.2.pause?

structure Filed (s : System) : Prop where
  held : ∀ p, s.pause? = some p → Shows s.session.shared.pinnings p.snapshot
  queued : ∀ events p, s.session.shared.events = some events → .paused p ∈ events →
    Shows s.session.shared.pinnings p.snapshot
  taken : ∀ p, s.session.state = .paused p → Shows s.session.shared.pinnings p.snapshot
  released : ∀ k pin, s.session.shared.pinnings[k]? = some pin → pin.released = false →
    ∃ p, s.pause? = some p ∧ p.snapshot.key = k

theorem filed_new (limit : Nat) (rules : Hint.Rules) : (new limit rules).Filed where
  held _ h := by cases h
  queued _ _ h := by cases h
  taken _ h := by cases h
  released _ _ h := by simp [new, Session.new, Shared.new] at h

variable {s : System}

theorem Filed.start (h : s.Filed) (ho : s.Orderly) (job : Job) : (s.act (.start job)).Filed := by
  obtain he | ⟨hactive, he⟩ := s.act_start job
  · rwa [he]
  · rw [he]
    have hnone : s.pause? = none := by
      unfold pause?
      cases hw : s.session.worker with
      | none => rfl
      | some bw =>
        obtain ⟨-, -, arena, harena⟩ := ho.finished_of_not_active hw hactive
        simp only [Option.bind_some, harena]
        rfl
    refine ⟨fun p hp => ?_, fun events p he hp => ?_, fun p hp => ?_, fun k pin hk hpin => ?_⟩
    · cases hp
    · cases he
      cases hp
    · cases hp
    · obtain ⟨p, hp, -⟩ := h.released k pin hk hpin
      rw [hnone] at hp
      cases hp

theorem Filed.poll (h : s.Filed) : (s.act .poll).Filed := by
  obtain he | ⟨e, rest, -, hevents, he⟩ := s.act_poll
  · rwa [he]
  · rw [he]
    cases e with
    | paused p =>
      refine ⟨h.held, ?_, ?_, h.released⟩
      · rintro events q ⟨⟩ hq
        exact h.queued _ q hevents (List.mem_cons_of_mem _ hq)
      · rintro q ⟨⟩
        exact h.queued _ p hevents List.mem_cons_self
    | terminated o =>
      refine ⟨h.held, fun events q hq => ?_, fun q hq => ?_, h.released⟩
      · cases hq
      · cases hq

theorem pause?_withGallery (session : Session) (g : Gallery) (errand : Errand)
    (log : List Note) (past : List (List Note)) (effort : Nat) :
    (System.mk (session.withGallery g) errand log past effort).pause? =
      (System.mk session errand log past effort).pause? := by
  simp only [pause?, Session.withGallery]
  cases session.worker with
  | none => rfl
  | some bw =>
    obtain ⟨b, w⟩ := bw
    cases w <;> rfl

theorem Filed.resume (h : s.Filed) (d : Decision) : (s.act (.resume d)).Filed := by
  obtain he | ⟨p, -, -, he⟩ := s.act_resume d
  · rwa [he]
  · rw [he]
    refine ⟨fun q hq => ?_, fun events q he hq => ?_, fun q hq => ?_, fun k pin hk hpin => ?_⟩
    · rw [asked, pause?_withGallery] at hq
      exact (h.held q hq).release (g := s.session.gallery) _
    · exact (h.queued events q he hq).release (g := s.session.gallery) _
    · exact (h.taken q hq).release (g := s.session.gallery) _
    · rw [asked, pause?_withGallery]
      exact h.released k pin (Gallery.unreleased_of_release hk hpin).2 hpin

theorem Filed.proceed (h : s.Filed) : (s.act .proceed).Filed := by
  obtain he | ⟨p, d, e, -, -, he⟩ | ⟨p, d, gate, -, -, he⟩ | ⟨p, d, -, he⟩ :=
    s.act_proceed <;> rw [he]
  · exact h
  · exact ⟨h.held, h.queued, h.taken, h.released⟩
  · exact ⟨h.held, h.queued, h.taken, h.released⟩
  · have hpause : (s.sent d).pause? = s.pause? := by
      simp only [pause?, sent]
      cases s.session.worker with
      | none => rfl
      | some bw =>
        obtain ⟨b, w⟩ := bw
        cases w <;> rfl
    refine ⟨fun q hq => h.held q (hpause ▸ hq), h.queued, fun q hq => ?_,
      fun k pin hk hpin => hpause ▸ h.released k pin hk hpin⟩
    cases hq

theorem Filed.work (h : s.Filed) : (s.act .work).Filed := by
  obtain he | ⟨b, w, hw, he⟩ := s.act_work
  · rwa [he]
  · rw [he]
    obtain ⟨told, hevents, htold, -⟩ := w.events_step b s.session.shared
    have hpins := w.pins_step b s.session.shared
    have hpause : s.pause? = w.pause? := by rw [pause?, hw, Option.bind_some]
    have hheld : ∀ p, w.pause? = some p → Shows s.session.shared.pinnings p.snapshot :=
      fun p hp => h.held p (hpause.trans hp)
    refine ⟨hpins.held hheld, fun events p he hp => ?_, fun p hp => hpins.shows (h.taken p hp),
      hpins.released fun k pin hk hpin => hpause ▸ h.released k pin hk hpin⟩
    have hevents : s.session.shared.events.map (· ++ told) = some events := hevents.symm.trans he
    cases hold : s.session.shared.events with
    | none =>
      rw [hold] at hevents
      cases hevents
    | some old =>
      rw [hold] at hevents
      cases hevents
      rcases List.mem_append.1 hp with hp | hp
      · exact hpins.shows (h.queued old p hold hp)
      · exact hpins.shows (hheld p (htold p hp))

theorem Filed.act (h : s.Filed) (ho : s.Orderly) (a : Action) : (s.act a).Filed := by
  cases a with
  | start job => exact h.start ho job
  | poll => exact h.poll
  | resume d => exact h.resume d
  | proceed => exact h.proceed
  | interrupt | terminal f => exact ⟨h.held, h.queued, h.taken, h.released⟩
  | work => exact h.work

/-- What the controller releases is released already, or is the snapshot of the pause that the
run waits in. -/
theorem Filed.release (h : s.Filed) {p : Pause} (hp : s.session.state = .paused p) :
    s.session.gallery.release p.snapshot = s.session.gallery ∨
      ∃ q, s.pause? = some q ∧
        s.session.gallery.release p.snapshot = s.session.gallery.release q.snapshot := by
  by_cases hr : s.session.gallery.isReleased p.snapshot = true
  · exact .inl (Gallery.release_of_isReleased hr)
  · obtain ⟨pin, hpin, hframe⟩ := h.taken p hp
    have hpins : s.session.gallery.pinnings[p.snapshot.key]? = some pin := hpin
    rw [Gallery.isReleased, hpins] at hr
    obtain ⟨q, hq, hkey⟩ := h.released _ pin hpin (Bool.eq_false_iff.2 hr)
    exact .inr ⟨q, hq, Gallery.release_congr hkey.symm
      (Shows.frame_eq ⟨pin, hpin, hframe⟩ (h.held q hq) hkey.symm)⟩

end System

end Stepwise
