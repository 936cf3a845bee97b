import Stepwise.Proofs.Session.Lockstep

/-! When an answer is refused. A pause that the controller has and did not answer yet was told in
its run, and no answer to it was accepted. If the gate is free when it asks, then the pause is
over, and as no answer ended it, it was withdrawn on an interrupt. -/

namespace Stepwise

open Stage (Story)

def Note.isOfProgram : Note → Bool
  | did _ | executed _ _ | raised _ | terminated _ => true
  | _ => false

theorem Run.isOfProgram_of_mem_raisedNotes {before after : Run} {n : Note}
    (h : n ∈ before.raisedNotes after) : n.isOfProgram = true := by
  unfold raisedNotes at h
  split at h
  · cases h
  · cases List.mem_singleton.1 h
    rfl
  · cases h

theorem Run.isOfProgram_of_mem_executedNotes {r : Run} {n : Note} (h : n ∈ r.executedNotes) :
    n.isOfProgram = true := by
  unfold executedNotes at h
  split at h
  · rw [Option.mem_toList] at h
    obtain ⟨i, -, rfl⟩ := Option.map_eq_some_iff.1 h
    rfl
  · cases h

theorem Suspension.mem_notes {seq : Nat} {listening interrupted : Bool} {g : Gate}
    {wait : Suspension} {n : Note} (h : n ∈ wait.notes seq listening interrupted g) :
    (n = .published seq ∧ ∃ mail, wait = .publishing mail) ∨
      (n = .withdrawn seq ∧ interrupted = true) ∨ (∃ d, n = .consumed seq d) ∨
      ∃ e, n = .broken e := by
  cases wait with
  | arriving =>
    simp only [notes] at h
    split at h
    · cases h
    · exact .inr (.inr (.inr ⟨_, List.mem_singleton.1 h⟩))
  | publishing mail =>
    simp only [notes] at h
    split at h
    · exact .inl ⟨List.mem_singleton.1 h, mail, rfl⟩
    · exact .inr (.inr (.inr ⟨_, List.mem_singleton.1 h⟩))
  | waiting mail =>
    cases mail with
    | none => cases h
    | some d => exact .inr (.inr (.inl ⟨d, List.mem_singleton.1 h⟩))
  | checking mail =>
    simp only [notes] at h
    split at h
    · next hi => exact .inr (.inl ⟨List.mem_singleton.1 h, hi⟩)
    · cases h
  | leaving result | left result => cases h

namespace Worker

variable {w : Worker} {s : Shared} {n : Note} {k : Nat}

theorem mem_notes (h : n ∈ w.notes s) : n.isOfProgram = true ∨
    ∃ run tracer p wait, w = .suspended run tracer p wait ∧
      n ∈ wait.notes p.seq s.events.isSome s.cell.isSet s.gate := by
  cases w with
  | loading | concluding | finished => cases h
  | suspended run tracer p wait => exact .inr ⟨run, tracer, p, wait, rfl, h⟩
  | running run tracer =>
    simp only [notes] at h
    split at h
    · rcases List.mem_append.1 h with h | h
      · exact .inl (Run.isOfProgram_of_mem_executedNotes h)
      · exact .inl (Run.isOfProgram_of_mem_raisedNotes h)
    · exact .inl (List.mem_singleton.1 h ▸ rfl)
    · exact .inl (List.mem_singleton.1 h ▸ rfl)
    · cases h
  | reading run tracer r =>
    simp only [notes] at h
    split at h
    · rcases List.mem_cons.1 h with rfl | h
      · exact .inl rfl
      · exact .inl (Run.isOfProgram_of_mem_raisedNotes h)
    · cases h
  | announcing arena o =>
    simp only [notes] at h
    split at h
    · exact .inl (List.mem_singleton.1 h ▸ rfl)
    · cases h

theorem accepted_notMem_notes (w : Worker) (s : Shared) (k : Nat) (d : Decision) :
    .accepted k d ∉ w.notes s := by
  intro h
  obtain h | ⟨run, tracer, p, wait, -, h⟩ := mem_notes h
  · cases h
  · obtain ⟨h, -⟩ | ⟨h, -⟩ | ⟨d, h⟩ | ⟨e, h⟩ := Suspension.mem_notes h <;> cases h

theorem isSet_of_withdrawn (h : .withdrawn k ∈ w.notes s) : s.cell.isSet = true := by
  obtain h | ⟨run, tracer, p, wait, -, h⟩ := mem_notes h
  · cases h
  · obtain ⟨h, -⟩ | ⟨-, h⟩ | ⟨d, h⟩ | ⟨e, h⟩ := Suspension.mem_notes h
    · cases h
    · exact h
    · cases h
    · cases h

theorem publishing_of_published (h : .published k ∈ w.notes s) :
    ∃ run tracer p mail, w = .suspended run tracer p (.publishing mail) ∧ p.seq = k := by
  obtain h | ⟨run, tracer, p, wait, rfl, h⟩ := mem_notes h
  · cases h
  · obtain ⟨hn, mail, rfl⟩ | ⟨hn, -⟩ | ⟨d, hn⟩ | ⟨e, hn⟩ := Suspension.mem_notes h
    · cases hn
      exact ⟨run, tracer, p, mail, rfl, rfl⟩
    · cases hn
    · cases hn
    · cases hn

end Worker

theorem Stage.Story.withdrawn {st : Stage} {k : Nat} {l : List Note} (h : Story st k l)
    (hk : k = st.count) (hst : st.Closed) (htold : .published k ∈ l)
    (hanswer : ∀ d, .accepted k d ∉ l) : .withdrawn k ∈ l := by
  have hended {l : List Note} (hl : Ended k l) (hanswer : ∀ d, .accepted k d ∉ l) :
      .withdrawn k ∈ l := by
    cases hl with
    | consumed d => exact (hanswer d (by simp)).elim
    | withdrawn | late | outweighed => simp
  cases h with
  | none => cases htold
  | past _ hlt => exact absurd hlt (hk ▸ Nat.lt_irrefl _)
  | free _ _ h | told _ _ h | answered _ _ h =>
    obtain ⟨late, hst⟩ | hst := hst <;> rw [h] at hst <;> cases hst
  | «open» => simp
  | ended _ _ _ hl | finished _ _ _ hl => exact hended hl hanswer

namespace View

variable {v : View} {st : Stage} {w : Worker} {p : Pause} {d : Decision}

/-- If the gate is free when the controller asks, the pause that it asks about is the last one,
and is over. -/
theorem Fits.closed_of_asking (h : v.Fits st w) (he : v.errand = .asking p d)
    (hg : v.gate = none) : p.seq = st.count ∧ st.Closed := by
  have hbusy : v.errand ≠ .none := by simp [he]
  have hbetween {silent : Prop} (h : v.Between st silent []) : p.seq = st.count ∧ st.Closed := by
    obtain ⟨-, h⟩ | ⟨hst, -, h⟩ := h
    · exact (h.not_busy hbusy).elim
    · exact ⟨(h.holding he).1, .inl hst⟩
  have htaken {k : Nat} (hgate : v.gate = some k) : False := by
    rw [hg] at hgate
    cases hgate
  match w, h with
  | .loading, ⟨_, _, h⟩ => exact (h.not_busy hbusy).elim
  | .running _ _, ⟨_, _, h⟩ | .reading _ _ _, ⟨_, _, _, h⟩ | .concluding _ _, ⟨_, h⟩
  | .announcing _ _, ⟨_, h⟩ => exact hbetween h
  | .finished _, ⟨hfinished, _, h⟩ =>
    obtain ⟨o, h⟩ | ⟨h, -⟩ := h
    · exact ⟨(h.holding he).1, .inr hfinished⟩
    · exact (hbusy h).elim
  | .suspended _ _ _ .arriving, ⟨_, _, _, _, h⟩
  | .suspended _ _ _ (.publishing _), ⟨_, _, _, _, _, h⟩
  | .suspended _ _ _ (.waiting (some _)), ⟨_, _, _, _, h⟩
  | .suspended _ _ _ (.checking (some _)), ⟨_, _, _, _, h⟩
  | .suspended _ _ _ (.leaving (.ok (.resumed _))), ⟨_, _, _, _, h⟩
  | .suspended _ _ _ (.left (.ok (.resumed _))), ⟨_, _, _, _, h⟩ => exact (h.not_busy hbusy).elim
  | .suspended _ _ _ (.waiting none), ⟨_, _, h⟩ | .suspended _ _ _ (.checking none), ⟨_, _, h⟩ =>
    obtain ⟨-, hgate, -⟩ | ⟨d', -, -, h⟩ := h
    · exact (htaken hgate).elim
    · exact (h.not_asking he).elim
  | .suspended _ _ _ (.leaving (.ok .cancelled)), ⟨_, hseq, h⟩ =>
    obtain ⟨-, hgate, -⟩ | ⟨hst, -, h⟩ := h
    · exact (htaken hgate).elim
    · exact ⟨(h.holding he).1.trans hseq, .inl ⟨false, hst⟩⟩
  | .suspended _ _ _ (.left (.ok .cancelled)), ⟨_, hseq, _, hst, h⟩ =>
    exact ⟨(h.holding he).1.trans hseq, .inl hst⟩

theorem Loose.queue_of_busy {k : Nat} {events : List SessionEvent} (h : v.Loose k events)
    (hv : v.errand ≠ .none) : v.events = some events := by
  obtain h | ⟨q, -, h | h⟩ | ⟨d, q, -, h⟩ := h
  · exact (h.not_busy hv).elim
  · exact (h.not_busy hv).elim
  · exact h.events
  · exact h.events

theorem Fits.not_queued (h : v.Fits st w) (hv : v.errand ≠ .none) {events : List SessionEvent}
    (he : v.events = some events) : .paused p ∉ events := by
  rcases h.loose with ⟨k, h⟩ | ⟨-, -, arena, rfl⟩
  · cases (h.queue_of_busy hv).symm.trans he
    exact List.not_mem_nil
  · obtain ⟨-, -, ⟨o, h⟩ | ⟨h, -⟩⟩ := h
    · cases (h.queue_of_busy hv).symm.trans he
      simp
    · exact (hv h).elim

end View

namespace System

variable {s : System} {p : Pause} {b : Brief} {w : Worker}

theorem Reached.interrupted_of_withdrawn (h : s.Reached) {k : Nat}
    (hk : .withdrawn k ∈ s.log) : .interrupted ∈ s.log := by
  refine h.log_induction (P := fun log => .withdrawn k ∈ log → .interrupted ∈ log)
    (fun h => nomatch h) ?_ ?_ hk
  · intro s hs b w _ ih hmem
    rcases List.mem_append.1 hmem with hmem | hmem
    · exact List.mem_append_left _ (ih hmem)
    · exact List.mem_append_left _
        ((hs.lockstep fun _ => .ok "").cell (Worker.isSet_of_withdrawn hmem))
  · intro log notes ih hnotes hmem
    rcases List.mem_append.1 hmem with hmem | hmem
    · exact List.mem_append_left _ (ih hmem)
    · cases hnotes _ hmem

def Holds (s : System) (p : Pause) : Prop :=
  (∃ events, s.session.shared.events = some events ∧ .paused p ∈ events) ∨
    s.session.state = .paused p ∧ ∀ d, s.errand ≠ .sending p d

/-- What is in the queue of the controller was noted; of a pause that it holds it was noted that
it was told, and no answer. -/
structure Entered (s : System) : Prop where
  queued : ∀ events, s.session.shared.events = some events → ∀ e ∈ events, e.note ∈ s.log
  told : ∀ p, s.Holds p → .published p.seq ∈ s.log
  unanswered : ∀ p, s.Holds p → ∀ d, .accepted p.seq d ∉ s.log

theorem Entered.of_free (hqueued : ∀ events, s.session.shared.events = some events →
    ∀ e ∈ events, e.note ∈ s.log) (hfree : ∀ p, ¬s.Holds p) : s.Entered where
  queued := hqueued
  told p hp := (hfree p hp).elim
  unanswered p hp := (hfree p hp).elim

theorem entered_new (limit : Nat) (rules : Hint.Rules) : (new limit rules).Entered := by
  refine .of_free (fun _ he => nomatch he) ?_
  rintro p (⟨events, he, -⟩ | ⟨hs, -⟩)
  · cases he
  · cases hs

theorem Entered.start (h : s.Entered) (job : Job) : (s.act (.start job)).Entered := by
  obtain he | ⟨-, he⟩ := s.act_start job
  · rwa [he]
  · rw [he]
    refine .of_free (fun events hevents e hmem => ?_) ?_
    · cases hevents
      cases hmem
    · rintro p (⟨events, hevents, hmem⟩ | ⟨hs, -⟩)
      · cases hevents
        cases hmem
      · cases hs

theorem Entered.of_le {s' : System} (h : s.Entered) (notes : List Note)
    (hlog : s'.log = s.log ++ notes) (hnotes : ∀ k d, .accepted k d ∉ notes)
    (hevents : ∀ events', s'.session.shared.events = some events' →
      ∃ events, s.session.shared.events = some events ∧ events' ⊆ events)
    (hholds : ∀ p, s'.Holds p → s.Holds p) : s'.Entered where
  queued events' he e hmem := by
    obtain ⟨events, he, hsub⟩ := hevents events' he
    rw [hlog]
    exact List.mem_append_left _ (h.queued events he e (hsub hmem))
  told p hp := by
    rw [hlog]
    exact List.mem_append_left _ (h.told p (hholds p hp))
  unanswered p hp d hmem := by
    rw [hlog] at hmem
    rcases List.mem_append.1 hmem with hmem | hmem
    · exact h.unanswered p (hholds p hp) d hmem
    · exact hnotes _ _ hmem

theorem Entered.poll (h : s.Entered) : (s.act .poll).Entered := by
  obtain he | ⟨e, rest, -, hevents, he⟩ := s.act_poll
  · rwa [he]
  · rw [he]
    refine h.of_le [] (List.append_nil _).symm (by simp) (fun events' he' => ?_) fun p hp => ?_
    · cases e with
      | paused q =>
        cases he'
        exact ⟨_, hevents, List.subset_cons_self _ _⟩
      | terminated o => cases he'
    · cases e with
      | paused q =>
        obtain ⟨events', he', hmem⟩ | ⟨hs, -⟩ := hp
        · cases he'
          exact .inl ⟨_, hevents, List.mem_cons_of_mem _ hmem⟩
        · cases hs
          exact .inl ⟨_, hevents, List.mem_cons_self⟩
      | terminated o =>
        obtain ⟨events', he', -⟩ | ⟨hs, -⟩ := hp
        · cases he'
        · cases hs

theorem Entered.resume (h : s.Entered) (d : Decision) : (s.act (.resume d)).Entered := by
  obtain he | ⟨p, herrand, -, he⟩ := s.act_resume d
  · rwa [he]
  · rw [he]
    refine h.of_le [] (List.append_nil _).symm (by simp)
      (fun events' he' => ⟨events', he', List.Subset.refl _⟩) fun q hq => ?_
    exact hq.imp_right fun hs => ⟨hs.1, fun d' => by simp [herrand]⟩

theorem Entered.proceed (h : s.Entered) (ho : s.Orderly) : (s.act .proceed).Entered := by
  obtain he | ⟨p, d, e, herrand, -, he⟩ | ⟨p, d, gate, herrand, -, he⟩ | ⟨p, d, herrand, he⟩ :=
    s.act_proceed <;> rw [he]
  · exact h
  · refine h.of_le [.refused e] rfl (by simp)
      (fun events' he' => ⟨events', he', List.Subset.refl _⟩) fun q hq => ?_
    exact hq.imp_right fun hs => ⟨hs.1, fun d' => by simp [herrand]⟩
  · have hbusy : s.errand ≠ .none := by simp [herrand]
    obtain ⟨b, w, st, -, -, hfits⟩ := ho.fits_of_errand hbusy
    refine .of_free (fun events hevents e hmem => ?_) ?_
    · exact List.mem_append_left _ (h.queued events hevents e hmem)
    · rintro q (⟨events, hevents, hmem⟩ | ⟨hs, hne⟩)
      · exact hfits.not_queued hbusy hevents hmem
      · have hp : s.session.state = .paused p := hfits.state_of_asking herrand
        have hs : s.session.state = .paused q := hs
        cases hp.symm.trans hs
        exact hne d rfl
  · have hbusy : s.errand ≠ .none := by simp [herrand]
    obtain ⟨b, w, st, -, -, hfits⟩ := ho.fits_of_errand hbusy
    refine .of_free h.queued ?_
    rintro q (⟨events, hevents, hmem⟩ | ⟨hs, -⟩)
    · exact hfits.not_queued hbusy hevents hmem
    · cases hs

theorem Entered.work (h : s.Entered) (ho : s.Orderly) : (s.act .work).Entered := by
  obtain he | ⟨b, w, hw, he⟩ := s.act_work
  · rwa [he]
  · rw [he]
    obtain ⟨st, hlog, hfits⟩ := ho.fits hw
    obtain ⟨told, hevents, hpause, hnotes⟩ := w.events_step b s.session.shared
    have hnoted (events : List SessionEvent) (hs : s.session.shared.events = some events)
        (e : SessionEvent) (he : e ∈ told) : e.note ∈ w.notes s.session.shared := by
      have hmem := List.mem_map_of_mem (f := SessionEvent.note) he
      rw [hnotes (by rw [hs]; rfl)] at hmem
      exact List.mem_of_mem_filter hmem
    have hholds (p : Pause) (hp : (s.worked b w).Holds p) : s.Holds p ∨
        .paused p ∈ told ∧ .published p.seq ∈ w.notes s.session.shared := by
      obtain ⟨events', he', hmem⟩ | hs := hp
      · obtain ⟨events, hs, rfl⟩ := Option.map_eq_some_iff.1 (hevents.symm.trans he')
        rcases List.mem_append.1 hmem with hmem | hmem
        · exact .inl (.inl ⟨events, hs, hmem⟩)
        · exact .inr ⟨hmem, hnoted events hs _ hmem⟩
      · exact .inl (.inr hs)
    refine ⟨fun events' he' e hmem => ?_, fun p hp => ?_, fun p hp d hmem => ?_⟩
    · obtain ⟨events, hs, rfl⟩ := Option.map_eq_some_iff.1 (hevents.symm.trans he')
      rcases List.mem_append.1 hmem with hmem | hmem
      · exact List.mem_append_left _ (h.queued events hs e hmem)
      · exact List.mem_append_right _ (hnoted events hs e hmem)
    · obtain hp | ⟨-, hp⟩ := hholds p hp
      · exact List.mem_append_left _ (h.told p hp)
      · exact List.mem_append_right _ hp
    · replace hmem := (List.mem_append.1 hmem).resolve_right (w.accepted_notMem_notes _ _ _)
      obtain hp | ⟨htold, hp⟩ := hholds p hp
      · exact h.unanswered p hp d hmem
      · obtain ⟨run, tracer, q, mail, rfl, -⟩ := Worker.publishing_of_published hp
        cases hpause p htold
        obtain ⟨-, -, -, hseq, -⟩ := hfits
        have hstory := (hlog.account.story p.seq).eq_nil (hseq ▸ Nat.lt_succ_self _)
        have hfilter : .accepted p.seq d ∈ s.log.filter (Note.isAbout p.seq) :=
          List.mem_filter.2 ⟨hmem, by simp [Note.isAbout]⟩
        rw [hstory] at hfilter
        cases hfilter

theorem Reached.entered (h : s.Reached) : s.Entered := by
  refine (h.induction (P := fun s => s.Orderly ∧ s.Entered)
    (fun limit rules => ⟨orderly_new limit rules, entered_new limit rules⟩) ?_).2
  rintro s a ⟨ho, h⟩
  refine ⟨ho.act a, ?_⟩
  have hsame : ∀ events', s.session.shared.events = some events' →
      ∃ events, s.session.shared.events = some events ∧ events' ⊆ events :=
    fun events' he => ⟨events', he, List.Subset.refl _⟩
  cases a with
  | start job => exact h.start job
  | poll => exact h.poll
  | resume d => exact h.resume d
  | proceed => exact h.proceed ho
  | interrupt => exact h.of_le [.interrupted] rfl (by simp) hsame fun _ hp => hp
  | work => exact h.work ho
  | terminal f => exact h.of_le [] (List.append_nil _).symm (by simp) hsame fun _ hp => hp

/-- An answer is refused if its pause was withdrawn on an interrupt before any answer to it was
accepted, and for no other reason. -/
theorem Reached.refused (h : s.Reached) {d : Decision} (herrand : s.errand = .asking p d)
    {e : DebugFault} (hg : s.session.shared.gate.resolve p.seq = .error e) :
    e = .noPendingPause ∧ s.session.state = .paused p ∧ .interrupted ∈ s.log ∧
      .withdrawn p.seq ∈ s.log ∧ ∀ d, .accepted p.seq d ∉ s.log := by
  obtain ⟨b, w, st, -, hlog, hfits⟩ := h.orderly.fits_of_errand (by simp [herrand])
  have hstate : s.session.state = .paused p := hfits.state_of_asking herrand
  have hholds : s.Holds p := .inr ⟨hstate, by simp [herrand]⟩
  cases hslot : s.session.shared.gate with
  | some k =>
    obtain ⟨rfl, -⟩ := hfits.accept herrand hslot
    rw [hslot, Gate.resolve, if_pos rfl] at hg
    cases hg
  | none =>
    rw [hslot] at hg
    cases hg
    obtain ⟨hseq, hclosed⟩ := hfits.closed_of_asking herrand hslot
    have htold : .published p.seq ∈ s.log.filter (Note.isAbout p.seq) :=
      List.mem_filter.2 ⟨h.entered.told p hholds, by simp [Note.isAbout]⟩
    have hwithdrawn : .withdrawn p.seq ∈ s.log :=
      List.mem_of_mem_filter <| (hlog.account.story p.seq).withdrawn hseq hclosed htold
        fun d hd => h.entered.unanswered p hholds d (List.mem_of_mem_filter hd)
    exact ⟨rfl, hstate, h.interrupted_of_withdrawn hwithdrawn, hwithdrawn,
      h.entered.unanswered p hholds⟩

end System

end Stepwise
