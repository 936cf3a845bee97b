import Stepwise.Proofs.Debug.Offers
import Stepwise.Proofs.Machine.Observed
import Stepwise.Proofs.Session.Stage

/-! Where the two sides of a session can be at the same time. What the controller knows of the
last pause, what waits in its queue, whom the slot of the gate is taken for and where the run
stands belong together with a stage of the notes, whatever moves next. -/

namespace Stepwise

open Stage (Runs Leads)

/-- What the controller knows, is in the middle of and is told, and the slot of the gate. -/
structure View where
  state : SessionState
  errand : Errand
  events : Option (List SessionEvent)
  gate : Gate

def System.view (s : System) : View :=
  ⟨s.session.state, s.errand, s.session.shared.events, s.session.shared.gate⟩

/-- The number of the pause in which a run waits for mail, and what it has got. -/
def Worker.mail? : Worker → Option (Nat × Option Decision)
  | suspended _ _ p (.waiting mail) | suspended _ _ p (.checking mail) => some (p.seq, mail)
  | _ => none

namespace Tracer

variable {t t' : Tracer} {event : TraceEvent} {interrupted : Bool} {a : Activation} {arena : Arena}

theorem seq_consider (t : Tracer) (event : TraceEvent) (interrupted : Bool) (a : Activation)
    (arena : Arena) : (t.consider event interrupted a arena).2.seq = t.seq := by
  obtain ⟨last, h⟩ := t.consider_snd event interrupted a arena
  rw [h]

theorem consider_of_ne (h : event ≠ .opcode) :
    t.consider event interrupted a arena = (.answer .proceed, t) := by
  rw [consider, if_pos (.inl h)]

end Tracer

namespace View

/-- The controller waits for the run, and has these events to take. -/
structure Unaware (v : View) (events : List SessionEvent) : Prop where
  state : ∃ traced, v.state = .running traced
  errand : v.errand = .none
  events : v.events = some events

/-- The controller has taken the pause and not asked the gate yet. -/
structure Holding (v : View) (p : Pause) (events : List SessionEvent) : Prop where
  state : v.state = .paused p
  errand : v.errand = .none ∨ ∃ d, v.errand = .asking p d
  events : v.events = some events

/-- The controller is about to send an answer that was accepted. -/
structure Sending (v : View) (p : Pause) (d : Decision) (events : List SessionEvent) : Prop where
  state : v.state = .paused p
  errand : v.errand = .sending p d
  events : v.events = some events

/-- The controller has the pause, in its queue or in its hands. -/
def Aware (v : View) (k : Nat) (events : List SessionEvent) : Prop :=
  ∃ p : Pause, p.seq = k ∧ (v.Unaware (.paused p :: events) ∨ v.Holding p events)

def Answering (v : View) (k : Nat) (d : Decision) (events : List SessionEvent) : Prop :=
  ∃ p : Pause, p.seq = k ∧ v.Sending p d events

def Loose (v : View) (k : Nat) (events : List SessionEvent) : Prop :=
  v.Unaware events ∨ v.Aware k events ∨ ∃ d, v.Answering k d events

def Between (v : View) (st : Stage) (silent : Prop) (events : List SessionEvent) : Prop :=
  st.stand = .free ∧ v.Unaware events ∨
    (∃ late, st.stand = .shut late) ∧ silent ∧ v.Loose st.count events

def AtGate (v : View) (st : Stage) (seq : Nat) : Suspension → Prop
  | .arriving => st.stand = .free ∧ seq = st.count + 1 ∧ v.gate = none ∧ v.Unaware []
  | .publishing mail =>
    mail = none ∧ st.stand = .free ∧ seq = st.count + 1 ∧ v.gate = some seq ∧ v.Unaware []
  | .waiting mail | .checking mail =>
    seq = st.count ∧
      match mail with
      | some d => st.stand = .answered d ∧ v.gate = none ∧ v.Unaware []
      | none =>
        st.stand = .told ∧ v.gate = some seq ∧ v.Aware seq [] ∨
          ∃ d, st.stand = .answered d ∧ v.gate = none ∧ v.Answering seq d []
  | .leaving result =>
    seq = st.count ∧
      match result with
      | .ok (.resumed d) => st.stand = Stage.afterAnswer d ∧ v.gate = none ∧ v.Unaware []
      | .ok .cancelled =>
        st.stand = .shut true ∧ v.gate = some seq ∧ v.Aware seq [] ∨
          st.stand = .shut false ∧ v.gate = none ∧ v.Loose seq []
      | .error _ => False
  | .left result =>
    seq = st.count ∧ v.gate = none ∧
      match result with
      | .ok (.resumed d) => st.stand = Stage.afterAnswer d ∧ v.Unaware []
      | .ok .cancelled => (∃ late, st.stand = .shut late) ∧ v.Loose seq []
      | .error _ => False

def Fits (v : View) (st : Stage) : Worker → Prop
  | .loading => st = .first ∧ v.gate = none ∧ v.Unaware []
  | .running run tracer => tracer.seq = st.count ∧ v.gate = none ∧ v.Between st run.Silent []
  | .suspended _ tracer pause wait => pause.seq = tracer.seq ∧ v.AtGate st pause.seq wait
  | .reading run tracer _ =>
    run.phase = .read ∧ tracer.seq = st.count ∧ v.gate = none ∧ v.Between st run.Silent []
  | .concluding _ _ | .announcing _ _ => v.gate = none ∧ v.Between st True []
  | .finished _ =>
    st.stand = .finished ∧ v.gate = none ∧
      ((∃ o, v.Loose st.count [.terminated o]) ∨
        v.errand = .none ∧ v.events = none ∧ ∃ o, v.state = .terminated o)

theorem AtGate.not_finished {v : View} {st : Stage} {seq : Nat} {wait : Suspension}
    (h : v.AtGate st seq wait) : st.stand ≠ .finished := by
  match wait, h with
  | .arriving, ⟨hst, _⟩ => simp [hst]
  | .publishing _, ⟨_, hst, _⟩ => simp [hst]
  | .waiting (some _), ⟨_, hst, _⟩ | .checking (some _), ⟨_, hst, _⟩ => simp [hst]
  | .waiting none, ⟨_, h⟩ | .checking none, ⟨_, h⟩ =>
    obtain ⟨hst, -⟩ | ⟨d, hst, -⟩ := h <;> simp [hst]
  | .leaving (.ok (.resumed d)), ⟨_, hst, _⟩ | .left (.ok (.resumed d)), ⟨_, _, hst, _⟩ =>
    cases d <;> simp [hst, Stage.afterAnswer]
  | .leaving (.ok .cancelled), ⟨_, h⟩ => obtain ⟨hst, -⟩ | ⟨hst, -⟩ := h <;> simp [hst]
  | .left (.ok .cancelled), ⟨_, _, ⟨late, hst⟩, _⟩ => simp [hst]

theorem Between.not_finished {v : View} {st : Stage} {silent : Prop} {events : List SessionEvent}
    (h : v.Between st silent events) : st.stand ≠ .finished := by
  obtain ⟨hst, -⟩ | ⟨⟨late, hst⟩, -⟩ := h <;> simp [hst]

theorem Fits.finished_iff {v : View} {st : Stage} {w : Worker} (h : v.Fits st w) :
    (∃ arena, w = .finished arena) ↔ st.stand = .finished := by
  have hne (hst : st.stand ≠ .finished) (hw : ∀ arena, w ≠ .finished arena) :
      (∃ arena, w = .finished arena) ↔ st.stand = .finished :=
    ⟨fun ⟨arena, he⟩ => (hw arena he).elim, fun he => (hst he).elim⟩
  match w, h with
  | .loading, ⟨hst, _⟩ => exact hne (by simp [hst, Stage.first]) nofun
  | .running _ _, ⟨_, _, h⟩ => exact hne h.not_finished nofun
  | .suspended _ _ _ _, ⟨_, h⟩ => exact hne h.not_finished nofun
  | .reading _ _ _, ⟨_, _, _, h⟩ => exact hne h.not_finished nofun
  | .concluding _ _, ⟨_, h⟩ | .announcing _ _, ⟨_, h⟩ => exact hne h.not_finished nofun
  | .finished arena, ⟨hfinished, _⟩ => exact ⟨fun _ => hfinished, fun _ => ⟨arena, rfl⟩⟩

theorem Fits.underWay {v : View} {st : Stage} {w : Worker} {d : Decision} (h : v.Fits st w)
    (hst : st.stand = .answered d) :
    (∃ p : Pause, p.seq = st.count ∧ v.errand = .sending p d) ∧ w.mail? = some (st.count, none) ∨
      v.errand = .none ∧ w.mail? = some (st.count, some d) := by
  have hne (late : Bool) : st.stand ≠ .shut late ∧ st.stand ≠ .free ∧ st.stand ≠ .finished := by
    simp [hst]
  have hbetween {silent : Prop} {events : List SessionEvent} (h : v.Between st silent events) :
      False := by
    obtain ⟨hfree, -⟩ | ⟨⟨late, hshut⟩, -⟩ := h
    · exact (hne true).2.1 hfree
    · exact (hne late).1 hshut
  match w, h with
  | .loading, ⟨hfirst, _⟩ => exact ((hne true).2.1 (by rw [hfirst]; rfl)).elim
  | .running _ _, ⟨_, _, h⟩ => exact (hbetween h).elim
  | .reading _ _ _, ⟨_, _, _, h⟩ => exact (hbetween h).elim
  | .concluding _ _, ⟨_, h⟩ | .announcing _ _, ⟨_, h⟩ => exact (hbetween h).elim
  | .finished _, ⟨hfinished, _⟩ => exact ((hne true).2.2 hfinished).elim
  | .suspended _ _ _ .arriving, ⟨_, hfree, _⟩ => exact ((hne true).2.1 hfree).elim
  | .suspended _ _ _ (.publishing _), ⟨_, _, hfree, _⟩ => exact ((hne true).2.1 hfree).elim
  | .suspended _ _ p (.waiting mail), ⟨_, hseq, h⟩
  | .suspended _ _ p (.checking mail), ⟨_, hseq, h⟩ =>
    rw [Worker.mail?, hseq]
    cases mail with
    | none =>
      obtain ⟨htold, -⟩ | ⟨d', hanswered, -, q, hq, hsending⟩ := h
      · rw [hst] at htold
        cases htold
      · obtain rfl : d = d' := by simpa [hst] using hanswered
        exact .inl ⟨⟨q, hq.trans hseq, hsending.errand⟩, rfl⟩
    | some d' =>
      obtain rfl : d = d' := by simpa [hst] using h.1
      exact .inr ⟨h.2.2.errand, rfl⟩
  | .suspended _ _ _ (.leaving (.ok (.resumed d'))), ⟨_, _, h, _⟩
  | .suspended _ _ _ (.left (.ok (.resumed d'))), ⟨_, _, _, h, _⟩ =>
    cases d' with
    | continueStepping => exact ((hne true).2.1 h).elim
    | stopDebugging => exact ((hne false).1 h).elim
  | .suspended _ _ _ (.leaving (.ok .cancelled)), ⟨_, _, h⟩ =>
    obtain ⟨hshut, -⟩ | ⟨hshut, -⟩ := h
    · exact ((hne true).1 hshut).elim
    · exact ((hne false).1 hshut).elim
  | .suspended _ _ _ (.left (.ok .cancelled)), ⟨_, _, _, ⟨late, hshut⟩, _⟩ =>
    exact ((hne late).1 hshut).elim

section Loose

variable {v : View} {st : Stage} {k : Nat} {events : List SessionEvent}

theorem Loose.isActive (h : v.Loose k events) : v.state.isActive = true := by
  obtain ⟨⟨traced, h⟩, -, -⟩ | ⟨p, -, ⟨⟨traced, h⟩, -, -⟩ | h⟩ | ⟨d, p, -, h⟩ := h
  · rw [h]
    rfl
  · rw [h]
    rfl
  · rw [h.state]
    rfl
  · rw [h.state]
    rfl

theorem Loose.queue (h : v.Loose k events) :
    v.events = some events ∨ ∃ p, v.events = some (.paused p :: events) := by
  obtain h | ⟨p, -, h | h⟩ | ⟨d, p, -, h⟩ := h
  · exact .inl h.events
  · exact .inr ⟨p, h.events⟩
  · exact .inl h.events
  · exact .inl h.events

theorem Loose.isListening (h : v.Loose k events) : v.events.isSome = true := by
  rcases h.queue with h | ⟨p, h⟩
  · exact Option.isSome_of_mem h
  · exact Option.isSome_of_mem h

theorem Between.loose {silent : Prop} (h : v.Between st silent events) :
    v.Loose st.count events := by
  obtain ⟨-, h⟩ | ⟨-, -, h⟩ := h
  · exact .inl h
  · exact h

theorem AtGate.loose {seq : Nat} {wait : Suspension} (h : v.AtGate st seq wait) :
    v.Loose seq [] := by
  match wait, h with
  | .arriving, ⟨_, _, _, h⟩ => exact .inl h
  | .publishing _, ⟨_, _, _, _, h⟩ => exact .inl h
  | .waiting (some _), ⟨_, _, _, h⟩ | .checking (some _), ⟨_, _, _, h⟩ => exact .inl h
  | .waiting none, ⟨_, h⟩ | .checking none, ⟨_, h⟩ =>
    obtain ⟨-, -, h⟩ | ⟨d, -, -, h⟩ := h
    · exact .inr (.inl h)
    · exact .inr (.inr ⟨d, h⟩)
  | .leaving (.ok (.resumed _)), ⟨_, _, _, h⟩ => exact .inl h
  | .leaving (.ok .cancelled), ⟨_, h⟩ =>
    obtain ⟨-, -, h⟩ | ⟨-, -, h⟩ := h
    · exact .inr (.inl h)
    · exact h
  | .left (.ok (.resumed _)), ⟨_, _, _, h⟩ => exact .inl h
  | .left (.ok .cancelled), ⟨_, _, _, h⟩ => exact h

theorem Fits.loose {w : Worker} (h : v.Fits st w) :
    (∃ k, v.Loose k []) ∨ st.stand = .finished ∧ v.gate = none ∧ ∃ arena, w = .finished arena := by
  match w, h with
  | .loading, ⟨_, _, h⟩ => exact .inl ⟨0, .inl h⟩
  | .running _ _, ⟨_, _, h⟩ => exact .inl ⟨_, h.loose⟩
  | .suspended _ _ _ _, ⟨_, h⟩ => exact .inl ⟨_, h.loose⟩
  | .reading _ _ _, ⟨_, _, _, h⟩ => exact .inl ⟨_, h.loose⟩
  | .concluding _ _, ⟨_, h⟩ | .announcing _ _, ⟨_, h⟩ => exact .inl ⟨_, h.loose⟩
  | .finished arena, ⟨hfinished, hgate, _⟩ => exact .inr ⟨hfinished, hgate, arena, rfl⟩

end Loose

structure Turns (v v' : View) : Prop where
  gate : v'.gate = v.gate
  unaware : ∀ events, (∀ p, .paused p ∉ events) → v.Unaware events → v'.Unaware events
  aware : ∀ k events, (∀ p, .paused p ∉ events) → v.Aware k events → v'.Aware k events
  answering : ∀ k d events, v.Answering k d events → v'.Answering k d events
  finished : v.errand = .none → v.events = none → (∃ o, v.state = .terminated o) →
    v'.errand = .none ∧ v'.events = none ∧ ∃ o, v'.state = .terminated o

section Turns

variable {v v' : View} {st : Stage} {k : Nat} {events : List SessionEvent}

theorem Loose.turns (h : v.Loose k events) (hv : v.Turns v') (he : ∀ p, .paused p ∉ events) :
    v'.Loose k events := by
  obtain h | h | ⟨d, h⟩ := h
  · exact .inl (hv.unaware _ he h)
  · exact .inr (.inl (hv.aware _ _ he h))
  · exact .inr (.inr ⟨d, hv.answering _ _ _ h⟩)

theorem Between.turns {silent : Prop} (h : v.Between st silent []) (hv : v.Turns v') :
    v'.Between st silent [] := by
  obtain ⟨hst, h⟩ | ⟨hst, hs, h⟩ := h
  · exact .inl ⟨hst, hv.unaware _ (by simp) h⟩
  · exact .inr ⟨hst, hs, h.turns hv (by simp)⟩

theorem AtGate.turns {seq : Nat} {wait : Suspension} (h : v.AtGate st seq wait)
    (hv : v.Turns v') : v'.AtGate st seq wait := by
  have hnil : ∀ p, SessionEvent.paused p ∉ [] := by simp
  match wait, h with
  | .arriving, ⟨hst, hseq, hgate, h⟩ =>
    exact ⟨hst, hseq, hv.gate.trans hgate, hv.unaware _ hnil h⟩
  | .publishing _, ⟨hmail, hst, hseq, hgate, h⟩ =>
    exact ⟨hmail, hst, hseq, hv.gate.trans hgate, hv.unaware _ hnil h⟩
  | .waiting (some _), ⟨hseq, hst, hgate, h⟩ | .checking (some _), ⟨hseq, hst, hgate, h⟩ =>
    exact ⟨hseq, hst, hv.gate.trans hgate, hv.unaware _ hnil h⟩
  | .waiting none, ⟨hseq, h⟩ | .checking none, ⟨hseq, h⟩ =>
    obtain ⟨hst, hgate, h⟩ | ⟨d, hst, hgate, h⟩ := h
    · exact ⟨hseq, .inl ⟨hst, hv.gate.trans hgate, hv.aware _ _ hnil h⟩⟩
    · exact ⟨hseq, .inr ⟨d, hst, hv.gate.trans hgate, hv.answering _ _ _ h⟩⟩
  | .leaving (.ok (.resumed _)), ⟨hseq, hst, hgate, h⟩ =>
    exact ⟨hseq, hst, hv.gate.trans hgate, hv.unaware _ hnil h⟩
  | .leaving (.ok .cancelled), ⟨hseq, h⟩ =>
    obtain ⟨hst, hgate, h⟩ | ⟨hst, hgate, h⟩ := h
    · exact ⟨hseq, .inl ⟨hst, hv.gate.trans hgate, hv.aware _ _ hnil h⟩⟩
    · exact ⟨hseq, .inr ⟨hst, hv.gate.trans hgate, h.turns hv hnil⟩⟩
  | .left (.ok (.resumed _)), ⟨hseq, hgate, hst, h⟩ =>
    exact ⟨hseq, hv.gate.trans hgate, hst, hv.unaware _ hnil h⟩
  | .left (.ok .cancelled), ⟨hseq, hgate, hst, h⟩ =>
    exact ⟨hseq, hv.gate.trans hgate, hst, h.turns hv hnil⟩

theorem Fits.turns {w : Worker} (h : v.Fits st w) (hv : v.Turns v') : v'.Fits st w := by
  match w, h with
  | .loading, ⟨hst, hgate, h⟩ => exact ⟨hst, hv.gate.trans hgate, hv.unaware _ (by simp) h⟩
  | .running _ _, ⟨hseq, hgate, h⟩ => exact ⟨hseq, hv.gate.trans hgate, h.turns hv⟩
  | .suspended _ _ _ _, ⟨hseq, h⟩ => exact ⟨hseq, h.turns hv⟩
  | .reading _ _ _, ⟨hphase, hseq, hgate, h⟩ =>
    exact ⟨hphase, hseq, hv.gate.trans hgate, h.turns hv⟩
  | .concluding _ _, ⟨hgate, h⟩ | .announcing _ _, ⟨hgate, h⟩ =>
    exact ⟨hv.gate.trans hgate, h.turns hv⟩
  | .finished _, ⟨hfinished, hgate, h⟩ =>
    obtain ⟨o, h⟩ | ⟨he, hn, ho⟩ := h
    · exact ⟨hfinished, hv.gate.trans hgate, .inl ⟨o, h.turns hv (by simp)⟩⟩
    · exact ⟨hfinished, hv.gate.trans hgate, .inr (hv.finished he hn ho)⟩

end Turns

section Take

variable {v : View} {st : Stage} {rest : List SessionEvent} {p : Pause}

theorem turns_take (he : v.errand = .none) (hv : v.events = some (.paused p :: rest)) :
    v.Turns { v with state := .paused p, events := some rest } where
  gate := rfl
  unaware events hevents h := by
    have heq := h.events.symm.trans hv
    cases heq
    exact (hevents p List.mem_cons_self).elim
  aware k events hevents h := by
    obtain ⟨q, hk, h | h⟩ := h
    · have heq : q = p ∧ events = rest := by simpa [h.events] using hv
      exact ⟨p, heq.1 ▸ hk, .inr ⟨rfl, .inl he, congrArg some heq.2.symm⟩⟩
    · have heq := h.events.symm.trans hv
      cases heq
      exact (hevents p List.mem_cons_self).elim
  answering k d events h := by
    obtain ⟨q, -, h⟩ := h
    rw [h.errand] at he
    cases he
  finished _ hn _ := by
    rw [hn] at hv
    cases hv

theorem Fits.finished {w : Worker} {o : Outcome} (h : v.Fits st w) (he : v.errand = .none)
    (hv : v.events = some (.terminated o :: rest)) :
    View.Fits { v with state := .terminated o, events := none } st w := by
  rcases h.loose with ⟨k, h⟩ | ⟨hfinished, hgate, arena, rfl⟩
  · rcases h.queue with h | ⟨p, h⟩ <;> rw [h] at hv <;> cases hv
  · exact ⟨hfinished, hgate, .inr ⟨he, rfl, o, rfl⟩⟩

theorem turns_errand {e : Errand} (hs : v.state = .paused p) (hv : ∀ d, v.errand ≠ .sending p d)
    (he : e = .none ∨ ∃ d, e = .asking p d) : v.Turns { v with errand := e } where
  gate := rfl
  unaware events _ h := by
    obtain ⟨traced, h⟩ := h.state
    rw [h] at hs
    cases hs
  aware k events _ h := by
    obtain ⟨q, hk, h | h⟩ := h
    · obtain ⟨traced, h⟩ := h.state
      rw [h] at hs
      cases hs
    · have hq : q = p := by simpa [h.state] using hs
      exact ⟨p, hq ▸ hk, .inr ⟨hs, he, h.events⟩⟩
  answering k d events h := by
    obtain ⟨q, -, h⟩ := h
    have hq : q = p := by simpa [h.state] using hs
    exact (hv d (hq ▸ h.errand)).elim
  finished _ _ ho := by
    obtain ⟨o, ho⟩ := ho
    rw [ho] at hs
    cases hs

end Take

section Answer

variable {v : View} {st : Stage} {k : Nat} {events : List SessionEvent} {p : Pause} {d : Decision}
  {w : Worker}

theorem Unaware.not_busy (h : v.Unaware events) (hv : v.errand ≠ .none) : False :=
  hv h.errand

theorem Aware.holding (h : v.Aware k events) (he : v.errand = .asking p d) :
    p.seq = k ∧ v.Holding p events := by
  obtain ⟨q, hk, h | h⟩ := h
  · exact (h.not_busy (by simp [he])).elim
  · have herrand := h.errand
    rw [he] at herrand
    obtain herrand | ⟨d, herrand⟩ := herrand <;> cases herrand
    exact ⟨hk, h⟩

theorem Answering.not_asking {d' : Decision} (h : v.Answering k d' events)
    (he : v.errand = .asking p d) : False := by
  obtain ⟨q, -, h⟩ := h
  rw [h.errand] at he
  cases he

theorem Loose.holding (h : v.Loose k events) (he : v.errand = .asking p d) :
    p.seq = k ∧ v.Holding p events := by
  obtain h | h | ⟨d', h⟩ := h
  · exact (h.not_busy (by simp [he])).elim
  · exact h.holding he
  · exact (h.not_asking he).elim

theorem Fits.state_of_asking (h : v.Fits st w) (he : v.errand = .asking p d) :
    v.state = .paused p := by
  rcases h.loose with ⟨k, h⟩ | ⟨-, -, arena, rfl⟩
  · exact (h.holding he).2.state
  · obtain ⟨-, -, ⟨o, h⟩ | ⟨hnone, -⟩⟩ := h
    · exact (h.holding he).2.state
    · rw [he] at hnone
      cases hnone

/-- The slot of the gate, if it is taken while the controller asks, is taken for the pause that
it asks about, and an answer is in place. -/
theorem Fits.accept (h : v.Fits st w) (he : v.errand = .asking p d) {n : Nat}
    (hg : v.gate = some n) :
    n = p.seq ∧ ∃ st', Leads st (.accepted p.seq d) st' ∧
      View.Fits { v with errand := .sending p d, gate := none } st' w := by
  have hbusy : v.errand ≠ .none := by simp [he]
  have hne (hgate : v.gate = none) : False := by
    rw [hgate] at hg
    cases hg
  match w, h with
  | .loading, ⟨_, hgate, _⟩ | .running _ _, ⟨_, hgate, _⟩ | .reading _ _ _, ⟨_, _, hgate, _⟩
  | .concluding _ _, ⟨hgate, _⟩ | .announcing _ _, ⟨hgate, _⟩ | .finished _, ⟨_, hgate, _⟩ =>
    exact (hne hgate).elim
  | .suspended _ _ _ .arriving, ⟨_, _, _, hgate, _⟩ => exact (hne hgate).elim
  | .suspended _ _ _ (.publishing _), ⟨_, _, _, _, _, h⟩ => exact (h.not_busy hbusy).elim
  | .suspended _ _ _ (.waiting (some _)), ⟨_, _, _, hgate, _⟩
  | .suspended _ _ _ (.checking (some _)), ⟨_, _, _, hgate, _⟩ => exact (hne hgate).elim
  | .suspended _ _ _ (.waiting none), ⟨hp, hseq, h⟩
  | .suspended _ _ _ (.checking none), ⟨hp, hseq, h⟩ =>
    obtain ⟨hst, hgate, h⟩ | ⟨_, _, hgate, _⟩ := h
    · obtain ⟨hk, hold⟩ := h.holding he
      obtain ⟨count, stand⟩ := st
      obtain rfl : stand = .told := hst
      obtain rfl : p.seq = count := hk.trans hseq
      rw [hgate] at hg
      cases hg
      exact ⟨hk.symm, _, .accepted _ d, hp, hseq,
        .inr ⟨d, rfl, rfl, p, hk, hold.state, rfl, hold.events⟩⟩
    · exact (hne hgate).elim
  | .suspended _ _ _ (.leaving (.ok (.resumed _))), ⟨_, _, _, hgate, _⟩ => exact (hne hgate).elim
  | .suspended _ _ _ (.leaving (.ok .cancelled)), ⟨hp, hseq, h⟩ =>
    obtain ⟨hst, hgate, h⟩ | ⟨_, hgate, _⟩ := h
    · obtain ⟨hk, hold⟩ := h.holding he
      obtain ⟨count, stand⟩ := st
      obtain rfl : stand = .shut true := hst
      obtain rfl : p.seq = count := hk.trans hseq
      rw [hgate] at hg
      cases hg
      exact ⟨hk.symm, _, .late _ d, hp, hseq,
        .inr ⟨rfl, rfl, .inr (.inr ⟨d, p, hk, hold.state, rfl, hold.events⟩)⟩⟩
    · exact (hne hgate).elim
  | .suspended _ _ _ (.left _), ⟨_, _, hgate, _⟩ => exact (hne hgate).elim

theorem Aware.not_sending (h : v.Aware k events) (he : v.errand = .sending p d) : False := by
  obtain ⟨q, -, h | h⟩ := h
  · exact h.not_busy (by simp [he])
  · have herrand := h.errand
    rw [he] at herrand
    obtain herrand | ⟨d, herrand⟩ := herrand <;> cases herrand

def replied (v : View) (d : Decision) : View :=
  { v with state := .running (d = .continueStepping), errand := .none }

theorem Answering.reply {d' : Decision} (h : v.Answering k d' events)
    (he : v.errand = .sending p d) : d' = d ∧ (v.replied d).Unaware events := by
  obtain ⟨q, -, h⟩ := h
  have herrand := h.errand
  rw [he] at herrand
  cases herrand
  exact ⟨rfl, ⟨_, rfl⟩, rfl, h.events⟩

theorem Loose.reply (h : v.Loose k events) (he : v.errand = .sending p d) :
    (v.replied d).Loose k events := by
  obtain h | h | ⟨d', h⟩ := h
  · exact (h.not_busy (by simp [he])).elim
  · exact (h.not_sending he).elim
  · exact .inl (h.reply he).2

theorem Fits.reply (h : v.Fits st w) (he : v.errand = .sending p d) :
    (v.replied d).Fits st (w.deliver d) := by
  have hbusy : v.errand ≠ .none := by simp [he]
  have hbetween {silent : Prop} (h : v.Between st silent []) :
      (v.replied d).Between st silent [] := by
    obtain ⟨-, h⟩ | ⟨hst, hs, h⟩ := h
    · exact (h.not_busy hbusy).elim
    · exact .inr ⟨hst, hs, h.reply he⟩
  match w, h with
  | .loading, ⟨_, _, h⟩ => exact (h.not_busy hbusy).elim
  | .running _ _, ⟨hseq, hgate, h⟩ => exact ⟨hseq, hgate, hbetween h⟩
  | .reading _ _ _, ⟨hphase, hseq, hgate, h⟩ => exact ⟨hphase, hseq, hgate, hbetween h⟩
  | .concluding _ _, ⟨hgate, h⟩ | .announcing _ _, ⟨hgate, h⟩ => exact ⟨hgate, hbetween h⟩
  | .finished _, ⟨hfinished, hgate, h⟩ =>
    obtain ⟨o, h⟩ | ⟨hnone, -⟩ := h
    · exact ⟨hfinished, hgate, .inl ⟨o, h.reply he⟩⟩
    · exact (hbusy hnone).elim
  | .suspended _ _ _ .arriving, ⟨_, _, _, _, h⟩ => exact (h.not_busy hbusy).elim
  | .suspended _ _ _ (.publishing _), ⟨_, _, _, _, _, h⟩ => exact (h.not_busy hbusy).elim
  | .suspended _ _ _ (.waiting (some _)), ⟨_, _, _, _, h⟩
  | .suspended _ _ _ (.checking (some _)), ⟨_, _, _, _, h⟩ => exact (h.not_busy hbusy).elim
  | .suspended _ _ _ (.waiting none), ⟨hp, hseq, h⟩
  | .suspended _ _ _ (.checking none), ⟨hp, hseq, h⟩ =>
    obtain ⟨-, -, h⟩ | ⟨d', hst, hgate, h⟩ := h
    · exact (h.not_sending he).elim
    · obtain ⟨rfl, h⟩ := h.reply he
      exact ⟨hp, hseq, hst, hgate, h⟩
  | .suspended _ _ _ (.leaving (.ok (.resumed _))), ⟨_, _, _, _, h⟩ =>
    exact (h.not_busy hbusy).elim
  | .suspended _ _ _ (.leaving (.ok .cancelled)), ⟨hp, hseq, h⟩ =>
    obtain ⟨-, -, h⟩ | ⟨hst, hgate, h⟩ := h
    · exact (h.not_sending he).elim
    · exact ⟨hp, hseq, .inr ⟨hst, hgate, h.reply he⟩⟩
  | .suspended _ _ _ (.left (.ok (.resumed _))), ⟨_, _, _, _, h⟩ => exact (h.not_busy hbusy).elim
  | .suspended _ _ _ (.left (.ok .cancelled)), ⟨hp, hseq, hgate, hst, h⟩ =>
    exact ⟨hp, hseq, hgate, hst, h.reply he⟩

end Answer

theorem Fits.withArena {v : View} {st : Stage} {w : Worker} (h : v.Fits st w) (a : Arena) :
    v.Fits st (w.withArena a) := by
  cases w <;> exact h

section Work

variable {v : View} {st : Stage} {k : Nat} {run : Run} {tracer : Tracer} {b : Brief} {s : Shared}

def along (v : View) (s : Shared) : View :=
  { v with events := s.events, gate := s.gate }

theorem Between.mono {silent silent' : Prop} (h : v.Between st silent [])
    (hs : silent → silent') : v.Between st silent' [] :=
  h.imp_right fun ⟨hst, h, hloose⟩ => ⟨hst, hs h, hloose⟩

theorem Between.free {silent : Prop} (h : v.Between st silent []) (hs : ¬silent) :
    st.stand = .free ∧ v.Unaware [] := by
  obtain h | ⟨-, h, -⟩ := h
  · exact h
  · exact (hs h).elim

theorem Unaware.withGate {events : List SessionEvent} (h : v.Unaware events) (gate : Gate) :
    View.Unaware { v with gate } events :=
  ⟨h.state, h.errand, h.events⟩

theorem Aware.withGate {events : List SessionEvent} (h : v.Aware k events) (gate : Gate) :
    View.Aware { v with gate } k events := by
  obtain ⟨p, hk, h | h⟩ := h
  · exact ⟨p, hk, .inl (h.withGate gate)⟩
  · exact ⟨p, hk, .inr ⟨h.state, h.errand, h.events⟩⟩

theorem Loose.withGate {events : List SessionEvent} (h : v.Loose k events) (gate : Gate) :
    View.Loose { v with gate } k events := by
  obtain h | h | ⟨d, p, hk, h⟩ := h
  · exact .inl (h.withGate gate)
  · exact .inr (.inl (h.withGate gate))
  · exact .inr (.inr ⟨d, p, hk, h.state, h.errand, h.events⟩)

theorem runs_raised (st : Stage) (run after : Run) : Runs st (run.raisedNotes after) st := by
  unfold Run.raisedNotes
  split
  · exact .nil st
  · exact .single (.raised st _)
  · exact .nil st

theorem Fits.advance (h : (v.along s).Fits st (.running run tracer)) :
    (v.along s).Fits st (.running run.advance tracer) :=
  ⟨h.1, h.2.1, h.2.2.mono Run.Silent.advance⟩

theorem Fits.answered (h : (v.along s).Fits st (.running run tracer))
    (hp : run.Silent → run.machine.tracing = false) {after : Run}
    (hafter : after.machine.tracing = run.machine.tracing) :
    (v.along s).Fits st (.running after tracer) :=
  ⟨h.1, h.2.1, h.2.2.mono fun hs => .inl (hafter.trans (hp hs))⟩

theorem Loose.tell {e : SessionEvent} (h : (v.along s).Loose k []) :
    (v.along (s.tell e)).Loose k [e] := by
  have htell {events : List SessionEvent} (h : s.events = some events) :
      (s.tell e).events = some (events ++ [e]) := by
    rw [Shared.tell, h]
    rfl
  obtain h | ⟨p, hk, h | h⟩ | ⟨d, p, hk, h⟩ := h
  · exact .inl ⟨h.state, h.errand, htell h.events⟩
  · exact .inr (.inl ⟨p, hk, .inl ⟨h.state, h.errand, htell h.events⟩⟩)
  · exact .inr (.inl ⟨p, hk, .inr ⟨h.state, h.errand, htell h.events⟩⟩)
  · exact .inr (.inr ⟨d, p, hk, h.state, h.errand, htell h.events⟩)

theorem runs_advance (st : Stage) (run after : Run) :
    Runs st (run.executedNotes ++ run.raisedNotes after) st := by
  have hexecuted : Runs st run.executedNotes st := by
    unfold Run.executedNotes
    split
    · cases run.current.chunk.code[run.current.pc]? with
      | none => exact .nil st
      | some i => exact .single (.executed st i _)
    · exact .nil st
  exact hexecuted.append (runs_raised st run after)

theorem Fits.move (h : (v.along s).Fits st (.running run tracer)) :
    ∃ st', Runs st (Worker.notes (.running run tracer) s) st' ∧
      (v.along (Worker.move b run tracer s).2).Fits st' (Worker.move b run tracer s).1 := by
  cases hn : run.need with
  | nothing =>
    simp only [Worker.notes, Worker.move, hn]
    exact ⟨st, runs_advance st run _, h.advance⟩
  | control event aux =>
    obtain ⟨ht, hevent, hended⟩ := Run.of_need_control hn
    have hseq := tracer.seq_consider event s.cell.isSet run.current run.machine.arena
    simp only [Worker.notes, Worker.move, hn]
    refine ⟨st, .nil st, ?_⟩
    rcases hevent with ⟨rfl, hphase⟩ | ⟨hne, hphase⟩
    · have hsilent : ¬run.Silent := by
        intro hs
        have := hs.untraced (by simp [hphase]) (by simp [hphase])
        rw [ht] at this
        cases this
      obtain ⟨hst, hunaware⟩ := h.2.2.free hsilent
      split
      · next c tracer' hc =>
        rw [hc] at hseq
        exact ⟨hseq.trans h.1, h.2.1, .inl ⟨hst, hunaware⟩⟩
      · next highlight hint tracer' hc =>
        rw [hc] at hseq
        split
        · exact ⟨hseq.trans h.1, h.2.1, .inl ⟨hst, hunaware⟩⟩
        · next pause g tracer'' hp =>
          obtain ⟨_, -, rfl, -, rfl⟩ := Tracer.of_pauseAt hp
          refine ⟨rfl, hst, ?_, h.2.1, hunaware⟩
          rw [hseq, h.1]
    · rw [Tracer.consider_of_ne hne]
      simp only [Run.control_proceed]
      exact h.advance
  | cell =>
    have hphase := Run.phase_of_need_cell hn
    simp only [Worker.notes, Worker.move, hn]
    exact ⟨st, .nil st, h.answered (·.untraced (by simp [hphase]) (by simp [hphase]))
      (run.tracing_polled _)⟩
  | write text =>
    obtain ⟨thenRead, hphase⟩ := Run.phase_of_need_write hn
    simp only [Worker.notes, Worker.move, hn]
    exact ⟨st, .single (.did st _), h.answered
      (·.untraced (by simp [hphase]) (by simp [hphase])) run.tracing_shown⟩
  | clear =>
    have hphase := Run.phase_of_need_clear hn
    simp only [Worker.notes, Worker.move, hn]
    exact ⟨st, .single (.did st _), h.answered
      (·.untraced (by simp [hphase]) (by simp [hphase])) run.tracing_shown⟩
  | line =>
    simp only [Worker.notes, Worker.move, hn]
    exact ⟨st, .nil st, Run.phase_of_need_line hn, h⟩
  | done ending =>
    simp only [Worker.notes, Worker.move, hn]
    exact ⟨st, .nil st, h.2.1, h.2.2.mono fun _ => trivial⟩

theorem Fits.wait {pause : Pause} {wait : Suspension}
    (h : (v.along s).Fits st (.suspended run tracer pause wait)) :
    ∃ st', Runs st (Worker.notes (.suspended run tracer pause wait) s) st' ∧
      (v.along (Worker.wait run tracer pause wait s).2).Fits st'
        (Worker.wait run tracer pause wait s).1 := by
  obtain ⟨hpause, h⟩ := h
  obtain ⟨count, stand⟩ := st
  unfold Worker.notes
  match wait, h with
  | .arriving, ⟨hst, hseq, hgate, hunaware⟩ =>
    have hg : s.gate = none := hgate
    simp only [Suspension.notes, Worker.wait, Suspension.step, hg, Gate.install]
    exact ⟨_, .nil _, hpause, rfl, hst, hseq, rfl, hunaware.withGate _⟩
  | .publishing _, ⟨hmail, hst, hseq, hgate, hunaware⟩ =>
    obtain rfl : stand = .free := hst
    have he : s.events = some [] := hunaware.events
    simp only [Suspension.notes, Worker.wait, Suspension.step, he, Option.isSome_some, if_true,
      hmail]
    refine ⟨⟨count + 1, .told⟩, .single (hseq ▸ .published count), hpause, hseq,
      .inl ⟨rfl, hgate, pause, rfl, .inl ⟨hunaware.state, hunaware.errand, ?_⟩⟩⟩
    simp only [along, Shared.tell, he, Option.map_some, List.nil_append]
  | .waiting (some d), ⟨hseq, hst, hgate, hunaware⟩ =>
    obtain rfl : stand = .answered d := hst
    exact ⟨⟨count, Stage.afterAnswer d⟩, .single (hseq ▸ .consumed count d), hpause, hseq, rfl,
      hgate, hunaware⟩
  | .waiting none, h => exact ⟨_, .nil _, hpause, h⟩
  | .checking mail, ⟨hseq, h⟩ =>
    simp only [Suspension.notes, Worker.wait, Suspension.step]
    split
    · cases mail with
      | some d =>
        obtain ⟨hst, hgate, hunaware⟩ := h
        obtain rfl : stand = .answered d := hst
        exact ⟨⟨count, .shut false⟩, .single (hseq ▸ .outweighed count d), hpause, hseq,
          .inr ⟨rfl, hgate, .inl hunaware⟩⟩
      | none =>
        obtain ⟨hst, hgate, haware⟩ | ⟨d, hst, hgate, hanswering⟩ := h
        · obtain rfl : stand = .told := hst
          exact ⟨⟨count, .shut true⟩, .single (hseq ▸ .withdrawn count), hpause, hseq,
            .inl ⟨rfl, hgate, haware⟩⟩
        · obtain rfl : stand = .answered d := hst
          exact ⟨⟨count, .shut false⟩, .single (hseq ▸ .outweighed count d), hpause, hseq,
            .inr ⟨rfl, hgate, .inr (.inr ⟨d, hanswering⟩)⟩⟩
    · exact ⟨_, .nil _, hpause, hseq, h⟩
  | .leaving (.ok (.resumed d)), ⟨hseq, hst, hgate, hunaware⟩ =>
    have hg : s.gate = none := hgate
    refine ⟨_, .nil _, hpause, hseq, ?_, hst, hunaware.withGate _⟩
    simp [along, Worker.wait, Suspension.step, Gate.leave, hg]
  | .leaving (.ok .cancelled), ⟨hseq, h⟩ =>
    obtain ⟨hst, hgate, haware⟩ | ⟨hst, hgate, hloose⟩ := h
    · exact ⟨_, .nil _, hpause, hseq, if_pos hgate, ⟨_, hst⟩,
        .inr (.inl (haware.withGate _))⟩
    · have hg : s.gate = none := hgate
      refine ⟨_, .nil _, hpause, hseq, ?_, ⟨_, hst⟩, hloose.withGate _⟩
      simp [along, Worker.wait, Suspension.step, Gate.leave, hg]
  | .left (.ok (.resumed d)), ⟨hseq, hgate, hst, hunaware⟩ =>
    refine ⟨_, .nil _, hpause.symm.trans hseq, hgate, ?_⟩
    cases d with
    | continueStepping => exact .inl ⟨hst, hunaware⟩
    | stopDebugging =>
      exact .inr ⟨⟨false, hst⟩, Run.silent_control_untrace _, .inl hunaware⟩
  | .left (.ok .cancelled), ⟨hseq, hgate, hst, hloose⟩ =>
    exact ⟨_, .nil _, hpause.symm.trans hseq, hgate,
      .inr ⟨hst, Run.silent_control_cancel _, hseq ▸ hloose⟩⟩

theorem Fits.step {w : Worker} (h : (v.along s).Fits st w) :
    ∃ st', Runs st (w.notes s) st' ∧ (v.along (w.step b s).2).Fits st' (w.step b s).1 := by
  match w, h with
  | .loading, ⟨hst, hgate, hunaware⟩ =>
    subst hst
    refine ⟨_, .nil _, ?_⟩
    simp only [Worker.step, Worker.load]
    split
    · exact ⟨hgate, .inl ⟨rfl, hunaware⟩⟩
    · exact ⟨rfl, hgate, .inl ⟨rfl, hunaware⟩⟩
  | .running run tracer, h => exact h.move
  | .suspended run tracer pause wait, h => exact h.wait
  | .reading run tracer r, ⟨hphase, h⟩ =>
    cases ho : r.outcome? with
    | none =>
      simp only [Worker.notes, Worker.step, Worker.read, ho]
      exact ⟨st, .nil st, hphase, h⟩
    | some o =>
      simp only [Worker.notes, Worker.step, Worker.read, ho]
      have hrunning : (v.along s).Fits st (.running run tracer) := h
      exact ⟨st, (Runs.single (.did st _)).append (runs_raised st run _), hrunning.answered
        (·.untraced (by simp [hphase]) (by simp [hphase])) (run.tracing_received _)⟩
  | .concluding arena o, ⟨hgate, h⟩ =>
    refine ⟨st, .nil st, ?_⟩
    cases o <;> exact ⟨hgate, h⟩
  | .announcing arena o, ⟨hgate, h⟩ =>
    have hlisten : s.events.isSome = true := h.loose.isListening
    simp only [Worker.notes, hlisten, if_true]
    obtain ⟨count, stand⟩ := st
    have hfinished : Leads ⟨count, stand⟩ (.terminated o) ⟨count, .finished⟩ := by
      rcases h with ⟨hst, -⟩ | ⟨⟨late, hst⟩, -⟩
      · obtain rfl : stand = .free := hst
        exact .ended count o
      · obtain rfl : stand = .shut late := hst
        exact .shutDown count late o
    exact ⟨_, .single hfinished, rfl, hgate, .inl ⟨o, h.loose.tell⟩⟩
  | .finished arena, h => exact ⟨st, .nil st, h⟩

end Work

structure Unused (v : View) : Prop where
  state : v.state = .idle
  errand : v.errand = .none
  events : v.events = none
  gate : v.gate = none

def Suits (v : View) (log : List Note) : Option (Brief × Worker) → Prop
  | none => v.Unused ∧ Runs .first log .first
  | some (_, w) => ∃ st, Runs .first log st ∧ v.Fits st w

end View

def Stage.Complete (log : List Note) : Prop :=
  ∃ st, Runs .first log st ∧ st.stand = .finished

namespace System

structure Orderly (s : System) : Prop where
  past : ∀ log ∈ s.past, Stage.Complete log
  current : s.view.Suits s.log s.session.worker

theorem orderly_new (limit : Nat) (rules : Hint.Rules) : (new limit rules).Orderly where
  past := by simp [new]
  current := ⟨⟨rfl, rfl, rfl, rfl⟩, .nil _⟩

variable {s : System} {b : Brief} {w : Worker}

theorem Orderly.unused (h : s.Orderly) (hw : s.session.worker = none) :
    s.view.Unused ∧ Runs .first s.log .first := by
  have hc := h.current
  rwa [hw] at hc

theorem Orderly.fits (h : s.Orderly) (hw : s.session.worker = some (b, w)) :
    ∃ st, Runs .first s.log st ∧ s.view.Fits st w := by
  have hc := h.current
  rwa [hw] at hc

theorem Orderly.finished_of_not_active (h : s.Orderly) (hw : s.session.worker = some (b, w))
    (hactive : s.session.state.isActive = false) :
    Stage.Complete s.log ∧ s.session.shared.gate = none ∧ ∃ arena, w = .finished arena := by
  obtain ⟨st, hlog, hfits⟩ := h.fits hw
  rcases hfits.loose with ⟨k, hloose⟩ | ⟨hfinished, hgate, harena⟩
  · exact absurd hloose.isActive (Bool.eq_false_iff.1 hactive)
  · exact ⟨⟨st, hlog, hfinished⟩, hgate, harena⟩

theorem Orderly.concat {v : View} {log : List Note} {worker : Option (Brief × Worker)} {n : Note}
    (h : v.Suits log worker) (hn : ∀ st, Leads st n st) : v.Suits (log ++ [n]) worker := by
  cases worker with
  | none => exact ⟨h.1, h.2.append (.single (hn _))⟩
  | some bw =>
    obtain ⟨st, hlog, hfits⟩ := h
    exact ⟨st, hlog.append (.single (hn st)), hfits⟩

theorem Orderly.interrupt (h : s.Orderly) : (s.act .interrupt).Orderly :=
  ⟨h.past, concat h.current .interrupted⟩

theorem Orderly.terminal (h : s.Orderly) (f : Console → Console) :
    (s.act (.terminal f)).Orderly :=
  ⟨h.past, h.current⟩

theorem Orderly.start (h : s.Orderly) (job : Job) : (s.act (.start job)).Orderly := by
  obtain he | ⟨hactive, he⟩ := s.act_start job
  · rwa [he]
  · rw [he]
    cases hw : s.session.worker with
    | none =>
      refine ⟨?_, .first, .nil _, rfl, (h.unused hw).1.gate, ⟨_, rfl⟩, rfl, rfl⟩
      simpa [started, hw] using h.past
    | some bw =>
      obtain ⟨hcomplete, hgate, -⟩ := h.finished_of_not_active hw hactive
      refine ⟨?_, .first, .nil _, rfl, hgate, ⟨_, rfl⟩, rfl, rfl⟩
      simpa [started, hw] using ⟨hcomplete, h.past⟩

theorem Orderly.poll (h : s.Orderly) : (s.act .poll).Orderly := by
  obtain he | ⟨e, rest, herrand, hevents, he⟩ := s.act_poll
  · rwa [he]
  · rw [he]
    refine ⟨h.past, ?_⟩
    cases hw : s.session.worker with
    | none =>
      have hnone : s.session.shared.events = none := (h.unused hw).1.events
      rw [hnone] at hevents
      cases hevents
    | some bw =>
      obtain ⟨st, hlog, hfits⟩ := h.fits hw
      cases e with
      | paused p =>
        simp only [taken, Session.receive, hw]
        exact ⟨st, hlog, hfits.turns (View.turns_take herrand hevents)⟩
      | terminated o =>
        simp only [taken, Session.receive, hw]
        exact ⟨st, hlog, hfits.finished herrand hevents⟩

theorem Orderly.resume (h : s.Orderly) (d : Decision) : (s.act (.resume d)).Orderly := by
  obtain he | ⟨p, herrand, hs, he⟩ := s.act_resume d
  · rwa [he]
  · rw [he]
    refine ⟨h.past, ?_⟩
    cases hw : s.session.worker with
    | none =>
      have hidle : s.session.state = .idle := (h.unused hw).1.state
      rw [hidle] at hs
      cases hs
    | some bw =>
      obtain ⟨st, hlog, hfits⟩ := h.fits hw
      have hne (d' : Decision) : s.view.errand ≠ .sending p d' := by
        simp [view, herrand]
      simp only [asked, Session.withGallery, hw, Option.map_some]
      exact ⟨st, hlog, (hfits.turns (View.turns_errand hs hne (.inr ⟨d, rfl⟩))).withArena _⟩

theorem Orderly.fits_of_errand (h : s.Orderly) (he : s.errand ≠ .none) :
    ∃ b w st, s.session.worker = some (b, w) ∧ Runs .first s.log st ∧ s.view.Fits st w := by
  cases hw : s.session.worker with
  | none => exact (he (h.unused hw).1.errand).elim
  | some bw =>
    obtain ⟨st, hlog, hfits⟩ := h.fits hw
    exact ⟨bw.1, bw.2, st, rfl, hlog, hfits⟩

theorem Orderly.proceed (h : s.Orderly) : (s.act .proceed).Orderly := by
  obtain he | ⟨p, d, e, herrand, hg, he⟩ | ⟨p, d, gate, herrand, hg, he⟩ |
    ⟨p, d, herrand, he⟩ := s.act_proceed <;> rw [he]
  · exact h
  · obtain ⟨b, w, st, hw, hlog, hfits⟩ := h.fits_of_errand (by simp [herrand])
    refine ⟨h.past, ?_⟩
    simp only [refused, hw]
    cases hslot : s.session.shared.gate with
    | none =>
      rw [hslot] at hg
      cases hg
      have hne (d' : Decision) : s.view.errand ≠ .sending p d' := by simp [view, herrand]
      have hturns := View.turns_errand (hfits.state_of_asking herrand) hne (.inl rfl)
      exact ⟨st, hlog.append (.single (.refused st)), hfits.turns hturns⟩
    | some k =>
      obtain ⟨rfl, -⟩ := hfits.accept herrand hslot
      rw [hslot, Gate.resolve, if_pos rfl] at hg
      cases hg
  · obtain ⟨b, w, st, hw, hlog, hfits⟩ := h.fits_of_errand (by simp [herrand])
    refine ⟨h.past, ?_⟩
    simp only [accepted, hw]
    cases hslot : s.session.shared.gate with
    | none =>
      rw [hslot] at hg
      cases hg
    | some k =>
      obtain ⟨rfl, st', hn, hfits⟩ := hfits.accept herrand hslot
      rw [hslot, Gate.resolve, if_pos rfl] at hg
      cases hg
      exact ⟨st', hlog.append (.single hn), hfits⟩
  · obtain ⟨b, w, st, hw, hlog, hfits⟩ := h.fits_of_errand (by simp [herrand])
    refine ⟨h.past, ?_⟩
    simp only [sent, hw, Option.map_some]
    exact ⟨st, hlog, hfits.reply herrand⟩

theorem Orderly.work (h : s.Orderly) : (s.act .work).Orderly := by
  obtain he | ⟨b, w, hw, he⟩ := s.act_work
  · rwa [he]
  · rw [he]
    obtain ⟨st, hlog, hfits⟩ := h.fits hw
    obtain ⟨st', hn, hfits⟩ := View.Fits.step (v := s.view) (b := b) (s := s.session.shared) hfits
    exact ⟨h.past, st', hlog.append hn, hfits⟩

theorem Orderly.act (h : s.Orderly) (a : Action) : (s.act a).Orderly := by
  cases a with
  | start job => exact h.start job
  | poll => exact h.poll
  | resume d => exact h.resume d
  | proceed => exact h.proceed
  | interrupt => exact h.interrupt
  | work => exact h.work
  | terminal f => exact h.terminal f

theorem Reached.orderly (h : s.Reached) : s.Orderly :=
  h.induction orderly_new fun _ a hs => hs.act a

/-- An answer to a pause is about to be sent to it, or lies in its mail. -/
def UnderWay (s : System) (k : Nat) (d : Decision) : Prop :=
  ∃ b w, s.session.worker = some (b, w) ∧
    ((∃ p : Pause, p.seq = k ∧ s.errand = .sending p d) ∧ w.mail? = some (k, none) ∨
      s.errand = .none ∧ w.mail? = some (k, some d))

/-- A pause has ended, with this answer or as cancelled. -/
def Ends (s : System) (k : Nat) (d : Decision) : Prop :=
  .consumed k d ∈ s.log ∨ .withdrawn k ∈ s.log

/-- What holds of all runs of a session: the last one, whether it has ended or not, and those
before it, which have. In the last one each accepted answer has ended its pause, unless that was
cancelled, or is under way to it, and then it comes there in three steps. The end of a run is told
when it has ended, and not before. -/
structure Kept (s : System) : Prop where
  past : ∀ log ∈ s.past, Stage.Protocol log ∧ ∃ o, .terminated o ∈ log
  current : Stage.Protocol s.log
  answered : ∀ k d, .accepted k d ∈ s.log → s.Ends k d ∨ s.UnderWay k d
  arrives : ∀ k d, s.UnderWay k d → (s.acts [.proceed, .work, .work]).Ends k d
  ended : ∀ b w, s.session.worker = some (b, w) →
    ((∃ arena, w = .finished arena) ↔ ∃ o, .terminated o ∈ s.log)

section UnderWay

variable {k : Nat} {d : Decision}

theorem of_mail? {m : Option Decision} (h : w.mail? = some (k, m)) :
    ∃ run t p, p.seq = k ∧
      (w = .suspended run t p (.waiting m) ∨ w = .suspended run t p (.checking m)) := by
  unfold Worker.mail? at h
  split at h
  · cases h
    exact ⟨_, _, _, rfl, .inl rfl⟩
  · cases h
    exact ⟨_, _, _, rfl, .inr rfl⟩
  · cases h

theorem mail?_deliver {m : Option Decision} (h : w.mail? = some (k, m)) :
    (w.deliver d).mail? = some (k, some d) := by
  obtain ⟨run, t, p, rfl, rfl | rfl⟩ := of_mail? h <;> rfl

/-- Mail is found at the next look, or at the one after a look at a cell that is not set. -/
theorem notes_of_mail (h : w.mail? = some (k, some d)) (b : Brief) (s : Shared) :
    (.consumed k d ∈ w.notes s ∨ .withdrawn k ∈ w.notes s) ∨
      .consumed k d ∈ (w.step b s).1.notes (w.step b s).2 := by
  obtain ⟨run, t, p, rfl, rfl | rfl⟩ := of_mail? h
  · exact .inl (.inl List.mem_cons_self)
  · cases hc : s.cell.isSet <;>
      simp [Worker.notes, Worker.step, Worker.wait, Suspension.notes, Suspension.step, hc]

theorem UnderWay.arrives (h : s.UnderWay k d) : (s.acts [.proceed, .work, .work]).Ends k d := by
  obtain ⟨b, w, hw, hmail⟩ := h
  obtain ⟨w, hw, hmail⟩ : ∃ w, (s.act .proceed).session.worker = some (b, w) ∧
      w.mail? = some (k, some d) := by
    obtain ⟨⟨p, -, herrand⟩, hmail⟩ | ⟨herrand, hmail⟩ := hmail
    · exact ⟨w.deliver d, by simp [act, proceed, herrand, hw], mail?_deliver hmail⟩
    · exact ⟨w, by simp [act, proceed, herrand, hw], hmail⟩
  change (((s.act .proceed).act .work).act .work).Ends k d
  generalize s.act .proceed = s at hw
  rw [act_work_eq hw, act_work_eq (s := s.worked b w) rfl]
  rcases notes_of_mail hmail b s.session.shared with (h | h) | h
  · exact .inl (List.mem_append_left _ (List.mem_append_right _ h))
  · exact .inr (List.mem_append_left _ (List.mem_append_right _ h))
  · exact .inl (List.mem_append_right _ h)

theorem Orderly.underWay (h : s.Orderly) (hd : .accepted k d ∈ s.log) :
    s.Ends k d ∨ s.UnderWay k d := by
  cases hw : s.session.worker with
  | none =>
    refine .inl (((h.unused hw).2.of_accepted hd).resolve_right ?_)
    simp [Stage.first]
  | some bw =>
    obtain ⟨st, hlog, hfits⟩ := h.fits hw
    refine (hlog.of_accepted hd).imp_right ?_
    rintro ⟨rfl, hst⟩
    exact ⟨bw.1, bw.2, hw, hfits.underWay hst⟩

end UnderWay

theorem Orderly.kept (h : s.Orderly) : s.Kept where
  past log hlog := by
    obtain ⟨st, hst, hfinished⟩ := h.past log hlog
    exact ⟨hst.protocol, hst.terminated_mem nofun hfinished⟩
  current := by
    cases hw : s.session.worker with
    | none => exact (h.unused hw).2.protocol
    | some bw =>
      obtain ⟨st, hlog, -⟩ := h.fits hw
      exact hlog.protocol
  answered _ _ hd := h.underWay hd
  arrives _ _ hd := hd.arrives
  ended b w hw := by
    obtain ⟨st, hlog, hfits⟩ := h.fits hw
    exact hfits.finished_iff.trans
      ⟨hlog.terminated_mem nofun, fun ⟨_, ho⟩ => hlog.stand_of_mem_terminated ho⟩

/-- In whatever order the two sides of a session move, over however many runs, its pauses are
told, answered and ended in their order. -/
theorem protocol_kept (limit : Nat) (rules : Hint.Rules) (as : List Action) :
    ((new limit rules).acts as).Kept :=
  Orderly.kept (Reached.orderly ⟨limit, rules, as, rfl⟩)

def answered : List Action :=
  .start ⟨"x = 1\n", "<assignment>", .debug⟩ :: List.replicate 7 .work ++
    [.poll, .resume .continueStepping, .proceed]

def assigned : List Action :=
  answered ++ .proceed :: List.replicate 21 .work

theorem protocol_kept_assigned :
    let s := (new 10 Hint.standard).acts answered
    let s' := (new 10 Hint.standard).acts assigned
    .published 1 ∈ s.log ∧ .accepted 1 .continueStepping ∈ s.log ∧
      s.UnderWay 1 .continueStepping ∧
      .consumed 1 .continueStepping ∈ s'.log ∧ (∃ o, .terminated o ∈ s'.log) ∧
      ∃ b arena, s'.session.worker = some (b, .finished arena) := by
  intro s s'
  have hkept : s.Kept := protocol_kept 10 Hint.standard answered
  have hkept' : s'.Kept := protocol_kept 10 Hint.standard assigned
  have hpublished : s.log.filterMap Note.published? = [1] := by decide +kernel
  have haccepted : s.log.any (fun
      | .accepted k d => k = 1 && d = .continueStepping
      | _ => false) = true := by decide +kernel
  have hopen : s.log.all (fun
      | .consumed _ _ | .withdrawn _ => false
      | _ => true) = true := by decide +kernel
  have hconsumed : s'.log.any (fun
      | .consumed k d => k = 1 && d = .continueStepping
      | _ => false) = true := by decide +kernel
  have hfinished : s'.session.worker.any (fun
      | (_, .finished _) => true
      | _ => false) = true := by decide +kernel
  have haccepted : .accepted 1 .continueStepping ∈ s.log := by
    obtain ⟨n, hn, heq⟩ := List.any_eq_true.1 haccepted
    cases n <;> simp_all
  have hunended : ¬ s.Ends 1 .continueStepping := by
    rw [List.all_eq_true] at hopen
    rintro (h | h) <;> cases hopen _ h
  obtain ⟨⟨b, w⟩, hw, hfinished⟩ := (Option.any_eq_true _ _).1 hfinished
  obtain ⟨arena, rfl⟩ : ∃ arena, w = .finished arena := by
    cases w <;> simp_all
  refine ⟨?_, haccepted, (hkept.answered _ _ haccepted).resolve_left hunended, ?_,
    (hkept'.ended _ _ hw).1 ⟨arena, rfl⟩, b, arena, hw⟩
  · obtain ⟨n, hn, heq⟩ := List.mem_filterMap.1 (hpublished ▸ List.mem_singleton_self 1)
    cases n <;> simp_all [Note.published?]
  · obtain ⟨n, hn, heq⟩ := List.any_eq_true.1 hconsumed
    cases n <;> simp_all

end System

end Stepwise
