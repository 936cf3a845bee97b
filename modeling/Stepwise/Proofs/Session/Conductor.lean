import Stepwise.Proofs.Session.Refusals

/-! A controller that conducts one run to its end. It takes the events of the run as they come; at
a pause it gives an answer, or interrupts the run instead. At any time between two of its steps
the run may move, the terminal may change and an interrupt may come from elsewhere. Which answers
are given, and when, is left open. -/

namespace Stepwise

namespace System

variable {s : System} {p : Pause} {d : Decision}

theorem act_start_eq (h : s.errand = .none) (hidle : s.session.isActive = false) (job : Job) :
    s.act (.start job) = s.started job := by
  have hstart : s.session.start job = .ok (s.started job).session := if_neg (by simp [hidle])
  simp only [act, h, hstart]
  rfl

theorem act_poll_eq (h : s.errand = .none) {e : SessionEvent} {rest : List SessionEvent}
    (he : s.session.shared.events = some (e :: rest)) : s.act .poll = s.taken e rest := by
  simp only [act, h, Session.poll, he]
  obtain ⟨session, errand, log, past, effort⟩ := s
  obtain rfl : errand = .none := h
  rfl

theorem act_resume_eq (h : s.errand = .none) (hs : s.session.state = .paused p) :
    s.act (.resume d) = s.asked p d := by
  simp only [act, h, hs]
  rfl

theorem act_proceed_of_error (h : s.errand = .asking p d) {e : DebugFault}
    (he : s.session.shared.gate.resolve p.seq = .error e) : s.act .proceed = s.refused e := by
  simp only [act, proceed, h, he]
  rfl

theorem act_proceed_of_ok (h : s.errand = .asking p d) {gate : Gate}
    (he : s.session.shared.gate.resolve p.seq = .ok gate) :
    s.act .proceed = s.accepted p d gate := by
  simp only [act, proceed, h, he]
  rfl

theorem act_proceed_of_sending (h : s.errand = .sending p d) : s.act .proceed = s.sent d := by
  simp only [act, proceed, h]
  rfl

theorem Reached.errand_of_not_active (h : s.Reached) (hidle : s.session.isActive = false) :
    s.errand = .none := by
  cases hw : s.session.worker with
  | none => exact (h.orderly.unused hw).1.errand
  | some bw =>
    obtain ⟨st, -, hfits⟩ := h.orderly.fits hw
    rcases hfits.loose with ⟨k, hloose⟩ | ⟨-, -, arena, harena⟩
    · exact absurd hloose.isActive (Bool.eq_false_iff.1 hidle)
    · rw [harena] at hfits
      obtain ⟨-, -, ⟨o, hloose⟩ | ⟨herrand, -⟩⟩ := hfits
      · exact absurd hloose.isActive (Bool.eq_false_iff.1 hidle)
      · exact herrand

theorem Reached.exists_events (h : s.Reached) (hactive : s.session.isActive = true) :
    ∃ events, s.session.shared.events = some events := by
  cases hw : s.session.worker with
  | none =>
    have hidle : s.session.state = .idle := (h.orderly.unused hw).1.state
    rw [Session.isActive, hidle] at hactive
    cases hactive
  | some bw =>
    obtain ⟨st, -, hfits⟩ := h.orderly.fits hw
    rcases hfits.loose with ⟨k, hloose⟩ | ⟨-, -, arena, harena⟩
    · exact Option.isSome_iff_exists.1 hloose.isListening
    · rw [harena] at hfits
      obtain ⟨-, -, ⟨o, hloose⟩ | ⟨-, -, o, hstate⟩⟩ := hfits
      · exact Option.isSome_iff_exists.1 hloose.isListening
      · have hstate : s.session.state = .terminated o := hstate
        rw [Session.isActive, hstate] at hactive
        cases hactive

end System

/-- The controller waits for the run, decides on the answer to a pause, gives it, or is done. -/
inductive Conductor.Stand
  | awaiting
  | choosing (p : Pause)
  | answering
  | ended (o : Outcome)
  | failed (e : SessionFault)

structure Conductor where
  system : System
  stand : Conductor.Stand

namespace Conductor

/-- The run takes a step or is interrupted from elsewhere, or the controller looks for an event,
answers a pause or interrupts the run instead, or goes on with an answer. -/
inductive Move
  | work
  | interrupt
  | terminal (f : Console → Console)
  | look
  | answer (d : Decision)
  | quit
  | proceed

def look (c : Conductor) : Conductor :=
  match c.system.session.poll with
  | .error e => { c with stand := .failed e }
  | .ok (none, _) => c
  | .ok (some (.paused p), _) => ⟨c.system.act .poll, .choosing p⟩
  | .ok (some (.terminated o), _) => ⟨c.system.act .poll, .ended o⟩

def answer (c : Conductor) (d : Decision) : Conductor :=
  match c.system.session.state with
  | .paused _ => ⟨c.system.act (.resume d), .answering⟩
  | _ => { c with stand := .failed .notPaused }

def proceed (c : Conductor) : Conductor :=
  match c.system.errand with
  | .none => c
  | .asking p _ =>
    match c.system.session.shared.gate.resolve p.seq with
    | .error e => ⟨c.system.act .proceed, .failed (.debug e)⟩
    | .ok _ => ⟨c.system.act .proceed, .answering⟩
  | .sending _ _ => ⟨c.system.act .proceed, .awaiting⟩

/-- Does what the move says where that is possible, and else nothing. -/
def act (c : Conductor) : Move → Conductor
  | .work => { c with system := c.system.act .work }
  | .interrupt => { c with system := c.system.act .interrupt }
  | .terminal f => { c with system := c.system.act (.terminal f) }
  | .look =>
    match c.stand with
    | .awaiting => c.look
    | _ => c
  | .answer d =>
    match c.stand with
    | .choosing _ => c.answer d
    | _ => c
  | .quit =>
    match c.stand with
    | .choosing _ => ⟨c.system.act .interrupt, .awaiting⟩
    | _ => c
  | .proceed =>
    match c.stand with
    | .answering => c.proceed
    | _ => c

def moves (c : Conductor) (ms : List Move) : Conductor :=
  ms.foldl act c

theorem moves_append (c : Conductor) (ms ms' : List Move) :
    c.moves (ms ++ ms') = (c.moves ms).moves ms' :=
  List.foldl_append ..

/-- Starts a run and waits for its events. -/
def begin (s : System) (job : Job) : Conductor :=
  match s.session.start job with
  | .error e => ⟨s, .failed e⟩
  | .ok _ => ⟨s.act (.start job), .awaiting⟩

/-- The controller is about to ask the gate about a pause that the run has withdrawn and left. -/
def IsLate (c : Conductor) : Prop :=
  ∃ p d, c.system.errand = .asking p d ∧ .withdrawn p.seq ∈ c.system.log ∧
    c.system.session.shared.gate = none

/-- An answer was refused, for its pause had been withdrawn on an interrupt. -/
structure Refused (s : System) (e : SessionFault) : Prop where
  fault : e = .debug .noPendingPause
  pause : ∃ p, s.session.state = .paused p ∧ .withdrawn p.seq ∈ s.log ∧
    ∀ d, .accepted p.seq d ∉ s.log
  interrupted : .interrupted ∈ s.log

def Suits (s : System) : Stand → Prop
  | .awaiting => s.errand = .none ∧ s.session.isActive = true
  | .choosing p => s.errand = .none ∧ s.session.state = .paused p
  | .answering => s.errand ≠ .none
  | .ended o => s.errand = .none ∧ s.session.state = .terminated o ∧ .terminated o ∈ s.log
  | .failed e => s.errand = .none ∧ Refused s e

structure Steady (c : Conductor) : Prop where
  reached : c.system.Reached
  suits : Suits c.system c.stand

section Steady

variable {s : System} {c : Conductor}

theorem Suits.aside {s' : System} {stand : Stand} (h : Suits s stand)
    (hstate : s'.session.state = s.session.state) (herrand : s'.errand = s.errand)
    {notes : List Note} (hlog : s'.log = s.log ++ notes)
    (hnotes : ∀ k d, .accepted k d ∉ notes) : Suits s' stand := by
  have hmem {n : Note} (hn : n ∈ s.log) : n ∈ s'.log := hlog ▸ List.mem_append_left _ hn
  cases stand with
  | awaiting => exact ⟨herrand.trans h.1, (congrArg SessionState.isActive hstate).trans h.2⟩
  | choosing p => exact ⟨herrand.trans h.1, hstate.trans h.2⟩
  | answering => exact fun he => h (herrand.symm.trans he)
  | ended o => exact ⟨herrand.trans h.1, hstate.trans h.2.1, hmem h.2.2⟩
  | failed e =>
    obtain ⟨hnone, hfault, ⟨p, hp, hwithdrawn, hunanswered⟩, hinterrupted⟩ := h
    refine ⟨herrand.trans hnone, hfault, ⟨p, hstate.trans hp, hmem hwithdrawn, fun d hd => ?_⟩,
      hmem hinterrupted⟩
    rw [hlog] at hd
    exact (List.mem_append.1 hd).elim (hunanswered d) (hnotes _ d)

theorem stand_begin (hidle : s.session.isActive = false) (job : Job) :
    (begin s job).stand = .awaiting := by
  have hstart : s.session.start job = .ok (s.started job).session := if_neg (by simp [hidle])
  simp only [begin, hstart]

theorem begin_eq (h : s.Reached) (hidle : s.session.isActive = false) (job : Job) :
    begin s job = ⟨s.started job, .awaiting⟩ := by
  have hstart : s.session.start job = .ok (s.started job).session := if_neg (by simp [hidle])
  simp only [begin, hstart, System.act_start_eq (h.errand_of_not_active hidle) hidle]

theorem steady_begin (h : s.Reached) (hidle : s.session.isActive = false) (job : Job) :
    (begin s job).Steady := by
  have hreached := h.act (.start job)
  rw [System.act_start_eq (h.errand_of_not_active hidle) hidle] at hreached
  rw [begin_eq h hidle]
  exact ⟨hreached, rfl, rfl⟩

theorem act_look (hstand : c.stand = .awaiting) : c.act .look = c.look := by
  simp only [act, hstand]

theorem look_eq {events : List SessionEvent}
    (he : c.system.session.shared.events = some events) :
    c.look = match events with
      | [] => c
      | .paused p :: _ => ⟨c.system.act .poll, .choosing p⟩
      | .terminated o :: _ => ⟨c.system.act .poll, .ended o⟩ := by
  unfold look
  match events with
  | [] | .paused p :: _ | .terminated o :: _ => simp only [Session.poll, he]

theorem Steady.look (h : c.Steady) (hstand : c.stand = .awaiting) : c.look.Steady := by
  have hsuits := h.suits
  rw [hstand] at hsuits
  obtain ⟨herrand, hactive⟩ := hsuits
  obtain ⟨events, hevents⟩ := h.reached.exists_events hactive
  rw [look_eq hevents]
  match events with
  | [] => exact h
  | .paused p :: rest =>
    refine ⟨h.reached.act .poll, ?_⟩
    rw [System.act_poll_eq herrand hevents]
    exact ⟨herrand, rfl⟩
  | .terminated o :: rest =>
    refine ⟨h.reached.act .poll, ?_⟩
    rw [System.act_poll_eq herrand hevents]
    exact ⟨herrand, rfl, h.reached.entered.queued _ hevents _ List.mem_cons_self⟩

theorem Steady.answer (h : c.Steady) {p : Pause} (hstand : c.stand = .choosing p)
    (d : Decision) : (c.answer d).Steady := by
  have hsuits := h.suits
  rw [hstand] at hsuits
  obtain ⟨herrand, hstate⟩ := hsuits
  simp only [Conductor.answer, hstate]
  refine ⟨h.reached.act (.resume d), ?_⟩
  rw [System.act_resume_eq herrand hstate]
  exact fun he => nomatch he

theorem Steady.proceed (h : c.Steady) (hstand : c.stand = .answering) : c.proceed.Steady := by
  have hsuits := h.suits
  rw [hstand] at hsuits
  cases herrand : c.system.errand with
  | none => exact (hsuits herrand).elim
  | asking p d =>
    cases hg : c.system.session.shared.gate.resolve p.seq with
    | error e =>
      obtain ⟨rfl, hstate, hinterrupted, hwithdrawn, hunanswered⟩ := h.reached.refused herrand hg
      simp only [Conductor.proceed, herrand, hg]
      refine ⟨h.reached.act .proceed, ?_⟩
      rw [System.act_proceed_of_error herrand hg]
      refine ⟨rfl, rfl, ⟨p, hstate, List.mem_append_left _ hwithdrawn, fun d hd => ?_⟩,
        List.mem_append_left _ hinterrupted⟩
      rcases List.mem_append.1 hd with hd | hd
      · exact hunanswered d hd
      · simp at hd
    | ok gate =>
      simp only [Conductor.proceed, herrand, hg]
      refine ⟨h.reached.act .proceed, ?_⟩
      rw [System.act_proceed_of_ok herrand hg]
      exact fun he => nomatch he
  | sending p d =>
    simp only [Conductor.proceed, herrand]
    refine ⟨h.reached.act .proceed, ?_⟩
    rw [System.act_proceed_of_sending herrand]
    exact ⟨rfl, rfl⟩

theorem Steady.work (h : c.Steady) : (c.act .work).Steady := by
  refine ⟨h.reached.act .work, ?_⟩
  change Suits (c.system.act .work) c.stand
  obtain he | ⟨b, w, -, he⟩ := c.system.act_work
  · rw [he]
    exact h.suits
  · rw [he]
    exact h.suits.aside rfl rfl rfl (w.accepted_notMem_notes _)

theorem Steady.interrupt (h : c.Steady) : (c.act .interrupt).Steady :=
  ⟨h.reached.act .interrupt, h.suits.aside rfl rfl rfl (by simp)⟩

theorem Steady.quit (h : c.Steady) {p : Pause} (hstand : c.stand = .choosing p) :
    Steady ⟨c.system.act .interrupt, .awaiting⟩ := by
  have hsuits := h.interrupt.suits
  change Suits (c.system.act .interrupt) c.stand at hsuits
  rw [hstand] at hsuits
  exact ⟨h.reached.act .interrupt, hsuits.1, congrArg SessionState.isActive hsuits.2⟩

theorem Steady.act (h : c.Steady) (m : Move) : (c.act m).Steady := by
  cases m with
  | work => exact h.work
  | interrupt => exact h.interrupt
  | terminal f =>
    exact ⟨h.reached.act (.terminal f), h.suits.aside rfl rfl (List.append_nil _).symm (by simp)⟩
  | look =>
    simp only [Conductor.act]
    split
    · next hstand => exact h.look hstand
    · exact h
  | answer d =>
    simp only [Conductor.act]
    split
    · next hstand => exact h.answer hstand d
    · exact h
  | quit =>
    simp only [Conductor.act]
    split
    · next hstand => exact h.quit hstand
    · exact h
  | proceed =>
    simp only [Conductor.act]
    split
    · next hstand => exact h.proceed hstand
    · exact h

theorem Steady.moves (h : c.Steady) (ms : List Move) : (c.moves ms).Steady := by
  induction ms generalizing c with
  | nil => exact h
  | cons m ms ih => exact ih (h.act m)

theorem Steady.answering (h : c.Steady) (herrand : c.system.errand ≠ .none) :
    c.stand = .answering := by
  have hsuits := h.suits
  cases hstand : c.stand with
  | answering => rfl
  | awaiting | choosing | ended | failed =>
    rw [hstand] at hsuits
    exact (herrand hsuits.1).elim

theorem Steady.fails (h : c.Steady) {m : Move} {e : SessionFault}
    (hc : ∀ e, c.stand ≠ .failed e) (he : (c.act m).stand = .failed e) :
    m = .proceed ∧ c.IsLate := by
  cases m with
  | work | interrupt | terminal => exact (hc e he).elim
  | look =>
    simp only [Conductor.act] at he
    split at he
    · next hstand =>
      have hsuits := h.suits
      rw [hstand] at hsuits
      obtain ⟨events, hevents⟩ := h.reached.exists_events hsuits.2
      rw [look_eq hevents] at he
      match events with
      | [] => exact (hc e he).elim
      | .paused p :: rest | .terminated o :: rest => cases he
    · exact (hc e he).elim
  | answer d =>
    simp only [Conductor.act] at he
    split at he
    · next p hstand =>
      have hsuits := h.suits
      rw [hstand] at hsuits
      simp only [Conductor.answer, hsuits.2] at he
      cases he
    · exact (hc e he).elim
  | quit =>
    simp only [Conductor.act] at he
    split at he
    · cases he
    · exact (hc e he).elim
  | proceed =>
    refine ⟨rfl, ?_⟩
    simp only [Conductor.act] at he
    split at he
    · next hstand =>
      cases herrand : c.system.errand with
      | none =>
        simp only [Conductor.proceed, herrand] at he
        exact (hc e he).elim
      | asking p d =>
        cases hg : c.system.session.shared.gate.resolve p.seq with
        | error e' =>
          obtain ⟨rfl, -, -, hwithdrawn, -⟩ := h.reached.refused herrand hg
          refine ⟨p, d, herrand, hwithdrawn, ?_⟩
          cases hslot : c.system.session.shared.gate with
          | none => rfl
          | some k =>
            rw [hslot, Gate.resolve] at hg
            split at hg <;> cases hg
        | ok gate =>
          simp only [Conductor.proceed, herrand, hg] at he
          cases he
      | sending p d =>
        simp only [Conductor.proceed, herrand] at he
        cases he
    · exact (hc e he).elim

theorem Steady.proceed_of_isLate (h : c.Steady) (hc : c.IsLate) :
    (c.act .proceed).stand = .failed (.debug .noPendingPause) := by
  obtain ⟨p, d, herrand, -, hgate⟩ := hc
  simp only [Conductor.act, h.answering (by simp [herrand]), Conductor.proceed, herrand, hgate,
    Gate.resolve]

theorem stand_moves_of_failed {e : SessionFault} (hc : c.stand = .failed e) (ms : List Move) :
    (c.moves ms).stand = .failed e := by
  induction ms generalizing c with
  | nil => exact hc
  | cons m ms ih =>
    refine ih ?_
    cases m with
    | work | interrupt | terminal => exact hc
    | look | answer | quit | proceed => simp only [act, hc]

theorem Steady.failed_iff (h : c.Steady) (hc : ∀ e, c.stand ≠ .failed e) (ms : List Move) :
    (∃ e, (c.moves ms).stand = .failed e) ↔
      ∃ pre post, ms = pre ++ .proceed :: post ∧ (c.moves pre).IsLate := by
  constructor
  · rintro ⟨e, he⟩
    induction ms generalizing c with
    | nil => exact (hc e he).elim
    | cons m ms ih =>
      by_cases hm : ∃ e', (c.act m).stand = .failed e'
      · obtain ⟨e', hm⟩ := hm
        obtain ⟨rfl, hlate⟩ := h.fails hc hm
        exact ⟨[], ms, rfl, hlate⟩
      · obtain ⟨pre, post, rfl, hlate⟩ := ih (h.act m) (fun e' he' => hm ⟨e', he'⟩) he
        exact ⟨m :: pre, post, rfl, hlate⟩
  · rintro ⟨pre, post, rfl, hlate⟩
    refine ⟨.debug .noPendingPause, ?_⟩
    rw [moves_append]
    exact stand_moves_of_failed ((h.moves pre).proceed_of_isLate hlate) post

end Steady

/-- How a run ends for its controller: with the outcome that the run told and with the session at
its end, or by a fault, but only if an answer came after its pause had been withdrawn. A controller
that waits for a run that has ended has something to take. -/
structure Conducts (c : Conductor) : Prop where
  ended : ∀ o, c.stand = .ended o →
    c.system.session.state = .terminated o ∧ .terminated o ∈ c.system.log
  failed : ∀ e, c.stand = .failed e → Refused c.system e
  waits : c.stand = .awaiting → ∀ b arena,
    c.system.session.worker = some (b, .finished arena) → c.system.session.shared.hasEvent = true

theorem Steady.conducts {c : Conductor} (h : c.Steady) : c.Conducts where
  ended o hstand := by
    have hsuits := h.suits
    rw [hstand] at hsuits
    exact hsuits.2
  failed e hstand := by
    have hsuits := h.suits
    rw [hstand] at hsuits
    exact hsuits.2
  waits hstand b arena hw := by
    have hsuits := h.suits
    rw [hstand] at hsuits
    obtain ⟨st, -, -, -, h⟩ := h.reached.orderly.fits hw
    obtain ⟨o, h⟩ | ⟨-, -, o, hstate⟩ := h
    · have hqueue := h.queue
      change c.system.session.shared.events = _ ∨ ∃ p, c.system.session.shared.events = _ at hqueue
      obtain hqueue | ⟨p, hqueue⟩ := hqueue
      · rw [Shared.hasEvent, Shared.event?, hqueue]
        rfl
      · rw [Shared.hasEvent, Shared.event?, hqueue]
        rfl
    · have hactive := hsuits.2
      have hstate : c.system.session.state = .terminated o := hstate
      rw [Session.isActive, hstate] at hactive
      cases hactive

/-- However a run, interrupts and a controller that conducts it move in turn, the controller ends
with the outcome that the run told and the session at its end, unless it fails. It fails if it
asks the gate about a pause that the run has withdrawn and left, and only then; the session is
left at the pause then. -/
theorem ends_as_told {s : System} (h : s.Reached) (hidle : s.session.isActive = false) (job : Job)
    (ms : List Move) : ((begin s job).moves ms).Conducts ∧
      ((∃ e, ((begin s job).moves ms).stand = .failed e) ↔
        ∃ pre post, ms = pre ++ .proceed :: post ∧ ((begin s job).moves pre).IsLate) := by
  have hsteady := steady_begin h hidle job
  refine ⟨(hsteady.moves ms).conducts, hsteady.failed_iff (fun e he => ?_) ms⟩
  rw [stand_begin hidle] at he
  cases he

def assignments : Job :=
  ⟨"x = 1\ny = 2\n", "<assignments>", .debug⟩

def interruptedAtPause (ms : List Move) : Conductor :=
  (begin (.new 10 Hint.standard) assignments).moves
    (List.replicate 20 Move.work ++ [Move.look, .interrupt] ++ ms)

def isCancelled (c : Conductor) : Bool :=
  match c.stand with
  | .ended .cancelled => true
  | _ => false

theorem ends_as_told_quit :
    (interruptedAtPause ([Move.quit] ++ List.replicate 20 Move.work ++ [Move.look])).stand =
        .ended .cancelled ∧
      (interruptedAtPause
        ([Move.quit] ++ List.replicate 20 Move.work ++ [Move.look])).system.session.state =
        .terminated .cancelled := by
  have hcancelled : (interruptedAtPause
      ([Move.quit] ++ List.replicate 20 Move.work ++ [Move.look])).isCancelled = true := by
    decide +kernel
  have hended := (ends_as_told (System.reached_new 10 Hint.standard) rfl assignments
    (List.replicate 20 Move.work ++ [Move.look, .interrupt] ++
      ([Move.quit] ++ List.replicate 20 Move.work ++ [Move.look]))).1.ended .cancelled
  unfold isCancelled at hcancelled
  split at hcancelled
  · next hstand => exact ⟨hstand, (hended hstand).1⟩
  · cases hcancelled

def isLeftAtPause (c : Conductor) : Bool :=
  match c.stand, c.system.session.state with
  | .failed (.debug .noPendingPause), .paused _ => true
  | _, _ => false

/-- The run observes the interrupt and leaves the pause before the answer to it: the answer is
refused, and the session is left at the pause. -/
theorem refused_late : ∃ ms p, (interruptedAtPause ms).stand = .failed (.debug .noPendingPause) ∧
    (interruptedAtPause ms).system.session.state = .paused p := by
  refine ⟨List.replicate 20 Move.work ++ [Move.answer .continueStepping, .proceed], ?_⟩
  have hleft : (interruptedAtPause (List.replicate 20 Move.work ++
      [Move.answer .continueStepping, .proceed])).isLeftAtPause = true := by
    decide +kernel
  unfold isLeftAtPause at hleft
  split at hleft
  · next p hstand hstate => exact ⟨p, hstand, hstate⟩
  · cases hleft

end Conductor

end Stepwise
