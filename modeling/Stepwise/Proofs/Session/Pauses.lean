import Stepwise.Proofs.Debug.Offers
import Stepwise.Proofs.Machine.Upright
import Stepwise.Proofs.Session.Endings
import Stepwise.Proofs.Session.Refusals

/-! The steps of a run that is stepped through. As long as nothing but going on is decided and
the run is not interrupted, its tracer is told of every instruction and knows the range that it
offered last. A step makes a pause where the tracer offers one, and tells it or keeps it. -/

namespace Stepwise

/-- Nothing has stopped the stepping: the run was not interrupted, and every answer to a pause
lets it go on. -/
structure Note.Unstopped (log : List Note) : Prop where
  calm : .interrupted ∉ log
  answers : ∀ k d, .accepted k d ∈ log → d = .continueStepping

def Note.isPassing : Note → Bool
  | interrupted | accepted _ .stopDebugging => false
  | _ => true

theorem Note.unstopped_of_all {log : List Note} (h : log.all Note.isPassing = true) :
    Unstopped log := by
  rw [List.all_eq_true] at h
  refine ⟨fun hi => absurd (h _ hi) (by simp [isPassing]), fun k d hd => ?_⟩
  cases d with
  | continueStepping => rfl
  | stopDebugging => exact absurd (h _ hd) (by simp [isPassing])

theorem Note.Unstopped.of_append {log notes : List Note} (h : Unstopped (log ++ notes)) :
    Unstopped log :=
  ⟨fun hi => h.calm (List.mem_append_left _ hi),
    fun k d hd => h.answers k d (List.mem_append_left _ hd)⟩

namespace Stage

structure Goes (st : Stage) : Prop where
  unshut : ∀ late, st.stand ≠ .shut late
  answer : ∀ d, st.stand = .answered d → d = .continueStepping

theorem Leads.goes {st st' : Stage} {n : Note} (h : Leads st n st') (hst : st.Goes)
    (hw : ∀ k, n ≠ .withdrawn k) (ha : ∀ k d, n = .accepted k d → d = .continueStepping) :
    st'.Goes := by
  cases h with
  | refused | did | executed | raised | interrupted => exact hst
  | published | ended | shutDown => exact ⟨nofun, nofun⟩
  | accepted k d =>
    refine ⟨nofun, ?_⟩
    rintro _ ⟨⟩
    exact ha k d rfl
  | late => exact (hst.unshut true rfl).elim
  | consumed k d =>
    obtain rfl := hst.answer d rfl
    exact ⟨nofun, nofun⟩
  | withdrawn k | outweighed k => exact (hw k rfl).elim

theorem Runs.goes {st st' : Stage} {log : List Note} (h : Runs st log st') (hst : st.Goes)
    (hw : ∀ k, .withdrawn k ∉ log) (ha : ∀ k d, .accepted k d ∈ log → d = .continueStepping) :
    st'.Goes := by
  induction h with
  | nil => exact hst
  | cons hn _ ih =>
    refine ih (hn.goes hst ?_ ?_) (fun k hk => hw k (List.mem_cons_of_mem _ hk))
      fun k d hd => ha k d (List.mem_cons_of_mem _ hd)
    · rintro k rfl
      exact hw k List.mem_cons_self
    · rintro k d rfl
      exact ha k d List.mem_cons_self

end Stage

theorem View.AtGate.eq_of_goes {v : View} {st : Stage} {seq : Nat}
    {result : Except DebugFault Resumption} (h : v.AtGate st seq (.left result)) (hst : st.Goes) :
    result = .ok (.resumed .continueStepping) := by
  match result, h with
  | .ok (.resumed .continueStepping), _ => rfl
  | .ok (.resumed .stopDebugging), ⟨_, _, h, _⟩ => exact (hst.unshut false h).elim
  | .ok .cancelled, ⟨_, _, ⟨late, h⟩, _⟩ => exact (hst.unshut late h).elim

theorem System.Reached.goes {s : System} (h : s.Reached) (hu : Note.Unstopped s.log) {st : Stage}
    (hst : Stage.Runs .first s.log st) : st.Goes :=
  hst.goes ⟨nofun, nofun⟩ (fun _ hk => hu.calm (h.interrupted_of_withdrawn hk)) hu.answers

/-- The tracer that a debug run starts with. -/
def Brief.tracer (b : Brief) : Tracer :=
  .new b.job.name ((b.files.lineCount? b.job.name).getD 0) b.rules

def SessionEvent.pause? : SessionEvent → Option Pause
  | paused p => some p
  | terminated _ => none

def Shared.pauses (s : Shared) : List Pause :=
  (s.events.getD []).filterMap SessionEvent.pause?

/-- The instruction that a run has come to and is about to execute. In a run that is traced this
is told to the observer. -/
def Run.instant? (r : Run) : Option Instant :=
  match r.phase with
  | .opcode => some ⟨r.current, r.machine.arena⟩
  | _ => none

theorem Run.instant?_of_opcode {r : Run} (h : r.phase = .opcode) :
    r.instant? = some ⟨r.current, r.machine.arena⟩ := by
  simp only [instant?, h]

theorem Run.instant?_of_ne {r : Run} (h : r.phase ≠ .opcode) : r.instant? = none := by
  unfold instant?
  split
  · next hp => exact (h hp).elim
  · rfl

theorem Shared.pauses_tell {s : Shared} (h : s.events.isSome = true) (e : SessionEvent) :
    (s.tell e).pauses = s.pauses ++ e.pause?.toList := by
  obtain ⟨events, he⟩ := Option.isSome_iff_exists.1 h
  simp only [pauses, tell, he, Option.map_some, Option.getD_some, List.filterMap_append,
    List.filterMap_cons, List.filterMap_nil]
  cases e <;> rfl

namespace Worker

def instant? : Worker → Option Instant
  | running run _ => run.instant?
  | _ => none

/-- The pause that is still to be told. -/
def offered? : Worker → Option Pause
  | suspended _ _ p .arriving | suspended _ _ p (.publishing _) => some p
  | _ => none

def pending (w : Worker) (s : Shared) : List Pause :=
  s.pauses ++ w.offered?.toList

theorem pending_of_none {w : Worker} (h : w.offered? = none) (s : Shared) :
    w.pending s = s.pauses := by
  rw [pending, h, Option.toList_none, List.append_nil]

structure Observes (b : Brief) (last : Option Range) (run : Run) (t : Tracer) : Prop where
  tracer : ∃ seq, t = { b.tracer with last, seq }
  traced : (∀ ending, run.phase ≠ .ended ending) → run.machine.tracing = true

def Follows (b : Brief) (last : Option Range) : Worker → Prop
  | loading => last = none
  | running run t | suspended run t _ _ | reading run t _ => Observes b last run t
  | _ => True

/-- The run comes to what may be shown, and the tracer shows it unless it has the range that was
offered last. -/
structure Shows (b : Brief) (last : Option Range) (o : Option Offer) (before : List Pause)
    (after : Worker × Shared) : Prop where
  pending : (after.1.pending after.2).map Pause.offer =
    before.map Pause.offer ++ (o.filter fun o => last ≠ some o.range).toList
  follows : after.1.Follows b ((o.map Offer.range).or last)

section Step

variable {b : Brief} {last : Option Range} {run after : Run} {t : Tracer} {s : Shared}

theorem Observes.advance (h : Observes b last run t) : Observes b last run.advance t where
  tracer := h.tracer
  traced hp := by
    refine ((Run.settings_advance run).2 hp).trans (h.traced fun ending he => hp ending ?_)
    rwa [Run.advance, he]

theorem Observes.moved (h : Observes b last run t) (hr : ∀ ending, run.phase ≠ .ended ending)
    (ha : after.machine.tracing = run.machine.tracing) : Observes b last after t :=
  ⟨h.tracer, fun _ => ha.trans (h.traced hr)⟩

theorem Shows.of_none {w : Worker} {s' : Shared} {before : List Pause}
    (hp : w.pending s' = before) (hw : w.Follows b last) : Shows b last none before (w, s') where
  pending := by rw [hp]; exact (List.append_nil _).symm
  follows := hw

theorem shows_opcode (h : Observes b last run t) (hp : run.phase = .opcode)
    (hcell : s.cell.isSet = false)
    (hheld : ∃ f, run.machine.arena.Holds run.current.frame f) :
    Shows b last (run.instant?.bind (Instant.offer? b.tracer)) s.pauses (move b run t s) := by
  obtain ⟨seq, rfl⟩ := h.tracer
  have hn : run.need = .control .opcode none := by
    have ht := h.traced fun ending he => by simp [hp] at he
    simp [Run.need, hp, ht]
  rw [Run.instant?_of_opcode hp, Option.bind_some, move, hn]
  dsimp only
  rw [hcell]
  cases ho : Instant.offer? b.tracer ⟨run.current, run.machine.arena⟩ with
  | none =>
    rw [Tracer.consider_of_none (t := { b.tracer with last, seq }) ho]
    dsimp only
    rw [Run.control_proceed]
    exact .of_none (pending_of_none rfl _) h.advance
  | some o =>
    rw [Tracer.consider_of_some (t := { b.tracer with last, seq }) ho]
    by_cases hlast : last = some o.range
    · rw [if_pos hlast]
      dsimp only
      rw [Run.control_proceed]
      refine ⟨?_, ?_⟩
      · simp [pending, offered?, hlast]
      · rw [Option.map_some, Option.some_or, ← hlast]
        exact h.advance
    · rw [if_neg hlast]
      obtain ⟨f, hf⟩ := hheld
      obtain ⟨p, g, t', hcaptured, -⟩ := Tracer.pauseAt_of_holds
        { b.tracer with last := some o.range, seq } o.range o.hint (a := run.current)
        (g := ⟨run.machine.arena, s.pinnings⟩) hf
      dsimp only
      rw [hcaptured]
      obtain ⟨_, -, rfl, rfl, rfl⟩ := Tracer.of_pauseAt hcaptured
      have hfresh : (some o).filter (fun o => last ≠ some o.range) = some o := by
        simp [Option.filter, hlast]
      refine ⟨?_, ⟨seq + 1, rfl⟩, h.traced⟩
      rw [hfresh, pending, List.map_append, Tracer.eq_of_offer? ho]
      rfl

/-- A move of the run. Of all that its observer is told, only instructions are looked at. -/
theorem shows_move (h : Observes b last run t) (hcell : s.cell.isSet = false)
    (hheld : run.phase = .opcode → ∃ f, run.machine.arena.Holds run.current.frame f) :
    Shows b last (run.instant?.bind (Instant.offer? b.tracer)) s.pauses (move b run t s) := by
  by_cases hp : run.phase = .opcode
  · exact shows_opcode h hp hcell (hheld hp)
  · rw [Run.instant?_of_ne hp, Option.bind_none]
    unfold move
    split
    · exact .of_none (pending_of_none rfl _) h.advance
    · next event aux hn =>
      obtain ⟨-, ⟨-, ho⟩ | ⟨hne, -⟩, -⟩ := Run.of_need_control hn
      · exact (hp ho).elim
      · rw [Tracer.consider_of_ne hne]
        dsimp only
        rw [Run.control_proceed]
        exact .of_none (pending_of_none rfl _) h.advance
    · next hn =>
      have hr := Run.phase_of_need_cell hn
      exact .of_none (pending_of_none rfl _) (h.moved (by simp [hr]) (run.tracing_polled _))
    · next text hn =>
      obtain ⟨thenRead, hr⟩ := Run.phase_of_need_write hn
      exact .of_none (pending_of_none rfl _) (h.moved (by simp [hr]) run.tracing_shown)
    · next hn =>
      have hr := Run.phase_of_need_clear hn
      exact .of_none (pending_of_none rfl _) (h.moved (by simp [hr]) run.tracing_shown)
    · exact .of_none (pending_of_none rfl _) h
    · exact .of_none (pending_of_none rfl _) trivial

theorem shows_wait {pause : Pause} {wait : Suspension} {v : View} {st : Stage}
    (h : Observes b last run t) (hp : run.phase = .opcode)
    (hfits : (v.along s).Fits st (.suspended run t pause wait)) (hst : st.Goes) :
    Shows b last none (pending (.suspended run t pause wait) s)
      (Worker.wait run t pause wait s) := by
  have hlisten : s.events.isSome = true := hfits.2.loose.isListening
  cases wait with
  | arriving =>
    have hgate : s.gate = none := hfits.2.2.2.1
    refine .of_none ?_ h
    simp only [hgate, Gate.install]
    rfl
  | publishing mail =>
    refine .of_none ?_ h
    simp only [hlisten, if_true]
    change (s.tell (.paused pause)).pauses ++ [] = s.pauses ++ [pause]
    rw [Shared.pauses_tell hlisten, List.append_nil]
    rfl
  | waiting mail => cases mail <;> exact .of_none rfl h
  | checking mail =>
    refine .of_none ?_ h
    dsimp only [Suspension.step]
    split <;> rfl
  | leaving result => exact .of_none rfl h
  | left result =>
    obtain rfl := hfits.2.eq_of_goes hst
    refine .of_none rfl ?_
    rw [Tracer.answer, Run.control_proceed]
    exact Observes.advance (h.moved (by simp [hp]) rfl)

theorem shows_read {r : Reader} (h : Observes b last run t) (hp : run.phase = .read) :
    Shows b last none s.pauses (Worker.read run t r s) := by
  unfold Worker.read
  split
  · exact .of_none (pending_of_none rfl _) (h.moved (by simp [hp]) (run.tracing_received _))
  · exact .of_none (pending_of_none rfl _) h

theorem shows_load (hmode : b.job.mode = .debug) : Shows b none none s.pauses (load b, s) := by
  unfold load
  split
  · exact .of_none (pending_of_none rfl _) trivial
  · exact .of_none (pending_of_none rfl _) ⟨⟨0, rfl⟩, fun _ => by simp [Run.start, hmode]⟩

theorem shows_step {w : Worker} {script : Script} {log : List Note} {effort : Nat} {v : View}
    {st : Stage} (h : w.Follows b last) (hmode : b.job.mode = .debug)
    (hcell : s.cell.isSet = false) (hfits : (v.along s).Fits st w) (hst : st.Goes)
    (hlock : Lock script b log effort s.pinnings w) (hcalm : .interrupted ∉ log) :
    Shows b last (w.instant?.bind (Instant.offer? b.tracer)) (w.pending s) (w.step b s) := by
  cases w with
  | loading =>
    obtain rfl : last = none := h
    rw [pending_of_none rfl]
    exact shows_load hmode
  | running run t =>
    rw [pending_of_none rfl]
    refine shows_move h hcell fun hp => ?_
    obtain ⟨k, halone, -⟩ | ⟨-, hi⟩ := hlock
    · exact halone.sane.held hp
    · exact (hcalm hi).elim
  | suspended run t pause wait => exact shows_wait h hlock.1 hfits hst
  | reading run t r =>
    rw [pending_of_none rfl]
    exact shows_read h hlock.1
  | concluding arena o => cases o <;> exact .of_none rfl trivial
  | announcing arena o =>
    have hlisten : s.events.isSome = true := hfits.2.loose.isListening
    refine .of_none ?_ trivial
    rw [pending_of_none rfl, pending_of_none rfl, Shared.pauses_tell hlisten]
    exact List.append_nil _
  | finished arena => exact .of_none rfl trivial

theorem Touched.offered?_eq {w w' : Worker} (h : w.Touched w') : w'.offered? = w.offered? := by
  cases h with
  | same => rfl
  | pins arena =>
    cases w with
    | suspended run t p wait => cases wait <;> rfl
    | _ => rfl
  | mail d =>
    cases w with
    | suspended run t p wait => cases wait <;> rfl
    | _ => rfl

theorem Touched.follows {w w' : Worker} (h : w.Touched w') (hw : w.Follows b last) :
    w'.Follows b last := by
  cases h with
  | same => exact hw
  | pins arena =>
    cases w with
    | running run t | suspended run t p wait | reading run t r => exact ⟨hw.tracer, hw.traced⟩
    | _ => exact hw
  | mail d => cases w <;> exact hw

end Step

end Worker

end Stepwise
