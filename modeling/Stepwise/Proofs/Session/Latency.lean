import Stepwise.Proofs.Session.Endings

/-! How soon an interrupt ends a run. Once the cell is set no poll lets an instruction through
and nothing is offered as a pause; what remains is the instruction whose poll had passed, the
pause that was on its way, and a bounded number of steps to the end. -/

namespace Stepwise

namespace Note

def isExecuted : Note → Bool
  | executed _ _ => true
  | _ => false

def isPublished : Note → Bool
  | published _ => true
  | _ => false

end Note

def Suspension.remaining : Suspension → Nat
  | arriving => 5
  | publishing _ => 4
  | waiting _ => 3
  | checking _ => 2
  | leaving _ => 1
  | left _ => 0

def Reader.remaining (r : Reader) : Nat :=
  match r.stage with
  | .subscribing => 10
  | .showing _ => 9
  | .installing _ => 8
  | .superseding (.telling _ _) => 7
  | .superseding (.discarding _) => 6
  | .waiting => 5
  | .checking => 4
  | .uninstalling _ => 3
  | .leaving _ _ _ => 2
  | .hiding _ => 1
  | .ended _ => 0

def Suspension.offering : Suspension → Nat
  | arriving | publishing _ => 1
  | _ => 0

theorem Suspension.remaining_step {seq : Nat} {listening : Bool} {g : Gate} {wait : Suspension}
    (h : ∀ result, wait ≠ .left result) :
    (wait.step seq listening true g).1.remaining < wait.remaining := by
  cases wait with
  | arriving =>
    simp only [step]
    cases g.install seq <;> simp [remaining]
  | publishing mail => cases listening <;> simp [step, remaining]
  | waiting mail => cases mail <;> simp [step, remaining]
  | checking mail => simp [step, remaining]
  | leaving result => simp [step, remaining]
  | left result => exact (h result rfl).elim

theorem Suspension.offering_step (wait : Suspension) (seq : Nat) (listening interrupted : Bool)
    (g : Gate) :
    (wait.notes seq listening interrupted g).countP Note.isExecuted = 0 ∧
      (wait.notes seq listening interrupted g).countP Note.isPublished +
        (wait.step seq listening interrupted g).1.offering ≤ wait.offering := by
  cases wait with
  | arriving =>
    simp only [step, notes]
    cases g.install seq <;> simp [offering, Note.isPublished, Note.isExecuted]
  | publishing mail =>
    cases listening <;> simp [step, notes, offering, Note.isPublished, Note.isExecuted]
  | waiting mail =>
    cases mail <;> simp [step, notes, offering, Note.isPublished, Note.isExecuted]
  | checking mail =>
    cases interrupted <;> simp [step, notes, offering, Note.isPublished, Note.isExecuted]
  | leaving result | left result => simp [step, notes, offering]

theorem Reader.remaining_step {r : Reader} (h : r.outcome? = none) (c : Console) :
    (r.step true c).1.remaining < r.remaining := by
  obtain ⟨id, stage⟩ := r
  cases stage with
  | subscribing | showing | checking | uninstalling | «hiding» => simp [step, remaining]
  | installing => cases hslot : c.slot <;> simp [step, remaining, hslot]
  | superseding f => cases f <;> simp [step, ReadClosing.step, remaining]
  | waiting =>
    simp only [step]
    cases receive? id c.mail with
    | some m => simp [remaining]
    | none => cases c.deserted.contains id <;> simp [remaining]
  | leaving held idle o => cases idle <;> simp [step, remaining]
  | ended o => cases h

namespace Worker

/-- The number of steps to the end once the cell is set, at most. -/
def lag : Worker → Nat
  | loading => 17
  | running run _ => run.lag + 3
  | suspended run _ _ wait => 8 * run.height + 5 + wait.remaining
  | reading run _ r => 8 * run.height + 8 + r.remaining
  | concluding _ _ => 2
  | announcing _ _ => 1
  | finished _ => 0

/-- One if there is an instruction whose poll has passed and that was not started. -/
def ready : Worker → Nat
  | running run _ => run.isReady.toNat
  | _ => 0

def offering : Worker → Nat
  | suspended _ _ _ wait => wait.offering
  | _ => 0

structure Nears (w : Worker) (notes : List Note) (w' : Worker) : Prop where
  lag : w'.lag < w.lag
  ready : notes.countP Note.isExecuted + w'.ready ≤ w.ready
  offering : notes.countP Note.isPublished + w'.offering ≤ w.offering

end Worker

section Counts

theorem countP_raisedNotes (before after : Run) {p : Note → Bool}
    (hp : ∀ cause, p (.raised cause) = false) :
    (before.raisedNotes after).countP p = 0 := by
  unfold Run.raisedNotes
  split <;> simp [hp]

theorem countP_executedNotes (r : Run) :
    r.executedNotes.countP Note.isExecuted ≤ r.isReady.toNat ∧
      r.executedNotes.countP Note.isPublished = 0 := by
  unfold Run.executedNotes Run.isReady
  cases r.phase with
  | execute =>
    cases r.current.chunk.code[r.current.pc]? <;> simp [Note.isExecuted, Note.isPublished]
  | _ => simp

end Counts

namespace Worker

variable {b : Brief} {s : Shared} {run : Run} {tracer : Tracer}

theorem Nears.of_run {after : Run} {tracer' : Tracer}
    (h : after.lag < run.lag ∧ after.isReady = false) {notes : List Note}
    (hexecuted : notes.countP Note.isExecuted ≤ run.isReady.toNat)
    (hpublished : notes.countP Note.isPublished = 0) :
    Nears (running run tracer) notes (running after tracer') where
  lag := Nat.add_lt_add_right h.1 3
  ready := by
    have hafter : (running after tracer').ready = 0 := by rw [Worker.ready, h.2, Bool.toNat_false]
    rw [hafter]
    exact hexecuted
  offering := Nat.le_of_eq hpublished

theorem nears_move (hset : s.cell.isSet = true) :
    Nears (running run tracer) (notes (running run tracer) s) (move b run tracer s).1 := by
  cases hn : run.need with
  | nothing =>
    simp only [notes, move, hn]
    obtain ⟨hexecuted, hpublished⟩ := countP_executedNotes run
    refine .of_run (Run.lag_advance (.inl hn)) ?_ ?_
    · rw [List.countP_append, countP_raisedNotes _ _ fun _ => rfl]
      exact hexecuted
    · rw [List.countP_append, countP_raisedNotes _ _ fun _ => rfl, hpublished]
  | control event aux =>
    simp only [notes, move, hn, hset]
    split
    · next c tracer' hc =>
      refine .of_run ?_ (Nat.zero_le _) rfl
      rcases Tracer.of_answer hc with rfl | ⟨rfl, rfl, -⟩
      · rw [Run.control_proceed]
        exact Run.lag_advance (.inr ⟨event, aux, hn⟩)
      · have hphase := Run.phase_of_need_opcode hn
        have hlag : run.lag = 8 * run.height + 2 := by simp only [Run.lag, hphase]
        rw [hlag]
        exact Run.lag_control hphase .cancel
    · next hc =>
      obtain ⟨-, hclear⟩ := Tracer.of_offer hc
      cases hclear
  | cell =>
    simp only [notes, move, hn, hset]
    exact .of_run (Run.lag_polled (Run.phase_of_need_cell hn)) (Nat.zero_le _) rfl
  | write text =>
    simp only [notes, move, hn]
    obtain ⟨thenRead, hphase⟩ := Run.phase_of_need_write hn
    exact .of_run (Run.lag_shown (.inl ⟨text, thenRead, hphase⟩)) (Nat.zero_le _) rfl
  | clear =>
    simp only [notes, move, hn]
    exact .of_run (Run.lag_shown (.inr (Run.phase_of_need_clear hn))) (Nat.zero_le _) rfl
  | line =>
    simp only [notes, move, hn]
    have hphase := Run.phase_of_need_line hn
    refine ⟨?_, Nat.zero_le _, Nat.zero_le _⟩
    simp only [lag, Run.lag, hphase, Reader.new, Reader.remaining]
    omega
  | done ending =>
    simp only [notes, move, hn]
    have hphase := Run.phase_of_need_done hn
    refine ⟨?_, Nat.zero_le _, Nat.zero_le _⟩
    simp only [lag, Run.lag, hphase]
    omega

theorem nears_wait (hset : s.cell.isSet = true) {pause : Pause} {wait : Suspension}
    (hp : run.phase = .opcode) :
    Nears (suspended run tracer pause wait) (notes (suspended run tracer pause wait) s)
      (Worker.wait run tracer pause wait s).1 := by
  by_cases hleft : ∃ result, wait = .left result
  · obtain ⟨result, rfl⟩ := hleft
    have hphase (a : Arena) : (run.withArena a).phase = .opcode := hp
    obtain ⟨hlag, hready⟩ := Run.lag_control (hphase (Gallery.release
      ⟨run.machine.arena, s.pinnings⟩ pause.snapshot).arena) (Tracer.answer result)
    refine ⟨Nat.add_lt_add_right hlag 3, ?_, Nat.zero_le _⟩
    simp only [notes, Suspension.notes, Worker.wait, ready, hready]
    exact Nat.le_refl 0
  · have hne : ∀ result, wait ≠ .left result := fun result he => hleft ⟨result, he⟩
    rw [(wait_of_ne hne).1]
    obtain ⟨hexecuted, hpublished⟩ :=
      wait.offering_step pause.seq s.events.isSome s.cell.isSet s.gate
    refine ⟨Nat.add_lt_add_left ?_ _, Nat.le_of_eq hexecuted, hpublished⟩
    rw [hset]
    exact Suspension.remaining_step hne

theorem nears_read (hset : s.cell.isSet = true) {r : Reader} :
    Nears (reading run tracer r) (notes (reading run tracer r) s) (read run tracer r s).1 := by
  cases ho : r.outcome? with
  | some o =>
    simp only [notes, read, ho]
    obtain ⟨hlag, hready⟩ := run.lag_received (lineOf o s.cell.isSet)
    refine ⟨?_, ?_, ?_⟩
    · simp only [lag]
      omega
    · rw [List.countP_cons, countP_raisedNotes _ _ fun _ => rfl]
      simp only [ready, hready]
      exact Nat.le_refl 0
    · rw [List.countP_cons, countP_raisedNotes _ _ fun _ => rfl]
      exact Nat.le_refl 0
  | none =>
    simp only [notes, read, ho]
    rw [hset]
    exact ⟨Nat.add_lt_add_left (Reader.remaining_step ho _) _, Nat.zero_le _, Nat.zero_le _⟩

theorem nears_step (hset : s.cell.isSet = true) {w : Worker}
    (hp : ∀ run tracer p wait, w = suspended run tracer p wait → run.phase = .opcode)
    (hw : ∀ arena, w ≠ finished arena) : Nears w (w.notes s) (w.step b s).1 := by
  cases w with
  | loading =>
    simp only [notes, step, load]
    split
    · exact ⟨Nat.le_of_ble_eq_true rfl, Nat.zero_le _, Nat.zero_le _⟩
    · exact ⟨Nat.le_refl 17, Nat.zero_le _, Nat.zero_le _⟩
  | running run tracer => exact nears_move hset
  | suspended run tracer p wait => exact nears_wait hset (hp _ _ _ _ rfl)
  | reading run tracer r => exact nears_read hset
  | concluding arena o => exact ⟨Nat.lt_succ_self 1, Nat.zero_le _, Nat.zero_le _⟩
  | announcing arena o =>
    simp only [notes]
    split <;> exact ⟨Nat.lt_succ_self 0, Nat.zero_le _, Nat.zero_le _⟩
  | finished arena => exact (hw arena rfl).elim

end Worker

theorem Worker.Touched.counts {w w' : Worker} (h : w.Touched w') :
    w'.lag = w.lag ∧ w'.ready = w.ready ∧ w'.offering = w.offering := by
  cases h with
  | same => exact ⟨rfl, rfl, rfl⟩
  | pins arena => cases w <;> exact ⟨rfl, rfl, rfl⟩
  | mail d =>
    cases w with
    | suspended run tracer p wait => cases wait <;> exact ⟨rfl, rfl, rfl⟩
    | _ => exact ⟨rfl, rfl, rfl⟩

theorem Worker.lag_eq_zero {w : Worker} (h : w.lag = 0) : ∃ arena, w = .finished arena := by
  cases w with
  | finished arena => exact ⟨arena, rfl⟩
  | _ =>
    simp only [lag] at h
    omega

def Action.isWork : Action → Bool
  | work => true
  | _ => false

namespace System

variable {s : System} {b : Brief} {w : Worker}

structure Nears (s : System) (b : Brief) (w : Worker) (steps : Nat) (s' : System) : Prop where
  cell : s'.session.shared.cell.isSet = true
  run : ∃ w' notes, s'.session.worker = some (b, w') ∧ s'.log = s.log ++ notes ∧
    notes.countP Note.isExecuted + w'.ready ≤ w.ready ∧
    notes.countP Note.isPublished + w'.offering ≤ w.offering ∧ w'.lag ≤ w.lag - steps

theorem nears_act (h : s.Reached) (hw : s.session.worker = some (b, w))
    (hset : s.session.shared.cell.isSet = true) {a : Action} (ha : ∀ job, a ≠ .start job) :
    s.Nears b w (if a.isWork then 1 else 0) (s.act a) := by
  by_cases hwork : a = .work
  · subst hwork
    change s.Nears b w 1 (System.work s)
    simp only [work, hw]
    refine ⟨(congrArg Cell.isSet (w.cell_step b s.session.shared)).trans hset, _, _, rfl, rfl, ?_⟩
    by_cases hfinished : ∃ arena, w = .finished arena
    · obtain ⟨arena, rfl⟩ := hfinished
      exact ⟨Nat.le_refl 0, Nat.le_refl 0, Nat.le_refl 0⟩
    · have hphase : ∀ run tracer p wait, w = .suspended run tracer p wait →
          run.phase = .opcode := by
        rintro run tracer p wait rfl
        exact (h.lock hw).1
      obtain ⟨hlag, hready, hoffering⟩ := Worker.nears_step (b := b) hset hphase
        fun arena he => hfinished ⟨arena, he⟩
      exact ⟨hready, hoffering, Nat.le_sub_one_of_lt hlag⟩
  · obtain ⟨notes, hlog, hnotes⟩ := log_outside (s := s) ha hwork
    obtain ⟨⟨f, htouched, hworker⟩, hcell⟩ := worker_outside (s := s) ha hwork
    obtain ⟨hlag, hready, hoffering⟩ := (htouched w).counts
    have hnone {p : Note → Bool} (hp : ∀ n, n.isOutside = true → p n = false) :
        notes.countP p = 0 := by
      rw [List.countP_eq_zero]
      intro n hn
      simp [hp n (hnotes n hn)]
    have hexecuted : notes.countP Note.isExecuted = 0 := hnone fun n hn => by cases n <;> trivial
    have hpublished : notes.countP Note.isPublished = 0 := hnone fun n hn => by cases n <;> trivial
    refine ⟨hcell hset, f w, notes, by rw [hworker, hw]; rfl, hlog, ?_, ?_, ?_⟩
    · rw [hexecuted, hready, Nat.zero_add]
    · rw [hpublished, hoffering, Nat.zero_add]
    · have hsteps : (if a.isWork then 1 else 0) = 0 := by
        cases a <;> first | rfl | exact (hwork rfl).elim
      rw [hlag, hsteps, Nat.sub_zero]

theorem nears_acts (h : s.Reached) (hw : s.session.worker = some (b, w))
    (hset : s.session.shared.cell.isSet = true) {as : List Action}
    (has : ∀ job, .start job ∉ as) : s.Nears b w (as.countP Action.isWork) (s.acts as) := by
  -- every step of the run lowers its lag, and nothing else raises it
  induction as generalizing s w with
  | nil =>
    exact ⟨hset, w, [], hw, by simp [acts], by simp, by simp, Nat.le_refl _⟩
  | cons a as ih =>
    obtain ⟨hset', w', notes, hw', hlog', hexecuted, hpublished, hlag⟩ :=
      nears_act h hw hset fun job he => has job (he ▸ List.mem_cons_self)
    obtain ⟨hset'', w'', notes', hw'', hlog'', hexecuted', hpublished', hlag'⟩ :=
      ih (h.act a) hw' hset' fun job hmem => has job (List.mem_cons_of_mem _ hmem)
    refine ⟨hset'', w'', notes ++ notes', hw'', ?_, ?_, ?_, ?_⟩
    · rw [← List.append_assoc, ← hlog']
      exact hlog''
    · rw [List.countP_append]
      omega
    · rw [List.countP_append]
      omega
    · rw [List.countP_cons]
      omega

/-- Once the cell is set, in whatever order things go on, no instruction starts but one whose
poll had passed, at most one pause is told, and the run ends after a bounded number of its
steps. At any time, a run that ended was cancelled, unless the last instruction that it started
returned from the module or raised an exception; and none is cancelled without an interrupt. -/
theorem interrupt_latency (h : s.Reached) (hw : s.session.worker = some (b, w)) {chunk : Chunk}
    (hk : Code.compile b.job.name b.job.source = .ok chunk) {as : List Action}
    (has : ∀ job, .start job ∉ as) :
    (s.session.shared.cell.isSet = true →
      ∃ w' notes, (s.acts as).session.worker = some (b, w') ∧ (s.acts as).log = s.log ++ notes ∧
        notes.countP Note.isExecuted ≤ w.ready ∧ w.ready ≤ 1 ∧
        notes.countP Note.isPublished ≤ 1 ∧
        (w.lag ≤ as.countP Action.isWork → ∃ arena, w' = .finished arena)) ∧
    ∀ o, .terminated o ∈ (s.acts as).log →
      (o = .cancelled ∨ o = .completed ∧ Note.Returned (s.acts as).log 1 ∨
        (∃ report, o = .failed report) ∧ Note.Raised (s.acts as).log) ∧
      (.interrupted ∉ (s.acts as).log → o ≠ .cancelled) := by
  refine ⟨fun hset => ?_, fun o ho => ?_⟩
  · obtain ⟨w', notes, hw', hlog, hexecuted, hpublished, hlag⟩ := (nears_acts h hw hset has).run
    have hready : w.ready ≤ 1 := by
      cases w <;> first | exact Nat.zero_le 1 | exact Bool.toNat_le _
    have hoffering : w.offering ≤ 1 := by
      cases w with
      | suspended run tracer p wait => cases wait <;> simp [Worker.offering, Suspension.offering]
      | _ => exact Nat.zero_le 1
    exact ⟨w', notes, hw', hlog, by omega, hready, by omega,
      fun hle => Worker.lag_eq_zero (by omega)⟩
  · obtain ⟨w', hw'⟩ := worker_acts hw has
    obtain ⟨hnoted, hcancelled⟩ := (h.acts as).ending hw' hk ho
    refine ⟨?_, hcancelled⟩
    cases o with
    | completed => exact .inr (.inl ⟨rfl, hnoted⟩)
    | cancelled => exact .inl rfl
    | failed report => exact .inr (.inr ⟨⟨report, rfl⟩, hnoted⟩)
    | fault reason => exact hnoted.elim

def endless : Job :=
  ⟨"while True:\n    pass\n", "<endless>", .debug⟩

def stepping : List Action :=
  List.replicate 20 Action.work ++ [Action.poll, .resume .continueStepping, .proceed, .proceed] ++
    List.replicate 20 Action.work ++ [Action.interrupt]

def interrupted : System :=
  (launched 10 Hint.standard endless).acts stepping

theorem interrupt_latency_endless :
    ∃ notes, (interrupted.acts (List.replicate 20 .work)).log = interrupted.log ++ notes ∧
      notes.countP Note.isExecuted ≤ 1 ∧ notes.countP Note.isPublished ≤ 1 ∧
      .terminated .cancelled ∈ (interrupted.acts (List.replicate 20 .work)).log := by
  have h : interrupted.Reached := (reached_launched 10 Hint.standard endless).acts _
  have hstart : ∀ job, .start job ∉ stepping := by
    simp [stepping]
  obtain ⟨w, hw⟩ := worker_acts (worker_launched 10 Hint.standard endless) hstart
  have hcompiles : (Code.compile "<endless>" endless.source).toOption.isSome = true := by
    decide +kernel
  have hset : interrupted.session.shared.cell.isSet = true := by
    decide +kernel
  have hlag : (interrupted.session.worker.all fun w => w.2.lag ≤ 20) = true := by
    decide +kernel
  have hhalts : ((interrupted.acts (List.replicate 20 .work)).log.all fun
      | .terminated .cancelled => true
      | .terminated _ => false
      | _ => true) = true := by
    decide +kernel
  have has : ∀ job, .start job ∉ (List.replicate 20 .work : List Action) := by
    simp
  cases hk : Code.compile "<endless>" endless.source with
  | error e =>
    rw [hk] at hcompiles
    cases hcompiles
  | ok chunk =>
    obtain ⟨hlate, hends⟩ := interrupt_latency h hw hk has
    obtain ⟨w', notes, hw', hlog, hexecuted, hready, hpublished, hfinished⟩ := hlate hset
    have hw'' : interrupted.session.worker = some (_, w) := hw
    rw [hw''] at hlag
    obtain ⟨arena, rfl⟩ := hfinished (of_decide_eq_true hlag)
    obtain ⟨o, ho⟩ := ((h.acts _).orderly.kept.ended _ _ hw').1 ⟨arena, rfl⟩
    have hcancelled := List.all_eq_true.1 hhalts _ ho
    cases o with
    | cancelled => exact ⟨notes, hlog, Nat.le_trans hexecuted hready, hpublished, ho⟩
    | completed | failed | fault => cases hcancelled

end System

end Stepwise
