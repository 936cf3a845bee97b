import Stepwise.Proofs.Machine.Effect
import Stepwise.Proofs.Session.Lockstep

/-! How runs end. The last instruction that was started tells how: a run that completed started
a return from its module, and one that failed started an instruction that raised an exception.
All others are cancelled. -/

namespace Stepwise

open Code (Instr)

namespace Note

def isStep : Note → Bool
  | executed _ _ | raised _ => true
  | _ => false

def latest (log : List Note) : Option Note :=
  log.reverse.find? isStep

theorem latest_append (log notes : List Note) :
    latest (log ++ notes) = (latest notes).or (latest log) := by
  rw [latest, List.reverse_append, List.find?_append]
  rfl

theorem latest_concat_of_isStep (log : List Note) {n : Note} (hn : n.isStep = true) :
    latest (log ++ [n]) = some n := by
  rw [latest_append]
  simp [latest, hn]

theorem latest_append_of_all (log : List Note) {notes : List Note}
    (hn : ∀ n ∈ notes, n.isStep = false) : latest (log ++ notes) = latest log := by
  have hnone : latest notes = none := by
    rw [latest, List.find?_eq_none]
    simpa using hn
  rw [latest_append, hnone, Option.none_or]

/-- The last instruction that was started is a return, by so many activations. -/
def Returned (log : List Note) (depth : Nat) : Prop :=
  ∃ i : Instr, latest log = some (.executed i depth) ∧ i.op = .returnValue

/-- The last instruction that was started raised an exception. -/
def Raised (log : List Note) : Prop :=
  ∃ cause, latest log = some (.raised cause)

end Note

open Note (Returned Raised latest)

variable {log : List Note} {run : Run}

def Phase.isTelling : Phase → Bool
  | leave (.ok _) | leave (.error (.exception _)) | ended _ => true
  | _ => false

structure Run.Noted (run : Run) (log : List Note) : Prop where
  returned : ∀ v, run.phase = .leave (.ok v) → Returned log run.height
  completed : ∀ v, run.phase = .ended (.ok v) → Returned log 1
  raised : ∀ e, run.phase = .leave (.error (.exception e)) ∨
    run.phase = .ended (.error (.exception e)) → Raised log

namespace Run.Noted

theorem of_phase (h : run.phase.isTelling = false) : run.Noted log := by
  refine ⟨fun v hv => ?_, fun v hv => ?_, ?_⟩
  · rw [hv] at h
    cases h
  · rw [hv] at h
    cases h
  · rintro e (he | he) <;> rw [he] at h <;> cases h

theorem congr {log' : List Note} (h : run.Noted log) (hlog : latest log' = latest log) :
    run.Noted log' := by
  obtain ⟨hreturned, hcompleted, hraised⟩ := h
  unfold Returned at hreturned hcompleted
  unfold Raised at hraised
  rw [← hlog] at hreturned hcompleted hraised
  exact ⟨hreturned, hcompleted, hraised⟩

theorem leave {ending : Ending} (h : run.Noted log) (hp : run.phase = .leave ending) :
    (run.leave ending).Noted log := by
  obtain ⟨m, a, callers, phase⟩ := run
  obtain rfl : phase = .leave ending := hp
  cases callers with
  | nil =>
    refine ⟨nofun, ?_, ?_⟩
    · intro v hv
      cases ending with
      | ok v => exact h.returned v rfl
      | error u => cases hv
    · rintro e (he | he)
      · cases he
      · match ending, he with
        | .error (.exception e), _ => exact h.raised e (.inl rfl)
  | cons caller callers =>
    match ending with
    | .ok v => exact .of_phase rfl
    | .error .cancelled | .error (.fault _) => exact .of_phase rfl
    | .error (.exception e) =>
      exact ⟨nofun, nofun, fun _ _ => h.raised e (.inl rfl)⟩

theorem raises {before after : Run} (hp : ∀ ending, before.phase ≠ .leave ending) (log : List Note)
    {u : Unwind} (ha : after.phase = .leave (.error u)) :
    after.Noted (log ++ before.raisedNotes after) := by
  refine ⟨by simp [ha], by simp [ha], ?_⟩
  rintro e (he | he)
  · have hnotes : before.raisedNotes after = [.raised e.cause] := by
      unfold raisedNotes
      rw [he]
      cases hb : before.phase with
      | leave ending => exact (hp ending hb).elim
      | _ => rfl
    exact ⟨e.cause, by rw [hnotes, Note.latest_concat_of_isStep log rfl]⟩
  · rw [ha] at he
    cases he

theorem executeFetched (hp : run.phase = .execute) {i : Instr}
    (hi : run.current.chunk.code[run.current.pc]? = some i) :
    run.executeFetched.Noted
      (log ++ (run.executedNotes ++ run.raisedNotes run.executeFetched)) := by
  have hexecuted : run.executedNotes = [.executed i run.height] := by
    simp only [executedNotes, hp, hi]
    rfl
  have hne : ∀ ending, run.phase ≠ .leave ending := by simp [hp]
  rw [← List.append_assoc, hexecuted]
  have heffect := effect_executeFetched run hi
  generalize run.executeFetched = after at heffect
  cases heffect with
  | goes _ ha | shows _ ha | clears _ ha | reads _ ha | enters _ ha =>
    exact .of_phase (by rw [ha]; rfl)
  | fails _ ha => exact raises hne _ ha
  | returns hop hd ha =>
    have hnotes : run.raisedNotes after = [] := by
      simp only [raisedNotes, hp, ha]
    rw [hnotes, List.append_nil]
    refine ⟨fun _ _ => ⟨i, ?_, hop⟩, by simp [ha], by simp [ha]⟩
    rw [Note.latest_concat_of_isStep log rfl, hd]

theorem advance (h : run.Noted log)
    (hn : run.need = .nothing ∨ ∃ event aux, run.need = .control event aux)
    (hcode : run.phase = .fetch ∨ run.phase = .execute →
      ∃ i, run.current.chunk.code[run.current.pc]? = some i) :
    run.advance.Noted (log ++ (run.executedNotes ++ run.raisedNotes run.advance)) := by
  cases hp : run.phase with
  | call | line | opcode =>
    simp only [Run.advance, hp]
    exact .of_phase rfl
  | fetch =>
    obtain ⟨i, hi⟩ := hcode (.inl hp)
    simp only [Run.advance, hp, Run.fetch, hi]
    split <;> exact .of_phase rfl
  | execute =>
    obtain ⟨i, hi⟩ := hcode (.inr hp)
    simp only [Run.advance, hp]
    exact executeFetched hp hi
  | leave ending =>
    have hnotes : run.executedNotes ++ run.raisedNotes run.advance = [] := by
      simp only [executedNotes, raisedNotes, hp, List.nil_append]
    rw [hnotes, List.append_nil]
    simp only [Run.advance, hp]
    exact h.leave hp
  | poll | write | clear | read | ended => simp [need, hp] at hn

theorem notes_of_control {event : TraceEvent} {aux : Option Value}
    (hn : run.need = .control event aux) :
    run.executedNotes ++ run.raisedNotes run.advance = [] := by
  cases hp : run.phase with
  | call | line | opcode | leave =>
    simp only [executedNotes, raisedNotes, Run.advance, hp, withPhase, List.nil_append]
  | fetch | execute | poll | write | clear | read | ended => simp [need, hp] at hn

theorem control (hp : run.phase = .opcode) (c : Control) : (run.control c).Noted log := by
  obtain ⟨m, a, callers, phase⟩ := run
  obtain rfl : phase = .opcode := hp
  cases c <;> exact .of_phase rfl

theorem shown (hp : (∃ text thenRead, run.phase = .write text thenRead) ∨ run.phase = .clear) :
    run.shown.Noted log := by
  obtain ⟨m, a, callers, phase⟩ := run
  obtain ⟨text, thenRead, hp⟩ | hp := hp
  · obtain rfl : phase = .write text thenRead := hp
    cases thenRead <;> exact .of_phase rfl
  · obtain rfl : phase = .clear := hp
    exact .of_phase rfl

theorem received (hp : run.phase = .read) (log : List Note) (line : Except Unwind String) :
    (run.received line).Noted (log ++ run.raisedNotes (run.received line)) := by
  cases line with
  | ok line => exact .of_phase rfl
  | error u => exact raises (by simp [hp]) log rfl

end Run.Noted

def Outcome.Noted (log : List Note) : Outcome → Prop
  | completed => Returned log 1
  | cancelled => True
  | failed _ => Raised log
  | fault _ => False

theorem Outcome.Noted.congr {o : Outcome} {log' : List Note} (h : o.Noted log)
    (hlog : latest log' = latest log) : o.Noted log' := by
  cases o with
  | completed =>
    obtain ⟨i, hi, hop⟩ := h
    exact ⟨i, hlog.trans hi, hop⟩
  | cancelled => trivial
  | failed report =>
    obtain ⟨cause, hcause⟩ := h
    exact ⟨cause, hlog.trans hcause⟩
  | fault reason => exact h

def Worker.Noted (log : List Note) : Worker → Prop
  | running run _ => run.Noted log
  | concluding _ o | announcing _ o => o.Noted log
  | finished _ => ∃ o, .terminated o ∈ log ∧ o.Noted log
  | _ => True

theorem Worker.Noted.append {w : Worker} (h : w.Noted log) {notes : List Note}
    (hn : ∀ n ∈ notes, n.isStep = false) : w.Noted (log ++ notes) := by
  have hlog := Note.latest_append_of_all log hn
  cases w with
  | loading | suspended | reading => trivial
  | running run tracer => exact Run.Noted.congr h hlog
  | concluding arena o => exact Outcome.Noted.congr h hlog
  | announcing arena o => exact Outcome.Noted.congr h hlog
  | finished arena =>
    obtain ⟨o, ho, hnoted⟩ := h
    exact ⟨o, List.mem_append_left _ ho, hnoted.congr hlog⟩

theorem Worker.Noted.touched {w w' : Worker} (h : w.Noted log)
    (hw : w.Touched w') : w'.Noted log := by
  cases hw with
  | same => exact h
  | pins arena =>
    cases w with
    | running run tracer => exact ⟨h.returned, h.completed, h.raised⟩
    | _ => exact h
  | mail d => cases w <;> exact h

def Script.Proper (script : Script) : Prop :=
  ∀ done u, script done = .error u → ∃ e, u = .exception e

theorem Script.Proper.exception {script : Script} (h : script.Proper) {u : Unwind}
    (hu : script.console.Fails u) : ∃ e, u = .exception e := by
  obtain hu | ⟨done, hu⟩ := hu
  · exact hu
  · exact h done u hu

theorem Comes.ne_cancelled {script : Script} {b : Brief} {k : Nat} {arena : Arena} {o : Outcome}
    {done : List Host.Interaction} (h : Comes script b k arena o done) (hproper : script.Proper) :
    o ≠ .cancelled := by
  cases h with
  | rejected => exact nofun
  | @ended _ r ending _ halone hp =>
    match ending with
    | .ok v | .error (.exception e) | .error (.fault reason) => exact nofun
    | .error .cancelled =>
      obtain ⟨e, he⟩ := hproper.exception (halone.sane.failure _ (.inr hp))
      cases he

section Step

variable {script : Script} {b : Brief} {effort : Nat} {pinnings : Array Pinning} {tracer : Tracer}
  {s : Shared} {w : Worker} {chunk : Chunk}

theorem Lock.sane (hproper : script.Proper)
    (h : Lock script b log effort pinnings (.running run tracer)) :
    (run.phase = .fetch ∨ run.phase = .execute →
      ∃ i, run.current.chunk.code[run.current.pc]? = some i) ∧
      ∀ reason, run.phase ≠ .ended (.error (.fault reason)) := by
  obtain ⟨k, halone, -⟩ | ⟨hc, -⟩ := h
  · refine ⟨halone.sane.inCode, fun reason hp => ?_⟩
    obtain ⟨e, he⟩ := hproper.exception (halone.sane.failure _ (.inr hp))
    cases he
  · rcases hc with hc | hc <;> rw [hc] <;> exact ⟨nofun, nofun⟩

theorem Worker.Noted.move (h : (Worker.running run tracer).Noted log) (hproper : script.Proper)
    (hlock : Lock script b log effort pinnings (.running run tracer)) :
    (Worker.move b run tracer s).1.Noted (log ++ Worker.notes (.running run tracer) s) := by
  obtain ⟨hcode, hfault⟩ := hlock.sane hproper
  cases hn : run.need with
  | nothing =>
    simp only [Worker.notes, Worker.move, hn]
    exact Run.Noted.advance h (.inl hn) hcode
  | control event aux =>
    simp only [Worker.notes, Worker.move, hn]
    split
    · next c tracer' hc =>
      rcases Tracer.of_answer hc with rfl | ⟨rfl, rfl, -⟩
      · rw [Run.control_proceed, ← Run.Noted.notes_of_control hn]
        exact Run.Noted.advance h (.inr ⟨event, aux, hn⟩) hcode
      · exact .control (Run.phase_of_need_opcode hn) _
    · next hc =>
      obtain ⟨rfl, -⟩ := Tracer.of_offer hc
      split
      · exact .control (Run.phase_of_need_opcode hn) _
      · trivial
  | cell =>
    simp only [Worker.notes, Worker.move, hn]
    cases s.cell.isSet <;> exact .of_phase rfl
  | write text =>
    simp only [Worker.notes, Worker.move, hn]
    obtain ⟨thenRead, hphase⟩ := Run.phase_of_need_write hn
    exact .shown (.inl ⟨text, thenRead, hphase⟩)
  | clear =>
    simp only [Worker.notes, Worker.move, hn]
    exact .shown (.inr (Run.phase_of_need_clear hn))
  | line =>
    simp only [Worker.notes, Worker.move, hn]
    trivial
  | done ending =>
    simp only [Worker.notes, Worker.move, hn, List.append_nil]
    have hphase := Run.phase_of_need_done hn
    cases ending with
    | ok v => exact h.completed v hphase
    | error u =>
      cases u with
      | cancelled => trivial
      | exception e => exact h.raised e (.inr hphase)
      | fault reason => exact (hfault reason hphase).elim

theorem Worker.Noted.step (h : w.Noted log) (hproper : script.Proper)
    (hlock : Lock script b log effort pinnings w) {v : View} {st : Stage}
    (hf : (v.along s).Fits st w) (hk : Code.compile b.job.name b.job.source = .ok chunk) :
    (w.step b s).1.Noted (log ++ w.notes s) := by
  match w, h, hlock, hf with
  | .loading, _, _, _ =>
    simp only [Worker.step, Worker.load, hk]
    exact .of_phase rfl
  | .running run tracer, h, hlock, _ => exact h.move hproper hlock
  | .suspended run tracer pause wait, _, hlock, _ =>
    cases wait with
    | left result =>
      have hphase (a : Arena) : (run.withArena a).phase = .opcode := hlock.1
      exact Run.Noted.control (hphase (Gallery.release ⟨run.machine.arena, s.pinnings⟩
        pause.snapshot).arena) (Tracer.answer result)
    | _ => trivial
  | .reading run tracer r, _, hlock, _ =>
    cases ho : r.outcome? with
    | none =>
      simp only [Worker.step, Worker.read, ho]
      trivial
    | some o =>
      simp only [Worker.step, Worker.read, Worker.notes, ho]
      rw [List.append_cons]
      exact .received hlock.1 _ _
  | .concluding arena o, h, _, _ =>
    have h' : o.Noted (log ++ []) := Outcome.Noted.congr h (by rw [List.append_nil])
    cases o <;> exact h'
  | .announcing arena o, h, _, hf =>
    have hlisten : s.events.isSome = true := hf.2.loose.isListening
    simp only [Worker.notes, hlisten, if_true]
    exact ⟨o, by simp,
      Outcome.Noted.congr h (Note.latest_append_of_all log (by simp [Note.isStep]))⟩
  | .finished arena, h, _, _ =>
    have h' : Worker.Noted (log ++ []) (.finished arena) := h.append (by simp)
    exact h'

end Step

def Script.of (log : List Note) : Script := fun done =>
  match (log.filterMap Note.did?)[done.length]? with
  | some (.asked (.ok line)) => .ok line
  | some (.asked (.error (.exception e))) => .error (.exception e)
  | _ => .ok ""

theorem Script.proper_of (log : List Note) : (Script.of log).Proper := by
  intro done u hu
  unfold Script.of at hu
  split at hu <;> cases hu
  exact ⟨_, rfl⟩

theorem Script.answers_of (h : ∀ reason, .did (.asked (.error (.fault reason))) ∉ log) :
    (Script.of log).Answers log := by
  rintro pre a post rfl ha
  have hat : ((pre ++ .did (.asked a) :: post).filterMap Note.did?)[(Note.interactions pre).length]? =
      some (.asked a) := by
    simp [Note.interactions, Note.did?]
  unfold Script.of
  rw [hat]
  cases a with
  | ok line => rfl
  | error u =>
    cases u with
    | exception e => rfl
    | cancelled => exact (ha rfl).elim
    | fault reason => exact (h reason (by simp)).elim

theorem Worker.fault_notMem_notes (w : Worker) (s : Shared) (reason : String) :
    .did (.asked (.error (.fault reason))) ∉ w.notes s := by
  have hraised (before after : Run) :
      .did (.asked (.error (.fault reason))) ∉ before.raisedNotes after := by
    unfold Run.raisedNotes
    split <;> simp
  cases w with
  | loading | concluding | finished => exact List.not_mem_nil
  | running run tracer =>
    simp only [notes]
    split
    · refine List.mem_append.not.2 (not_or.2 ⟨?_, hraised _ _⟩)
      unfold Run.executedNotes
      split
      · cases run.current.chunk.code[run.current.pc]? <;> simp
      · simp
    all_goals simp
  | suspended run tracer pause wait =>
    cases wait with
    | arriving =>
      simp only [notes, Suspension.notes]
      split <;> simp
    | publishing mail =>
      simp only [notes, Suspension.notes]
      split <;> simp
    | waiting mail => cases mail <;> simp [notes, Suspension.notes]
    | checking mail =>
      simp only [notes, Suspension.notes]
      split <;> simp
    | leaving result | left result => simp [notes, Suspension.notes]
  | reading run tracer r =>
    simp only [notes]
    split
    · next o _ =>
      refine List.mem_cons.not.2 (not_or.2 ⟨fun he => ?_, hraised _ _⟩)
      cases o <;> cases hset : s.cell.isSet <;> rw [hset] at he <;> cases he
    · exact List.not_mem_nil
  | announcing arena o =>
    simp only [notes]
    split <;> simp

namespace System

variable {s : System}

theorem Reached.answers (h : s.Reached) : (Script.of s.log).Answers s.log := by
  refine Script.answers_of fun reason => ?_
  refine h.log_induction (P := (.did (.asked (.error (.fault reason))) ∉ ·)) List.not_mem_nil ?_ ?_
  · intro s _ b w _ hlog hmem
    rcases List.mem_append.1 hmem with hmem | hmem
    · exact hlog hmem
    · exact w.fault_notMem_notes s.session.shared reason hmem
  · intro log notes hlog hnotes hmem
    rcases List.mem_append.1 hmem with hmem | hmem
    · exact hlog hmem
    · cases hnotes _ hmem

theorem Reached.lock (h : s.Reached) {b : Brief} {w : Worker}
    (hw : s.session.worker = some (b, w)) :
    Lock (.of s.log) b s.log s.effort s.session.shared.pinnings w :=
  (h.lockstep _).lock b w hw h.answers

theorem Reached.noted (h : s.Reached) : ∀ b w chunk, s.session.worker = some (b, w) →
    Code.compile b.job.name b.job.source = .ok chunk → w.Noted s.log := by
  refine (h.induction (P := fun s => s.Reached ∧ ∀ b w chunk, s.session.worker = some (b, w) →
    Code.compile b.job.name b.job.source = .ok chunk → w.Noted s.log) ?_ ?_).2
  · exact fun limit rules => ⟨reached_new limit rules, fun b w chunk hw => by cases hw⟩
  · rintro s a ⟨hs, ih⟩
    refine ⟨hs.act a, fun b w' chunk hw' hk => ?_⟩
    by_cases hstart : ∃ job, a = .start job
    · obtain ⟨job, rfl⟩ := hstart
      obtain he | ⟨-, he⟩ := s.act_start job
      · rw [he] at hw' ⊢
        exact ih b w' chunk hw' hk
      · rw [he] at hw'
        cases hw'
        trivial
    · have hstart : ∀ job, a ≠ .start job := fun job he => hstart ⟨job, he⟩
      by_cases ha : a = .work
      · subst ha
        obtain he | ⟨b', w, hw, he⟩ := s.act_work
        · rw [he] at hw' ⊢
          exact ih b w' chunk hw' hk
        · rw [he] at hw' ⊢
          cases hw'
          obtain ⟨st, -, hfits⟩ := hs.orderly.fits hw
          exact (ih b w chunk hw hk).step (Script.proper_of s.log) (hs.lock hw) (v := s.view)
            hfits hk
      · obtain ⟨notes, hlog, hnotes⟩ := log_outside (s := s) hstart ha
        obtain ⟨⟨f, htouched, hworker⟩, -⟩ := worker_outside (s := s) hstart ha
        rw [hworker] at hw'
        obtain ⟨⟨b, w⟩, hw, he⟩ := Option.map_eq_some_iff.1 hw'
        cases he
        rw [hlog]
        refine ((ih b w chunk hw hk).touched (htouched w)).append fun n hn => ?_
        have hn := hnotes n hn
        cases n <;> first | rfl | cases hn

theorem Reached.ending (h : s.Reached) {b : Brief} {w : Worker} {chunk : Chunk}
    (hw : s.session.worker = some (b, w))
    (hk : Code.compile b.job.name b.job.source = .ok chunk) {o : Outcome}
    (ho : .terminated o ∈ s.log) :
    o.Noted s.log ∧ (.interrupted ∉ s.log → o ≠ .cancelled) := by
  have hkept := h.orderly.kept
  obtain ⟨arena, rfl⟩ := (hkept.ended b w hw).2 ⟨o, ho⟩
  obtain ⟨o', ho', hnoted⟩ := h.noted b _ chunk hw hk
  obtain ⟨o'', ho'', hc⟩ := h.lock hw
  obtain rfl := hkept.current.terminated_unique ho ho'
  obtain rfl := hkept.current.terminated_unique ho ho''
  refine ⟨hnoted, fun hcalm => ?_⟩
  obtain ⟨k, hcomes, -⟩ | ⟨-, hi⟩ := hc
  · exact hcomes.ne_cancelled (Script.proper_of s.log)
  · exact (hcalm hi).elim

end System

end Stepwise
