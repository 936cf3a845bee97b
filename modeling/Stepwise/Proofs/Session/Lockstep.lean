import Stepwise.Proofs.Session.Alone
import Stepwise.Proofs.Session.Pins

/-! Runs in step with their sources run alone. Whoever observes a run and whatever its
controller decides, the run is where its source would be if it ran alone, once the pins of its
pause are gone, as long as it is not interrupted; and it takes a bounded number of steps for
every move of the other. -/

namespace Stepwise

open Host (Interaction)

namespace Note

/-- What was done according to the notes, latest first. -/
def interactions (log : List Note) : List Interaction :=
  (log.filterMap did?).reverse

@[simp] theorem interactions_append (log notes : List Note) :
    interactions (log ++ notes) = interactions notes ++ interactions log := by
  simp [interactions]

@[simp] theorem interactions_raisedNotes (before after : Run) :
    interactions (before.raisedNotes after) = [] := by
  unfold Run.raisedNotes
  split <;> rfl

@[simp] theorem interactions_executedNotes (r : Run) : interactions r.executedNotes = [] := by
  unfold Run.executedNotes
  split
  · cases r.current.chunk.code[r.current.pc]? <;> rfl
  · rfl

@[simp] theorem interactions_notes (seq : Nat) (listening interrupted : Bool) (g : Gate)
    (wait : Suspension) : interactions (wait.notes seq listening interrupted g) = [] := by
  cases wait with
  | arriving =>
    simp only [Suspension.notes]
    split <;> rfl
  | publishing mail => cases listening <;> rfl
  | waiting mail => cases mail <;> rfl
  | checking mail => cases interrupted <;> rfl
  | leaving result | left result => rfl

end Note

open Note (interactions)

/-- The lines that were given are those of the script; a read that was cancelled gave none. -/
def Script.Answers (script : Script) (log : List Note) : Prop :=
  ∀ pre a post, log = pre ++ .did (.asked a) :: post → a ≠ .error .cancelled →
    a = script (interactions pre)

theorem Script.Answers.of_append {script : Script} {log notes : List Note}
    (h : script.Answers (log ++ notes)) : script.Answers log :=
  fun pre a post he ha => h pre a (post ++ notes) (by simp [he]) ha

def Run.unpinned (run : Run) (pinnings : Array Pinning) (p : Pause) : Run :=
  run.withArena (Gallery.release ⟨run.machine.arena, pinnings⟩ p.snapshot).arena

def Run.Cancelled (run : Run) : Prop :=
  run.phase = .leave (.error .cancelled) ∨ run.phase = .ended (.error .cancelled)

def Suspension.spent : Suspension → Nat
  | arriving => 2
  | publishing _ => 3
  | waiting _ | checking _ => 4
  | leaving _ => 5
  | left _ => 6

def Suspension.isCancelled : Suspension → Bool
  | leaving (.ok .cancelled) | left (.ok .cancelled) => true
  | _ => false

def Reader.spent (r : Reader) : Nat :=
  match r.stage with
  | .subscribing => 2
  | .showing _ => 3
  | .installing _ => 4
  | .superseding (.telling _ _) => 5
  | .superseding (.discarding _) => 6
  | .waiting | .checking => 7
  | .uninstalling _ => 8
  | .leaving _ _ _ => 9
  | .hiding _ => 10
  | .ended _ => 11

theorem Reader.spent_le (r : Reader) : r.spent ≤ 12 := by
  unfold spent
  split <;> decide

theorem Suspension.spent_step {seq : Nat} {listening interrupted : Bool} {g : Gate}
    {wait : Suspension} (h : ∀ result, wait ≠ .left result) (effort : Nat) :
    (if wait.isLook then effort else effort + 1) + wait.spent ≤
      effort + (wait.step seq listening interrupted g).1.spent := by
  cases wait with
  | arriving =>
    simp only [step]
    cases g.install seq <;> simp [isLook, spent]
  | publishing mail => cases listening <;> simp [step, isLook, spent]
  | waiting mail => cases mail <;> simp [step, isLook, spent]
  | checking mail => cases interrupted <;> simp [step, isLook, spent]
  | leaving result => simp [step, isLook, spent]
  | left result => exact (h result rfl).elim

theorem Suspension.isCancelled_step {seq : Nat} {listening interrupted : Bool} {g : Gate}
    {wait : Suspension} (h : (wait.step seq listening interrupted g).1.isCancelled = true) :
    wait.isCancelled = true ∨ interrupted = true := by
  cases wait with
  | arriving =>
    simp only [step] at h
    split at h <;> cases h
  | publishing mail => cases listening <;> cases h
  | waiting mail => cases mail <;> cases h
  | checking mail =>
    cases interrupted with
    | true => exact .inr rfl
    | false => cases h
  | leaving result => exact .inl (by cases result with
    | ok d => cases d <;> first | rfl | cases h
    | error e => cases h)
  | left result => exact .inl h

theorem Reader.spent_step {run : Run} {tracer : Tracer} {r : Reader} (h : r.outcome? = none)
    (interrupted : Bool) (c : Console) (effort : Nat) :
    (if (Worker.reading run tracer r).isLook then effort else effort + 1) + r.spent ≤
      effort + (r.step interrupted c).1.spent := by
  obtain ⟨id, stage⟩ := r
  cases stage with
  | subscribing | showing | uninstalling | «hiding» => simp [step, Worker.isLook, spent]
  | installing =>
    simp only [step]
    cases c.slot <;> simp [Worker.isLook, spent]
  | superseding f => cases f <;> simp [step, ReadClosing.step, Worker.isLook, spent]
  | waiting =>
    simp only [step, Worker.isLook, if_true]
    cases receive? id c.mail with
    | some m => simp [spent]
    | none => cases c.deserted.contains id <;> simp [spent]
  | checking => cases interrupted <;> simp [step, Worker.isLook, spent]
  | leaving held idle o => cases idle <;> simp [step, Worker.isLook, spent]
  | ended o => cases h

namespace Tracer

variable {t t' : Tracer} {event : TraceEvent} {interrupted : Bool} {a : Activation} {arena : Arena}

theorem of_answer {c : Control}
    (h : t.consider event interrupted a arena = (.answer c, t')) :
    c = .proceed ∨ c = .cancel ∧ event = .opcode ∧ interrupted = true := by
  unfold consider at h
  split at h
  · cases h
    exact .inl rfl
  · next hevent =>
    obtain ⟨hevent, -⟩ := not_or.1 hevent
    split at h
    · next hi =>
      cases h
      exact .inr ⟨rfl, not_not.1 hevent, hi⟩
    · split at h
      · cases h
        exact .inl rfl
      · split at h <;> cases h
        exact .inl rfl

theorem of_offer {highlight : Range} {hint : Hint}
    (h : t.consider event interrupted a arena = (.offer highlight hint, t')) :
    event = .opcode ∧ interrupted = false := by
  unfold consider at h
  split at h
  · cases h
  · next hevent =>
    obtain ⟨hevent, -⟩ := not_or.1 hevent
    split at h
    · cases h
    · next hi => exact ⟨not_not.1 hevent, Bool.eq_false_iff.2 hi⟩

theorem pauseAt_of_holds (t : Tracer) (highlight : Range) (hint : Hint) {g : Gallery} {f : Frame}
    (h : g.arena.Holds a.frame f) :
    ∃ p g' t', t.pauseAt highlight hint a g = .ok (p, g', t') ∧
      (g'.release p.snapshot).arena = g.arena := by
  obtain ⟨arena, hpin, hunpin⟩ := h.pin
  simp only [pauseAt, Gallery.capture, hpin]
  refine ⟨_, _, _, rfl, ?_⟩
  simp only [Gallery.release, Gallery.isReleased, Array.getElem?_push_size, Option.all_some,
    Bool.false_eq_true, if_false]
  exact hunpin

end Tracer

variable {script : Script} {b : Brief} {r after : Run} {log log' : List Note}
  {effort effort' slack slack' : Nat}

def InStep (script : Script) (b : Brief) (r : Run) (log : List Note) (effort slack : Nat) : Prop :=
  ∃ k, Alone script b k r.quieted (interactions log) ∧ k ≤ effort ∧ effort ≤ 12 * k + slack

theorem InStep.next (h : InStep script b r log effort slack) (hs : slack ≤ 12)
    (hmove : ∀ k, Alone script b k r.quieted (interactions log) →
      Alone script b (k + 1) after.quieted (interactions log')) :
    InStep script b after log' (effort + 1) 1 := by
  obtain ⟨k, halone, hle, hge⟩ := h
  exact ⟨k + 1, hmove k halone, by omega, by omega⟩

theorem InStep.stay (h : InStep script b r log effort slack)
    (hinteractions : interactions log' = interactions log)
    (hle : effort ≤ effort') (hs : effort' + slack ≤ effort + slack') :
    InStep script b r log' effort' slack' := by
  obtain ⟨k, halone, hk, hge⟩ := h
  exact ⟨k, hinteractions ▸ halone, by omega, by omega⟩

def Concluded (script : Script) (b : Brief) (arena : Arena) (o : Outcome) (log : List Note)
    (effort slack : Nat) : Prop :=
  (∃ k, Comes script b k arena o (interactions log) ∧ k ≤ effort ∧ effort ≤ 12 * k + slack) ∨
    o = .cancelled ∧ .interrupted ∈ log

theorem Concluded.stay {arena : Arena} {o : Outcome}
    (h : Concluded script b arena o log effort slack) {notes : List Note}
    (hinteractions : interactions notes = [])
    (hle : effort ≤ effort') (hs : effort' + slack ≤ effort + slack') :
    Concluded script b arena o (log ++ notes) effort' slack' := by
  obtain ⟨k, hcomes, hk, hge⟩ | ⟨ho, hi⟩ := h
  · refine .inl ⟨k, ?_, by omega, by omega⟩
    rwa [Note.interactions_append, hinteractions]
  · exact .inr ⟨ho, List.mem_append_left _ hi⟩

def Lock (script : Script) (b : Brief) (log : List Note) (effort : Nat)
    (pinnings : Array Pinning) : Worker → Prop
  | .loading => interactions log = [] ∧ effort = 0
  | .running run _ =>
    InStep script b run log effort 1 ∨ run.Cancelled ∧ .interrupted ∈ log
  | .suspended run _ p wait =>
    run.phase = .opcode ∧ InStep script b (run.unpinned pinnings p) log effort wait.spent ∧
      (wait.isCancelled = true → .interrupted ∈ log)
  | .reading run _ r => run.phase = .read ∧ InStep script b run log effort r.spent
  | .concluding arena o => Concluded script b arena o log effort 2
  | .announcing arena o => Concluded script b arena o log effort 3
  | .finished arena => ∃ o, .terminated o ∈ log ∧ Concluded script b arena o log effort 4

theorem Lock.note {pinnings : Array Pinning} {w : Worker} {n : Note}
    (h : Lock script b log effort pinnings w) (hn : n.did? = none) :
    Lock script b (log ++ [n]) effort pinnings w := by
  have hinteractions : interactions [n] = [] := by simp [interactions, hn]
  have hlog : interactions (log ++ [n]) = interactions log := by
    rw [Note.interactions_append, hinteractions, List.nil_append]
  cases w with
  | loading => exact ⟨hlog.trans h.1, h.2⟩
  | running run tracer =>
    exact h.imp (·.stay hlog (Nat.le_refl _) (Nat.le_refl _)) fun hc =>
      ⟨hc.1, List.mem_append_left _ hc.2⟩
  | suspended run tracer p wait =>
    exact ⟨h.1, h.2.1.stay hlog (Nat.le_refl _) (Nat.le_refl _),
      fun hc => List.mem_append_left _ (h.2.2 hc)⟩
  | reading run tracer r => exact ⟨h.1, h.2.stay hlog (Nat.le_refl _) (Nat.le_refl _)⟩
  | concluding arena o => exact Concluded.stay h hinteractions (Nat.le_refl _) (Nat.le_refl _)
  | announcing arena o => exact Concluded.stay h hinteractions (Nat.le_refl _) (Nat.le_refl _)
  | finished arena =>
    obtain ⟨o, ho, hc⟩ := h
    exact ⟨o, List.mem_append_left _ ho, hc.stay hinteractions (Nat.le_refl _) (Nat.le_refl _)⟩

namespace Run.Cancelled

theorem advance {run : Run} (h : run.Cancelled) : run.advance.Cancelled := by
  obtain ⟨m, a, callers, phase⟩ := run
  obtain h | h : phase = .leave (.error .cancelled) ∨ phase = .ended (.error .cancelled) := h
  · subst h
    cases callers with
    | nil => exact .inr rfl
    | cons caller callers => exact .inl rfl
  · subst h
    exact .inr rfl

theorem phase_ne {run : Run} (h : run.Cancelled) :
    run.phase ≠ .opcode ∧ run.phase ≠ .poll ∧ run.phase ≠ .read ∧ run.phase ≠ .clear ∧
      ∀ text thenRead, run.phase ≠ .write text thenRead := by
  rcases h with h | h <;> simp [h]

end Run.Cancelled

section Step

variable {v : View} {st : Stage} {run : Run} {tracer : Tracer} {s : Shared}

theorem Lock.move_cancelled (h : run.Cancelled) (hi : .interrupted ∈ log) :
    Lock script b (log ++ Worker.notes (.running run tracer) s) (effort + 1)
      (Worker.move b run tracer s).2.pinnings (Worker.move b run tracer s).1 := by
  have hi' : ∀ notes, Note.interrupted ∈ log ++ notes := fun _ => List.mem_append_left _ hi
  obtain ⟨hopcode, hpoll, hread, hclear, hwrite⟩ := h.phase_ne
  cases hn : run.need with
  | nothing =>
    simp only [Worker.move, hn]
    exact .inr ⟨h.advance, hi' _⟩
  | control event aux =>
    obtain ⟨-, ⟨-, hphase⟩ | ⟨hne, -⟩, -⟩ := Run.of_need_control hn
    · exact (hopcode hphase).elim
    · simp only [Worker.move, hn, Tracer.consider_of_ne hne, Run.control_proceed]
      exact .inr ⟨h.advance, hi' _⟩
  | cell => exact (hpoll (Run.phase_of_need_cell hn)).elim
  | write text =>
    obtain ⟨thenRead, hphase⟩ := Run.phase_of_need_write hn
    exact (hwrite _ _ hphase).elim
  | clear => exact (hclear (Run.phase_of_need_clear hn)).elim
  | line => exact (hread (Run.phase_of_need_line hn)).elim
  | done ending =>
    simp only [Worker.move, hn]
    have hphase := Run.phase_of_need_done hn
    obtain rfl : ending = .error .cancelled := by
      rcases h with h | h <;> rw [h] at hphase <;> cases hphase
      rfl
    exact .inr ⟨rfl, hi' _⟩

theorem Lock.move (h : InStep script b run log effort 1)
    (hcell : s.cell.isSet = true → .interrupted ∈ log) :
    Lock script b (log ++ Worker.notes (.running run tracer) s) (effort + 1)
      (Worker.move b run tracer s).2.pinnings (Worker.move b run tracer s).1 := by
  have hnext {after : Run} {notes : List Note} (done : List Interaction)
      (hnotes : interactions notes = done)
      (hmove : ∀ k, Alone script b k run.quieted (interactions log) →
        Alone script b (k + 1) after.quieted (done ++ interactions log)) :
      InStep script b after (log ++ notes) (effort + 1) 1 := by
    refine h.next (by omega) ?_
    rw [Note.interactions_append, hnotes]
    exact hmove
  have hstay {slack : Nat} (hs : 2 ≤ slack) :
      InStep script b run (log ++ []) (effort + 1) slack :=
    h.stay (by rw [List.append_nil]) (Nat.le_succ effort) (by omega)
  cases hn : run.need with
  | nothing =>
    simp only [Worker.notes, Worker.move, hn]
    exact .inl (hnext [] (by simp) fun _ halone => halone.advance (.inl hn))
  | control event aux =>
    simp only [Worker.notes, Worker.move, hn]
    have hgo : InStep script b run.advance (log ++ []) (effort + 1) 1 :=
      hnext [] rfl fun _ halone => halone.advance (.inr ⟨event, aux, hn⟩)
    split
    · next c tracer' hc =>
      rcases Tracer.of_answer hc with rfl | ⟨rfl, rfl, hi⟩
      · rw [Run.control_proceed]
        exact .inl hgo
      · refine .inr ⟨.inl ?_, List.mem_append_left _ (hcell hi)⟩
        simp [Run.control, Run.phase_of_need_opcode hn, Run.fail, Run.withPhase]
    · next highlight hint tracer' hc =>
      obtain ⟨rfl, -⟩ := Tracer.of_offer hc
      have hphase := Run.phase_of_need_opcode hn
      obtain ⟨k, halone, -⟩ := id h
      obtain ⟨f, hf⟩ := halone.sane.held hphase
      obtain ⟨p, g, t', hp, harena⟩ := tracer'.pauseAt_of_holds (a := run.current) highlight
        hint (g := ⟨run.machine.arena, s.pinnings⟩) hf
      simp only [hp]
      refine ⟨hphase, ?_, fun hc => by cases hc⟩
      -- the pin of the pause is all that the run has changed, and its release takes that back
      have hbare : (run.withArena g.arena).unpinned g.pinnings p = run := by
        change run.withArena (g.release p.snapshot).arena = run
        rw [harena]
        rfl
      rw [hbare]
      exact hstay (Nat.le_refl _)
  | cell =>
    simp only [Worker.notes, Worker.move, hn]
    cases hset : s.cell.isSet with
    | true => exact .inr ⟨.inl rfl, List.mem_append_left _ (hcell hset)⟩
    | false => exact .inl (hnext [] rfl fun _ halone => halone.polled hn)
  | write text =>
    simp only [Worker.notes, Worker.move, hn]
    exact .inl (hnext [.wrote text] rfl fun _ halone => halone.wrote hn)
  | clear =>
    simp only [Worker.notes, Worker.move, hn]
    exact .inl (hnext [.cleared] rfl fun _ halone => halone.cleared hn)
  | line =>
    simp only [Worker.notes, Worker.move, hn]
    exact ⟨Run.phase_of_need_line hn, hstay (Nat.le_refl _)⟩
  | done ending =>
    simp only [Worker.notes, Worker.move, hn]
    obtain ⟨k, halone, hk, hge⟩ := hstay (Nat.le_refl 2)
    have hphase : run.phase = .ended ending := Run.phase_of_need_done hn
    exact .inl ⟨k, .ended (r := run.quieted) halone hphase, hk, hge⟩

theorem Worker.wait_of_ne {pause : Pause} {wait : Suspension}
    (h : ∀ result, wait ≠ .left result) :
    (Worker.wait run tracer pause wait s).1 = .suspended run tracer pause
        (wait.step pause.seq s.events.isSome s.cell.isSet s.gate).1 ∧
      (Worker.wait run tracer pause wait s).2.pinnings = s.pinnings := by
  cases wait with
  | left result => exact (h result rfl).elim
  | _ => exact ⟨rfl, rfl⟩

theorem Lock.wait {pause : Pause} {wait : Suspension}
    (h : Lock script b log effort s.pinnings (.suspended run tracer pause wait))
    (hf : (v.along s).Fits st (.suspended run tracer pause wait))
    (hcell : s.cell.isSet = true → .interrupted ∈ log) :
    Lock script b (log ++ Worker.notes (.suspended run tracer pause wait) s)
      (if wait.isLook then effort else effort + 1)
      (Worker.wait run tracer pause wait s).2.pinnings (Worker.wait run tracer pause wait s).1 := by
  obtain ⟨hphase, hstep, hcancelled⟩ := h
  by_cases hleft : ∃ result, wait = .left result
  · obtain ⟨result, rfl⟩ := hleft
    simp only [Worker.notes, Worker.wait, Suspension.notes, List.append_nil]
    have hgo : InStep script b (run.unpinned s.pinnings pause).advance log (effort + 1) 1 := by
      have hopcode : (run.unpinned s.pinnings pause).phase = .opcode := hphase
      exact hstep.next (Nat.le_add_left 6 6) fun _ halone =>
        halone.advance (Run.need_of_opcode hopcode)
    cases result with
    | error e =>
      obtain ⟨-, -, -, hno⟩ := hf
      exact hno.elim
    | ok answer =>
      cases answer with
      | cancelled =>
        refine .inr ⟨.inl ?_, hcancelled rfl⟩
        simp [Tracer.answer, Run.control, Run.withArena, hphase, Run.fail, Run.withPhase]
      | resumed d =>
        refine .inl ?_
        cases d with
        | continueStepping =>
          rw [Tracer.answer, Run.control_proceed]
          exact hgo
        | stopDebugging =>
          rw [Tracer.answer, Run.control_untrace, Run.advance_quieted]
          exact hgo
  · have hne : ∀ result, wait ≠ .left result := fun result he => hleft ⟨result, he⟩
    obtain ⟨hw, hpinnings⟩ := Worker.wait_of_ne hne
    rw [hw, hpinnings]
    refine ⟨hphase, hstep.stay (by simp [Worker.notes]) ?_ (wait.spent_step hne effort), ?_⟩
    · split <;> omega
    · intro hc
      refine List.mem_append_left _ ?_
      rcases wait.isCancelled_step hc with hc | hset
      · exact hcancelled hc
      · exact hcell hset

theorem lineOf_cancelled {o : ReadOutcome} {interrupted : Bool}
    (h : Worker.lineOf o interrupted = .error .cancelled) : interrupted = true := by
  cases interrupted with
  | true => rfl
  | false => cases o <;> cases h

theorem Lock.read {r : Reader} (h : Lock script b log effort s.pinnings (.reading run tracer r))
    (hcell : s.cell.isSet = true → .interrupted ∈ log)
    (ha : script.Answers (log ++ Worker.notes (.reading run tracer r) s)) :
    Lock script b (log ++ Worker.notes (.reading run tracer r) s)
      (if (Worker.reading run tracer r).isLook then effort else effort + 1)
      (Worker.read run tracer r s).2.pinnings (Worker.read run tracer r s).1 := by
  obtain ⟨hphase, hstep⟩ := h
  cases ho : r.outcome? with
  | none =>
    simp only [Worker.notes, Worker.read, ho]
    refine ⟨hphase, hstep.stay (by simp) ?_ (Reader.spent_step ho _ _ effort)⟩
    split <;> omega
  | some o =>
    have hlook : (Worker.reading run tracer r).isLook = false := by
      obtain ⟨id, stage⟩ := r
      cases stage <;> first | rfl | cases ho
    simp only [Worker.notes, ho] at ha
    simp only [Worker.notes, Worker.read, ho, hlook, Bool.false_eq_true, if_false]
    by_cases hline : Worker.lineOf o s.cell.isSet = .error .cancelled
    · rw [hline]
      exact .inr ⟨.inl rfl, List.mem_append_left _ (hcell (lineOf_cancelled hline))⟩
    · have hscript := ha log _ _ rfl hline
      refine .inl (hstep.next r.spent_le fun k halone => ?_)
      have hinteractions : interactions (log ++ .did (.asked (Worker.lineOf o s.cell.isSet)) ::
          run.raisedNotes (run.received (Worker.lineOf o s.cell.isSet))) =
          .asked (script (interactions log)) :: interactions log := by
        rw [List.append_cons, Note.interactions_append, Note.interactions_raisedNotes,
          Note.interactions_append, hscript]
        rfl
      rw [hinteractions, hscript]
      exact halone.asked hphase

theorem Lock.step {w : Worker} (h : Lock script b log effort s.pinnings w)
    (hf : (v.along s).Fits st w) (hcell : s.cell.isSet = true → .interrupted ∈ log)
    (ha : script.Answers (log ++ w.notes s)) :
    Lock script b (log ++ w.notes s) (if w.isLook then effort else effort + 1)
      (w.step b s).2.pinnings (w.step b s).1 := by
  match w, h, hf with
  | .loading, ⟨hinteractions, heffort⟩, _ =>
    subst heffort
    have hlog : interactions (log ++ []) = [] := by rw [List.append_nil, hinteractions]
    simp only [Worker.notes, Worker.step, Worker.load]
    cases hk : Code.compile b.job.name b.job.source with
    | error e =>
      refine .inl ⟨0, ?_, by omega, by simp [Worker.isLook]⟩
      rw [hlog]
      exact .rejected hk
    | ok chunk =>
      refine .inl ⟨0, ?_, by omega, by simp [Worker.isLook]⟩
      rw [hlog]
      exact ⟨chunk, hk, .refl _ _⟩
  | .running run tracer, .inl h, _ => exact Lock.move h hcell
  | .running run tracer, .inr ⟨hc, hi⟩, _ => exact Lock.move_cancelled hc hi
  | .suspended run tracer pause wait, h, hf => exact h.wait hf hcell
  | .reading run tracer r, h, _ => exact h.read hcell ha
  | .concluding arena o, h, _ =>
    have h' : Concluded script b arena o (log ++ []) (effort + 1) 3 :=
      Concluded.stay h rfl (Nat.le_succ effort) (by omega)
    cases o <;> exact h'
  | .announcing arena o, h, hf =>
    have hlisten : s.events.isSome = true := hf.2.loose.isListening
    simp only [Worker.notes, hlisten, if_true]
    have h' : Concluded script b arena o (log ++ [.terminated o]) (effort + 1) 4 :=
      Concluded.stay h rfl (Nat.le_succ effort) (by omega)
    exact ⟨o, by simp, h'⟩
  | .finished arena, h, _ =>
    have hlog : log ++ Worker.notes (.finished arena) s = log := List.append_nil log
    rw [hlog]
    exact h

end Step

namespace System

variable {s : System}

structure Lockstep (script : Script) (s : System) : Prop where
  cell : s.session.shared.cell.isSet = true → .interrupted ∈ s.log
  lock : ∀ b w, s.session.worker = some (b, w) → script.Answers s.log →
    Lock script b s.log s.effort s.session.shared.pinnings w

theorem lockstep_new (limit : Nat) (rules : Hint.Rules) : (new limit rules).Lockstep script where
  cell h := by cases h
  lock _ _ h := by cases h

theorem Lockstep.start (h : s.Lockstep script) (job : Job) :
    (s.act (.start job)).Lockstep script := by
  obtain he | ⟨-, he⟩ := s.act_start job
  · rwa [he]
  · rw [he]
    refine ⟨fun hset => ?_, fun b w hw _ => ?_⟩
    · cases hset
    · cases hw
      exact ⟨rfl, rfl⟩

theorem Lockstep.poll (h : s.Lockstep script) : (s.act .poll).Lockstep script := by
  obtain he | ⟨e, rest, -, -, he⟩ := s.act_poll
  · rwa [he]
  · rw [he]
    cases e <;> exact ⟨h.cell, h.lock⟩

theorem Lockstep.resume (h : s.Lockstep script) (hfiled : s.Filed) (d : Decision) :
    (s.act (.resume d)).Lockstep script := by
  obtain he | ⟨p, -, hs, he⟩ := s.act_resume d
  · rwa [he]
  · rw [he]
    refine ⟨h.cell, fun b w' hw' ha => ?_⟩
    cases hw : s.session.worker with
    | none => simp [asked, Session.withGallery, hw] at hw'
    | some bw =>
      obtain ⟨b', w⟩ := bw
      simp only [asked, Session.withGallery, hw, Option.map_some, Option.some.injEq, Prod.mk.injEq] at hw'
      obtain ⟨rfl, rfl⟩ := hw'
      have hlock := h.lock _ w hw ha
      have hgallery : s.session.gallery = ⟨w.arena, s.session.shared.pinnings⟩ := by
        rw [Session.gallery, hw]
        rfl
      have hpause : s.pause? = w.pause? := by rw [pause?, hw, Option.bind_some]
      have hrelease := hfiled.release hs
      rw [hpause, hgallery] at hrelease
      simp only [asked, Session.withGallery, hgallery]
      obtain hsame | ⟨q, hq, hsame⟩ := hrelease
      · rw [hsame]
        cases w <;> exact hlock
      · rw [hsame]
        cases w with
        | suspended run tracer pause wait =>
          cases hq
          refine ⟨hlock.1, ?_, hlock.2.2⟩
          have hagain := Gallery.release_release ⟨run.machine.arena, s.session.shared.pinnings⟩
            q.snapshot
          have hbare : (run.withArena (Gallery.release ⟨run.machine.arena,
              s.session.shared.pinnings⟩ q.snapshot).arena).unpinned (Gallery.release
                ⟨run.machine.arena, s.session.shared.pinnings⟩ q.snapshot).pinnings q =
              run.unpinned s.session.shared.pinnings q :=
            congrArg (fun g => run.withArena (Gallery.arena g)) hagain
          exact hbare ▸ hlock.2.1
        | _ => cases hq

theorem Lockstep.proceed (h : s.Lockstep script) : (s.act .proceed).Lockstep script := by
  obtain he | ⟨p, d, e, -, -, he⟩ | ⟨p, d, gate, -, -, he⟩ | ⟨p, d, -, he⟩ :=
    s.act_proceed <;> rw [he]
  · exact h
  · exact ⟨fun hset => List.mem_append_left _ (h.cell hset),
      fun b w hw ha => (h.lock b w hw ha.of_append).note rfl⟩
  · exact ⟨fun hset => List.mem_append_left _ (h.cell hset),
      fun b w hw ha => (h.lock b w hw ha.of_append).note rfl⟩
  · refine ⟨h.cell, fun b w' hw' ha => ?_⟩
    cases hw : s.session.worker with
    | none => simp [sent, hw] at hw'
    | some bw =>
      obtain ⟨b', w⟩ := bw
      simp only [sent, hw, Option.map_some, Option.some.injEq, Prod.mk.injEq] at hw'
      obtain ⟨rfl, rfl⟩ := hw'
      have hlock := h.lock _ w hw ha
      cases w with
      | suspended run tracer pause wait =>
        cases wait <;> exact hlock
      | _ => exact hlock

theorem Lockstep.work (h : s.Lockstep script) (ho : s.Orderly) :
    (s.act .work).Lockstep script := by
  obtain he | ⟨b, w, hw, he⟩ := s.act_work
  · rwa [he]
  · rw [he]
    obtain ⟨st, -, hfits⟩ := ho.fits hw
    refine ⟨fun hset => List.mem_append_left _ (h.cell ?_), ?_⟩
    · exact (congrArg Cell.isSet (w.cell_step b s.session.shared)).symm.trans hset
    · rintro _ _ ⟨⟩ ha
      exact (h.lock b w hw ha.of_append).step (v := s.view) hfits h.cell ha

theorem Lockstep.act (h : s.Lockstep script) (ho : s.Orderly) (hfiled : s.Filed) (a : Action) :
    (s.act a).Lockstep script := by
  cases a with
  | start job => exact h.start job
  | poll => exact h.poll
  | resume d => exact h.resume hfiled d
  | proceed => exact h.proceed
  | interrupt =>
    exact ⟨fun _ => by simp [System.act, note],
      fun b w hw ha => (h.lock b w hw ha.of_append).note rfl⟩
  | work => exact h.work ho
  | terminal f => exact ⟨h.cell, h.lock⟩

theorem Reached.lockstep (h : s.Reached) (script : Script) : s.Lockstep script := by
  refine (h.induction (P := fun s => s.Orderly ∧ s.Filed ∧ s.Lockstep script) ?_ ?_).2.2
  · exact fun limit rules => ⟨orderly_new limit rules, filed_new limit rules,
      lockstep_new limit rules⟩
  · exact fun _ a hs => ⟨hs.1.act a, hs.2.1.act hs.1 a, hs.2.2.act hs.1 hs.2.1 a⟩

end System

end Stepwise
