import Stepwise.Proofs.Session.Lockstep

/-! Debugging is transparent. A run does the same, and comes to the same, whether it is observed
or not and whatever is decided about its pauses, on any console that gives lines by what was
done before. -/

namespace Stepwise

open Note (interactions)

variable {script : Script} {b : Brief} {log : List Note} {effort k : Nat}
  {pinnings : Array Pinning} {w : Worker} {arena : Arena} {o : Outcome}
  {done : List Host.Interaction}

theorem Lock.le_of_comes (h : Lock script b log effort pinnings w) (hcalm : .interrupted ∉ log)
    (hc : Comes script b k arena o done) : interactions log <:+ done ∧ effort ≤ 12 * k + 12 := by
  have hstep {run : Run} {slack : Nat} (hs : slack ≤ 12)
      (h : InStep script b run log effort slack) : interactions log <:+ done ∧ effort ≤ 12 * k + 12 := by
    obtain ⟨n, halone, -, hle⟩ := h
    obtain ⟨hn, hdone⟩ := hc.of_alone halone
    exact ⟨hdone, by omega⟩
  have hend {arena : Arena} {o : Outcome} {slack : Nat} (hs : slack ≤ 12)
      (h : Concluded script b arena o log effort slack) :
      interactions log <:+ done ∧ effort ≤ 12 * k + 12 := by
    obtain ⟨n, hcomes, -, hle⟩ | ⟨-, hi⟩ := h
    · obtain ⟨rfl, -, -, rfl⟩ := hc.unique hcomes
      exact ⟨List.suffix_rfl, by omega⟩
    · exact (hcalm hi).elim
  cases w with
  | loading =>
    rw [h.1, h.2]
    exact ⟨List.nil_suffix, by omega⟩
  | running run tracer =>
    obtain h | ⟨-, hi⟩ := h
    · exact hstep (by decide) h
    · exact (hcalm hi).elim
  | suspended run tracer p wait =>
    refine hstep ?_ h.2.1
    cases wait <;> simp [Suspension.spent]
  | reading run tracer r => exact hstep r.spent_le h.2
  | concluding arena o => exact hend (by decide) h
  | announcing arena o => exact hend (by decide) h
  | finished arena =>
    obtain ⟨o, -, h⟩ := h
    exact hend (by decide) h

theorem Lock.comes (h : Lock script b log effort pinnings (.finished arena))
    (hcalm : .interrupted ∉ log) :
    ∃ k o, .terminated o ∈ log ∧ Comes script b k arena o (interactions log) ∧ k ≤ effort := by
  obtain ⟨o, ho, ⟨k, hcomes, hk, -⟩ | ⟨-, hi⟩⟩ := h
  · exact ⟨k, o, ho, hcomes, hk⟩
  · exact (hcalm hi).elim

/-- What a run that only looks for something to come waits for: its controller, which has the
pause and may answer it or is sending the answer, or a line. -/
inductive Worker.Waits (v : View) : Worker → Prop
  | unanswered {run : Run} {tracer : Tracer} {p : Pause} {wait : Suspension}
    (h : v.Aware p.seq []) (hg : v.gate = some p.seq) : Waits v (.suspended run tracer p wait)
  | answering {run : Run} {tracer : Tracer} {p : Pause} {wait : Suspension} {d : Decision}
    (h : v.Answering p.seq d []) : Waits v (.suspended run tracer p wait)
  | answered (run : Run) (tracer : Tracer) (p : Pause) (d : Decision) :
    Waits v (.suspended run tracer p (.checking (some d)))
  | line (run : Run) (tracer : Tracer) (r : Reader) : Waits v (.reading run tracer r)
  | nothing (arena : Arena) : Waits v (.finished arena)

theorem View.Fits.waits {v : View} {st : Stage} (h : v.Fits st w) (hlook : w.isLook = true) :
    w.Waits v := by
  match w, h with
  | .loading, _ | .running _ _, _ | .concluding _ _, _ | .announcing _ _, _ => cases hlook
  | .reading run tracer r, _ => exact .line run tracer r
  | .finished arena, _ => exact .nothing arena
  | .suspended run tracer p (.checking (some d)), _ => exact .answered run tracer p d
  | .suspended run tracer p (.waiting none), ⟨_, _, h⟩
  | .suspended run tracer p (.checking none), ⟨_, _, h⟩ =>
    obtain ⟨-, hgate, haware⟩ | ⟨d, -, -, hanswering⟩ := h
    · exact .unanswered haware hgate
    · exact .answering hanswering
  | .suspended _ _ _ .arriving, _ | .suspended _ _ _ (.publishing _), _
  | .suspended _ _ _ (.waiting (some _)), _ | .suspended _ _ _ (.leaving _), _
  | .suspended _ _ _ (.left _), _ => cases hlook

namespace System

/-- Two runs of one source on one console, neither of them interrupted, of which the second has
ended: the first has done a part of what the second did, it takes a bounded number of steps
besides waiting, waits only where it has to, and if it has ended too, all is the same. -/
theorem transparent {script : Script} {s t : System} (hs : s.Reached) (ht : t.Reached)
    {b b' : Brief} {w : Worker} {arena : Arena} (hw : s.session.worker = some (b, w))
    (hw' : t.session.worker = some (b', .finished arena)) (hb : b.Alike b')
    (hcalm : .interrupted ∉ s.log) (hcalm' : .interrupted ∉ t.log)
    (ha : script.Answers s.log) (ha' : script.Answers t.log) :
    s.log.filterMap Note.did? <+: t.log.filterMap Note.did? ∧
      s.effort ≤ 12 * (t.effort + 1) ∧
      (w.isLook = true → w.Waits s.view) ∧
      ∀ arena', w = .finished arena' →
        s.log.filterMap Note.did? = t.log.filterMap Note.did? ∧ arena' = arena ∧
          ∃ o, .terminated o ∈ s.log ∧ .terminated o ∈ t.log := by
  have hlock := (hs.lockstep script).lock b w hw ha
  have hlock' := (ht.lockstep script).lock b' _ hw' ha'
  -- the run that has ended says what the source comes to, which bounds the other one
  obtain ⟨k, o, ho, hcomes, hk⟩ := hlock'.comes hcalm'
  have hb' : b'.Alike b := ⟨hb.source.symm, hb.name.symm, hb.files.symm, hb.recursionLimit.symm⟩
  obtain ⟨hdone, heffort⟩ := hlock.le_of_comes hcalm (hcomes.congr hb')
  refine ⟨List.reverse_suffix.1 hdone, by omega, fun hlook => ?_, ?_⟩
  · obtain ⟨st, -, hfits⟩ := hs.orderly.fits hw
    exact hfits.waits hlook
  · rintro arena' rfl
    obtain ⟨k', o', ho', hcomes', -⟩ := hlock.comes hcalm
    obtain ⟨-, rfl, rfl, hinteractions⟩ := (hcomes'.congr hb).unique hcomes
    exact ⟨List.reverse_injective hinteractions, rfl, o', ho', ho⟩

def endsAlone (log : List Note) : Bool :=
  (log.all fun
    | .did (.asked _) | .interrupted => false
    | _ => true) &&
  log.any fun
    | .terminated _ => true
    | _ => false

theorem of_endsAlone {log : List Note} (h : endsAlone log = true) (script : Script) :
    .interrupted ∉ log ∧ script.Answers log ∧ ∃ o, .terminated o ∈ log := by
  obtain ⟨hall, hany⟩ := Bool.and_eq_true_iff.1 h
  rw [List.all_eq_true] at hall
  obtain ⟨n, hn, hterminated⟩ := List.any_eq_true.1 hany
  refine ⟨fun hi => absurd (hall _ hi) (by simp), ?_, ?_⟩
  · rintro pre a post rfl -
    exact absurd (hall (.did (.asked a)) (by simp)) (by simp)
  · cases n <;> first | exact ⟨_, hn⟩ | cases hterminated

def product (mode : RunMode) : Job :=
  ⟨"print(6 * 7)\n", "<product>", mode⟩

def answering (answers : List Decision) : List Action :=
  List.replicate 50 Action.work ++ answers.flatMap fun d =>
    [Action.poll, .resume d, .proceed, .proceed] ++ List.replicate 50 Action.work

theorem start_notMem_answering (job : Job) (answers : List Decision) :
    .start job ∉ answering answers := by
  simp [answering]

def ran (mode : RunMode) (answers : List Decision) : System :=
  (launched 10 Hint.standard (product mode)).acts (answering answers)

theorem reached_ran (mode : RunMode) (answers : List Decision) : (ran mode answers).Reached :=
  (reached_launched 10 Hint.standard (product mode)).acts _

theorem worker_ran (mode : RunMode) (answers : List Decision) :
    ∃ w, (ran mode answers).session.worker =
      some (⟨product mode, .insert .empty "<product>" (product mode).source, Hint.standard, 10⟩,
        w) :=
  worker_acts (worker_launched 10 Hint.standard (product mode)) fun job =>
    start_notMem_answering job answers

theorem transparent_product :
    ∃ o, .terminated o ∈ (ran .debug [.continueStepping, .stopDebugging]).log ∧
      .terminated o ∈ (ran .normal []).log ∧
      (ran .debug [.continueStepping, .stopDebugging]).log.filterMap Note.did? =
        (ran .normal []).log.filterMap Note.did? := by
  have hs := reached_ran .debug [.continueStepping, .stopDebugging]
  have ht := reached_ran .normal []
  obtain ⟨w, hw⟩ := worker_ran .debug [.continueStepping, .stopDebugging]
  obtain ⟨w', hw'⟩ := worker_ran .normal []
  have hends : endsAlone (ran .debug [.continueStepping, .stopDebugging]).log = true := by
    decide +kernel
  have hends' : endsAlone (ran .normal []).log = true := by
    decide +kernel
  let script : Script := fun _ => .ok ""
  obtain ⟨hcalm, ha, ho⟩ := of_endsAlone hends script
  obtain ⟨hcalm', ha', ho'⟩ := of_endsAlone hends' script
  obtain ⟨arena, rfl⟩ := (hs.orderly.kept.ended _ _ hw).2 ho
  obtain ⟨arena', rfl⟩ := (ht.orderly.kept.ended _ _ hw').2 ho'
  obtain ⟨-, -, -, hsame⟩ := transparent hs ht hw hw' ⟨rfl, rfl, rfl, rfl⟩ hcalm hcalm' ha ha'
  obtain ⟨hdid, -, o, hfirst, hsecond⟩ := hsame arena rfl
  exact ⟨o, hfirst, hsecond, hdid⟩

end System

end Stepwise
