import Stepwise.Proofs.Machine.Succession
import Stepwise.Proofs.Session.RecordedRun

/-! The order in which a run comes to the instructions that it shows. Unless an instruction calls or
returns, the next one is a successor of it in the same activation; and within one activation this
holds of calls as well, whatever is shown of the called function meanwhile. -/

namespace Stepwise

open Relation (ReflTransGen)

namespace Run

variable {script : Script} {b : Brief} {k : Nat} {r r' : Run} {done : List Host.Interaction}
  {chunk : Chunk}

theorem keeps_quiet (script : Script) : script.console.quiet.Keeps fun _ => True where
  repinned _ _ _ _ := .refl
  abort _ _ _ _ _ _ := trivial
  line _ _ _ := trivial

theorem moves_of_path {P : Run → Prop} {w w' : List Host.Interaction}
    (h : Host.Path script.console.quiet P k r w r' w') :
    ReflTransGen (Moves fun _ => True) r r' := by
  induction h with
  | refl => exact .refl
  | step _ hm _ ih => exact (moves_of_host (keeps_quiet script) hm).trans ih

end Run

namespace Alone

variable {script : Script} {b : Brief} {k : Nat} {r : Run} {done : List Host.Interaction}
  {chunk : Chunk}

theorem compiles (h : Alone script b k r.quieted done) :
    ∃ chunk, Code.compile b.job.name b.job.source = .ok chunk :=
  h.imp fun _ h => h.1

theorem sound (h : Alone script b k r.quieted done)
    (hc : Code.compile b.job.name b.job.source = .ok chunk) :
    r.Sound (.units hc) fun _ => True := by
  obtain ⟨chunk', hc', hpath⟩ := h
  cases hc.symm.trans hc'
  have hstart : (Run.start (.new b.recursionLimit 1) chunk).Sound (.units hc) fun _ => True :=
    Run.sound_start (Run.all_builtins (.units hc)) .self
  have hsound := hstart.reaches (Run.moves_of_path hpath)
  exact ⟨hsound.arena, hsound.callers, hsound.placed⟩

theorem nodup (h : Alone script b k r.quieted done) (hr : ∀ ending, r.phase ≠ .ended ending) :
    ((r.current :: r.callers).map Activation.frame).Nodup := by
  obtain ⟨chunk, -, hpath⟩ := h
  have hstart : (Run.start (.new b.recursionLimit 1) chunk).Upright := .start (.new _) rfl chunk
  exact ((hstart.reaches (Run.moves_of_path hpath)).running hr).nodup

end Alone

namespace Worker

variable {b : Brief} {w : Worker} {x : Activation} {s : Shared} {run : Run} {t : Tracer}

/-- The worker has come to the instruction that the activation stands at, and to no other one of
that activation since. -/
def Past (x : Activation) : Worker → Prop
  | loading => False
  | running run _ => run.Past x
  | suspended run _ _ _ => x.At run.current ∨ Run.Awaits x run.callers
  | reading run _ _ => run.Past x
  | _ => True

def Fetches : Worker → Prop
  | running run _ | suspended run _ _ _ => run.Fetches
  | _ => True

theorem past_opcode (hp : run.phase = .opcode)
    (hx : x.At run.current ∨ Run.Awaits x run.callers) : (move b run t s).1.Past x := by
  have hadvance : run.advance.Past x := .advance_of_opcode hp hx
  unfold move
  split
  · exact hadvance
  · split
    · exact hadvance.control _
    · split
      · exact hadvance.control _
      · exact hx
  · next hn => cases hp.symm.trans (Run.phase_of_need_cell hn)
  · next hn =>
    obtain ⟨thenRead, hw⟩ := Run.phase_of_need_write hn
    cases hp.symm.trans hw
  · next hn => cases hp.symm.trans (Run.phase_of_need_clear hn)
  · next hn => cases hp.symm.trans (Run.phase_of_need_line hn)
  · trivial

theorem past_move (hp : run.phase ≠ .opcode) (h : run.Past x) (hadvance : run.advance.Past x) :
    (move b run t s).1.Past x := by
  unfold move
  split
  · exact hadvance
  · next event aux hn =>
    obtain ⟨-, ⟨-, ho⟩ | ⟨hne, -⟩, -⟩ := Run.of_need_control hn
    · exact (hp ho).elim
    · rw [Tracer.consider_of_ne hne]
      exact hadvance.control _
  · next hn => exact h.polled (Run.phase_of_need_cell hn) _
  · next hn => exact h.shown (.inl ⟨_, Run.phase_of_need_write hn⟩)
  · next hn => exact h.shown (.inr (Run.phase_of_need_clear hn))
  · exact h
  · trivial

theorem fetches_move (h : run.Fetches) : (move b run t s).1.Fetches := by
  unfold move
  split
  · exact h.advance
  · split
    · exact h.control _
    · split
      · exact h.control _
      · exact h
  · unfold Run.polled
    split <;> exact .of_ne nofun nofun
  · unfold Run.shown
    split <;> exact .of_ne nofun nofun
  · unfold Run.shown
    split <;> exact .of_ne nofun nofun
  · trivial
  · trivial

theorem past_wait {pause : Pause} {wait : Suspension} (hp : run.phase = .opcode)
    (hx : x.At run.current ∨ Run.Awaits x run.callers) :
    (Worker.wait run t pause wait s).1.Past x := by
  cases wait with
  | left result =>
    have hadvance : ∀ arena, (run.withArena arena).advance.Past x := fun arena =>
      .advance_of_opcode (r := run.withArena arena) hp hx
    exact (hadvance _).control _
  | _ => exact hx

theorem fetches_wait {pause : Pause} {wait : Suspension} (h : run.Fetches) :
    (Worker.wait run t pause wait s).1.Fetches := by
  cases wait with
  | left result =>
    have hrun : ∀ arena, (run.withArena arena).Fetches := fun _ => h
    exact (hrun _).control _
  | _ => exact h

theorem past_read {r : Reader} (hp : run.phase = .read) (h : run.Past x) :
    (Worker.read run t r s).1.Past x := by
  unfold Worker.read
  split
  · exact h.received hp _
  · exact h

theorem fetches_read {r : Reader} : (Worker.read run t r s).1.Fetches := by
  unfold Worker.read
  split
  · next o _ =>
    cases lineOf o s.cell.isSet <;> exact .of_ne nofun nofun
  · trivial

structure Course (shown : List Instant) (b : Brief) (w : Worker) : Prop where
  text : b.files.get? b.job.name = some b.job.source
  units : ∀ x ∈ shown, ∃ chunk, Code.compile b.job.name b.job.source = .ok chunk ∧
    Code.IsUnit chunk x.activation.chunk
  fetched : ∀ x ∈ shown, x.activation.Fetched
  next : shown.IsChain fun x y => x.activation.op? ≠ some .returnValue →
    x.activation.op? ≠ some .call → x.activation.Precedes y.activation
  own : ∀ frame, (shown.filter (·.activation.frame = frame)).IsChain fun x y =>
    x.activation.op? ≠ some .returnValue → x.activation.Precedes y.activation
  past : ∀ frame, ∀ x ∈ (shown.filter (·.activation.frame = frame)).getLast?,
    x.activation.op? ≠ some .returnValue → w.Past x.activation
  fetches : w.Fetches

namespace Course

variable {shown : List Instant} {w w' : Worker}

theorem loading (h : b.files.get? b.job.name = some b.job.source) : Course [] b .loading where
  text := h
  units _ h := absurd h List.not_mem_nil
  fetched _ h := absurd h List.not_mem_nil
  next := .nil
  own _ := .nil
  past _ _ h := nomatch h
  fetches := trivial

theorem touched (h : Course shown b w) (hw : w.Touched w') : Course shown b w' := by
  refine ⟨h.text, h.units, h.fetched, h.next, h.own, fun frame x hx hop => ?_, ?_⟩
  · have hpast := h.past frame x hx hop
    cases hw with
    | same => exact hpast
    | pins arena => cases w <;> exact hpast
    | mail d => cases w <;> exact hpast
  · have hfetches := h.fetches
    cases hw with
    | same => exact hfetches
    | pins arena => cases w <;> exact hfetches
    | mail d => cases w <;> exact hfetches

theorem quiet (h : Course shown b w)
    (hpast : ∀ x : Activation, x.op? ≠ some .returnValue → w.Past x → w'.Past x)
    (hfetches : w'.Fetches) : Course shown b w' :=
  ⟨h.text, h.units, h.fetched, h.next, h.own,
    fun frame x hx hop => hpast x.activation hop (h.past frame x hx hop), hfetches⟩

theorem getLast?_filter {l : List Instant} {x : Instant} (h : l.getLast? = some x) :
    (l.filter (·.activation.frame = x.activation.frame)).getLast? = some x := by
  obtain ⟨init, rfl⟩ := List.getLast?_eq_some_iff.1 h
  simp [List.filter_append]

/-- A step at which the run shows an instruction. It is a successor of what its activation came to
last, and no call is between the two unless the activation waits for it. -/
theorem shows (h : Course shown b (.running run t)) (hp : run.phase = .opcode)
    {script : Script} {k : Nat} {done : List Host.Interaction}
    (halone : Alone script b k run.quieted done) :
    Course (shown ++ [⟨run.current, run.machine.arena⟩]) b (move b run t s).1 := by
  have hnodup := halone.nodup (by simp [hp])
  have hpast : ∀ frame, ∀ x ∈ (shown.filter (·.activation.frame = frame)).getLast?,
      x.activation.op? ≠ some .returnValue →
      x.activation.Precedes run.current ∨ Run.Awaits x.activation run.callers := by
    intro frame x hx hop
    have hx := h.past frame x hx hop
    simpa only [Past, Run.Past, hp] using hx
  have hframe : ∀ frame, ∀ x ∈ (shown.filter (·.activation.frame = frame)).getLast?,
      x.activation.frame = frame := fun frame x hx =>
    of_decide_eq_true (List.mem_filter.1 (List.mem_of_getLast? hx)).2
  refine ⟨h.text, ?_, ?_, ?_, fun frame => ?_, fun frame x hx hop => ?_,
    fetches_move h.fetches⟩
  · obtain ⟨chunk, hc⟩ := halone.compiles
    have hplaced := (halone.sound hc).placed
    simp only [Run.Placed, hp] at hplaced
    exact List.forall_mem_append.2
      ⟨h.units, List.forall_mem_singleton.2 ⟨chunk, hc, hplaced.chunk⟩⟩
  · exact List.forall_mem_append.2
      ⟨h.fetched, List.forall_mem_singleton.2 (h.fetches (.inr hp))⟩
  · refine List.isChain_append.2 ⟨h.next, .singleton _, ?_⟩
    rintro x hx y ⟨⟩ hreturn hcall
    refine (hpast _ x (getLast?_filter hx) hreturn).resolve_right fun hawaits => ?_
    exact hcall hawaits.1
  · rw [List.filter_append]
    by_cases hy : run.current.frame = frame
    · rw [List.filter_cons_of_pos (by simpa using hy), List.filter_nil]
      refine List.isChain_append.2 ⟨h.own frame, .singleton _, ?_⟩
      rintro x hx y ⟨⟩ hreturn
      refine (hpast frame x hx hreturn).resolve_right ?_
      rintro ⟨-, a, ha, hxa⟩
      refine (List.nodup_cons.1 hnodup).1 (List.mem_map.2 ⟨a, ha, ?_⟩)
      rw [hxa.frame, hframe frame x hx, hy]
    · rw [List.filter_cons_of_neg (by simpa using hy), List.filter_nil, List.append_nil]
      exact h.own frame
  · rw [List.filter_append] at hx
    by_cases hy : run.current.frame = frame
    · rw [List.filter_cons_of_pos (by simpa using hy), List.filter_nil, List.getLast?_concat] at hx
      cases hx
      exact past_opcode hp (.inl ⟨rfl, rfl, rfl⟩)
    · rw [List.filter_cons_of_neg (by simpa using hy), List.filter_nil, List.append_nil] at hx
      refine past_opcode hp (.inr ((hpast frame x hx hop).resolve_left fun hxa => hy ?_))
      rw [hxa.frame, hframe frame x hx]

theorem step (h : Course shown b w) {script : Script} {log : List Note} {effort : Nat}
    (hlock : Lock script b log effort s.pinnings w) (hcalm : .interrupted ∉ log) :
    Course (shown ++ w.instant?.toList) b (w.step b s).1 := by
  have hnone {w' : Worker} (h : Course shown b w') : Course (shown ++ []) b w' := by
    rwa [List.append_nil]
  cases w with
  | loading =>
    refine hnone (h.quiet (fun x _ hx => hx.elim) ?_)
    change (load b).Fetches
    unfold load
    split
    · trivial
    · exact .of_ne nofun nofun
  | running run t =>
    obtain ⟨k, halone, -⟩ | ⟨-, hi⟩ := hlock
    · by_cases hp : run.phase = .opcode
      · rw [Worker.instant?, Run.instant?_of_opcode hp]
        exact h.shows hp halone
      · rw [Worker.instant?, Run.instant?_of_ne hp]
        obtain ⟨chunk, hc⟩ := halone.compiles
        refine hnone (h.quiet (fun x hop hx => past_move hp hx ?_) (fetches_move h.fetches))
        exact hx.advance (halone.sound hc) hop fun ho => (hp ho).elim
    · exact (hcalm hi).elim
  | suspended run t pause wait =>
    exact hnone (h.quiet (fun x _ hx => past_wait hlock.1 hx) (fetches_wait h.fetches))
  | reading run t r =>
    exact hnone (h.quiet (fun x _ hx => past_read hlock.1 hx) fetches_read)
  | concluding arena o | announcing arena o | finished arena =>
    exact hnone (h.quiet (fun _ _ _ => trivial) trivial)

end Course

end Worker

namespace RecordedRun

variable {f : RecordedRun} {b : Brief} {w : Worker}

def OnCourse (f : RecordedRun) : Prop :=
  ∀ b w, f.system.session.worker = some (b, w) → .interrupted ∉ f.system.log →
    w.Course f.shown b

theorem OnCourse.start (h : f.OnCourse) (job : Job) : (f.act (.start job)).OnCourse := by
  dsimp only [act]
  split
  · next hfree =>
    rw [f.system.act_start_of_free hfree]
    rintro b w ⟨⟩ -
    exact .loading (by simp [Dictionary.get?_insert])
  · exact h

theorem OnCourse.work (h : f.OnCourse) (hs : f.system.Reached) : (f.act .work).OnCourse := by
  dsimp only [act]
  intro b w' hw' hcalm
  cases hw : f.system.session.worker with
  | none =>
    simp [System.act, System.work, hw] at hw'
  | some bw =>
    obtain ⟨b', w⟩ := bw
    rw [System.act_work_eq hw] at hw' hcalm
    cases hw'
    have hcalm' : .interrupted ∉ f.system.log := fun hi => hcalm (List.mem_append_left _ hi)
    rw [System.instant?, hw, Option.bind_some]
    exact (h b w hw hcalm').step (hs.lock hw) hcalm'

theorem OnCourse.aside (h : f.OnCourse) {a : Action} (hstart : ∀ job, a ≠ .start job)
    (hwork : a ≠ .work) : (f.act a).OnCourse := by
  have hshown : (f.act a).shown = f.shown := by
    cases a with
    | start job => exact (hstart job rfl).elim
    | work => exact (hwork rfl).elim
    | _ => rfl
  intro b w' hw' hcalm
  rw [system_act] at hw' hcalm
  obtain ⟨notes, hlog, -⟩ := System.log_outside (s := f.system) hstart hwork
  obtain ⟨⟨g, htouched, hworker⟩, -⟩ := System.worker_outside (s := f.system) hstart hwork
  rw [hworker] at hw'
  obtain ⟨⟨b, w⟩, hw, he⟩ := Option.map_eq_some_iff.1 hw'
  cases he
  rw [hlog] at hcalm
  rw [hshown]
  exact (h b w hw fun hi => hcalm (List.mem_append_left _ hi)).touched (htouched w)

theorem OnCourse.act (h : f.OnCourse) (hs : f.system.Reached) (a : Action) :
    (f.act a).OnCourse := by
  cases a with
  | start job => exact h.start job
  | work => exact h.work hs
  | _ => exact h.aside nofun nofun

theorem OnCourse.acts (h : f.OnCourse) (hs : f.system.Reached) (as : List Action) :
    (f.acts as).OnCourse := by
  induction as generalizing f with
  | nil => exact h
  | cons a as ih => exact ih (h.act hs a) (f.system_act a ▸ hs.act a)

theorem Reached.onCourse (h : f.Reached) : f.OnCourse := by
  obtain ⟨limit, rules, as, rfl⟩ := h
  have hnew : (new limit rules).OnCourse := fun _ _ hw => nomatch hw
  exact hnew.acts (System.reached_new limit rules) as

end RecordedRun

end Stepwise
