import Stepwise.Proofs.Prompt.Typist
import Stepwise.Proofs.Session.Listed

/-! What a run gets from a typist. A run that nobody observes is given the lines that came in their
order, and the end of the input after them, however its steps, those of the typist and the coming
of lines are interleaved. So it comes to what its source comes to on a console that reads these
lines. -/

namespace Stepwise

open Note (given interactions)

theorem Note.given_eq (log : List Note) :
    given log = (interactions log).reverse.filterMap Host.Interaction.answer? := by
  rw [given, interactions, List.reverse_reverse]

theorem Note.given_executedNotes (r : Run) : given r.executedNotes = [] := by
  rw [given_eq, interactions_executedNotes, List.reverse_nil, List.filterMap_nil]

theorem Note.given_raisedNotes (before after : Run) : given (before.raisedNotes after) = [] := by
  rw [given_eq, interactions_raisedNotes, List.reverse_nil, List.filterMap_nil]

namespace Worker

def read? : Worker → Option Reader
  | reading _ _ r => some r
  | _ => none

def Unobserved : Worker → Prop
  | running run _ | reading run _ _ => run.machine.tracing = false
  | suspended .. => False
  | _ => True

inductive Meanwhile (c : Console) : Option Reader → Console → Prop
  | quiet : Meanwhile c none c
  | wrote (text : String) : Meanwhile c none (c.write text)
  | began : Meanwhile c (some (Reader.new c).1) (Reader.new c).2

variable {b : Brief} {w : Worker} {s : Shared} {run : Run} {tracer : Tracer}

theorem Unobserved.pause?_eq_none (h : w.Unobserved) : w.pause? = none := by
  cases w with
  | suspended => exact h.elim
  | _ => rfl

theorem unobserved_load (hmode : b.job.mode = .normal) : (load b).Unobserved := by
  unfold load
  split
  · trivial
  · simp [Unobserved, Run.start, hmode]

theorem Unobserved.move (h : (running run tracer).Unobserved) (hcell : s.cell.isSet = false) :
    (move b run tracer s).1.Unobserved ∧ given (notes (running run tracer) s) = [] ∧
      Meanwhile s.console (move b run tracer s).1.read? (move b run tracer s).2.console := by
  have htracing : run.machine.tracing = false := h
  cases hn : run.need with
  | nothing =>
    simp only [notes, Worker.move, hn]
    refine ⟨?_, ?_, .quiet⟩
    · have hadvance : run.advance = run.advance.quieted := by
        rw [← Run.advance_quieted, Run.quieted_eq_self htracing]
      change run.advance.machine.tracing = false
      rw [hadvance]
      rfl
    · rw [Note.given_append, Note.given_executedNotes, Note.given_raisedNotes, List.append_nil]
  | control event aux => cases htracing.symm.trans (Run.of_need_control hn).1
  | cell =>
    simp only [notes, Worker.move, hn, hcell]
    exact ⟨htracing, rfl, .quiet⟩
  | write text =>
    simp only [notes, Worker.move, hn]
    exact ⟨(Run.tracing_shown run).trans htracing, rfl, .wrote _⟩
  | clear =>
    simp only [notes, Worker.move, hn]
    exact ⟨(Run.tracing_shown run).trans htracing, rfl, .wrote _⟩
  | line =>
    simp only [notes, Worker.move, hn]
    exact ⟨htracing, rfl, .began⟩
  | done ending =>
    simp only [notes, Worker.move, hn]
    exact ⟨trivial, rfl, .quiet⟩

theorem Unobserved.step_of_read?_none (h : w.Unobserved) (hmode : b.job.mode = .normal)
    (hcell : s.cell.isSet = false) (hr : w.read? = none) :
    (w.step b s).1.Unobserved ∧ given (w.notes s) = [] ∧
      Meanwhile s.console (w.step b s).1.read? (w.step b s).2.console := by
  cases w with
  | loading =>
    refine ⟨unobserved_load hmode, rfl, ?_⟩
    have hload : (load b).read? = none := by
      unfold load
      split <;> rfl
    change Meanwhile s.console (load b).read? s.console
    rw [hload]
    exact .quiet
  | running run tracer => exact h.move hcell
  | suspended => exact h.elim
  | reading => cases hr
  | concluding arena o =>
    refine ⟨trivial, rfl, ?_⟩
    cases o with
    | failed => exact .wrote _
    | _ => exact .quiet
  | announcing arena o =>
    refine ⟨trivial, ?_, .quiet⟩
    simp only [notes]
    split <;> rfl
  | finished arena => exact ⟨trivial, rfl, .quiet⟩

theorem Unobserved.step (h : w.Unobserved) (hmode : b.job.mode = .normal)
    (hcell : s.cell.isSet = false) : (w.step b s).1.Unobserved := by
  cases hr : w.read? with
  | none => exact (h.step_of_read?_none hmode hcell hr).1
  | some r =>
    cases w with
    | reading run tracer r =>
      simp only [Worker.step, read]
      split
      · exact (Run.tracing_received run _).trans h
      · exact h
    | _ => cases hr

end Worker

namespace Typist

def due (lines : List String) (k : Nat) : ReadOutcome :=
  match lines[k]? with
  | some line => .line line
  | none => .endOfInput

theorem lineOf_due (lines : List String) (k : Nat) :
    Worker.lineOf (due lines k) false = lineAt lines k := by
  unfold due lineAt
  cases lines[k]? <;> rfl

section Work

variable {lines : List String} {k taken : Nat} {b : Brief} {w : Worker} {s : Shared} {st : Stage}

theorem Meets.work (h : Meets (due lines k) taken w.read? st s.console) (hw : w.Unobserved)
    (hmode : b.job.mode = .normal) (hcell : s.cell.isSet = false) :
    (given (w.notes s) = [] ∧
      Meets (due lines k) taken (w.step b s).1.read? st (w.step b s).2.console) ∨
    (given (w.notes s) = [lineAt lines k] ∧ taken = 1 ∧
      Meets (due lines (k + 1)) 0 (w.step b s).1.read? st (w.step b s).2.console) := by
  cases hr : w.read? with
  | none =>
    obtain ⟨-, hgiven, hmeanwhile⟩ := hw.step_of_read?_none hmode hcell hr
    refine .inl ⟨hgiven, ?_⟩
    rw [hr] at h
    generalize (w.step b s).1.read? = r, (w.step b s).2.console = c at hmeanwhile
    cases hmeanwhile with
    | quiet => exact h
    | wrote text => exact h.display _
    | began => exact h.begin
  | some r =>
    cases w with
    | reading run tracer r' =>
      cases ho : r'.outcome? with
      | none =>
        simp only [Worker.notes, Worker.step, Worker.read, ho, hcell]
        exact .inl ⟨rfl, h.read ho⟩
      | some o =>
        obtain ⟨htaken, rfl, hnext⟩ := h.received ho
        simp only [Worker.notes, Worker.step, Worker.read, ho, hcell, lineOf_due]
        refine .inr ⟨?_, htaken, hnext _⟩
        rw [← List.singleton_append, Note.given_append, Note.given_raisedNotes]
        rfl
    | _ => cases hr

end Work

/-- A run goes on with its typist: it was given so many lines in their order, and those that were
neither given nor taken for the read are still to come. -/
structure Going (lines : List String) (b : Brief) (t : Typist) (w : Worker) (k taken : Nat) :
    Prop where
  steady : t.conductor.Steady
  stand : t.conductor.stand = .awaiting ∨ ∃ o, t.conductor.stand = .ended o
  worker : t.conductor.system.session.worker = some (b, w)
  mode : b.job.mode = .normal
  unobserved : w.Unobserved
  calm : .interrupted ∉ t.conductor.system.log
  unpaused : ∀ events, t.conductor.system.session.shared.events = some events →
    ∀ p, .paused p ∉ events
  given : given t.conductor.system.log = (List.range k).map (lineAt lines)
  meets : Meets (due lines k) taken w.read? t.stage t.console
  left : t.queue ++ t.coming = lines.drop (k + taken)
  hungUp : t.hungUp = true → t.coming = []
  closed : t.closed = true → t.hungUp = true ∧ t.queue = []

namespace Going

variable {lines : List String} {b : Brief} {t : Typist} {w : Worker} {k taken : Nat}

theorem cell (h : Going lines b t w k taken) :
    t.conductor.system.session.shared.cell.isSet = false :=
  Bool.eq_false_iff.2 fun hset =>
    h.calm ((h.steady.reached.lockstep (.listed lines)).cell hset)

theorem act_work (h : Going lines b t w k taken) : t.act .work =
    { t with conductor := ⟨t.conductor.system.worked b w, t.conductor.stand⟩ } := by
  simp only [act, Conductor.act, System.act, System.work, h.worker]
  rfl

theorem work (h : Going lines b t w k taken) :
    Going lines b (t.act .work) (w.step b t.conductor.system.session.shared).1 k taken ∨
      Note.given (w.notes t.conductor.system.session.shared) = [lineAt lines k] ∧
        Going lines b (t.act .work) (w.step b t.conductor.system.session.shared).1 (k + 1) 0 := by
  have hsteady := h.steady.work
  have hcalm : .interrupted ∉ w.notes t.conductor.system.session.shared := by
    intro hi
    obtain hi | ⟨run, tracer, p, wait, rfl, -⟩ := Worker.mem_notes hi
    · cases hi
    · exact h.unobserved
  have hunpaused (events : List SessionEvent)
      (he : (w.step b t.conductor.system.session.shared).2.events = some events) (p : Pause) :
      .paused p ∉ events := by
    obtain ⟨told, htold, hpaused, -⟩ := w.events_step b t.conductor.system.session.shared
    rw [htold] at he
    obtain ⟨before, hbefore, rfl⟩ := Option.map_eq_some_iff.1 he
    intro hp
    rcases List.mem_append.1 hp with hp | hp
    · exact h.unpaused before hbefore p hp
    · cases h.unobserved.pause?_eq_none.symm.trans (hpaused p hp)
  rw [show t.conductor.act .work = (t.act .work).conductor from rfl, h.act_work] at hsteady
  have hgo {k' taken' : Nat} (hgiven : Note.given (t.conductor.system.log ++
      w.notes t.conductor.system.session.shared) = (List.range k').map (lineAt lines))
      (hmeets : Meets (due lines k') taken' (w.step b t.conductor.system.session.shared).1.read?
        t.stage (w.step b t.conductor.system.session.shared).2.console)
      (hleft : t.queue ++ t.coming = lines.drop (k' + taken')) :
      Going lines b (t.act .work) (w.step b t.conductor.system.session.shared).1 k' taken' := by
    rw [h.act_work]
    exact ⟨hsteady, h.stand, rfl, h.mode, h.unobserved.step h.mode h.cell,
      fun hi => (List.mem_append.1 hi).elim h.calm hcalm, hunpaused, hgiven, hmeets, hleft,
      h.hungUp, h.closed⟩
  obtain ⟨hnone, hmeets⟩ | ⟨hone, rfl, hmeets⟩ :=
    h.meets.work h.unobserved h.mode h.cell (b := b)
  · refine .inl (hgo ?_ hmeets h.left)
    rw [Note.given_append, hnone, List.append_nil, h.given]
  · refine .inr ⟨hone, hgo ?_ hmeets h.left⟩
    rw [Note.given_append, hone, h.given, List.range_succ, List.map_append]
    rfl

theorem arrive (h : Going lines b t w k taken) : Going lines b t.arrive w k taken := by
  unfold Typist.arrive
  split
  · next line coming hcoming =>
    refine { h with left := ?_, hungUp := fun hup => ?_, closed := fun hc => ?_ }
    · rw [← h.left, hcoming, List.append_assoc, List.singleton_append]
    · cases hcoming.symm.trans (h.hungUp hup)
    · cases hcoming.symm.trans (h.hungUp (h.closed hc).1)
  · next hcoming =>
    exact { h with hungUp := fun _ => hcoming, closed := fun hc => ⟨rfl, (h.closed hc).2⟩ }

theorem watch (h : Going lines b t w k taken) (hstand : t.conductor.stand = .awaiting)
    (hst : t.stage = .watching) :
    Going lines b { t with conductor := t.conductor.act .look, stage := .looking } w k taken := by
  have hsuits := h.steady.suits
  have hsteady := h.steady.act .look
  rw [hstand] at hsuits
  obtain ⟨events, hevents⟩ := h.steady.reached.exists_events hsuits.2
  have hmeets := h.meets.rest (.inl hst) .looking
  rw [Conductor.act_look hstand, Conductor.look_eq hevents] at hsteady ⊢
  match events with
  | [] => exact { h with meets := hmeets }
  | .paused p :: rest => exact (h.unpaused _ hevents p List.mem_cons_self).elim
  | .terminated o :: rest =>
    rw [System.act_poll_eq hsuits.1 hevents] at hsteady ⊢
    exact ⟨hsteady, .inr ⟨o, rfl⟩, h.worker, h.mode, h.unobserved, h.calm, nofun, h.given, hmeets,
      h.left, h.hungUp, h.closed⟩

theorem due_eq (lines : List String) (k : Nat) : due lines k =
    match (lines.drop k).head? with
    | some line => .line line
    | none => .endOfInput := by
  rw [List.head?_drop]
  rfl

section Take

variable (hst : t.stage = .taking)
include hst

theorem take_line (h : Going lines b t w k taken) {line : String} {queue : List String}
    (hqueue : t.queue = line :: queue)
    (hline : ∀ c ∈ line.toList, Editor.isPrintable c = true) :
    Going lines b { t with queue, stage := .typing (keysOf (some line)) } w k 1 := by
  have hmeets := h.meets
  have hleft := h.left
  rw [hst] at hmeets
  obtain rfl := hmeets.eq_zero
  rw [hqueue, List.cons_append] at hleft
  have hdue : due lines k = .line line := by
    rw [due_eq, ← Nat.add_zero k, ← hleft]
    rfl
  refine { h with meets := hmeets.taken (hdue ▸ spells_keysOf_some hline), left := ?_, closed := ?_ }
  · rw [← List.tail_drop, ← Nat.add_zero k, ← hleft]
    rfl
  · intro hc
    cases hqueue.symm.trans (h.closed hc).2

theorem take_end (h : Going lines b t w k taken) (hc : t.closed = true) :
    Going lines b { t with stage := .typing (keysOf none) } w k 1 := by
  have hmeets := h.meets
  have hleft := h.left
  rw [hst] at hmeets
  obtain rfl := hmeets.eq_zero
  obtain ⟨hup, hqueue⟩ := h.closed hc
  rw [hqueue, h.hungUp hup] at hleft
  have hdue : due lines k = .endOfInput := by
    rw [due_eq, ← Nat.add_zero k, ← hleft]
    rfl
  refine { h with meets := hmeets.taken (hdue ▸ spells_keysOf_none), left := ?_ }
  change t.queue ++ t.coming = _
  rw [← List.tail_drop, ← Nat.add_zero k, ← hleft, hqueue, h.hungUp hup]
  rfl

theorem take_nothing (h : Going lines b t w k taken) (hqueue : t.queue = []) :
    Going lines b { t with closed := t.hungUp, stage := .watching } w k taken := by
  have hmeets := h.meets
  rw [hst] at hmeets
  exact { h with meets := hmeets.waited, closed := fun hup => ⟨hup, hqueue⟩ }

end Take

theorem deliver (h : Going lines b t w k taken) {d d' : Delivery} {keys : List Key} {c : Console}
    (hst : t.stage = .delivering d keys) (hd : d.step t.console = some (d', c)) :
    Going lines b
      { t with
        conductor := t.conductor.act (.terminal fun _ => c)
        stage := .delivering d' keys } w k taken := by
  have hmeets := h.meets
  have hsteady := h.steady.act (.terminal fun _ => c)
  rw [hst] at hmeets
  exact ⟨hsteady, h.stand, h.worker, h.mode, h.unobserved, h.calm, h.unpaused, h.given,
    hmeets.deliver hd, h.left, h.hungUp, h.closed⟩

theorem mem_of_queue (h : Going lines b t w k taken) {line : String} (hline : line ∈ t.queue) :
    line ∈ lines :=
  List.mem_of_mem_drop (h.left ▸ List.mem_append_left _ hline)

variable (hlines : ∀ line ∈ lines, ∀ c ∈ line.toList, Editor.isPrintable c = true)
include hlines

/-- The typist takes a step, by which nothing is taken for the read unless a line was wanted. -/
theorem drives (h : Going lines b t w k taken) (hstand : t.conductor.stand = .awaiting)
    {t' : Typist} (hd : t.Drives t') :
    ∃ taken', Going lines b t' w k taken' ∧ (t.stage ≠ .taking → taken' = taken) := by
  have hmeets := h.meets
  cases hd with
  | watch hst => exact ⟨taken, h.watch hstand hst, fun _ => rfl⟩
  | see hst hc =>
    rw [hst] at hmeets
    exact ⟨taken, { h with meets := hmeets.seen hc }, fun _ => rfl⟩
  | lookAway hst =>
    exact ⟨taken, { h with meets := hmeets.rest (.inr (.inl hst)) .watching }, fun _ => rfl⟩
  | takeEnd hst hc => exact ⟨1, h.take_end hst hc, fun hne => (hne hst).elim⟩
  | takeLine hst _ hq =>
    exact ⟨1, h.take_line hst hq (hlines _ (h.mem_of_queue (hq ▸ List.mem_cons_self))),
      fun hne => (hne hst).elim⟩
  | takeNothing hst _ hq => exact ⟨taken, h.take_nothing hst hq, fun _ => rfl⟩
  | rest hst =>
    exact ⟨taken, { h with meets := hmeets.rest (.inr (.inr hst)) .watching }, fun _ => rfl⟩
  | press hst =>
    rw [hst] at hmeets
    exact ⟨taken, { h with meets := hmeets.press }, fun _ => rfl⟩
  | deliver hst hd => exact ⟨taken, h.deliver hst hd, fun _ => rfl⟩
  | delivered hst hd =>
    rw [hst] at hmeets
    exact ⟨taken, { h with meets := hmeets.delivered hd }, fun _ => rfl⟩

theorem drive (h : Going lines b t w k taken) : ∃ taken', Going lines b t.drive w k taken' := by
  obtain hstand | ⟨o, hstand⟩ := h.stand
  · obtain ⟨taken', h, -⟩ := h.drives hlines hstand (drive_drives hstand)
    exact ⟨taken', h⟩
  · rw [drive_of_ended hstand]
    exact ⟨taken, h⟩

theorem act (h : Going lines b t w k taken) (m : Move) :
    ∃ w' k' taken', Going lines b (t.act m) w' k' taken' := by
  cases m with
  | work => exact h.work.elim (fun h => ⟨_, _, _, h⟩) fun h => ⟨_, _, _, h.2⟩
  | drive => exact (h.drive hlines).elim fun taken' h => ⟨w, k, taken', h⟩
  | arrive => exact ⟨w, k, taken, h.arrive⟩

theorem moves (h : Going lines b t w k taken) (ms : List Move) :
    ∃ w' k' taken', Going lines b (t.moves ms) w' k' taken' := by
  induction ms generalizing t w k taken with
  | nil => exact ⟨w, k, taken, h⟩
  | cons m ms ih =>
    obtain ⟨w', k', taken', h⟩ := h.act hlines m
    exact ih h

end Going

/-- What a run got and came to, by its input. Its reads were given the lines in their order, and the
end of the input after them; it ends by itself or goes on; up to now it did what its source does on
a console that reads these lines; and the next run finds the console as this one did. -/
structure Heeds (lines : List String) (b : Brief) (t : Typist) : Prop where
  given : ∃ k, given t.conductor.system.log = (List.range k).map (lineAt lines)
  stand : t.conductor.stand = .awaiting ∨ ∃ o, t.conductor.stand = .ended o
  did : ∀ fuel o done, b.listed lines fuel = some (o, done) →
    t.conductor.system.log.filterMap Note.did? <+: done
  ended : ∀ o, t.conductor.stand = .ended o →
    ∃ fuel, b.listed lines fuel = some (o, t.conductor.system.log.filterMap Note.did?)
  rest : ∀ o, t.conductor.stand = .ended o → t.console.AtRest

def Settled (t : Typist) : Prop :=
  ∀ o, t.conductor.stand = .ended o → t.stage = .looking

theorem Settled.act {t : Typist} (h : t.Settled) (m : Move) : (t.act m).Settled := by
  intro o ho
  cases m with
  | work => exact h o ho
  | arrive =>
    change t.arrive.conductor.stand = .ended o at ho
    change t.arrive.stage = .looking
    unfold arrive at ho ⊢
    split at ho <;> exact h o ho
  | drive =>
    change t.drive.conductor.stand = .ended o at ho
    change t.drive.stage = .looking
    cases hstand : t.conductor.stand with
    | awaiting =>
      have hd := drive_drives hstand
      generalize t.drive = t' at hd ho ⊢
      cases hd with
      | watch => rfl
      | _ => cases hstand.symm.trans ho
    | choosing | answering | ended | failed =>
      simp only [drive, hstand] at ho ⊢
      exact h o (hstand.trans ho)

theorem Settled.moves {t : Typist} (h : t.Settled) (ms : List Move) : (t.moves ms).Settled := by
  induction ms generalizing t with
  | nil => exact h
  | cons m ms ih => exact ih (h.act m)

namespace Going

variable {lines : List String} {b : Brief} {t : Typist} {w : Worker} {k taken : Nat}

theorem lock (h : Going lines b t w k taken) :
    Lock (.listed lines) b t.conductor.system.log t.conductor.system.effort
      t.conductor.system.session.shared.pinnings w := by
  refine (h.steady.reached.lockstep (.listed lines)).lock b w h.worker (Script.answers_listed ?_)
  intro i a hi
  rw [h.given, List.getElem?_map, Option.map_eq_some_iff] at hi
  obtain ⟨j, hj, rfl⟩ := hi
  obtain ⟨_, rfl⟩ := List.getElem?_eq_some_iff.1 hj
  rw [List.getElem_range]

theorem comes (h : Going lines b t w k taken) {o : Outcome}
    (hstand : t.conductor.stand = .ended o) :
    ∃ n arena, w = .finished arena ∧
      Comes (.listed lines) b n arena o (interactions t.conductor.system.log) := by
  obtain ⟨-, hlog⟩ := h.steady.conducts.ended o hstand
  have hkept := h.steady.reached.orderly.kept
  obtain ⟨arena, rfl⟩ := (hkept.ended b w h.worker).2 ⟨o, hlog⟩
  obtain ⟨n, o', hlog', hcomes, -⟩ := h.lock.comes h.calm
  cases hkept.current.terminated_unique hlog hlog'
  exact ⟨n, arena, rfl, hcomes⟩

theorem atRest (h : Going lines b t w k taken) {o : Outcome}
    (hstand : t.conductor.stand = .ended o) (hst : t.stage = .looking) : t.console.AtRest := by
  obtain ⟨n, arena, rfl, -⟩ := h.comes hstand
  have hmeets : Meets (due lines k) taken none t.stage t.console := h.meets
  rw [hst] at hmeets
  cases hmeets with
  | away hc hidle =>
    cases hidle
    exact hc

theorem heeds (h : Going lines b t w k taken) (hsettled : t.Settled) : t.Heeds lines b where
  given := ⟨k, h.given⟩
  stand := h.stand
  did fuel o done hdone := by
    obtain ⟨n, arena, hcomes⟩ := Brief.exists_comes hdone
    have hdid := (h.lock.le_of_comes h.calm hcomes).1
    rwa [interactions, List.reverse_suffix] at hdid
  ended o hstand := by
    obtain ⟨n, arena, -, hcomes⟩ := h.comes hstand
    refine ⟨n + 1, ?_⟩
    rw [hcomes.exists_listed, interactions, List.reverse_reverse]
  rest o hstand := h.atRest hstand (hsettled o hstand)

end Going

section Begin

variable {s : System} {lines : List String} {job : Job}

def brief (s : System) (job : Job) : Brief :=
  ⟨job, s.session.files.insert job.name job.source, s.session.rules, s.session.recursionLimit⟩

theorem going_begin (h : s.Reached) (hidle : s.session.isActive = false)
    (hrest : s.session.shared.console.AtRest) (hmode : job.mode = .normal) (lines : List String) :
    Going lines (brief s job) (begin s job lines) .loading 0 0 := by
  have hsteady := Conductor.steady_begin h hidle job
  unfold begin
  rw [Conductor.begin_eq h hidle] at hsteady ⊢
  exact ⟨hsteady, .inl rfl, rfl, hmode, trivial, nofun, fun events he => by cases he; nofun, rfl,
    .away hrest .watching, rfl, nofun, nofun⟩

end Begin

end Typist

end Stepwise
