import Stepwise.Proofs.Session.Conductor
import Stepwise.Proofs.Session.Pauses
import Stepwise.Proofs.Session.Transparent

/-! The pauses of a run that is stepped through, from its start to its end. They are the first of
every block of instructions with one range that may be shown, each with the value and the frame
of its instruction; none is lost between the run and its controller, and none comes twice. -/

namespace Stepwise

namespace System

/-- The pauses of the current run that its controller has still to take. -/
def pending (s : System) : List Pause :=
  s.session.shared.pauses ++ (s.session.worker.bind fun w => w.2.offered?).toList

theorem pending_eq {s : System} {b : Brief} {w : Worker} (h : s.session.worker = some (b, w)) :
    s.pending = w.pending s.session.shared := by
  rw [pending, h]
  rfl

theorem pauses_aside {s : System} {a : Action} (hstart : ∀ job, a ≠ .start job)
    (hwork : a ≠ .work) (hpoll : a ≠ .poll) :
    (s.act a).session.shared.pauses = s.session.shared.pauses := by
  cases a with
  | start job => exact (hstart job rfl).elim
  | work => exact (hwork rfl).elim
  | poll => exact (hpoll rfl).elim
  | resume d =>
    obtain he | ⟨p, -, -, he⟩ := s.act_resume d
    · rw [he]
    · rw [he]
      rfl
  | proceed =>
    obtain he | ⟨p, d, e, -, -, he⟩ | ⟨p, d, gate, -, -, he⟩ | ⟨p, d, -, he⟩ :=
      s.act_proceed <;> rw [he] <;> rfl
  | interrupt | terminal f => rfl

def isFree (s : System) : Bool :=
  match s.errand with
  | .none => !s.session.isActive
  | _ => false

def next? (s : System) : Option Pause :=
  match s.errand with
  | .none => s.session.shared.event?.bind SessionEvent.pause?
  | _ => none

def instant? (s : System) : Option Instant :=
  s.session.worker.bind fun w => w.2.instant?

theorem act_start_of_free (s : System) (h : s.isFree = true) (job : Job) :
    s.act (.start job) = s.started job := by
  unfold isFree at h
  split at h
  · next herrand => exact act_start_eq herrand (by simpa using h) job
  · cases h

theorem act_start_of_not_free (s : System) (h : s.isFree = false) (job : Job) :
    s.act (.start job) = s := by
  unfold isFree at h
  cases herrand : s.errand with
  | asking | sending => simp only [act, herrand]
  | none =>
    rw [herrand] at h
    have hactive : s.session.isActive = true := by simpa using h
    simp only [act, Session.start, herrand, hactive, if_true]

theorem act_poll_cases (s : System) : s.act .poll = s ∧ s.next? = none ∨ ∃ e rest,
    s.errand = .none ∧ s.session.shared.events = some (e :: rest) ∧
      s.act .poll = s.taken e rest ∧ s.next? = e.pause? := by
  obtain ⟨⟨limit, rules, files, state, ⟨cell, gate, console, events, pinnings⟩, worker⟩, errand,
    log, past, effort⟩ := s
  match errand, events with
  | .asking _ _, _ | .sending _ _, _ | .none, none | .none, some [] => exact .inl ⟨rfl, rfl⟩
  | .none, some (e :: rest) => exact .inr ⟨e, rest, rfl, rfl, rfl, rfl⟩

theorem Reached.eq_nil_of_terminated {s : System} (h : s.Reached) {o : Outcome}
    {rest : List SessionEvent} (he : s.session.shared.events = some (.terminated o :: rest)) :
    rest = [] := by
  cases hw : s.session.worker with
  | none => exact absurd ((h.orderly.unused hw).1.events.symm.trans he) nofun
  | some bw =>
    obtain ⟨st, -, hfits⟩ := h.orderly.fits hw
    rcases hfits.loose with ⟨k, hloose⟩ | ⟨-, -, arena, harena⟩
    · rcases hloose.queue with hq | ⟨p, hq⟩ <;> cases hq.symm.trans he
    · rw [harena] at hfits
      obtain ⟨-, -, ⟨o', hloose⟩ | ⟨-, hnone, -⟩⟩ := hfits
      · rcases hloose.queue with hq | ⟨p, hq⟩ <;> cases hq.symm.trans he
        rfl
      · cases hnone.symm.trans he

theorem Reached.pending_taken {s : System} (h : s.Reached) {e : SessionEvent}
    {rest : List SessionEvent} (he : s.session.shared.events = some (e :: rest)) :
    s.pending = e.pause?.toList ++ (s.taken e rest).pending := by
  cases e with
  | paused p =>
    simp only [pending, Shared.pauses, taken, Session.receive, he, Option.getD_some]
    rfl
  | terminated o =>
    obtain rfl := h.eq_nil_of_terminated he
    simp only [pending, Shared.pauses, taken, Session.receive, he, Option.getD_some,
      Option.getD_none]
    rfl

end System

/-- A system, with the instructions that its current run came to and the pauses that its
controller has taken. -/
structure RecordedRun where
  system : System
  shown : List Instant
  taken : List Pause

namespace RecordedRun

def new (recursionLimit : Nat) (rules : Hint.Rules) : RecordedRun :=
  ⟨.new recursionLimit rules, [], []⟩

def act (f : RecordedRun) (a : Action) : RecordedRun :=
  match a with
  | .start _ =>
    if f.system.isFree then ⟨f.system.act a, [], []⟩ else f
  | .poll => ⟨f.system.act a, f.shown, f.taken ++ f.system.next?.toList⟩
  | .work => ⟨f.system.act a, f.shown ++ f.system.instant?.toList, f.taken⟩
  | a => { f with system := f.system.act a }

def acts (f : RecordedRun) (as : List Action) : RecordedRun :=
  as.foldl act f

theorem system_act (f : RecordedRun) (a : Action) : (f.act a).system = f.system.act a := by
  cases a with
  | start job =>
    dsimp only [act]
    split
    · rfl
    · next hfree => exact (f.system.act_start_of_not_free (Bool.eq_false_iff.2 hfree) job).symm
  | _ => rfl

theorem system_acts (f : RecordedRun) (as : List Action) :
    (f.acts as).system = f.system.acts as := by
  induction as generalizing f with
  | nil => rfl
  | cons a as ih => exact (ih (f.act a)).trans (congrArg (System.acts · as) (f.system_act a))

variable {f : RecordedRun} {b : Brief} {w : Worker}

/-- What actions, in any order, come to. -/
def Reached (f : RecordedRun) : Prop :=
  ∃ limit rules as, f = (new limit rules).acts as

theorem reached_new (recursionLimit : Nat) (rules : Hint.Rules) :
    (new recursionLimit rules).Reached :=
  ⟨recursionLimit, rules, [], rfl⟩

theorem Reached.act (h : f.Reached) (a : Action) : (f.act a).Reached := by
  obtain ⟨limit, rules, as, rfl⟩ := h
  exact ⟨limit, rules, as ++ [a], by rw [acts, acts, List.foldl_append]; rfl⟩

theorem Reached.acts (h : f.Reached) (as : List Action) : (f.acts as).Reached := by
  induction as generalizing f with
  | nil => exact h
  | cons a as ih => exact ih (h.act a)

theorem Reached.system (h : f.Reached) : f.system.Reached := by
  obtain ⟨limit, rules, as, rfl⟩ := h
  exact ⟨limit, rules, as, system_acts _ _⟩

/-- What the run came to that may be shown. -/
def offers (f : RecordedRun) (b : Brief) : List Offer :=
  f.shown.filterMap (Instant.offer? b.tracer)

/-- The pauses of the run, of which its controller has taken the first ones. -/
def pauses (f : RecordedRun) : List Pause :=
  f.taken ++ f.system.pending

structure Keeps (f : RecordedRun) (b : Brief) (w : Worker) : Prop where
  pauses : f.pauses.map Pause.offer = firsts Offer.range (f.offers b)
  follows : w.Follows b ((f.offers b).getLast?.map Offer.range)

def Faithful (f : RecordedRun) : Prop :=
  ∀ b w, f.system.session.worker = some (b, w) → b.job.mode = .debug →
    Note.Unstopped f.system.log → f.Keeps b w

theorem faithful_new (limit : Nat) (rules : Hint.Rules) : (new limit rules).Faithful :=
  fun _ _ hw => nomatch hw

theorem Faithful.start (h : f.Faithful) (job : Job) : (f.act (.start job)).Faithful := by
  dsimp only [act]
  split
  · next hfree =>
    rw [f.system.act_start_of_free hfree]
    rintro b w ⟨⟩ - -
    exact ⟨rfl, rfl⟩
  · exact h

theorem Faithful.poll (h : f.Faithful) (hs : f.system.Reached) : (f.act .poll).Faithful := by
  dsimp only [act]
  obtain ⟨he, hnext⟩ | ⟨e, rest, -, hevents, he, hnext⟩ := f.system.act_poll_cases
  · rw [he, hnext, Option.toList_none, List.append_nil]
    exact h
  · rw [he, hnext]
    intro b w hw hmode hu
    have hworker : (f.system.taken e rest).session.worker = f.system.session.worker := by
      cases e <;> rfl
    have hk := h b w (hworker.symm.trans hw) hmode hu
    refine ⟨?_, hk.follows⟩
    rw [pauses, List.append_assoc, ← hs.pending_taken hevents]
    exact hk.pauses

theorem Faithful.work (h : f.Faithful) (hs : f.system.Reached) : (f.act .work).Faithful := by
  dsimp only [act]
  intro b w' hw' hmode hu
  cases hw : f.system.session.worker with
  | none =>
    simp [System.act, System.work, hw] at hw'
  | some bw =>
    obtain ⟨b', w⟩ := bw
    rw [System.act_work_eq hw] at hw' hu ⊢
    cases hw'
    obtain ⟨st, hst, hfits⟩ := hs.orderly.fits hw
    have hu' : Note.Unstopped f.system.log := hu.of_append
    have hcell : f.system.session.shared.cell.isSet = false :=
      Bool.eq_false_iff.2 fun hset => hu'.calm ((hs.lockstep fun _ => .ok "").cell hset)
    have hk := h b w hw hmode hu'
    have hshows := Worker.shows_step (s := f.system.session.shared) (v := f.system.view) hk.follows
      hmode hcell hfits (hs.goes hu' hst) (hs.lock hw) hu'.calm
    have hinstant : f.system.instant? = w.instant? := by rw [System.instant?, hw, Option.bind_some]
    rw [hinstant]
    have hoffers : offers ⟨f.system.worked b w, f.shown ++ w.instant?.toList, f.taken⟩ b =
        f.offers b ++ (w.instant?.bind (Instant.offer? b.tracer)).toList := by
      rw [offers, List.filterMap_append]
      cases w.instant? <;> rfl
    refine ⟨?_, ?_⟩
    · rw [hoffers, firsts_append_toList, ← hk.pauses, pauses, pauses, List.map_append,
        List.map_append, List.append_assoc, System.pending_eq hw]
      exact congrArg (_ ++ ·) hshows.pending
    · rw [hoffers, getLast?_append_toList]
      exact hshows.follows

theorem Faithful.aside (h : f.Faithful) {a : Action} (hstart : ∀ job, a ≠ .start job)
    (hwork : a ≠ .work) (hpoll : a ≠ .poll) : (f.act a).Faithful := by
  have hact : f.act a = { f with system := f.system.act a } := by
    cases a with
    | start job => exact (hstart job rfl).elim
    | work => exact (hwork rfl).elim
    | poll => exact (hpoll rfl).elim
    | _ => rfl
  rw [hact]
  intro b w' hw' hmode hu
  obtain ⟨notes, hlog, -⟩ := System.log_outside (s := f.system) hstart hwork
  obtain ⟨⟨g, htouched, hworker⟩, -⟩ := System.worker_outside (s := f.system) hstart hwork
  dsimp only at hw' hu
  rw [hworker] at hw'
  obtain ⟨⟨b, w⟩, hw, he⟩ := Option.map_eq_some_iff.1 hw'
  cases he
  rw [hlog] at hu
  have hk := h b w hw hmode hu.of_append
  refine ⟨?_, (htouched w).follows hk.follows⟩
  have hpending : (f.system.act a).pending = f.system.pending := by
    rw [System.pending, System.pauses_aside hstart hwork hpoll, hworker, System.pending, hw]
    exact congrArg (_ ++ ·.toList) (htouched w).offered?_eq
  rw [pauses, hpending]
  exact hk.pauses

theorem Faithful.act (h : f.Faithful) (hs : f.system.Reached) (a : Action) :
    (f.act a).Faithful := by
  cases a with
  | start job => exact h.start job
  | poll => exact h.poll hs
  | work => exact h.work hs
  | _ => exact h.aside nofun nofun nofun

theorem Faithful.acts (h : f.Faithful) (hs : f.system.Reached) (as : List Action) :
    (f.acts as).Faithful := by
  induction as generalizing f with
  | nil => exact h
  | cons a as ih => exact ih (h.act hs a) (f.system_act a ▸ hs.act a)

theorem Reached.faithful (h : f.Reached) : f.Faithful := by
  obtain ⟨limit, rules, as, rfl⟩ := h
  exact (faithful_new limit rules).acts (System.reached_new limit rules) as

theorem Reached.pauses_eq_taken (h : f.Reached) {o : Outcome}
    (hw : f.system.session.worker = some (b, w)) (ho : f.system.session.state = .terminated o) :
    f.pauses = f.taken := by
  have hidle : f.system.view.state.isActive = false := congrArg SessionState.isActive ho
  obtain ⟨st, -, hfits⟩ := h.system.orderly.fits hw
  suffices hpending : f.system.pending = [] by rw [pauses, hpending, List.append_nil]
  rcases hfits.loose with ⟨k, hloose⟩ | ⟨-, -, arena, rfl⟩
  · exact absurd hloose.isActive (Bool.eq_false_iff.1 hidle)
  · obtain ⟨-, -, ⟨o', hloose⟩ | ⟨-, hnone, -⟩⟩ := hfits
    · exact absurd hloose.isActive (Bool.eq_false_iff.1 hidle)
    · have hevents : f.system.session.shared.events = none := hnone
      rw [System.pending_eq hw, Worker.pending_of_none rfl, Shared.pauses, hevents]
      rfl

/-- The pauses of a debug run that nobody stopped are the first of every block of instructions
with one range that may be shown, and at its end its controller has taken them all. So two
successive pauses have different ranges, and whenever the range changes, the next pause is for
that. -/
theorem pauses_eq_firsts (h : f.Reached) (hw : f.system.session.worker = some (b, w))
    (hmode : b.job.mode = .debug) (hu : Note.Unstopped f.system.log) :
    f.pauses.map Pause.offer = firsts Offer.range (f.offers b) ∧
      (∀ o, f.system.session.state = .terminated o → f.pauses = f.taken) ∧
      (f.pauses.IsChain fun p q => p.highlight ≠ q.highlight) ∧
      ∀ pre x y post, f.offers b = pre ++ x :: y :: post → x.range ≠ y.range →
        ∃ ps p qs, f.pauses = ps ++ p :: qs ∧
          ps.map Pause.offer = firsts Offer.range (pre ++ [x]) ∧ p.offer = y := by
  have hpauses := (h.faithful b w hw hmode hu).pauses
  refine ⟨hpauses, fun o ho => h.pauses_eq_taken hw ho, ?_, ?_⟩
  · have hchain : (firsts Offer.range (f.offers b)).IsChain fun x y => x.range ≠ y.range :=
      isChain_firsts (f.offers b)
    rw [← hpauses, List.isChain_map] at hchain
    exact hchain
  · intro pre x y post hoffers hne
    have hopens : (pre ++ [x]).getLast?.map Offer.range ≠ some y.range := by simpa using hne
    obtain ⟨rest, hrest⟩ : ∃ rest, firsts Offer.range (y :: post) = y :: rest :=
      exists_firsts_cons y post
    rw [hoffers, List.append_cons, firsts_append_cons post hopens, hrest] at hpauses
    obtain ⟨ps, qs', hsplit, hps, hqs⟩ := List.map_eq_append_iff.1 hpauses
    obtain ⟨p, qs, rfl, hp, -⟩ := List.map_eq_cons_iff.1 hqs
    exact ⟨ps, p, qs, hsplit, hps, hp⟩

def product : RecordedRun :=
  ((new 10 Hint.standard).act (.start (System.product .debug))).acts
    (System.answering (List.replicate 4 .continueStepping))

theorem pauses_eq_firsts_product :
    ∃ b, b.job = System.product .debug ∧
      product.pauses.map Pause.offer = firsts Offer.range (product.offers b) ∧
      product.taken.map Pause.highlight =
        [.columns 1 1 1 13, .columns 1 7 1 12, .columns 1 1 1 13] ∧
      (product.offers b).length = 6 := by
  have hreached : product.Reached := (reached_new 10 Hint.standard).act _ |>.acts _
  have hsystem : product.system = System.ran .debug (List.replicate 4 .continueStepping) := by
    rw [product, system_acts, system_act]
    rfl
  obtain ⟨w, hw⟩ := System.worker_ran .debug (List.replicate 4 .continueStepping)
  rw [← hsystem] at hw
  have hu : Note.Unstopped product.system.log := Note.unstopped_of_all (by decide +kernel)
  exact ⟨_, rfl, (pauses_eq_firsts hreached hw rfl hu).1, by decide +kernel,
    by decide +kernel⟩

end RecordedRun

end Stepwise
