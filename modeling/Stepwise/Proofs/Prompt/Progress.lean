import Mathlib.Data.Prod.Lex
import Stepwise.Proofs.Prompt.Supply
import Stepwise.Proofs.Terminal.Parties

/-! Runs whose steps, whose typist and whose input are never put off for good. Whatever such a run
waits for comes about: it is always one of the three that has to move next, and its moves bring the
others nearer while theirs do not take it back. So a run ends if its source does on a console that
reads its input. -/

namespace Stepwise

namespace Typist

/-- Where a schedule has brought a typist after so many moves. -/
def run (t : Typist) (σ : Nat → Move) : Nat → Typist
  | 0 => t
  | i + 1 => (t.run σ i).act (σ i)

theorem run_eq_moves (t : Typist) (σ : Nat → Move) (i : Nat) :
    t.run σ i = t.moves ((List.range i).map σ) := by
  induction i with
  | zero => rfl
  | succ i ih =>
    rw [run, ih, List.range_succ, List.map_append]
    simp [moves]

/-- Nothing is put off for good. -/
def Fair (σ : Nat → Move) : Prop :=
  ∀ m i, ∃ j, i ≤ j ∧ σ j = m

/-- Something comes about if there is always a move that brings it nearer, and no other move makes
it more distant or changes that. -/
theorem Fair.eventually {σ : Nat → Move} (hσ : Fair σ) {α : Type} [LT α] [WellFoundedLT α]
    {P : Typist → Move → α → Prop} {Q : Typist → Prop}
    (hstep : ∀ t m a, P t m a → ∀ m', Q (t.act m') ∨
      ∃ m'' a', P (t.act m') m'' a' ∧ (a' < a ∨ a' = a ∧ m'' = m ∧ m' ≠ m))
    {t : Typist} {i : Nat} {m : Move} {a : α} (h : P (t.run σ i) m a) :
    ∃ j, i ≤ j ∧ Q (t.run σ j) := by
  induction a using WellFoundedLT.induction generalizing i m with
  | ind a ih =>
    obtain ⟨j, hij, hj⟩ := hσ m i
    obtain ⟨n, rfl⟩ := Nat.exists_eq_add_of_le hij
    -- as long as it is not its turn, the move that is wanted stays the same
    induction n generalizing i with
    | zero =>
      obtain hthere | ⟨m'', a', haway, hlt | ⟨-, -, hne⟩⟩ := hstep _ m a h (σ i)
      · exact ⟨i + 1, Nat.le_succ i, hthere⟩
      · obtain ⟨j, hj, hthere⟩ := ih a' hlt (i := i + 1) haway
        exact ⟨j, Nat.le_of_succ_le hj, hthere⟩
      · exact (hne hj).elim
    | succ n ihn =>
      obtain hthere | ⟨m'', a', haway, hlt | ⟨rfl, rfl, -⟩⟩ := hstep _ m a h (σ i)
      · exact ⟨i + 1, Nat.le_succ i, hthere⟩
      · obtain ⟨j, hj, hthere⟩ := ih a' hlt (i := i + 1) haway
        exact ⟨j, Nat.le_of_succ_le hj, hthere⟩
      · obtain ⟨j, hj, hthere⟩ := ihn (i := i + 1) haway (by omega)
          (by rwa [Nat.add_assoc, Nat.add_comm 1 n])
        exact ⟨j, Nat.le_of_succ_le hj, hthere⟩

namespace Stage

def left : Stage → Nat
  | watching | taking => 0
  | looking => 1
  | typing keys => 7 * keys.length + 1
  | delivering d keys => d.weight + 7 * keys.length + 2

def way : Stage → Nat
  | taking => 0
  | looking => 1
  | st => st.left + 2

end Stage

namespace Meets

variable {o : ReadOutcome} {n : Nat} {st : Stage} {c : Console}

theorem idle_of_none (h : Meets o n none st c) : c.isPending = false ∧ ∃ subs, st.Idle subs := by
  cases h with
  | away hc hst => exact ⟨by rw [Console.isPending, hc.slot]; rfl, _, hst⟩

variable {id : Nat} {stage : Reader.Stage}

theorem step_of_mail_nil (h : Meets o n (some ⟨id, stage⟩) st c)
    (hstage : stage = .waiting ∨ stage = .checking) (hmail : c.mail = []) :
    ∃ stage', (stage' = .waiting ∨ stage' = .checking) ∧
      Reader.step ⟨id, stage⟩ false c = (⟨id, stage'⟩, c) := by
  have hdeserted : id ∉ c.deserted := by
    cases h with
    | subscribing => simp at hstage
    | subscribed hr => obtain rfl | rfl := hr <;> simp at hstage
    | pending _ _ _ hnew => exact hnew.deserted
    | typed _ _ _ _ hnew | told _ _ _ hnew => exact hnew
    | sent _ hc => cases hmail.symm.trans hc.mail
    | got hr => obtain rfl | ⟨idle, rfl⟩ | rfl | rfl := hr <;> simp at hstage
  obtain rfl | rfl := hstage
  · refine ⟨.checking, .inr rfl, ?_⟩
    have hnone : Reader.receive? id ([] : List (Nat × ReadOutcome)) = none := rfl
    have hcontains : c.deserted.contains id = false := by simp [hdeserted]
    simp only [Reader.step, hmail, hnone, hcontains]
    rfl
  · exact ⟨.waiting, .inl rfl, rfl⟩

theorem mail_of_ne_nil (h : Meets o n (some ⟨id, stage⟩) st c) (hmail : c.mail ≠ []) :
    (stage = .waiting ∨ stage = .checking) ∧ c.mail = [(id, o)] := by
  cases h with
  | subscribing hc | subscribed _ hc | pending _ hc | typed _ hc | told _ hc | got _ hc =>
    exact (hmail hc.mail).elim
  | sent hr hc => exact ⟨hr, hc.mail⟩

theorem busy (h : Meets o 1 (some ⟨id, stage⟩) st c)
    (hstage : stage = .waiting ∨ stage = .checking) (hmail : c.mail = []) :
    (∃ keys, st = .typing keys) ∨ ∃ d keys, st = .delivering d keys := by
  cases h with
  | typed _ _ hst =>
    cases hst with
    | typing keys => exact .inl ⟨_, rfl⟩
    | pressing | pressed => exact .inr ⟨_, _, rfl⟩
  | told _ _ hst =>
    cases hst
    exact .inr ⟨_, _, rfl⟩
  | sent _ hc => cases hmail.symm.trans hc.mail
  | got hr => obtain rfl | ⟨idle, rfl⟩ | rfl | rfl := hr <;> simp at hstage

theorem free (h : Meets o 0 (some ⟨id, stage⟩) st c)
    (hstage : stage = .waiting ∨ stage = .checking) :
    c.isPending = true ∧ ∀ key keys, st ≠ .typing (key :: keys) := by
  cases h with
  | subscribing => simp at hstage
  | subscribed hr => obtain rfl | rfl := hr <;> simp at hstage
  | pending _ hc hst =>
    refine ⟨by rw [Console.isPending, hc.slot]; rfl, ?_⟩
    rintro key keys rfl
    obtain hst | ⟨hst, -⟩ := hst <;> cases hst

theorem length_handlers {r : Option Reader} {key : Key} {keys : List Key}
    (h : Meets o n r (.typing (key :: keys)) c) : c.hub.handlers.length = 1 := by
  cases h with
  | away _ hst | subscribing _ hst | subscribed _ _ hst | sent _ _ hst | got _ _ hst => cases hst
  | pending _ _ hst => obtain hst | ⟨hst, -⟩ := hst <;> cases hst
  | typed _ hc _ =>
    rw [Hub.handlers, hc.entries]
    rfl
  | told _ _ hst => cases hst

end Meets

/-- Whose move a run waits for, and how near it is to the next step of its program, or to its end:
the first number says what has to come about, the second how many moves that takes. -/
inductive Awaits (t : Typist) : Worker → Nat → Move → Nat ×ₗ Nat → Prop
  | step {w : Worker} {taken : Nat} (h : w.isLook = false) : Awaits t w taken .work (toLex (0, 0))
  | seen (arena : Arena) (taken : Nat) :
    Awaits t (.finished arena) taken .drive (toLex (1, t.stage.left))
  | told {run : Run} {tracer : Tracer} {r : Reader} {taken : Nat} (hmail : t.console.mail ≠ [])
    (hr : r.stage = .waiting ∨ r.stage = .checking) :
    Awaits t (.reading run tracer r) taken .work
      (toLex (1, match r.stage with | .waiting => 0 | _ => 1))
  | typed {run : Run} {tracer : Tracer} {r : Reader} (hmail : t.console.mail = [])
    (hr : r.stage = .waiting ∨ r.stage = .checking) :
    Awaits t (.reading run tracer r) 1 .drive (toLex (2, t.stage.left))
  | taken {run : Run} {tracer : Tracer} {r : Reader} (hmail : t.console.mail = [])
    (hr : r.stage = .waiting ∨ r.stage = .checking) (h : t.closed = true ∨ t.queue ≠ []) :
    Awaits t (.reading run tracer r) 0 .drive (toLex (3, t.stage.way))
  | closed {run : Run} {tracer : Tracer} {r : Reader} (hmail : t.console.mail = [])
    (hr : r.stage = .waiting ∨ r.stage = .checking) (hc : t.closed = false) (hq : t.queue = [])
    (hup : t.hungUp = true) : Awaits t (.reading run tracer r) 0 .drive (toLex (4, t.stage.way))
  | arrived {run : Run} {tracer : Tracer} {r : Reader} (hmail : t.console.mail = [])
    (hr : r.stage = .waiting ∨ r.stage = .checking) (hc : t.closed = false) (hq : t.queue = [])
    (hup : t.hungUp = false) : Awaits t (.reading run tracer r) 0 .arrive (toLex (5, 0))

def effort (t : Typist) : Nat :=
  t.conductor.system.effort

def Gains (t t' : Typist) : Prop :=
  t.effort < t'.effort ∨ ∃ o, t'.conductor.stand = .ended o

/-- The run goes on, and what it waits for is nearer, or as near as before if another one moved
than it waits for. -/
def Nears (lines : List String) (b : Brief) (t' : Typist) (m m' : Move) (a : Nat ×ₗ Nat) : Prop :=
  ∃ w k taken m'' a', Going lines b t' w k taken ∧ t'.Awaits w taken m'' a' ∧
    (a' < a ∨ a' = a ∧ m'' = m ∧ m' ≠ m)

section Progress

variable {lines : List String} {b : Brief} {t : Typist} {w : Worker} {k taken : Nat} {m : Move}
  {a : Nat ×ₗ Nat}

theorem lt_of_fst {i j x y : Nat} (h : i < j) : toLex (i, x) < toLex (j, y) :=
  Prod.Lex.toLex_lt_toLex.2 (.inl h)

theorem lt_of_snd {i x y : Nat} (h : x < y) : toLex (i, x) < toLex (i, y) :=
  Prod.Lex.toLex_lt_toLex.2 (.inr ⟨rfl, h⟩)

theorem Going.exists_awaits (h : Going lines b t w k taken) : ∃ m a, t.Awaits w taken m a := by
  have hmeets := h.meets
  cases hlook : w.isLook with
  | false => exact ⟨_, _, .step hlook⟩
  | true =>
    cases w with
    | loading | running | concluding | announcing => cases hlook
    | suspended => exact h.unobserved.elim
    | finished arena => exact ⟨_, _, .seen arena taken⟩
    | reading run tracer r =>
      have hr : r.stage = .waiting ∨ r.stage = .checking := by
        obtain ⟨id, stage⟩ := r
        cases stage with
        | waiting => exact .inl rfl
        | checking => exact .inr rfl
        | _ => cases hlook
      by_cases hmail : t.console.mail = []
      · obtain rfl | rfl : taken = 0 ∨ taken = 1 := by
          cases hmeets <;> simp
        · cases hc : t.closed with
          | true => exact ⟨_, _, .taken hmail hr (.inl hc)⟩
          | false =>
            by_cases hq : t.queue = []
            · cases hup : t.hungUp with
              | true => exact ⟨_, _, .closed hmail hr hc hq hup⟩
              | false => exact ⟨_, _, .arrived hmail hr hc hq hup⟩
            · exact ⟨_, _, .taken hmail hr (.inr hq)⟩
        · exact ⟨_, _, .typed hmail hr⟩
      · exact ⟨_, _, .told hmail hr⟩

theorem arrive_keeps (t : Typist) : t.arrive.conductor = t.conductor ∧
    t.arrive.stage = t.stage ∧ t.arrive.closed = t.closed := by
  unfold Typist.arrive
  split <;> exact ⟨rfl, rfl, rfl⟩

theorem Going.nears_arrive (h : Going lines b t w k taken) (ha : t.Awaits w taken m a) :
    Nears lines b t.arrive m .arrive a := by
  obtain ⟨hconductor, hstage, hclosed⟩ := t.arrive_keeps
  have hconsole : t.arrive.console = t.console := by rw [console, hconductor, console]
  have hgo := h.arrive
  cases ha with
  | step hlook => exact ⟨w, k, taken, _, _, hgo, .step hlook, .inr ⟨rfl, rfl, nofun⟩⟩
  | seen arena =>
    exact ⟨_, k, taken, _, _, hgo, .seen arena taken, .inr ⟨by rw [hstage], rfl, nofun⟩⟩
  | told hmail hr =>
    exact ⟨_, k, taken, _, _, hgo, .told (hconsole ▸ hmail) hr, .inr ⟨rfl, rfl, nofun⟩⟩
  | typed hmail hr =>
    exact ⟨_, k, 1, _, _, hgo, .typed (hconsole ▸ hmail) hr, .inr ⟨by rw [hstage], rfl, nofun⟩⟩
  | taken hmail hr hready =>
    refine ⟨_, k, 0, _, _, hgo, .taken (hconsole ▸ hmail) hr ?_, .inr ⟨by rw [hstage], rfl, nofun⟩⟩
    obtain hc | hq := hready
    · exact .inl (hclosed.trans hc)
    · refine .inr ?_
      unfold Typist.arrive
      split
      · exact List.append_ne_nil_of_left_ne_nil hq _
      · exact hq
  | closed hmail hr hc hq hup =>
    have harrive : t.arrive = { t with hungUp := true } := by
      simp only [Typist.arrive, h.hungUp hup]
    refine ⟨_, k, 0, _, _, hgo, .closed (hconsole ▸ hmail) hr (hclosed.trans hc) ?_ ?_,
      .inr ⟨by rw [hstage], rfl, nofun⟩⟩
    · rw [harrive, hq]
    · rw [harrive]
  | arrived hmail hr hc hq hup =>
    cases hcoming : t.coming with
    | nil =>
      refine ⟨_, k, 0, _, _, hgo, .closed (hconsole ▸ hmail) hr (hclosed.trans hc) ?_ ?_,
        .inl (lt_of_fst (by decide))⟩
      · simp only [Typist.arrive, hcoming, hq]
      · simp only [Typist.arrive, hcoming]
    | cons line coming =>
      refine ⟨_, k, 0, _, _, hgo, .taken (hconsole ▸ hmail) hr (.inr ?_),
        .inl (lt_of_fst (by decide))⟩
      simp only [Typist.arrive, hcoming]
      exact List.append_ne_nil_of_right_ne_nil _ (List.cons_ne_nil _ _)

theorem Going.read {run : Run} {tracer : Tracer} {r : Reader}
    (h : Going lines b t (.reading run tracer r) k taken) (hr : r.outcome? = none) :
    Going lines b (t.act .work) (.reading run tracer (r.step false t.console).1) k taken ∧
      (t.act .work).console = (r.step false t.console).2 := by
  have hstep : Worker.step b (.reading run tracer r) t.conductor.system.session.shared =
      (.reading run tracer (r.step false t.console).1,
        { t.conductor.system.session.shared with console := (r.step false t.console).2 }) := by
    simp only [Worker.step, Worker.read, hr, h.cell]
    rfl
  have hwork := h.work
  have hact := h.act_work
  rw [hstep] at hwork
  constructor
  · obtain hwork | ⟨hgiven, -⟩ := hwork
    · exact hwork
    · simp [Worker.notes, hr, Note.given] at hgiven
  · rw [hact, console]
    simp only [System.worked, hstep]

theorem outcome?_of_waits {r : Reader} (hr : r.stage = .waiting ∨ r.stage = .checking) :
    r.outcome? = none := by
  obtain ⟨id, stage⟩ := r
  obtain rfl | rfl := hr <;> rfl

theorem isLook_of_mail {run : Run} {tracer : Tracer} {id : Nat} {c : Console} {o : ReadOutcome}
    (hmail : c.mail = [(id, o)]) :
    (Worker.reading run tracer (Reader.step ⟨id, .waiting⟩ false c).1).isLook = false := by
  simp [Worker.isLook, Reader.step, hmail, Reader.receive?]

theorem Going.look_in_vain {run : Run} {tracer : Tracer} {r : Reader}
    (h : Going lines b t (.reading run tracer r) k taken) (hmail : t.console.mail = [])
    (hr : r.stage = .waiting ∨ r.stage = .checking) :
    ∃ r' : Reader, (r'.stage = .waiting ∨ r'.stage = .checking) ∧
      Going lines b (t.act .work) (.reading run tracer r') k taken ∧
      (t.act .work).console = t.console ∧ (t.act .work).stage = t.stage ∧
      (t.act .work).queue = t.queue ∧ (t.act .work).hungUp = t.hungUp ∧
      (t.act .work).closed = t.closed := by
  obtain ⟨stage', hstage', hstep⟩ := h.meets.step_of_mail_nil hr hmail
  obtain ⟨hgo, hconsole⟩ := h.read (outcome?_of_waits hr)
  rw [hstep] at hgo hconsole
  have hact := h.act_work
  exact ⟨⟨r.id, stage'⟩, hstage', hgo, hconsole, by rw [hact], by rw [hact], by rw [hact],
    by rw [hact]⟩

theorem Going.effort_work (h : Going lines b t w k taken) :
    (t.act .work).effort = if w.isLook then t.effort else t.effort + 1 := by
  rw [h.act_work]
  rfl

theorem Going.nears_work (h : Going lines b t w k taken) (ha : t.Awaits w taken m a) :
    t.Gains (t.act .work) ∨ Nears lines b (t.act .work) m .work a := by
  cases ha with
  | step hlook =>
    refine .inl (.inl ?_)
    rw [h.effort_work, hlook]
    exact Nat.lt_succ_self _
  | seen arena =>
    have hstage : (t.act .work).stage = t.stage := by rw [h.act_work]
    refine .inr ?_
    obtain hgo | ⟨hgiven, -⟩ := h.work
    · exact ⟨_, k, taken, _, _, hgo, .seen arena taken, .inr ⟨by rw [hstage], rfl, nofun⟩⟩
    · cases hgiven
  | @told run tracer r _ hmail hr =>
    obtain ⟨id, stage⟩ := r
    obtain ⟨hgo, hconsole⟩ := h.read (outcome?_of_waits hr)
    obtain ⟨-, hmail'⟩ := h.meets.mail_of_ne_nil hmail
    obtain rfl | rfl := hr
    · refine .inr ⟨_, k, taken, _, _, hgo, .step ?_, .inl (lt_of_fst (by decide))⟩
      exact isLook_of_mail hmail'
    · refine .inr ⟨_, k, taken, _, _, hgo, .told (hconsole ▸ hmail) (.inl rfl), .inl ?_⟩
      exact lt_of_snd Nat.zero_lt_one
  | typed hmail hr =>
    obtain ⟨r', hr', hgo, hconsole, hstage, -⟩ := h.look_in_vain hmail hr
    exact .inr ⟨_, k, 1, _, _, hgo, .typed (hconsole ▸ hmail) hr',
      .inr ⟨by rw [hstage], rfl, nofun⟩⟩
  | taken hmail hr hready =>
    obtain ⟨r', hr', hgo, hconsole, hstage, hqueue, -, hclosed⟩ := h.look_in_vain hmail hr
    exact .inr ⟨_, k, 0, _, _, hgo, .taken (hconsole ▸ hmail) hr' (by rwa [hqueue, hclosed]),
      .inr ⟨by rw [hstage], rfl, nofun⟩⟩
  | closed hmail hr hc hq hup =>
    obtain ⟨r', hr', hgo, hconsole, hstage, hqueue, hhung, hclosed⟩ := h.look_in_vain hmail hr
    exact .inr ⟨_, k, 0, _, _, hgo, .closed (hconsole ▸ hmail) hr' (hclosed.trans hc)
      (hqueue.trans hq) (hhung.trans hup), .inr ⟨by rw [hstage], rfl, nofun⟩⟩
  | arrived hmail hr hc hq hup =>
    obtain ⟨r', hr', hgo, hconsole, -, hqueue, hhung, hclosed⟩ := h.look_in_vain hmail hr
    exact .inr ⟨_, k, 0, _, _, hgo, .arrived (hconsole ▸ hmail) hr' (hclosed.trans hc)
      (hqueue.trans hq) (hhung.trans hup), .inr ⟨rfl, rfl, nofun⟩⟩

theorem Drives.left_lt {t t' : Typist} (hd : t.Drives t')
    (hbusy : (∃ keys, t.stage = .typing keys) ∨ ∃ d keys, t.stage = .delivering d keys)
    (hone : ∀ key keys, t.stage = .typing (key :: keys) → t.console.hub.handlers.length = 1) :
    t'.stage.left < t.stage.left ∧ t.stage.way = t.stage.left + 2 ∧ t'.queue = t.queue ∧
      t'.hungUp = t.hungUp ∧ t'.closed = t.closed := by
  cases hd with
  | watch hst | see hst | lookAway hst | takeEnd hst | takeLine hst | takeNothing hst =>
    rw [hst] at hbusy
    obtain ⟨keys, hbusy⟩ | ⟨d, keys, hbusy⟩ := hbusy <;> cases hbusy
  | rest hst =>
    rw [hst]
    exact ⟨Nat.zero_lt_one, rfl, rfl, rfl, rfl⟩
  | press hst =>
    have hlength := hone _ _ hst
    rw [hst]
    refine ⟨?_, rfl, rfl, rfl, rfl⟩
    simp [Stage.left, Delivery.new, Delivery.weight, hlength]
    omega
  | deliver hst hd =>
    have hweight := Delivery.weight_step hd
    rw [hst]
    refine ⟨?_, rfl, rfl, rfl, rfl⟩
    simp only [Stage.left]
    omega
  | delivered hst =>
    rw [hst]
    refine ⟨?_, rfl, rfl, rfl, rfl⟩
    simp only [Stage.left]
    omega

theorem Stage.way_le (st : Stage) : st.way ≤ st.left + 2 := by
  cases st <;> simp [way, left]

theorem Going.act_look (h : Going lines b t w k taken) (hstand : t.conductor.stand = .awaiting) :
    t.conductor.act .look = t.conductor ∨ ∃ o, (t.conductor.act .look).stand = .ended o := by
  have hsuits := h.steady.suits
  rw [hstand] at hsuits
  obtain ⟨events, hevents⟩ := h.steady.reached.exists_events hsuits.2
  rw [Conductor.act_look hstand, Conductor.look_eq hevents]
  match events with
  | [] => exact .inl rfl
  | .paused p :: rest => exact (h.unpaused _ hevents p List.mem_cons_self).elim
  | .terminated o :: rest => exact .inr ⟨o, rfl⟩

theorem Going.ended_look {arena : Arena} (h : Going lines b t (.finished arena) k taken)
    (hstand : t.conductor.stand = .awaiting) :
    ∃ o, (t.conductor.act .look).stand = .ended o := by
  obtain hsame | hended := h.act_look hstand
  · have hevent := h.steady.conducts.waits hstand b arena h.worker
    have hsuits := h.steady.suits
    rw [hstand] at hsuits
    obtain ⟨events, hevents⟩ := h.steady.reached.exists_events hsuits.2
    rw [Conductor.act_look hstand, Conductor.look_eq hevents] at hsame ⊢
    rw [Shared.hasEvent, Shared.event?, hevents] at hevent
    cases events with
    | nil => cases hevent
    | cons e rest =>
      cases e with
      | paused p => exact (h.unpaused _ hevents p List.mem_cons_self).elim
      | terminated o => exact ⟨o, rfl⟩
  · exact hended

theorem Going.nears_drive_ending {arena : Arena} (h : Going lines b t (.finished arena) k taken)
    (hlines : ∀ line ∈ lines, ∀ c ∈ line.toList, Editor.isPrintable c = true)
    (hstand : t.conductor.stand = .awaiting) :
    t.Gains t.drive ∨ Nears lines b t.drive .drive .drive (toLex (1, t.stage.left)) := by
  have hd := drive_drives hstand
  obtain ⟨taken', hgo, -⟩ := h.drives hlines hstand hd
  obtain ⟨hpending, subs, hidle⟩ := h.meets.idle_of_none
  generalize t.drive = t' at hd hgo ⊢
  have hseen (hlt : t'.stage.left < t.stage.left) :
      Nears lines b t' .drive .drive (toLex (1, t.stage.left)) :=
    ⟨_, k, taken', _, _, hgo, .seen arena taken', .inl (lt_of_snd hlt)⟩
  have hbusy (hbusy : (∃ keys, t.stage = .typing keys) ∨ ∃ d keys, t.stage = .delivering d keys) :
      Nears lines b t' .drive .drive (toLex (1, t.stage.left)) :=
    hseen (hd.left_lt hbusy fun key keys hst => by rw [hst] at hidle; cases hidle).1
  cases hd with
  | watch => exact .inl (.inr (h.ended_look hstand))
  | see _ hc => cases hpending.symm.trans hc
  | lookAway hst =>
    refine .inr (hseen ?_)
    rw [hst]
    exact Nat.zero_lt_one
  | takeEnd hst | takeLine hst | takeNothing hst =>
    rw [hst] at hidle
    cases hidle
  | rest hst => exact .inr (hbusy (.inl ⟨_, hst⟩))
  | press hst => exact .inr (hbusy (.inl ⟨_, hst⟩))
  | deliver hst => exact .inr (hbusy (.inr ⟨_, _, hst⟩))
  | delivered hst => exact .inr (hbusy (.inr ⟨_, _, hst⟩))

theorem look_keeps (c : Conductor) :
    (c.act .look).system.session.shared.console = c.system.session.shared.console ∧
      (c.act .look).system.effort = c.system.effort := by
  have hpoll : (c.system.act .poll).session.shared.console = c.system.session.shared.console ∧
      (c.system.act .poll).effort = c.system.effort := by
    obtain he | ⟨e, rest, -, -, he⟩ := c.system.act_poll
    · rw [he]
      exact ⟨rfl, rfl⟩
    · rw [he]
      cases e <;> exact ⟨rfl, rfl⟩
  simp only [Conductor.act]
  split
  · unfold Conductor.look
    split
    case h_1 | h_2 => exact ⟨rfl, rfl⟩
    case h_3 | h_4 => exact hpoll
  · exact ⟨rfl, rfl⟩

theorem Drives.mail_ne_nil {t' : Typist} (hd : t.Drives t') (hmail : t.console.mail ≠ []) :
    t'.console.mail ≠ [] := by
  cases hd with
  | watch =>
    change (t.conductor.act .look).system.session.shared.console.mail ≠ []
    rwa [(look_keeps t.conductor).1]
  | @deliver d d' keys c h hd =>
    change c.mail ≠ []
    cases Delivery.step_steps hd with
    | write => exact hmail
    | settle key reads f =>
      cases f with
      | telling p o => exact List.append_ne_nil_of_left_ne_nil hmail _
      | discarding p => exact hmail
    | press key read reads =>
      rw [(Console.keeps_press read key).2]
      exact hmail
  | _ => exact hmail

section Read

variable {run : Run} {tracer : Tracer} {r : Reader} {t' : Typist}
  (hr : r.stage = .waiting ∨ r.stage = .checking)
include hr

theorem Going.nears_told (h : Going lines b t' (.reading run tracer r) k taken)
    (hmail : t'.console.mail ≠ []) {i x : Nat} (hi : 1 < i) :
    Nears lines b t' m .drive (toLex (i, x)) :=
  ⟨_, k, taken, _, _, h, .told hmail hr, .inl (lt_of_fst hi)⟩

theorem Going.nears_drive_typed (h : Going lines b t (.reading run tracer r) k 1)
    (hlines : ∀ line ∈ lines, ∀ c ∈ line.toList, Editor.isPrintable c = true)
    (hstand : t.conductor.stand = .awaiting) (hmail : t.console.mail = []) :
    Nears lines b t.drive .drive .drive (toLex (2, t.stage.left)) := by
  have hd := drive_drives hstand
  have hbusy := h.meets.busy hr hmail
  have hleft := (hd.left_lt hbusy fun key keys hst => (hst ▸ h.meets).length_handlers).1
  obtain ⟨taken', hgo, htaken⟩ := h.drives hlines hstand hd
  obtain rfl : taken' = 1 := htaken fun hst => by
    obtain ⟨keys, hbusy⟩ | ⟨d, keys, hbusy⟩ := hbusy <;> cases hst.symm.trans hbusy
  by_cases hmail' : t.drive.console.mail = []
  · exact ⟨_, k, 1, _, _, hgo, .typed hmail' hr, .inl (lt_of_snd hleft)⟩
  · exact hgo.nears_told hr hmail' (by decide)

theorem Awaits.closer {taken : Nat} (ha : t.Awaits (.reading run tracer r) 0 m a)
    (hmail : t.console.mail = []) (hgo : Going lines b t' (.reading run tracer r) k taken)
    (htaken : taken = 0) (hmail' : t'.console.mail = []) (hqueue : t'.queue = t.queue)
    (hhung : t'.hungUp = t.hungUp) (hclosed : t'.closed = t.closed)
    (hway : t'.stage.way < t.stage.way) : Nears lines b t' m .drive a := by
  subst htaken
  cases ha with
  | step hlook =>
    obtain ⟨id, stage⟩ := r
    obtain rfl | rfl := hr <;> cases hlook
  | told hne => exact (hne hmail).elim
  | taken _ _ hready =>
    exact ⟨_, k, 0, _, _, hgo, .taken hmail' hr (by rwa [hclosed, hqueue]),
      .inl (lt_of_snd hway)⟩
  | closed _ _ hc hq hup =>
    exact ⟨_, k, 0, _, _, hgo,
      .closed hmail' hr (hclosed.trans hc) (hqueue.trans hq) (hhung.trans hup),
      .inl (lt_of_snd hway)⟩
  | arrived _ _ hc hq hup =>
    exact ⟨_, k, 0, _, _, hgo,
      .arrived hmail' hr (hclosed.trans hc) (hqueue.trans hq) (hhung.trans hup),
      .inr ⟨rfl, rfl, nofun⟩⟩

theorem Awaits.exists_of_free (ha : t.Awaits (.reading run tracer r) 0 m a)
    (hmail : t.console.mail = []) : ∃ i x, 2 < i ∧ a = toLex (i, x) := by
  cases ha with
  | step hlook =>
    obtain ⟨id, stage⟩ := r
    obtain rfl | rfl := hr <;> cases hlook
  | told hne => exact (hne hmail).elim
  | taken | closed | arrived => exact ⟨_, _, by decide, rfl⟩

theorem Going.nears_drive_busy (h : Going lines b t (.reading run tracer r) k 0)
    (hd : t.Drives t') (hmail : t.console.mail = []) (ha : t.Awaits (.reading run tracer r) 0 m a)
    {taken : Nat} (hgo : Going lines b t' (.reading run tracer r) k taken) (htaken : taken = 0)
    (hbusy : (∃ keys, t.stage = .typing keys) ∨ ∃ d keys, t.stage = .delivering d keys) :
    Nears lines b t' m .drive a := by
  obtain ⟨-, hpress⟩ := h.meets.free hr
  obtain ⟨hleft, hway, hqueue, hhung, hclosed⟩ :=
    hd.left_lt hbusy fun key keys hst => (hpress key keys hst).elim
  by_cases hmail' : t'.console.mail = []
  · refine ha.closer hr hmail hgo htaken hmail' hqueue hhung hclosed ?_
    have := t'.stage.way_le
    omega
  · obtain ⟨i, x, hi, rfl⟩ := ha.exists_of_free hr hmail
    exact hgo.nears_told hr hmail' (by omega)

theorem Awaits.nears_nothing (ha : t.Awaits (.reading run tracer r) 0 m a)
    (hmail : t.console.mail = []) (hc : t.closed = false) (hq : t.queue = [])
    (hgo : Going lines b { t with stage := .watching, closed := t.hungUp }
      (.reading run tracer r) k 0) :
    Nears lines b { t with stage := .watching, closed := t.hungUp } m .drive a := by
  cases ha with
  | step hlook =>
    obtain ⟨id, stage⟩ := r
    obtain rfl | rfl := hr <;> cases hlook
  | told hne => exact (hne hmail).elim
  | taken _ _ hready =>
    obtain hready | hready := hready
    · cases hc.symm.trans hready
    · exact (hready hq).elim
  | closed _ _ _ _ hup =>
    exact ⟨_, k, 0, _, _, hgo, .taken hmail hr (.inl hup), .inl (lt_of_fst (by decide))⟩
  | arrived _ _ _ _ hup =>
    exact ⟨_, k, 0, _, _, hgo, .arrived hmail hr hup hq hup, .inr ⟨rfl, rfl, nofun⟩⟩

theorem Going.nears_drive_free (h : Going lines b t (.reading run tracer r) k 0)
    (hlines : ∀ line ∈ lines, ∀ c ∈ line.toList, Editor.isPrintable c = true)
    (hstand : t.conductor.stand = .awaiting) (hmail : t.console.mail = [])
    (ha : t.Awaits (.reading run tracer r) 0 m a) :
    t.Gains t.drive ∨ Nears lines b t.drive m .drive a := by
  have hd := drive_drives hstand
  obtain ⟨hpending, -⟩ := h.meets.free hr
  obtain ⟨i, x, hi, hax⟩ := ha.exists_of_free hr hmail
  obtain ⟨taken', hgo, htaken⟩ := h.drives hlines hstand hd
  generalize t.drive = t' at hd hgo ⊢
  have hfree {st : Stage} (hst : t.stage = st) (hne : st ≠ .taking) : taken' = 0 :=
    htaken fun he => hne (hst.symm.trans he)
  have htyped (hgo : Going lines b t' (.reading run tracer r) k 1)
      (hmail' : t'.console.mail = []) : Nears lines b t' m .drive a :=
    ⟨_, k, 1, _, _, hgo, .typed hmail' hr, .inl (hax ▸ lt_of_fst hi)⟩
  have hbusy := h.nears_drive_busy hr hd hmail ha hgo
  cases hd with
  | watch hst =>
    obtain - | hended := h.act_look hstand
    · refine .inr (ha.closer hr hmail hgo (hfree hst nofun) ?_ rfl rfl rfl ?_)
      · change (t.conductor.act .look).system.session.shared.console.mail = []
        rwa [(look_keeps t.conductor).1]
      · rw [hst]
        exact Nat.lt_succ_self 1
    · exact .inl (.inr hended)
  | see hst =>
    refine .inr (ha.closer hr hmail hgo (hfree hst nofun) hmail rfl rfl rfl ?_)
    rw [hst]
    exact Nat.zero_lt_one
  | lookAway _ hc => cases hpending.symm.trans hc
  | takeEnd hst hc => exact .inr (htyped (h.take_end hst hc) hmail)
  | takeLine hst hc hq =>
    exact .inr (htyped (h.take_line hst hq
      (hlines _ (h.mem_of_queue (hq ▸ List.mem_cons_self)))) hmail)
  | takeNothing hst hc hq =>
    exact .inr (ha.nears_nothing hr hmail hc hq (h.take_nothing hst hq))
  | rest hst => exact .inr (hbusy (hfree hst nofun) (.inl ⟨_, hst⟩))
  | press hst => exact .inr (hbusy (hfree hst nofun) (.inl ⟨_, hst⟩))
  | deliver hst => exact .inr (hbusy (hfree hst nofun) (.inr ⟨_, _, hst⟩))
  | delivered hst => exact .inr (hbusy (hfree hst nofun) (.inr ⟨_, _, hst⟩))

end Read

theorem Going.nears_drive (h : Going lines b t w k taken)
    (hlines : ∀ line ∈ lines, ∀ c ∈ line.toList, Editor.isPrintable c = true)
    (hstand : t.conductor.stand = .awaiting) (ha : t.Awaits w taken m a) :
    t.Gains t.drive ∨ Nears lines b t.drive m .drive a := by
  cases ha with
  | step hlook =>
    obtain ⟨taken', hgo, -⟩ := h.drives hlines hstand (drive_drives hstand)
    exact .inr ⟨w, k, taken', _, _, hgo, .step hlook, .inr ⟨rfl, rfl, nofun⟩⟩
  | seen arena => exact h.nears_drive_ending hlines hstand
  | told hmail hr =>
    obtain ⟨taken', hgo, -⟩ := h.drives hlines hstand (drive_drives hstand)
    exact .inr ⟨_, k, taken', _, _, hgo, .told ((drive_drives hstand).mail_ne_nil hmail) hr,
      .inr ⟨rfl, rfl, nofun⟩⟩
  | typed hmail hr => exact .inr (h.nears_drive_typed hr hlines hstand hmail)
  | taken hmail hr hready => exact h.nears_drive_free hr hlines hstand hmail (.taken hmail hr hready)
  | closed hmail hr hc hq hup =>
    exact h.nears_drive_free hr hlines hstand hmail (.closed hmail hr hc hq hup)
  | arrived hmail hr hc hq hup =>
    exact h.nears_drive_free hr hlines hstand hmail (.arrived hmail hr hc hq hup)

theorem Going.nears_act (h : Going lines b t w k taken)
    (hlines : ∀ line ∈ lines, ∀ c ∈ line.toList, Editor.isPrintable c = true)
    (hstand : t.conductor.stand = .awaiting) (ha : t.Awaits w taken m a) (m' : Move) :
    t.Gains (t.act m') ∨ Nears lines b (t.act m') m m' a := by
  cases m' with
  | work => exact h.nears_work ha
  | drive => exact h.nears_drive hlines hstand ha
  | arrive => exact .inr (h.nears_arrive ha)

theorem Drives.effort_eq {t' : Typist} (hd : t.Drives t') : t'.effort = t.effort := by
  cases hd with
  | watch => exact (look_keeps t.conductor).2
  | _ => rfl

theorem Going.effort_drive (h : Going lines b t w k taken) : t.drive.effort = t.effort := by
  obtain hstand | ⟨o, hstand⟩ := h.stand
  · exact (drive_drives hstand).effort_eq
  · rw [drive_of_ended hstand]

theorem effort_arrive (t : Typist) : t.arrive.effort = t.effort := by
  unfold arrive
  split <;> rfl

theorem Going.effort_le (h : Going lines b t w k taken) (m : Move) :
    t.effort ≤ (t.act m).effort := by
  cases m with
  | work =>
    rw [h.effort_work]
    split <;> omega
  | drive => exact Nat.le_of_eq h.effort_drive.symm
  | arrive => exact Nat.le_of_eq (effort_arrive t).symm

theorem Going.length_given (h : Going lines b t w k taken) :
    (Note.given t.conductor.system.log).length = k := by
  rw [h.given, List.length_map, List.length_range]

variable {σ : Nat → Move}
  (hlines : ∀ line ∈ lines, ∀ c ∈ line.toList, Editor.isPrintable c = true)
include hlines

theorem Going.run (h : Going lines b t w k taken) (σ : Nat → Move) (i : Nat) :
    ∃ w' k' taken', Going lines b (t.run σ i) w' k' taken' := by
  rw [run_eq_moves]
  exact h.moves hlines _

theorem Going.eventually (h : Going lines b t w k taken) (hσ : Fair σ) (i e : Nat) :
    ∃ j, i ≤ j ∧ (e ≤ (t.run σ j).effort ∨ ∃ o, (t.run σ j).conductor.stand = .ended o) := by
  induction e with
  | zero => exact ⟨i, Nat.le_refl i, .inl (Nat.zero_le _)⟩
  | succ e ih =>
    obtain ⟨j, hij, he | hended⟩ := ih
    · obtain ⟨w', k', taken', hgo⟩ := h.run hlines σ j
      obtain hstand | hended := hgo.stand
      · obtain ⟨m, a, ha⟩ := hgo.exists_awaits
        have hthere := hσ.eventually (t := t) (i := j) (m := m) (a := a)
          (P := fun t m a => e ≤ t.effort ∧ t.conductor.stand = .awaiting ∧
            ∃ w k taken, Going lines b t w k taken ∧ t.Awaits w taken m a)
          (Q := fun t => e + 1 ≤ t.effort ∨ ∃ o, t.conductor.stand = .ended o) ?_
          ⟨he, hstand, w', k', taken', hgo, ha⟩
        · obtain ⟨j', hj', hthere⟩ := hthere
          exact ⟨j', Nat.le_trans hij hj', hthere⟩
        · rintro t m a ⟨he, hstand, w, k, taken, hgo, ha⟩ m'
          obtain (hlt | hended) | ⟨w', k', taken', m'', a', hgo', ha', hnear⟩ :=
            hgo.nears_act hlines hstand ha m'
          · exact .inl (.inl (by omega))
          · exact .inl (.inr hended)
          · obtain hstand' | hended := hgo'.stand
            · have hle := Nat.le_trans he (hgo.effort_le m')
              exact .inr ⟨m'', a', ⟨hle, hstand', w', k', taken', hgo', ha'⟩, hnear⟩
            · exact .inl (.inr hended)
      · exact ⟨j, hij, .inr hended⟩
    · exact ⟨j, hij, .inr hended⟩

theorem Going.ends (h : Going lines b t w k taken) (hσ : Fair σ) {fuel : Nat} {o : Outcome}
    {done : List Host.Interaction} (hdone : b.listed lines fuel = some (o, done)) :
    ∃ i, (t.run σ i).conductor.stand = .ended o ∧
      (t.run σ i).conductor.system.log.filterMap Note.did? = done := by
  obtain ⟨n, arena, hcomes⟩ := Brief.exists_comes hdone
  obtain ⟨i, -, hi⟩ := h.eventually hlines hσ 0 (12 * n + 13)
  obtain ⟨w', k', taken', hgo⟩ := h.run hlines σ i
  obtain hle | ⟨o', hstand⟩ := hi
  · have hbound : (t.run σ i).effort ≤ 12 * n + 12 := (hgo.lock.le_of_comes hgo.calm hcomes).2
    omega
  · obtain ⟨n', arena', -, hcomes'⟩ := hgo.comes hstand
    obtain ⟨-, -, rfl, hinteractions⟩ := hcomes'.unique hcomes
    exact ⟨i, hstand, List.reverse_injective hinteractions⟩

theorem Going.reads_on {run : Run} {tracer : Tracer} {r : Reader}
    (h : Going lines b t (.reading run tracer r) k taken) (m : Move) :
    (∃ r' taken', Going lines b (t.act m) (.reading run tracer r') k taken' ∧
      (t.act m).effort + r.spent ≤ t.effort + r'.spent) ∨
    k < (Note.given (t.act m).conductor.system.log).length := by
  cases m with
  | work =>
    cases hr : r.outcome? with
    | none =>
      have hspent : (if (Worker.reading run tracer r).isLook then _ else _) + r.spent ≤ _ :=
        Reader.spent_step hr false t.console t.effort
      rw [← h.effort_work] at hspent
      exact .inl ⟨_, taken, (h.read hr).1, hspent⟩
    | some o =>
      refine .inr ?_
      rw [h.act_work]
      simp only [System.worked, Note.given_append, List.length_append, h.length_given,
        Worker.notes, hr]
      exact Nat.lt_add_of_pos_right (Nat.succ_pos _)
  | drive =>
    obtain ⟨taken', hgo⟩ := h.drive hlines
    exact .inl ⟨r, taken', hgo, Nat.add_le_add_right (Nat.le_of_eq h.effort_drive) _⟩
  | arrive =>
    exact .inl ⟨r, taken, h.arrive, Nat.add_le_add_right (Nat.le_of_eq (effort_arrive t)) _⟩

theorem Going.given_of_reads (h : Going lines b t w k taken) (hσ : Fair σ) {i : Nat} {run : Run}
    {tracer : Tracer} {r : Reader}
    (hw : (t.run σ i).conductor.system.session.worker = some (b, .reading run tracer r)) :
    ∃ j, i ≤ j ∧ (Note.given (t.run σ i).conductor.system.log).length <
      (Note.given (t.run σ j).conductor.system.log).length := by
  by_contra hnone
  obtain ⟨w₀, k₀, taken₀, hgo⟩ := h.run hlines σ i
  cases hgo.worker.symm.trans hw
  rw [hgo.length_given] at hnone
  have hreads (d : Nat) : ∃ r' taken', Going lines b (t.run σ (i + d)) (.reading run tracer r')
      k₀ taken' ∧ (t.run σ (i + d)).effort + r.spent ≤ (t.run σ i).effort + r'.spent := by
    induction d with
    | zero => exact ⟨r, taken₀, hgo, Nat.le_refl _⟩
    | succ d ih =>
      obtain ⟨r', taken', hgo', hle⟩ := ih
      obtain ⟨r'', taken'', hgo'', hle'⟩ | hgiven := hgo'.reads_on hlines (σ (i + d))
      · refine ⟨r'', taken'', hgo'', ?_⟩
        change ((t.run σ (i + d)).act (σ (i + d))).effort + _ ≤ _
        omega
      · exact (hnone ⟨i + d + 1, by omega, hgiven⟩).elim
  obtain ⟨j, hij, hj⟩ := h.eventually hlines hσ i ((t.run σ i).effort + 13)
  obtain ⟨d, rfl⟩ := Nat.exists_eq_add_of_le hij
  obtain ⟨r', taken', hgo', hle⟩ := hreads d
  have hspent := r'.spent_le
  obtain hle' | ⟨o, hstand⟩ := hj
  · omega
  · obtain ⟨n, arena, hw', -⟩ := hgo'.comes hstand
    cases hw'

end Progress

end Typist

end Stepwise
