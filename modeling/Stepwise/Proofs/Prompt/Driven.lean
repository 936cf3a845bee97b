import Stepwise.Proofs.Prompt.Drive
import Stepwise.Proofs.Prompt.Progress

/-! Lines that drive a run. The loop that runs a program on a console with all its input there is
one of the ways in which a typist, the run and its input may move. So what is true of all of these
is true of that loop: the program is given the lines of its input in their order. -/

namespace Stepwise

open Conductor (Stand)

namespace Typist

def Leads (t t' : Typist) : Prop :=
  ∃ ms, t.moves ms = t'

theorem Leads.refl (t : Typist) : t.Leads t :=
  ⟨[], rfl⟩

theorem Leads.cons {t t' : Typist} (m : Move) (h : (t.act m).Leads t') : t.Leads t' := by
  obtain ⟨ms, h⟩ := h
  exact ⟨m :: ms, h⟩

theorem Leads.trans {t t' t'' : Typist} (h : t.Leads t') (h' : t'.Leads t'') : t.Leads t'' := by
  obtain ⟨ms, rfl⟩ := h
  obtain ⟨ms', rfl⟩ := h'
  exact ⟨ms ++ ms', List.foldl_append⟩

theorem moves_work (t : Typist) (n : Nat) : t.moves (List.replicate n .work) =
    { t with conductor := t.conductor.moves (List.replicate n .work) } := by
  induction n generalizing t with
  | zero => rfl
  | succ n ih => exact ih (t.act .work)

theorem exists_arrived (t : Typist) : t.Leads
    { t with coming := [], queue := t.queue ++ t.coming, hungUp := true } := by
  obtain ⟨conductor, stage, coming, queue, hungUp, closed⟩ := t
  induction coming generalizing queue with
  | nil => exact .cons .arrive (by rw [List.append_nil]; exact .refl _)
  | cons line coming ih =>
    refine .cons .arrive ?_
    rw [← List.singleton_append, ← List.append_assoc]
    exact ih (queue ++ [line])

def typed (t : Typist) (f : Console → Console) (st : Stage) : Typist :=
  { t with conductor := t.conductor.act (.terminal f), stage := st }

section Typed

variable {t : Typist} (hstand : t.conductor.stand = .awaiting)
include hstand

theorem leads_delivered (d : Delivery) {keys : List Key} (hst : t.stage = .delivering d keys) :
    t.Leads (t.typed d.finish (.typing keys)) := by
  have hdrive (t : Typist) (d : Delivery) (c : Console) (hstand : t.conductor.stand = .awaiting)
      (hst : t.stage = .delivering d keys) (hc : t.console = c) :
      t.Leads (t.typed (fun _ => d.finish c) (.typing keys)) := by
    induction d, c using Delivery.finish.induct generalizing t with
    | case1 d c hd =>
      subst hc
      refine .cons .drive ?_
      have hact : t.act .drive = { t with stage := .typing keys } := by
        simp only [act, drive, hstand, hst, hd]
      rw [hact, Delivery.finish, hd]
      exact .refl _
    | case2 d c d' c' hd ih =>
      subst hc
      refine .cons .drive ?_
      have hact : t.act .drive = t.typed (fun _ => c') (.delivering d' keys) := by
        simp only [act, drive, hstand, hst, hd, typed]
      rw [hact, Delivery.finish, hd]
      exact ih _ hstand rfl rfl
  exact hdrive t d t.console hstand hst rfl

theorem leads_typed {keys : List Key} (hst : t.stage = .typing keys) :
    t.Leads (t.typed (fun c => keys.foldl Console.type c) .watching) := by
  induction keys generalizing t with
  | nil =>
    refine .cons .drive ?_
    have hact : t.act .drive = { t with stage := .watching } := by
      simp only [act, drive, hstand, hst]
    rw [hact]
    exact .refl _
  | cons key keys ih =>
    refine .cons .drive ?_
    have hact : t.act .drive = { t with stage := .delivering (.new t.console key) keys } := by
      simp only [act, drive, hstand, hst]
    rw [hact]
    have hdelivered := leads_delivered
      (t := { t with stage := .delivering (.new t.console key) keys }) hstand _ rfl
    exact hdelivered.trans (ih (t := t.typed _ (.typing keys)) hstand rfl)

end Typed

end Typist

namespace Drive

open Typist (Leads keysOf)

/-- A typist that is about to look for an event of this run, whose input has all come, up to these
lines that are left. -/
structure Mirrors (d : Drive) (lines : List String) (t : Typist) : Prop where
  has : t.conductor.Has d.session .awaiting
  stage : t.stage = .watching
  coming : t.coming = []
  queue : t.queue = lines
  hungUp : t.hungUp = true
  closed : t.closed = d.closed

def Reaches (t : Typist) (d : Drive) (lines : List String) : Prop :=
  ∃ t', t.Leads t' ∧ t'.conductor.Has d.session d.phase.stand ∧
    (d.phase = .running → d.Mirrors lines t')

variable {d : Drive} {lines : List String} {t : Typist}

theorem Reaches.of_leads {t' : Typist} (hl : t.Leads t') (h : Reaches t' d lines) :
    Reaches t d lines := by
  obtain ⟨t'', hl', h⟩ := h
  exact ⟨t'', hl.trans hl', h⟩

theorem Mirrors.reaches (h : d.Mirrors lines t) (hp : d.phase = .running) : Reaches t d lines :=
  ⟨t, .refl t, by rw [hp]; exact h.has, fun _ => h⟩

theorem Mirrors.work (h : d.Mirrors lines t) (stop : Shared → Bool) (fuel : Nat) :
    ∃ t', t.Leads t' ∧ Mirrors { d with session := d.session.work stop fuel } lines t' := by
  obtain ⟨n, hn⟩ := h.has.moves_work stop fuel
  refine ⟨_, ⟨_, t.moves_work n⟩, ?_⟩
  exact { h with has := hn }

section Going

variable {input : List String} {b : Brief} {w : Worker} {k taken : Nat}

theorem Mirrors.taking (h : d.Mirrors lines t) (hgo : Typist.Going input b t w k taken)
    (hr : d.isReading = true) : t.Leads { t with stage := .taking } := by
  obtain ⟨⟨hsession, -, hstand⟩, hst, -⟩ := h
  obtain ⟨⟨hevent, hpending⟩, -⟩ : (d.session.shared.hasEvent = false ∧
      d.session.shared.console.isPending = true) ∧ d.session.isIdle = true := by
    simpa [isReading] using hr
  have hsuits := hgo.steady.suits
  rw [hstand] at hsuits
  obtain ⟨events, hevents⟩ := hgo.steady.reached.exists_events hsuits.2
  obtain rfl : events = [] := by
    rw [← hsession, Shared.hasEvent, Shared.event?, hevents] at hevent
    cases events with
    | nil => rfl
    | cons => cases hevent
  have hlook : t.conductor.act .look = t.conductor := by
    rw [Conductor.act_look hstand, Conductor.look_eq hevents]
  have hwatch : t.act .drive = { t with stage := .looking } := by
    exact (Typist.drive_watching hstand hst).trans (by rw [hlook])
  have hconsole : Typist.console { t with stage := .looking } = d.session.shared.console :=
    congrArg (fun s : Session => s.shared.console) hsession
  have hsee : Typist.act { t with stage := .looking } .drive = { t with stage := .taking } := by
    simp only [Typist.act, Typist.drive, hstand, hconsole, hpending, if_true]
  exact ⟨[.drive, .drive], by simp only [Typist.moves, List.foldl, hwatch, hsee]⟩

theorem Mirrors.typed (h : d.Mirrors lines t) {keys : List Key} {lines' : List String}
    {text : Console → Console} (htext : (fun c => keys.foldl Console.type c) = text)
    (hl : t.Leads { t with queue := lines', stage := .typing keys }) :
    ∃ t', t.Leads t' ∧
      Mirrors { d with session := d.session.mapConsole text } lines' t' := by
  obtain ⟨⟨hsession, herrand, hstand⟩, -, hcoming, -, hhung, hclosed⟩ := h
  refine ⟨_, hl.trans (Typist.leads_typed (t := { t with queue := lines', stage := .typing keys })
    hstand rfl), ?_⟩
  rw [htext]
  exact ⟨⟨congrArg (Session.mapConsole · text) hsession, herrand, hstand⟩, rfl, hcoming, rfl, hhung,
    hclosed⟩

theorem Mirrors.type (h : d.Mirrors lines t) (hgo : Typist.Going input b t w k taken)
    (hc : d.closed = false) (hr : d.isReading = true) :
    ∃ t', t.Leads t' ∧ Mirrors (d.type lines.head?) lines.tail t' := by
  have htaking := h.taking hgo hr
  have hstand := h.has.stand
  have hclosed := h.closed.trans hc
  cases lines with
  | nil =>
    have htake : Typist.act { t with stage := .taking } .drive =
        { t with stage := .watching, closed := true } := by
      simp only [Typist.act, Typist.drive, Typist.take, hstand, hclosed, h.queue, h.hungUp]
      rfl
    refine ⟨_, htaking.trans (.cons .drive (by rw [htake]; exact .refl _)), ?_⟩
    exact ⟨h.has, rfl, h.coming, h.queue, h.hungUp, rfl⟩
  | cons line lines =>
    have htake : Typist.act { t with stage := .taking } .drive =
        { t with queue := lines, stage := .typing (keysOf (some line)) } := by
      simp only [Typist.act, Typist.drive, Typist.take, hstand, hclosed, h.queue]
      rfl
    refine h.typed ?_ (htaking.trans (.cons .drive (by rw [htake]; exact .refl _)))
    funext c
    exact List.foldl_append

theorem Mirrors.typeEnd (h : d.Mirrors lines t) (hgo : Typist.Going input b t w k taken)
    (hc : d.closed = true) (hr : d.isReading = true) :
    ∃ t', t.Leads t' ∧
      Mirrors { d with session := d.session.mapConsole (·.feed endOfInput) } lines t' := by
  have hstand := h.has.stand
  have htake : Typist.act { t with stage := .taking } .drive =
      { t with queue := lines, stage := .typing (keysOf none) } := by
    simp only [Typist.act, Typist.drive, Typist.take, hstand, h.closed.trans hc, h.queue]
    rfl
  exact h.typed rfl ((h.taking hgo hr).trans (.cons .drive (by rw [htake]; exact .refl _)))

theorem Mirrors.poll (h : d.Mirrors lines t) (hgo : Typist.Going input b t w k taken)
    (hp : d.phase = .running) : Reaches t d.poll lines := by
  have hlooked := h.has.act_look
  obtain ⟨⟨hsession, -, hstand⟩, hst, -⟩ := id h
  have hsuits := hgo.steady.suits
  rw [hstand] at hsuits
  obtain ⟨events, hevents⟩ := hgo.steady.reached.exists_events hsuits.2
  have hunpaused := hgo.unpaused events hevents
  rw [hsession] at hevents
  match events with
  | [] =>
    have hpoll : d.poll = d := by simp only [Drive.poll, Session.poll, hevents]
    rw [hpoll]
    exact h.reaches hp
  | .paused p :: rest => exact (hunpaused p List.mem_cons_self).elim
  | .terminated o :: rest =>
    rw [Conductor.polled] at hlooked
    simp only [Session.poll, hevents] at hlooked
    refine ⟨_, .cons .drive (.refl _), ?_, fun hrunning => ?_⟩
    · rw [Typist.act, Typist.drive_watching hstand hst]
      simp only [Drive.poll, Session.poll, hevents]
      exact hlooked
    · simp only [Drive.poll, Session.poll, hevents] at hrunning
      cases hrunning

theorem Mirrors.give (h : d.Mirrors lines t) (hgo : Typist.Going input b t w k taken)
    (hp : d.phase = .running) (hwants : d.wantsLine = true) :
    Reaches t (d.give lines.head?) lines.tail := by
  obtain ⟨session, closed, phase, shown⟩ := d
  obtain rfl : phase = .running := hp
  obtain ⟨hc, hr⟩ := Bool.and_eq_true_iff.1 hwants
  obtain ⟨t', hl, h'⟩ := h.type hgo (Bool.not_eq_true' _ ▸ hc) hr
  refine .of_leads hl (h'.reaches ?_)
  cases lines <;> rfl

variable (hinput : ∀ line ∈ input, ∀ c ∈ line.toList, Editor.isPrintable c = true)
include hinput

theorem Mirrors.step (h : d.Mirrors lines t) (hgo : Typist.Going input b t w k taken)
    (hp : d.phase = .running) (patience : Nat) : Reaches t (d.step patience) lines := by
  obtain ⟨t', hl, h'⟩ := h.work Shared.hasEvent patience
  obtain ⟨ms, rfl⟩ := id hl
  obtain ⟨w', k', taken', hgo'⟩ := hgo.moves hinput ms
  obtain ⟨session, closed, phase, shown⟩ := d
  obtain rfl : phase = .running := hp
  simp only [Drive.step]
  split
  · next hc =>
    obtain ⟨hc, hr⟩ := Bool.and_eq_true_iff.1 hc
    obtain ⟨t'', hl', h''⟩ := h'.typeEnd hgo' hc hr
    exact .of_leads (hl.trans hl') (h''.reaches rfl)
  · exact .of_leads hl (h'.poll hgo' rfl)

theorem Reaches.finish (h : Reaches t d lines) (hgo : Typist.Going input b t w k taken)
    (patience fuel : Nat) :
    ∃ t', t.Leads t' ∧ t'.conductor.Has (d.finish patience fuel lines).2.session
      (d.finish patience fuel lines).2.phase.stand := by
  induction fuel generalizing d lines with
  | zero =>
    obtain ⟨t', hl, hhas, -⟩ := h
    exact ⟨t', hl, hhas⟩
  | succ fuel ih =>
    obtain ⟨t', hl, hhas, hmirrors⟩ := id h
    obtain ⟨ms, rfl⟩ := id hl
    obtain ⟨w', k', taken', hgo'⟩ := hgo.moves hinput ms
    cases hp : d.phase with
    | «over» | failed =>
      have hfinish : d.finish patience (fuel + 1) lines = (lines, d) := by
        simp only [Drive.finish, hp]
      rw [hfinish]
      exact ⟨_, hl, hhas⟩
    | prompting p =>
      have hstand := hhas.stand
      rw [hp] at hstand
      obtain hgo' | ⟨o, hgo'⟩ := hgo'.stand <;> cases hstand.symm.trans hgo'
    | running =>
      have h' := hmirrors hp
      have hfinish : d.finish patience (fuel + 1) lines =
          if d.wantsLine then (d.give lines.head?).finish patience fuel lines.tail
          else (d.step patience).finish patience fuel lines := by
        rw [Drive.finish, hp]
      rw [hfinish]
      split
      · next hwants => exact ih (.of_leads hl (h'.give hgo' hp hwants))
      · exact ih (.of_leads hl (h'.step hinput hgo' hp patience))

end Going

theorem reaches_start {s : System} (h : s.Reached) (hidle : s.session.isActive = false) {job : Job}
    (hd : Drive.start s.session job = .ok d) (lines : List String) :
    Reaches (Typist.begin s job lines) d lines := by
  unfold Drive.start at hd
  cases hstart : s.session.start job with
  | error e =>
    rw [hstart] at hd
    cases hd
  | ok started =>
    rw [hstart] at hd
    cases hd
    have hhas := Conductor.has_begin h hidle hstart
    refine .of_leads (Typist.exists_arrived _) (Mirrors.reaches ?_ rfl)
    exact ⟨hhas, rfl, rfl, rfl, rfl, rfl⟩

end Drive

namespace Typist

/-- What nothing that is put off for good keeps a run from. Every read is given a line or the end of
the input, and the run ends as its source does on a console that reads these lines, with the same
done. -/
structure Served (lines : List String) (b : Brief) (t : Typist) (σ : Nat → Move) : Prop where
  reads : ∀ i run tracer r,
    (t.run σ i).conductor.system.session.worker = some (b, .reading run tracer r) →
      ∃ j, i ≤ j ∧ (Note.given (t.run σ i).conductor.system.log).length <
        (Note.given (t.run σ j).conductor.system.log).length
  ends : ∀ fuel o done, b.listed lines fuel = some (o, done) →
    ∃ i, (t.run σ i).conductor.stand = .ended o ∧
      (t.run σ i).conductor.system.log.filterMap Note.did? = done

/-- However the steps of a run in normal mode, those of its typist and the coming of its input are
interleaved, its reads are given the lines in their order and the end of the input after them, and
it comes to what its source does on a console that reads these lines; it does come to that, and no
read waits for ever, if nothing is put off for good. The loop that runs a program on a console with
all its input there is one such way to move. -/
theorem reads_input {s : System} (h : s.Reached) (hidle : s.session.isActive = false)
    (hrest : s.session.shared.console.AtRest) {job : Job} (hmode : job.mode = .normal)
    {lines : List String} (hlines : ∀ line ∈ lines, ∀ c ∈ line.toList, ' ' ≤ c ∧ c ≠ '\x7f') :
    (∀ ms, ((begin s job lines).moves ms).Heeds lines (brief s job)) ∧
    (∀ σ, Fair σ → (begin s job lines).Served lines (brief s job) σ) ∧
    ∀ d, Drive.start s.session job = .ok d → ∀ patience fuel, ∃ ms,
      ((begin s job lines).moves ms).conductor.Has (d.finish patience fuel lines).2.session
        (d.finish patience fuel lines).2.phase.stand := by
  have hprintable : ∀ line ∈ lines, ∀ c ∈ line.toList, Editor.isPrintable c = true := by
    intro line hline c hc
    simpa [Editor.isPrintable] using hlines line hline c hc
  have hgo := going_begin h hidle hrest hmode lines
  have hsettled : (begin s job lines).Settled := by
    intro o ho
    rw [begin, Conductor.stand_begin hidle] at ho
    cases ho
  refine ⟨fun ms => ?_, fun σ hσ => ⟨fun i run tracer r hw => ?_, fun fuel o done hdone => ?_⟩,
    fun d hd patience fuel => ?_⟩
  · obtain ⟨w, k, taken, hgo⟩ := hgo.moves hprintable ms
    exact hgo.heeds (hsettled.moves ms)
  · exact hgo.given_of_reads hprintable hσ hw
  · exact hgo.ends hprintable hσ hdone
  · obtain ⟨t, ⟨ms, rfl⟩, hhas⟩ :=
      (Drive.reaches_start h hidle hd lines).finish hprintable hgo patience fuel
    exact ⟨ms, hhas⟩

def turns (i : Nat) : Move :=
  match i % 3 with
  | 0 => .work
  | 1 => .drive
  | _ => .arrive

theorem fair_turns : Fair turns := by
  intro m i
  cases m with
  | work => exact ⟨3 * i, by omega, by simp [turns]⟩
  | drive => exact ⟨3 * i + 1, by omega, by simp [turns]⟩
  | arrive => exact ⟨3 * i + 2, by omega, by simp [turns]⟩

def echo : Job :=
  ⟨"print(input())\n", "<echo>", .normal⟩

def isGreeting : Option (Outcome × List Host.Interaction) → Bool
  | some (.completed, [.asked (.ok "hi"), .wrote "hi\n"]) => true
  | _ => false

theorem reads_input_echo :
    ∃ i, ((begin (.new 10 Hint.standard) echo ["hi"]).run turns i).conductor.stand =
        .ended .completed ∧
      ((begin (.new 10 Hint.standard) echo ["hi"]).run turns i).conductor.system.log.filterMap
        Note.did? = [.asked (.ok "hi"), .wrote "hi\n"] := by
  have hline : ∀ line ∈ ["hi"], ∀ c ∈ line.toList, ' ' ≤ c ∧ c ≠ '\x7f' := by
    simp
  have hserved := (reads_input (System.reached_new 10 Hint.standard) rfl Console.atRest_new
    (rfl : echo.mode = .normal) hline).2.1 turns fair_turns
  have hlisted : isGreeting ((brief (.new 10 Hint.standard) echo).listed ["hi"] 200) = true := by
    decide +kernel
  generalize hx : (brief (.new 10 Hint.standard) echo).listed ["hi"] 200 = x at hlisted
  unfold isGreeting at hlisted
  split at hlisted
  · exact hserved.ends 200 _ _ hx
  · cases hlisted

end Typist

end Stepwise
