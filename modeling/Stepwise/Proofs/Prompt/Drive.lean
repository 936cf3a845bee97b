import Stepwise.Prompt.Drive
import Stepwise.Proofs.Session.Conductor

/-! Runs that a decision answers and runs on a console are conducted runs. All that they do with
their session, in their own steps and between these, are moves of a conductor. So what is true of
a conductor after any moves is true of them. -/

namespace Stepwise

open Conductor (Move Stand)

/-- A conductor of this session, not in the middle of an answer. -/
structure Conductor.Has (c : Conductor) (s : Session) (stand : Stand) : Prop where
  session : c.system.session = s
  errand : c.system.errand = .none
  stand : c.stand = stand

def Conductor.Comes (c : Conductor) (s : Session) (stand : Stand) : Prop :=
  ∃ ms, (c.moves ms).Has s stand

namespace Conductor

variable {c : Conductor} {s s' s'' : Session} {stand stand' stand'' : Stand}

theorem Comes.refl (h : c.Has s stand) : c.Comes s stand :=
  ⟨[], h⟩

theorem Comes.single (m : Move) (h : (c.act m).Has s stand) : c.Comes s stand :=
  ⟨[m], h⟩

theorem Comes.of_moves {ms : List Move} (h : (c.moves ms).Comes s stand) : c.Comes s stand := by
  obtain ⟨ms', h⟩ := h
  exact ⟨ms ++ ms', by rwa [moves_append]⟩

theorem Comes.trans (h : c.Comes s stand)
    (h' : ∀ c : Conductor, c.Has s stand → c.Comes s' stand') : c.Comes s' stand' := by
  obtain ⟨ms, h⟩ := h
  exact (h' _ h).of_moves

theorem Has.interrupt (h : c.Has s stand) : c.Comes s.interrupt stand :=
  .single .interrupt ⟨congrArg Session.interrupt h.session, h.errand, h.stand⟩

theorem Has.terminal (h : c.Has s stand) (f : Console → Console) :
    c.Comes (s.mapConsole f) stand :=
  .single (.terminal f) ⟨congrArg (Session.mapConsole · f) h.session, h.errand, h.stand⟩

theorem Has.quit {p : Pause} (h : c.Has s (.choosing p)) : c.Comes s.interrupt .awaiting := by
  refine .single .quit ?_
  simp only [act, h.stand]
  exact ⟨congrArg Session.interrupt h.session, h.errand, rfl⟩

def Stand.ofPoll : Except SessionFault (Option SessionEvent × Session) → Stand
  | .error e => .failed e
  | .ok (none, _) => .awaiting
  | .ok (some (.paused p), _) => .choosing p
  | .ok (some (.terminated o), _) => .ended o

def polled (s : Session) : Session :=
  match s.poll with
  | .error _ => s
  | .ok (_, s) => s

theorem Has.act_look (h : c.Has s .awaiting) :
    (c.act .look).Has (polled s) (.ofPoll s.poll) := by
  simp only [act, h.stand]
  obtain ⟨rfl, herrand, hstand⟩ := h
  cases hevents : c.system.session.shared.events with
  | none =>
    simp only [Conductor.look, polled, Session.poll, hevents]
    exact ⟨rfl, herrand, rfl⟩
  | some events =>
    rw [look_eq hevents]
    cases events with
    | nil =>
      simp only [polled, Session.poll, hevents]
      exact ⟨rfl, herrand, hstand⟩
    | cons e rest =>
      have htaken := System.act_poll_eq herrand hevents
      cases e with
      | paused p | terminated o =>
        simp only [polled, Session.poll, hevents, htaken]
        exact ⟨rfl, herrand, rfl⟩

theorem Has.look (h : c.Has s .awaiting) : c.Comes (polled s) (.ofPoll s.poll) :=
  .single .look h.act_look

def Stand.ofResume : Except SessionFault Unit → Stand
  | .ok () => .awaiting
  | .error e => .failed e

theorem Has.answer {p : Pause} (h : c.Has s (.choosing p)) (d : Decision) :
    c.Comes (s.resume d).2 (.ofResume (s.resume d).1) := by
  obtain ⟨rfl, herrand, hstand⟩ := h
  cases hstate : c.system.session.state with
  | paused q =>
    have hask : c.act (.answer d) = ⟨c.system.asked q d, .answering⟩ := by
      simp only [act, hstand, Conductor.answer, hstate, System.act_resume_eq herrand hstate]
    have hresume (x : Except DebugFault Gate)
        (hx : c.system.session.shared.gate.resolve q.seq = x) :
        (c.system.asked q d).session.shared.gate.resolve q.seq = x := hx
    have herrand' : (c.system.asked q d).errand = .asking q d := rfl
    simp only [Session.resume, hstate]
    cases hg : c.system.session.shared.gate.resolve q.seq with
    | error e =>
      have hrefuse : Conductor.act ⟨c.system.asked q d, .answering⟩ .proceed =
          ⟨(c.system.asked q d).refused e, .failed (.debug e)⟩ := by
        simp only [act, Conductor.proceed, herrand', hresume _ hg,
          System.act_proceed_of_error herrand' (hresume _ hg)]
      refine ⟨[.answer d, .proceed], ?_⟩
      simp only [moves, List.foldl, hask, hrefuse]
      split
      · next e' he' =>
        cases (hresume _ hg).symm.trans he'
        exact ⟨rfl, rfl, rfl⟩
      · next gate he' => cases (hresume _ hg).symm.trans he'
    | ok gate =>
      have haccept : Conductor.act ⟨c.system.asked q d, .answering⟩ .proceed =
          ⟨(c.system.asked q d).accepted q d gate, .answering⟩ := by
        simp only [act, Conductor.proceed, herrand', hresume _ hg,
          System.act_proceed_of_ok herrand' (hresume _ hg)]
      refine ⟨[.answer d, .proceed, .proceed], ?_⟩
      simp only [moves, List.foldl, hask, haccept]
      split
      · next e' he' => cases (hresume _ hg).symm.trans he'
      · next gate' he' =>
        cases (hresume _ hg).symm.trans he'
        exact ⟨rfl, rfl, rfl⟩
  | idle | running | terminated =>
    refine .single (.answer d) ?_
    simp only [act, hstand, Conductor.answer, hstate, Session.resume]
    exact ⟨rfl, herrand, rfl⟩

theorem work_succ {b : Brief} {w : Worker} (hw : s.worker = some (b, w)) (stop : Shared → Bool)
    (fuel : Nat) : s.work stop (fuel + 1) =
      if stop s.shared || w.isIdle s.shared then s
      else
        { s with
          worker := some (b, (w.step b s.shared).1)
          shared := (w.step b s.shared).2 }.work stop fuel := by
  obtain ⟨limit, rules, files, state, shared, worker⟩ := s
  obtain rfl : worker = some (b, w) := hw
  simp only [Session.work, Worker.work]
  split <;> rfl

theorem work_of_none (hw : s.worker = none) (stop : Shared → Bool) (fuel : Nat) :
    s.work stop fuel = s := by
  obtain ⟨limit, rules, files, state, shared, worker⟩ := s
  obtain rfl : worker = none := hw
  rfl

theorem Has.moves_work (h : c.Has s stand) (stop : Shared → Bool) (fuel : Nat) :
    ∃ n, (c.moves (List.replicate n .work)).Has (s.work stop fuel) stand := by
  induction fuel generalizing c s with
  | zero =>
    refine ⟨0, h.session.trans ?_, h.errand, h.stand⟩
    unfold Session.work
    split <;> rfl
  | succ fuel ih =>
    cases hw : s.worker with
    | none =>
      rw [work_of_none hw]
      exact ⟨0, h⟩
    | some bw =>
      obtain ⟨b, w⟩ := bw
      rw [work_succ hw]
      split
      · exact ⟨0, h⟩
      · obtain ⟨rfl, herrand, hstand⟩ := h
        have hact : c.act .work = { c with system := c.system.worked b w } := by
          simp only [act, System.act, System.work, hw]
          rfl
        obtain ⟨n, hn⟩ := ih (c := c.act .work) (by rw [hact]; exact ⟨rfl, herrand, hstand⟩)
        exact ⟨n + 1, hn⟩

theorem Has.work (h : c.Has s stand) (stop : Shared → Bool) (fuel : Nat) :
    c.Comes (s.work stop fuel) stand :=
  (h.moves_work stop fuel).elim fun _ h => ⟨_, h⟩

theorem Has.conduct {σ : Type} (decide : Session → Pause → σ → Decision × σ) (patience fuel : Nat)
    (h : c.Has s .awaiting) (a : σ) :
    match s.conduct decide patience fuel a with
    | .error e => ∃ s', c.Comes s' (.failed e)
    | .ok (none, s', _) => c.Comes s' .awaiting
    | .ok (some o, s', _) => c.Comes s' (.ended o) := by
  induction fuel generalizing c s a with
  | zero => exact .refl h
  | succ fuel ih =>
    have hpolled := (h.work Shared.hasEvent patience).trans fun _ h => h.look
    simp only [Session.conduct, Session.await]
    unfold polled at hpolled
    generalize (s.work Shared.hasEvent patience).poll = x at hpolled
    match x with
    | .error e => exact ⟨_, hpolled⟩
    | .ok (none, s') => exact hpolled
    | .ok (some (.terminated o), s') => exact hpolled
    | .ok (some (.paused p), s') =>
      have hanswered := hpolled.trans fun _ h => h.answer (decide s' p a).1
      simp only
      generalize s'.resume (decide s' p a).1 = y at hanswered
      match y with
      | (.error e, s'') => exact ⟨_, hanswered⟩
      | (.ok (), s'') =>
        obtain ⟨ms, h''⟩ := hanswered
        have hrest := ih h'' (decide s' p a).2
        simp only
        generalize s''.conduct decide patience fuel (decide s' p a).2 = z at hrest
        match z with
        | .error e =>
          obtain ⟨s', hrest⟩ := hrest
          exact ⟨s', hrest.of_moves⟩
        | .ok (none, s', _) => exact hrest.of_moves
        | .ok (some o, s', _) => exact hrest.of_moves

theorem has_begin {s : System} (h : s.Reached) (hidle : s.session.isActive = false) {job : Job}
    {started : Session} (hstart : s.session.start job = .ok started) :
    (begin s job).Has started .awaiting := by
  have hbegin : s.session.start job = .ok (s.started job).session := if_neg (by simp [hidle])
  cases hbegin.symm.trans hstart
  simp only [begin, hbegin, System.act_start_eq (h.errand_of_not_active hidle) hidle]
  exact ⟨rfl, rfl, rfl⟩

/-- A run whose pauses are answered by a function of them ends with its session at its end, or it
fails by an answer that is refused. -/
theorem ends_of_conduct {σ : Type} {s : System} (h : s.Reached)
    (hidle : s.session.isActive = false) {job : Job} {started : Session}
    (hstart : s.session.start job = .ok started)
    (decide : Session → Pause → σ → Decision × σ) (patience fuel : Nat) (a : σ) :
    (∀ o s' a', started.conduct decide patience fuel a = .ok (some o, s', a') →
      s'.state = .terminated o) ∧
      ∀ e, started.conduct decide patience fuel a = .error e → e = .debug .noPendingPause := by
  have hconduct := (has_begin h hidle hstart).conduct decide patience fuel a
  have hsteady := steady_begin h hidle job
  refine ⟨fun o s' a' he => ?_, fun e he => ?_⟩
  · rw [he] at hconduct
    obtain ⟨ms, rfl, -, hstand⟩ := hconduct
    exact ((hsteady.moves ms).conducts.ended o hstand).1
  · rw [he] at hconduct
    obtain ⟨s', ms, -, -, hstand⟩ := hconduct
    exact ((hsteady.moves ms).conducts.failed e hstand).fault

end Conductor

namespace Drive

variable {c : Conductor} {d : Drive} {p : Pause}

/-- Where a controller stands at a phase. -/
def Phase.stand : Phase → Stand
  | .running => .awaiting
  | .prompting p => .choosing p
  | .over o => .ended o
  | .failed e => .failed e

def At (d : Drive) (c : Conductor) : Prop :=
  c.Has d.session d.phase.stand

def Conducted (d : Drive) (c : Conductor) : Prop :=
  c.Comes d.session d.phase.stand

theorem conducted_ask (h : c.Has d.session (.choosing p)) : (d.ask p).Conducted c := by
  simp only [ask]
  split
  · exact h.quit
  · exact .refl h

theorem conducted_resume (h : c.Has d.session (.choosing p)) (decision : Decision) :
    (d.resume decision).Conducted c := by
  have hanswered := h.answer decision
  unfold Conducted Drive.resume
  generalize d.session.resume decision = x at hanswered
  match x with
  | (.ok (), session) => exact hanswered
  | (.error e, session) => exact hanswered

theorem conducted_answer (h : c.Has d.session (.choosing p)) (line : Option String) :
    (d.answer p line).Conducted c := by
  unfold answer
  split
  · exact h.quit
  · split
    · exact conducted_resume h _
    · exact h.quit
    · exact conducted_ask h

theorem conducted_poll (h : d.At c) (hp : d.phase = .running) : d.poll.Conducted c := by
  have h : c.Has d.session .awaiting := by
    rw [At, hp] at h
    exact h
  have hlooked := h.look
  unfold Conductor.polled at hlooked
  unfold Conducted poll
  generalize d.session.poll = x at hlooked
  match x with
  | .error e => exact hlooked
  | .ok (none, session) =>
    simp only [hp]
    exact hlooked
  | .ok (some (.paused p), session) => exact hlooked.trans fun _ h => conducted_ask h
  | .ok (some (.terminated o), session) => exact hlooked

theorem conducted_type (h : d.At c) (line : Option String) : (d.type line).Conducted c := by
  cases line with
  | none => exact .refl h
  | some text => exact Conductor.Has.terminal h fun console => (console.feed text).feed "\r"

theorem conducted_give (h : d.At c) (line : Option String) : (d.give line).Conducted c := by
  unfold give
  split
  · next p hp =>
    rw [At, hp] at h
    exact conducted_answer h line
  · exact conducted_type h line

theorem conducted_notice (h : d.At c) : d.notice.Conducted c := by
  unfold notice
  split
  · next p hp =>
    split
    · rw [At, hp] at h
      exact h.quit
    · exact .refl h
  · exact .refl h

/-- What comes of a run on a console: its own steps, and between them steps of the program and
interrupts from elsewhere. -/
inductive Goes (d : Drive) : Drive → Prop
  | refl : Goes d d
  | work {d' : Drive} (h : Goes d d') (stop : Shared → Bool) (fuel : Nat) :
    Goes d { d' with session := d'.session.work stop fuel }
  | interrupt {d' : Drive} (h : Goes d d') : Goes d { d' with session := d'.session.interrupt }
  | poll {d' : Drive} (h : Goes d d') (hp : d'.phase = .running) : Goes d d'.poll
  | give {d' : Drive} (h : Goes d d') (line : Option String) : Goes d (d'.give line)
  | notice {d' : Drive} (h : Goes d d') : Goes d d'.notice
  | feed {d' : Drive} (h : Goes d d') (keys : String) :
    Goes d { d' with session := d'.session.mapConsole (·.feed keys) }

theorem Goes.step {d' : Drive} (h : d.Goes d') (patience : Nat) : d.Goes (d'.step patience) := by
  unfold Drive.step
  split
  · next hp =>
    have hworked := h.work Shared.hasEvent patience
    dsimp only
    split
    · exact hworked.feed endOfInput
    · exact hworked.poll hp
  · exact h

theorem Goes.finish {d' : Drive} (h : d.Goes d') (patience fuel : Nat) (lines : List String) :
    d.Goes (d'.finish patience fuel lines).2 := by
  induction fuel generalizing d' lines with
  | zero => exact h
  | succ fuel ih =>
    unfold Drive.finish
    split
    · exact h
    · exact h
    · split
      · exact ih (h.give lines.head?) lines.tail
      · exact ih (h.step patience) lines

theorem Goes.conducted {d' : Drive} (h : d.Goes d') (hd : d.At c) : d'.Conducted c := by
  induction h with
  | refl => exact .refl hd
  | work _ stop fuel ih => exact ih.trans fun _ h => h.work stop fuel
  | interrupt _ ih => exact ih.trans fun _ h => h.interrupt
  | poll _ hp ih => exact ih.trans fun _ h => conducted_poll h hp
  | give _ line ih => exact ih.trans fun _ h => conducted_give h line
  | notice _ ih => exact ih.trans fun _ h => conducted_notice h
  | feed _ keys ih => exact ih.trans fun _ h => Conductor.Has.terminal h (·.feed keys)

/-- A run on a console ends with its session at its end, or it fails by an answer that is refused,
with its session at the pause, whatever comes between its steps. -/
theorem Goes.ends {s : System} (h : s.Reached) (hidle : s.session.isActive = false) {job : Job}
    {d' : Drive} (hstart : Drive.start s.session job = .ok d) (hd : d.Goes d') :
    (∀ o, d'.phase = .over o → d'.session.state = .terminated o) ∧
      ∀ e, d'.phase = .failed e →
        e = .debug .noPendingPause ∧ ∃ p, d'.session.state = .paused p := by
  have hat : d.At (Conductor.begin s job) := by
    rw [Drive.start] at hstart
    cases hs : s.session.start job with
    | error e =>
      rw [hs] at hstart
      cases hstart
    | ok started =>
      rw [hs] at hstart
      cases hstart
      exact Conductor.has_begin h hidle hs
  obtain ⟨ms, hsession, herrand, hstand⟩ := hd.conducted hat
  have hsteady := (Conductor.steady_begin h hidle job).moves ms
  refine ⟨fun o hp => ?_, fun e hp => ?_⟩
  · rw [hp] at hstand
    rw [← hsession]
    exact (hsteady.conducts.ended o hstand).1
  · rw [hp] at hstand
    rw [← hsession]
    obtain ⟨hfault, ⟨p, hpause, -⟩, -⟩ := hsteady.conducts.failed e hstand
    exact ⟨hfault, p, hpause⟩

end Drive

end Stepwise
