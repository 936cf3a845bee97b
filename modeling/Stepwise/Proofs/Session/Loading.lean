import Stepwise.Proofs.Debug.RecordedGallery
import Stepwise.Proofs.Session.Latency
import Stepwise.Proofs.Session.Statements

/-! The value that a pause shows is the one that its instruction loads. Between the two moments
the run waits: others may answer the pause, interrupt the run and touch snapshots, which changes
pins and nothing that a name is looked up in. -/

namespace Stepwise

open Relation (ReflTransGen)

namespace Arena

variable {a b c : Arena} {id : FrameId} {f : Frame}

theorem Repinned.trans (h : a.Repinned b) (h' : b.Repinned c) : a.Repinned c := by
  induction h' with
  | refl => exact h
  | pin _ hc ih => exact ih.pin hc
  | unpin _ id ih => exact ih.unpin id

theorem Repinned.lookup (h : a.Repinned b) (hf : a.active? id = some f) (name : String) :
    b.lookup id name = a.lookup id name := by
  have hf' : b.active? id = some f := (h.active? id).trans hf
  rw [Arena.lookup, Arena.lookup, locals?_of_active? hf, locals?_of_active? hf', h.scopes.1,
    h.scopes.2]

end Arena

namespace Gallery

theorem repinned_release (g : Gallery) (s : Snapshot) : g.arena.Repinned (g.release s).arena := by
  unfold release
  split
  · exact .refl
  · exact .unpin .refl _

theorem repinned_touch (g : Gallery) (s : Snapshot) (t : Touch) :
    g.arena.Repinned (g.touch s t).arena := by
  cases t with
  | clone => exact .refl
  | release => exact g.repinned_release s
  | drop =>
    let dropped : Gallery :=
      ⟨g.arena, g.pinnings.modify s.key fun p => { p with handles := p.handles - 1 }⟩
    change g.arena.Repinned (if _ then dropped.release s else dropped).arena
    split
    · exact dropped.repinned_release s
    · exact .refl

/-- What is looked up through a snapshot is looked up in its frame, while that is in use. -/
theorem lookup_of_active? {g : Gallery} {s : Snapshot} {f : Frame}
    (hf : g.arena.active? s.frame = some f) (hopen : g.isReleased s = false) (name : String) :
    g.lookup s name = .ok (g.arena.lookup s.frame name) := by
  rw [lookup, guarded, hopen, Arena.isLive_of_active? hf]
  rfl

end Gallery

namespace Tracer

variable {t t' : Tracer} {event : TraceEvent} {interrupted : Bool} {a : Activation} {arena : Arena}

theorem rules_consider (t : Tracer) (event : TraceEvent) (interrupted : Bool) (a : Activation)
    (arena : Arena) : (t.consider event interrupted a arena).2.rules = t.rules := by
  obtain ⟨last, h⟩ := t.consider_snd event interrupted a arena
  rw [h]

theorem hint_of_offer {highlight : Range} {hint : Hint}
    (h : t.consider event interrupted a arena = (.offer highlight hint, t')) :
    ∃ i, a.chunk.instrAt? a.lasti = some i ∧
      hint = (t.rules i.op).loaded i a.chunk (arena.lookup a.frame) := by
  obtain ⟨rfl, rfl⟩ := of_offer h
  cases ho : Instant.offer? t ⟨a, arena⟩ with
  | none =>
    rw [consider_of_none ho] at h
    cases h
  | some o =>
    rw [consider_of_some ho] at h
    split at h <;> cases h
    unfold Instant.offer? at ho
    dsimp only at ho
    split at ho
    · obtain ⟨i, hi, ho⟩ := Option.bind_eq_some_iff.1 ho
      split at ho
      · cases ho
      · obtain ⟨range, -, rfl⟩ := Option.map_eq_some_iff.1 ho
        exact ⟨i, hi, rfl⟩
    · cases ho

end Tracer

/-- The pause is at the instruction that the run has come to, with the value that it loads by the
rules. -/
structure Pause.Tells (rules : Hint.Rules) (run : Run) (p : Pause) : Prop where
  phase : run.phase = .opcode
  frame : p.snapshot.frame = run.current.frame
  hint : ∃ i, run.current.chunk.code[run.current.pc]? = some i ∧
    p.hint = (rules i.op).loaded i run.current.chunk (run.machine.arena.lookup run.current.frame)

theorem Run.Upright.exists_active? {run : Run} (h : run.Upright) (hp : run.phase = .opcode) :
    ∃ f, run.machine.arena.active? run.current.frame = some f := by
  obtain ⟨f, hf, -⟩ := (h.running (by simp [hp])).head
  exact ⟨f, hf⟩

theorem Pause.Tells.repinned {rules : Hint.Rules} {run : Run} {p : Pause} {a : Arena}
    (h : p.Tells rules run) (hup : run.Upright) (ha : run.machine.arena.Repinned a) :
    p.Tells rules (run.withArena a) := by
  obtain ⟨f, hf⟩ := hup.exists_active? h.phase
  obtain ⟨i, hi, hhint⟩ := h.hint
  refine ⟨h.phase, h.frame, i, hi, ?_⟩
  rw [hhint, ← funext (ha.lookup hf)]
  rfl

namespace Worker

variable {b : Brief} {w w' : Worker} {run : Run} {t : Tracer} {s : Shared}

structure Has (b : Brief) (run : Run) (t : Tracer) : Prop where
  upright : run.Upright
  fetches : run.Fetches
  rules : t.rules = b.rules

def Tells (b : Brief) : Worker → Prop
  | running run t => Has b run t
  | suspended run t p _ => Has b run t ∧ p.Tells b.rules run
  | reading run t _ => Has b run t ∧ run.phase = .read
  | _ => True

theorem Has.repinned (h : Has b run t) {a : Arena} (ha : run.machine.arena.Repinned a) :
    Has b (run.withArena a) t :=
  ⟨h.upright.repinned ha, h.fetches, h.rules⟩

theorem Has.control (h : Has b run t) (hr : ∀ ending, run.phase ≠ .ended ending) (c : Control) :
    Has b (run.control c) t :=
  ⟨h.upright.control hr c, h.fetches.control c, h.rules⟩

theorem Has.shown (h : Has b run t) (hr : ∀ ending, run.phase ≠ .ended ending) :
    Has b run.shown t := by
  refine ⟨h.upright.shown hr, ?_, h.rules⟩
  unfold Run.shown
  split <;> exact .of_ne nofun nofun

theorem Has.polled (h : Has b run t) (hr : ∀ ending, run.phase ≠ .ended ending)
    (interrupted : Bool) : Has b (run.polled interrupted) t := by
  refine ⟨h.upright.polled hr interrupted, ?_, h.rules⟩
  unfold Run.polled
  split <;> exact .of_ne nofun nofun

theorem Has.received (h : Has b run t) (hr : ∀ ending, run.phase ≠ .ended ending)
    (line : Except Unwind String) : Has b (run.received line) t := by
  refine ⟨h.upright.received hr line, ?_, h.rules⟩
  cases line <;> exact .of_ne nofun nofun

theorem tells_load (b : Brief) : (load b).Tells b := by
  unfold load
  split
  · trivial
  · next chunk _ =>
    exact ⟨.start (m := { Machine.new b.recursionLimit 1 with tracing := b.job.mode = .debug })
      (.new _) rfl chunk, .of_ne nofun nofun, rfl⟩

theorem tells_offer {aux : Option Value} (hn : run.need = .control .opcode aux) (h : Has b run t)
    {i : Code.Instr} (hi : run.current.chunk.instrAt? run.current.lasti = some i)
    {highlight : Range} {p : Pause} {g : Gallery} {t' : Tracer}
    (hp : t.pauseAt highlight ((b.rules i.op).loaded i run.current.chunk
      (run.machine.arena.lookup run.current.frame)) run.current ⟨run.machine.arena, s.pinnings⟩ =
        .ok (p, g, t')) :
    Tells b (.suspended (run.withArena g.arena) t' p .arriving) := by
  have hphase := Run.phase_of_need_opcode hn
  obtain ⟨arena, hpin, rfl, rfl, rfl⟩ := Tracer.of_pauseAt hp
  have hrepinned : run.machine.arena.Repinned arena := .pin .refl hpin
  rw [(h.fetches (.inr hphase)).instrAt?_eq] at hi
  have h' := h.repinned hrepinned
  refine ⟨⟨h'.upright, h'.fetches, h.rules⟩, Pause.Tells.repinned ?_ h.upright hrepinned⟩
  exact ⟨hphase, rfl, i, hi, rfl⟩

theorem tells_move (h : Has b run t) : (move b run t s).1.Tells b := by
  unfold move
  split
  · exact ⟨h.upright.advance, h.fetches.advance, h.rules⟩
  · next event aux hn =>
    obtain ⟨-, -, hr⟩ := Run.of_need_control hn
    have hrules := t.rules_consider event s.cell.isSet run.current run.machine.arena
    split
    · next c t' hc =>
      rw [hc] at hrules
      exact (⟨h.upright, h.fetches, hrules.trans h.rules⟩ : Has b run t').control hr c
    · next highlight hint t' hc =>
      rw [hc] at hrules
      have h' : Has b run t' := ⟨h.upright, h.fetches, hrules.trans h.rules⟩
      split
      · exact h'.control hr _
      · next p g t'' hp =>
        obtain ⟨rfl, -⟩ := Tracer.of_offer hc
        obtain ⟨i, hi, rfl⟩ := Tracer.hint_of_offer hc
        rw [h.rules] at hp
        exact tells_offer hn h' hi hp
  · next hn => exact h.polled (by simp [Run.phase_of_need_cell hn]) _
  · next hn =>
    obtain ⟨thenRead, hp⟩ := Run.phase_of_need_write hn
    exact h.shown (by simp [hp])
  · next hn => exact h.shown (by simp [Run.phase_of_need_clear hn])
  · next hn => exact ⟨h, Run.phase_of_need_line hn⟩
  · trivial

theorem tells_wait {p : Pause} {wait : Suspension} (h : Has b run t ∧ p.Tells b.rules run) :
    (Worker.wait run t p wait s).1.Tells b := by
  cases wait with
  | left result =>
    refine (h.1.repinned (Gallery.repinned_release ⟨run.machine.arena, s.pinnings⟩ _)).control ?_ _
    simp [Run.withArena, h.2.phase]
  | _ => exact h

theorem tells_read {r : Reader} (h : Has b run t ∧ run.phase = .read) :
    (Worker.read run t r s).1.Tells b := by
  unfold Worker.read
  split
  · exact h.1.received (by simp [h.2]) _
  · exact h

theorem Tells.step (h : w.Tells b) (s : Shared) : (w.step b s).1.Tells b := by
  cases w with
  | loading => exact tells_load b
  | running run t => exact tells_move h
  | suspended run t p wait => exact tells_wait h
  | reading run t r => exact tells_read h
  | concluding arena o => cases o <;> trivial
  | announcing | finished => trivial

inductive Aside (w : Worker) : Worker → Prop
  | same : Aside w w
  | pins {arena : Arena} (h : w.arena.Repinned arena) : Aside w (w.withArena arena)
  | mail (d : Decision) : Aside w (w.deliver d)

theorem Aside.tells (h : w.Aside w') (hw : w.Tells b) : w'.Tells b := by
  cases h with
  | same => exact hw
  | pins ha =>
    cases w with
    | running run t => exact hw.repinned ha
    | suspended run t p wait => exact ⟨hw.1.repinned ha, hw.2.repinned hw.1.upright ha⟩
    | reading run t r => exact ⟨hw.1.repinned ha, hw.2⟩
    | _ => trivial
  | mail d => cases w <;> exact hw

end Worker

namespace Run

def Fails (r : Run) : Prop :=
  ∃ u, r.phase = .leave (.error u) ∨ r.phase = .ended (.error u)

theorem Fails.advance {r : Run} (h : r.Fails) : r.advance.Fails := by
  obtain ⟨u, h | h⟩ := h
  · rw [Run.advance, h]
    rcases leave_error_phase r u with ⟨v, hv⟩ | ⟨v, hv⟩
    · exact ⟨v, .inl hv⟩
    · exact ⟨v, .inr hv⟩
  · rw [Run.advance, h]
    exact ⟨u, .inr h⟩

theorem Fails.phase_ne {r : Run} (h : r.Fails) :
    r.phase ≠ .opcode ∧ r.phase ≠ .poll ∧ r.phase ≠ .read ∧ r.phase ≠ .clear ∧
      ∀ text thenRead, r.phase ≠ .write text thenRead := by
  obtain ⟨u, h | h⟩ := h <;> simp [h]

structure Still (old run : Run) : Prop where
  current : run.current = old.current
  arena : old.machine.arena.Repinned run.machine.arena

variable {r run : Run}

theorem Still.repinned (h : r.Still run) {a : Arena} (ha : run.machine.arena.Repinned a) :
    r.Still (run.withArena a) :=
  ⟨h.current, h.arena.trans ha⟩

theorem Still.withPhase (h : r.Still run) (phase : Phase) : r.Still (run.withPhase phase) :=
  ⟨h.current, h.arena⟩

theorem Still.control (h : r.Still run) (hp : run.phase = .opcode) (c : Control) :
    (run.control c).Fails ∨ r.Still (run.control c) ∧ (run.control c).phase = .poll := by
  cases c with
  | proceed =>
    rw [control_proceed, advance, hp]
    exact .inr ⟨h.withPhase .poll, rfl⟩
  | untrace =>
    rw [control_untrace, advance_quieted, advance, hp]
    exact .inr ⟨⟨h.current, h.arena⟩, rfl⟩
  | cancel => exact .inl ⟨.cancelled, .inl (by simp [Run.control, hp, fail, Run.withPhase])⟩
  | abort reason => exact .inl ⟨.fault reason, .inl (by simp [Run.control, hp, fail, Run.withPhase])⟩

end Run

namespace Worker

variable {b : Brief} {w w' : Worker} {run r : Run} {t : Tracer} {s : Shared} {i : Code.Instr}

def Leaves : Worker → Prop
  | running run _ => run.Fails
  | concluding _ _ | announcing _ _ | finished _ => True
  | _ => False

inductive Awaits (r : Run) : Worker → Prop
  | paused {run : Run} {t : Tracer} {p : Pause} {wait : Suspension} (h : r.Still run)
      (hp : run.phase = .opcode) : Awaits r (suspended run t p wait)
  | polls {run : Run} {t : Tracer} (h : r.Still run) (hp : run.phase = .poll) :
      Awaits r (running run t)
  | executes {run : Run} {t : Tracer} (h : r.Still run) (hp : run.phase = .execute) :
      Awaits r (running run t)
  | leaves {w : Worker} (h : w.Leaves) : Awaits r w

theorem leaves_move (h : run.Fails) : (move b run t s).1.Leaves := by
  obtain ⟨hopcode, hpoll, hread, hclear, hwrite⟩ := h.phase_ne
  unfold move
  split
  · exact h.advance
  · next event aux hn =>
    obtain ⟨-, ⟨-, hp⟩ | ⟨hne, -⟩, -⟩ := Run.of_need_control hn
    · exact (hopcode hp).elim
    · rw [Tracer.consider_of_ne hne]
      dsimp only
      rw [Run.control_proceed]
      exact h.advance
  · next hn => exact (hpoll (Run.phase_of_need_cell hn)).elim
  · next hn =>
    obtain ⟨thenRead, hp⟩ := Run.phase_of_need_write hn
    exact (hwrite _ _ hp).elim
  · next hn => exact (hclear (Run.phase_of_need_clear hn)).elim
  · next hn => exact (hread (Run.phase_of_need_line hn)).elim
  · trivial

theorem Leaves.step (h : w.Leaves) (s : Shared) : (w.step b s).1.Leaves := by
  cases w with
  | running run t => exact leaves_move h
  | concluding arena o => cases o <;> trivial
  | announcing arena o | finished arena => trivial
  | loading | suspended | reading => exact h.elim

theorem Aside.leaves (h : w.Aside w') (hw : w.Leaves) : w'.Leaves := by
  cases h with
  | same => exact hw
  | pins ha => cases w <;> exact hw
  | mail d => cases w <;> exact hw

theorem Aside.awaits (h : w.Aside w') (hw : w.Awaits r) : w'.Awaits r := by
  cases hw with
  | leaves hw => exact .leaves (h.leaves hw)
  | paused hr hp =>
    cases h with
    | same | mail d => exact .paused hr hp
    | pins ha => exact .paused (hr.repinned ha) hp
  | polls hr hp =>
    cases h with
    | same | mail d => exact .polls hr hp
    | pins ha => exact .polls (hr.repinned ha) hp
  | executes hr hp =>
    cases h with
    | same | mail d => exact .executes hr hp
    | pins ha => exact .executes (hr.repinned ha) hp

theorem awaits_wait {p : Pause} {wait : Suspension} (h : r.Still run) (hp : run.phase = .opcode) :
    (Worker.wait run t p wait s).1.Awaits r := by
  cases wait with
  | left result =>
    have hr := h.repinned (Gallery.repinned_release ⟨run.machine.arena, s.pinnings⟩ p.snapshot)
    obtain hfails | ⟨hstill, hphase⟩ := hr.control hp (Tracer.answer result)
    · exact .leaves hfails
    · exact .polls hstill hphase
  | _ => exact .paused h hp

theorem Awaits.still_of_execute (h : (Worker.running run t).Awaits r) (hp : run.phase = .execute) :
    r.Still run := by
  cases h with
  | executes h _ => exact h
  | polls _ hp' => cases hp.symm.trans hp'
  | leaves h =>
    obtain ⟨u, h | h⟩ := h
    · cases hp.symm.trans h
    · cases hp.symm.trans h

theorem Awaits.step (h : w.Awaits r) (hi : r.current.chunk.code[r.current.pc]? = some i)
    (b : Brief) (s : Shared) :
    (w.step b s).1.Awaits r ∨ ∃ depth, .executed i depth ∈ w.notes s := by
  cases h with
  | leaves h => exact .inl (.leaves (h.step s))
  | paused h hp => exact .inl (awaits_wait h hp)
  | @polls run t h hp =>
    have hn : run.need = .cell := by rw [Run.need, hp]
    simp only [Worker.step, move, hn, Run.polled]
    split
    · exact .inl (.leaves ⟨.cancelled, .inl rfl⟩)
    · exact .inl (.executes (h.withPhase .execute) rfl)
  | @executes run t h hp =>
    have hn : run.need = .nothing := by rw [Run.need, hp]
    refine .inr ⟨run.height, ?_⟩
    simp only [notes, hn, Run.executedNotes, hp, h.current, hi]
    exact List.mem_append_left _ (List.mem_singleton_self _)

end Worker

namespace System

/-- One thing that happens while a run goes on: an action other than the start of a run, or a call
of the controller on a snapshot that it holds. -/
inductive Happens (s : System) : System → Prop
  | act {a : Action} (ha : ∀ job, a ≠ .start job) : Happens s (s.act a)
  | touch (k : Snapshot) (t : Touch) :
    Happens s { s with session := s.session.withGallery (s.session.gallery.touch k t) }

/-- What may come of a session, whatever its controller does with snapshots. -/
inductive Used : System → Prop
  | new (limit : Nat) (rules : Hint.Rules) : Used (new limit rules)
  | start {s : System} (h : Used s) (job : Job) : Used (s.act (.start job))
  | happens {s s' : System} (h : Used s) (hs : Happens s s') : Used s'

theorem Reached.used {s : System} (h : s.Reached) : s.Used := by
  refine h.induction .new fun s a hs => ?_
  by_cases ha : ∃ job, a = .start job
  · obtain ⟨job, rfl⟩ := ha
    exact hs.start job
  · exact hs.happens (.act fun job he => ha ⟨job, he⟩)

variable {s s' : System} {b : Brief} {w w' : Worker}

theorem aside_withGallery {session : Session} {g : Gallery}
    (hg : session.gallery.arena.Repinned g.arena)
    (h : (session.withGallery g).worker = some (b, w')) :
    ∃ w, session.worker = some (b, w) ∧ w.Aside w' := by
  obtain ⟨⟨b, w⟩, hw, he⟩ := Option.map_eq_some_iff.1 h
  cases he
  refine ⟨w, hw, .pins ?_⟩
  rwa [Session.gallery, hw] at hg

theorem aside_act {a : Action} (hstart : ∀ job, a ≠ .start job) (hwork : a ≠ .work)
    (h : (s.act a).session.worker = some (b, w')) :
    ∃ w, s.session.worker = some (b, w) ∧ w.Aside w' := by
  cases a with
  | start job => exact (hstart job rfl).elim
  | work => exact (hwork rfl).elim
  | poll =>
    obtain he | ⟨e, rest, -, -, he⟩ := s.act_poll
    · rw [he] at h
      exact ⟨w', h, .same⟩
    · rw [he] at h
      cases e <;> exact ⟨w', h, .same⟩
  | resume d =>
    obtain he | ⟨p, -, -, he⟩ := s.act_resume d
    · rw [he] at h
      exact ⟨w', h, .same⟩
    · rw [he] at h
      exact aside_withGallery (Gallery.repinned_release _ _) h
  | proceed =>
    obtain he | ⟨p, d, e, -, -, he⟩ | ⟨p, d, gate, -, -, he⟩ | ⟨p, d, -, he⟩ :=
      s.act_proceed <;> rw [he] at h
    · exact ⟨w', h, .same⟩
    · exact ⟨w', h, .same⟩
    · exact ⟨w', h, .same⟩
    · obtain ⟨⟨b, w⟩, hw, he⟩ := Option.map_eq_some_iff.1 h
      cases he
      exact ⟨w, hw, .mail d⟩
  | interrupt | terminal f => exact ⟨w', h, .same⟩

theorem Happens.cases (h : s.Happens s') (hw' : s'.session.worker = some (b, w')) :
    ∃ w, s.session.worker = some (b, w) ∧
      (s' = s.worked b w ∨ w.Aside w' ∧ ∃ notes, s'.log = s.log ++ notes) := by
  cases h with
  | touch k t =>
    obtain ⟨w, hw, haside⟩ := aside_withGallery (Gallery.repinned_touch _ k t) hw'
    exact ⟨w, hw, .inr ⟨haside, [], (List.append_nil _).symm⟩⟩
  | @act a ha =>
    by_cases hwork : a = .work
    · subst hwork
      obtain he | ⟨b', w, hw, he⟩ := s.act_work
      · rw [he] at hw' ⊢
        exact ⟨w', hw', .inr ⟨.same, [], (List.append_nil _).symm⟩⟩
      · rw [he] at hw' ⊢
        cases hw'
        exact ⟨w, hw, .inl rfl⟩
    · obtain ⟨notes, hlog, -⟩ := log_outside (s := s) ha hwork
      obtain ⟨w, hw, haside⟩ := aside_act ha hwork hw'
      exact ⟨w, hw, .inr ⟨haside, notes, hlog⟩⟩

theorem Used.tells (h : s.Used) (hw : s.session.worker = some (b, w)) : w.Tells b := by
  induction h generalizing b w with
  | new => cases hw
  | @start s hs job ih =>
    obtain he | ⟨-, he⟩ := s.act_start job
    · rw [he] at hw
      exact ih hw
    · rw [he] at hw
      cases hw
      trivial
  | @happens s s' hs hstep ih =>
    obtain ⟨w₀, hw₀, rfl | ⟨haside, -⟩⟩ := hstep.cases hw
    · cases hw
      exact (ih hw₀).step _
    · exact haside.tells (ih hw₀)

theorem awaits_of_happens {r : Run} {i : Code.Instr} (hs : ReflTransGen Happens s s')
    (hw : s.session.worker = some (b, w)) (h : w.Awaits r)
    (hi : r.current.chunk.code[r.current.pc]? = some i) {b' : Brief}
    (hw' : s'.session.worker = some (b', w')) :
    ∃ notes, s'.log = s.log ++ notes ∧ (w'.Awaits r ∨ ∃ depth, .executed i depth ∈ notes) := by
  induction hs generalizing b' w' with
  | refl =>
    cases hw.symm.trans hw'
    exact ⟨[], (List.append_nil _).symm, .inl h⟩
  | tail _ hstep ih =>
    obtain ⟨w₁, hw₁, hmoved⟩ := hstep.cases hw'
    obtain ⟨notes, hlog, hnow⟩ := ih hw₁
    rcases hmoved with rfl | ⟨haside, more, hmore⟩
    · cases hw'
      refine ⟨notes ++ w₁.notes _, by rw [worked, hlog, List.append_assoc], ?_⟩
      rcases hnow with hnow | ⟨depth, hdepth⟩
      · refine (hnow.step hi b' _).imp_right fun ⟨depth, hdepth⟩ => ⟨depth, ?_⟩
        exact List.mem_append_right _ hdepth
      · exact .inr ⟨depth, List.mem_append_left _ hdepth⟩
    · refine ⟨notes ++ more, by rw [hmore, hlog, List.append_assoc], ?_⟩
      rcases hnow with hnow | ⟨depth, hdepth⟩
      · exact .inl (haside.awaits hnow)
      · exact .inr ⟨depth, List.mem_append_left _ hdepth⟩

end System

namespace Run

variable {r next : Run} {i : Code.Instr} {hint : Hint}

def Pushes (r next : Run) (v : Value) : Prop :=
  next.phase = .fetch ∧ next.current.stack = v :: r.current.stack

/-- The instruction fails: its operand is out of range, or names nothing that there is. -/
def Refuses (r next : Run) (i : Code.Instr) : Prop :=
  next.phase = .leave (.error (badOperand i)) ∨
    ∃ name, r.current.chunk.names[i.arg]? = some name ∧
      next.phase = .leave (.error (.raise (.unbound name)))

def Obeys (r next : Run) (i : Code.Instr) : Hint → Prop
  | some v => r.Pushes next v
  | none => r.Refuses next i

theorem Pushes.not_refuses {v : Value} (h : r.Pushes next v) : ¬r.Refuses next i := by
  rintro (h' | ⟨name, -, h'⟩) <;> cases h.1.symm.trans h'

theorem Obeys.pushes_iff (h : r.Obeys next i hint) (v : Value) :
    hint = some v ↔ r.Pushes next v := by
  constructor
  · rintro rfl
    exact h
  · intro hv
    cases hint with
    | none => exact (hv.not_refuses h).elim
    | some w => rw [(List.cons.inj (h.2.symm.trans hv.2)).1]

theorem Obeys.refuses_iff (h : r.Obeys next i hint) : hint = none ↔ r.Refuses next i := by
  constructor
  · rintro rfl
    exact h
  · intro hr
    cases hint with
    | none => rfl
    | some v => exact (Pushes.not_refuses h hr).elim

theorem obeys_advance (hp : r.phase = .execute)
    (hi : r.current.chunk.code[r.current.pc]? = some i)
    (hop : i.op = .loadConst ∨ i.op = .loadName) :
    r.Obeys r.advance i ((Hint.standard i.op).loaded i r.current.chunk
      (r.machine.arena.lookup r.current.frame)) := by
  rw [advance, hp]
  dsimp only
  rw [executeFetched_of_some hi]
  obtain ⟨op, arg⟩ := i
  rcases hop with hop | hop
  · obtain rfl : op = .loadConst := hop
    simp only [Hint.standard, Hint.Rule.loaded, execute, stepped]
    cases r.current.chunk.constants[arg]? with
    | none => exact .inl rfl
    | some v => exact ⟨rfl, rfl⟩
  · obtain rfl : op = .loadName := hop
    simp only [Hint.standard, Hint.Rule.loaded, execute, stepped]
    cases hname : r.current.chunk.names[arg]? with
    | none => exact .inl rfl
    | some name =>
      simp only [Option.bind_some]
      cases r.machine.arena.lookup r.current.frame name with
      | none => exact .inr ⟨name, hname, rfl⟩
      | some v => exact ⟨rfl, rfl⟩

end Run

namespace System

/-- The value that a pause at a load shows is what a lookup of the name through its snapshot gives,
as long as that is not released. Once the run was let go on and comes to execute the instruction,
it is what the instruction pushes, and there is none exactly if the instruction fails, for its
operand or for a name that is not bound. What the controller did meanwhile plays no part. -/
theorem hint_loaded {s : System} (hs : s.Used) {b : Brief} {run : Run} {t : Tracer} {p : Pause}
    {wait : Suspension} (hw : s.session.worker = some (b, .suspended run t p wait))
    (hrules : b.rules = Hint.standard) {i : Code.Instr}
    (hi : run.current.chunk.code[run.current.pc]? = some i)
    (hop : i.op = .loadConst ∨ i.op = .loadName) :
    (∀ name, i.op = .loadName → run.current.chunk.names[i.arg]? = some name →
      s.session.gallery.isReleased p.snapshot = false →
      s.session.gallery.lookup p.snapshot name = .ok p.hint) ∧
    ∀ s' notes b' run' t', ReflTransGen Happens s s' → s'.log = s.log ++ notes →
      (∀ n ∈ notes, n.isExecuted = false) →
      s'.session.worker = some (b', .running run' t') → run'.phase = .execute →
      ∃ next, (s'.act .work).session.worker = some (b', .running next t') ∧
        run'.current = run.current ∧ (∀ v, p.hint = some v ↔ run'.Pushes next v) ∧
        (p.hint = none ↔ run'.Refuses next i) := by
  obtain ⟨hhas, htells⟩ := hs.tells hw
  obtain ⟨f, hf⟩ := hhas.upright.exists_active? htells.phase
  obtain ⟨j, hj, hhint⟩ := htells.hint
  cases hi.symm.trans hj
  rw [hrules] at hhint
  refine ⟨fun name hname hoperand hopen => ?_, ?_⟩
  · have hgallery : s.session.gallery.arena = run.machine.arena := by
      rw [Session.gallery, hw]
      rfl
    have hactive : s.session.gallery.arena.active? p.snapshot.frame = some f := by
      rw [hgallery, htells.frame, hf]
    rw [Gallery.lookup_of_active? hactive hopen, hgallery, htells.frame, hhint, hname]
    simp only [Hint.standard, Hint.Rule.loaded, hoperand, Option.bind_some]
  · intro s' notes b' run' t' hgo hlog hnone hw' hp'
    have hawaits : (Worker.suspended run t p wait).Awaits run :=
      .paused ⟨rfl, .refl⟩ htells.phase
    obtain ⟨notes', hlog', hnow⟩ := awaits_of_happens hgo hw hawaits hi hw'
    obtain rfl : notes' = notes := List.append_cancel_left (hlog'.symm.trans hlog)
    have hstill : run.Still run' := by
      rcases hnow with hnow | ⟨depth, hdepth⟩
      · exact hnow.still_of_execute hp'
      · cases hnone _ hdepth
    refine ⟨run'.advance, ?_, hstill.current, ?_⟩
    · have hn : run'.need = .nothing := by rw [Run.need, hp']
      rw [act_work_eq hw']
      simp only [worked, Worker.step, Worker.move, hn]
    · have hobeys : run'.Obeys run'.advance i p.hint := by
        have h := Run.obeys_advance hp' (by rw [hstill.current, hi]) hop
        rw [hstill.current, funext (hstill.arena.lookup hf), ← hhint] at h
        exact h
      exact ⟨hobeys.pushes_iff, hobeys.refuses_iff⟩

theorem happens_acts (s : System) {as : List Action} (ha : ∀ job, .start job ∉ as) :
    ReflTransGen Happens s (s.acts as) := by
  induction as generalizing s with
  | nil => exact .refl
  | cons a as ih =>
    refine .head (.act fun job he => ha job (he ▸ List.mem_cons_self)) (ih (s.act a) ?_)
    exact fun job hmem => ha job (List.mem_cons_of_mem _ hmem)

def stopped : System :=
  (launched 10 Hint.standard (product .debug)).acts (List.replicate 20 .work)

def released : List Action :=
  [.poll, .resume .continueStepping, .proceed, .proceed] ++ List.replicate 5 .work

def showsName (name text : String) : Worker → Bool
  | .suspended run _ p _ =>
    p.hint.text == text && run.current.chunk.code[run.current.pc]?.any fun i =>
      i.op == .loadName && run.current.chunk.names[i.arg]? == some name
  | _ => false

theorem of_showsName {name text : String} (h : showsName name text w = true) :
    ∃ run t p wait i, w = .suspended run t p wait ∧ p.hint.text = text ∧
      run.current.chunk.code[run.current.pc]? = some i ∧ i.op = .loadName ∧
      run.current.chunk.names[i.arg]? = some name := by
  cases w with
  | suspended run t p wait =>
    simp only [showsName, Bool.and_eq_true, beq_iff_eq, Option.any_eq_true] at h
    obtain ⟨htext, i, hi, hop, hname⟩ := h
    exact ⟨run, t, p, wait, i, rfl, htext, hi, hop, hname⟩
  | _ => cases h

def isExecuting : Worker → Bool
  | .running ⟨_, _, _, .execute⟩ _ => true
  | _ => false

theorem of_isExecuting (h : isExecuting w = true) :
    ∃ run t, w = .running run t ∧ run.phase = .execute := by
  unfold isExecuting at h
  split at h
  · exact ⟨_, _, rfl, rfl⟩
  · cases h

theorem reached_stopped : stopped.Reached :=
  (reached_launched 10 Hint.standard (product .debug)).acts _

theorem worker_stopped : ∃ w, stopped.session.worker =
    some (⟨product .debug, .insert .empty "<product>" (product .debug).source, Hint.standard, 10⟩,
      w) :=
  worker_acts (worker_launched 10 Hint.standard (product .debug)) (by simp)

theorem hint_loaded_print :
    ∃ b run t p wait run' t' next v,
      stopped.session.worker = some (b, .suspended run t p wait) ∧
      p.hint = some v ∧ v.repr = "<built-in function print>" ∧
      stopped.session.gallery.lookup p.snapshot "print" = .ok (some v) ∧
      (stopped.acts released).session.worker = some (b, .running run' t') ∧
      ((stopped.acts released).act .work).session.worker = some (b, .running next t') ∧
      run'.Pushes next v := by
  have hstart : ∀ job, Action.start job ∉ released := by simp [released]
  obtain ⟨w, hw⟩ := worker_stopped
  have hshows : (stopped.session.worker.any fun w =>
      showsName "print" "<built-in function print>" w.2) = true := by decide +kernel
  rw [hw, Option.any_some] at hshows
  obtain ⟨run, t, p, wait, i, rfl, htext, hi, hop, hname⟩ := of_showsName hshows
  obtain ⟨w', hw'⟩ := worker_acts hw hstart
  have hexecutes : ((stopped.acts released).session.worker.any fun w => isExecuting w.2) = true := by
    decide +kernel
  rw [hw', Option.any_some] at hexecutes
  obtain ⟨run', t', rfl, hphase⟩ := of_isExecuting hexecutes
  have hopen : (stopped.pause?.any fun p => !stopped.session.gallery.isReleased p.snapshot) = true := by
    decide +kernel
  rw [pause?, hw, Option.bind_some, Worker.pause?, Option.any_some, Bool.not_eq_true'] at hopen
  have hgo := happens_acts stopped hstart
  have hphase₀ := (reached_stopped.used.tells hw).2.phase
  obtain ⟨notes, hlog, -⟩ := awaits_of_happens hgo hw (.paused ⟨rfl, .refl⟩ hphase₀) hi hw'
  have hnone : ((stopped.acts released).log.drop stopped.log.length).all
      (fun n => !n.isExecuted) = true := by decide +kernel
  rw [hlog, List.drop_left, List.all_eq_true] at hnone
  obtain ⟨hlookup, hpushes⟩ := hint_loaded reached_stopped.used hw rfl hi (.inr hop)
  obtain ⟨next, hnext, -, hpushed, -⟩ := hpushes _ notes _ run' t' hgo hlog
    (fun n hn => by simpa using hnone n hn) hw' hphase
  obtain ⟨v, hv⟩ : ∃ v, p.hint = some v := by
    cases hhint : p.hint with
    | none => rw [hhint] at htext; exact absurd htext (by decide)
    | some v => exact ⟨v, rfl⟩
  rw [hv] at htext
  exact ⟨_, run, t, p, wait, run', t', next, v, hw, hv, htext,
    (hlookup "print" hop hname hopen).trans (congrArg _ hv), hw', hnext, (hpushed v).1 hv⟩

end System

end Stepwise
