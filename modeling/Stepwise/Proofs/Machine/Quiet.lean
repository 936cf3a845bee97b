import Stepwise.Proofs.Machine.Arena
import Stepwise.Proofs.Machine.Path

/-! Runs that nobody observes, on a console and with a clear interrupt cell: what they do in
each phase. -/

namespace Stepwise.Host

variable {σ : Type} (c : Console σ) {r : Run} {w : σ}

section Moves

variable (ht : r.machine.tracing = false)
include ht

theorem move_call (hp : r.phase = .call) : c.quiet.move r w = .inr (r.withPhase .fetch, w) := by
  simp only [move, Run.need, Run.advance, hp, ht, Bool.false_eq_true, if_false]

theorem move_line (hp : r.phase = .line) : c.quiet.move r w = .inr (r.withPhase .opcode, w) := by
  simp only [move, Run.need, Run.advance, hp, ht, Bool.false_eq_true, if_false]

theorem move_opcode (hp : r.phase = .opcode) :
    c.quiet.move r w = .inr (r.withPhase .poll, w) := by
  simp only [move, Run.need, Run.advance, hp, ht, Bool.false_eq_true, if_false]

theorem move_leave {ending : Ending} (hp : r.phase = .leave ending) :
    c.quiet.move r w = .inr (r.leave ending, w) := by
  simp only [move, Run.need, Run.advance, hp, ht, Bool.false_eq_true, if_false]

end Moves

theorem move_fetch (hp : r.phase = .fetch) : c.quiet.move r w = .inr (r.fetch, w) := by
  simp only [move, Run.need, Run.advance, hp]

theorem move_poll (hp : r.phase = .poll) : c.quiet.move r w = .inr (r.withPhase .execute, w) := by
  simp only [move, Run.need, hp, Run.polled, Console.quiet, Bool.false_eq_true, if_false]

theorem move_execute (hp : r.phase = .execute) :
    c.quiet.move r w = .inr (r.executeFetched, w) := by
  simp only [move, Run.need, Run.advance, hp]

theorem move_write {text : String} {thenRead : Bool} (hp : r.phase = .write text thenRead) :
    c.quiet.move r w = .inr (r.shown, c.write text w) := by
  simp only [move, Run.need, hp, Console.quiet]

theorem move_clear (hp : r.phase = .clear) : c.quiet.move r w = .inr (r.shown, c.clear w) := by
  simp only [move, Run.need, hp, Console.quiet]

theorem move_read (hp : r.phase = .read) :
    c.quiet.move r w = .inr (r.received (c.line w).1, (c.line w).2) := by
  simp only [move, Run.need, hp, Console.quiet]

theorem move_ended {ending : Ending} (hp : r.phase = .ended ending) :
    c.quiet.move r w = .inl ending := by
  simp only [move, Run.need, hp]

def poised (r : Run) : Run :=
  let a := r.current
  let lasti := a.pc * Code.instrWidth
  let line := (a.chunk.lineOf? a.pc).getD a.line
  { r.withArena (r.machine.arena.setPosition a.frame lasti line) with
    current := { a with pc := a.pc + 1, lasti, line, lastLine := line }
    phase := .execute }

def Console.Fails (c : Console σ) (u : Unwind) : Prop :=
  (∃ e, u = .exception e) ∨ ∃ w, (c.line w).1 = .error u

/-- What compiled code never loses: there is an instruction where one is wanted, the frame that
an observer would look at is there, and all that fails does so for a reason. -/
structure Console.Sane (c : Console σ) (r : Run) : Prop where
  inCode : r.phase = .fetch ∨ r.phase = .execute →
    ∃ i, r.current.chunk.code[r.current.pc]? = some i
  held : r.phase = .opcode → ∃ f, r.machine.arena.Holds r.current.frame f
  failure : ∀ u, r.phase = .leave (.error u) ∨ r.phase = .ended (.error u) → c.Fails u

namespace Console

variable {c}

theorem fails_noteLeaving {u : Unwind} (h : c.Fails u) (a : Activation) :
    c.Fails (Run.noteLeaving a u) := by
  cases u with
  | exception e => exact .inl ⟨_, rfl⟩
  | cancelled => exact h
  | fault reason => exact h

theorem Sane.of_failure {u : Unwind} (hp : r.phase = .leave (.error u)) (hu : c.Fails u) :
    c.Sane r := by
  refine ⟨by simp [hp], by simp [hp], ?_⟩
  rintro v (h | h) <;> rw [hp] at h <;> cases h
  exact hu

def isIdle : Phase → Bool
  | .fetch | .execute | .opcode | .leave (.error _) | .ended (.error _) => false
  | _ => true

theorem Sane.of_idle (h : isIdle r.phase = true) : c.Sane r := by
  refine ⟨?_, fun ho => ?_, ?_⟩
  · rintro (hp | hp) <;> rw [hp] at h <;> cases h
  · rw [ho] at h
    cases h
  · rintro u (hp | hp) <;> rw [hp] at h <;> cases h

end Console

theorem path_execute (ht : r.machine.tracing = false) (hp : r.phase = .fetch)
    (hf : ∃ f, r.machine.arena.Holds r.current.frame f) {i : Code.Instr}
    (hi : r.current.chunk.code[r.current.pc]? = some i) :
    ∃ k, Path c.quiet c.Sane (k + 1) r w ((poised r).execute i) w := by
  have hfetch := move_fetch c (w := w) hp
  have hsane : c.Sane r := ⟨fun _ => ⟨i, hi⟩, by simp [hp], by simp [hp]⟩
  have hpoll (q : Run) (hq : q.machine.tracing = false) (ho : q.phase = .opcode)
      (hg : ∃ f, q.machine.arena.Holds q.current.frame f)
      (hj : q.current.chunk.code[q.current.pc]? = some i) :
      Path c.quiet c.Sane 3 q w (Run.execute { q with
        phase := .execute, current := { q.current with pc := q.current.pc + 1 } } i) w := by
    refine .step ⟨by simp [ho], fun _ => hg, by simp [ho]⟩ (move_opcode c hq ho) ?_
    refine .step (.of_idle rfl) (move_poll c rfl) ?_
    refine .single ⟨fun _ => ⟨i, hj⟩, by simp [Run.withPhase], by simp [Run.withPhase]⟩ ?_
    rw [move_execute c rfl]
    simp only [Run.executeFetched, Run.withPhase, hj]
  obtain ⟨f, hf⟩ := hf
  have hg (lasti line : Nat) :
      ∃ f, (r.machine.arena.setPosition r.current.frame lasti line).Holds r.current.frame f :=
    ⟨_, hf.setPosition lasti line⟩
  simp only [Run.fetch, hi] at hfetch
  split at hfetch
  · exact ⟨3, .step hsane hfetch (hpoll _ ht rfl (hg _ _) hi)⟩
  · refine ⟨4, .step hsane hfetch (.step ?_ (move_line c ht rfl) (hpoll _ ht rfl (hg _ _) hi))⟩
    exact .of_idle rfl

end Stepwise.Host
