import Stepwise.Proofs.Evaluator.Place
import Stepwise.Proofs.Machine.Quiet

/-! A run that does what the evaluator says. It arrives where a value is, it is on its way out
where the evaluator stopped, and where the evaluator has no fuel left it moves at least as many
times as there was fuel. -/

namespace Stepwise.Evaluator

open Host (Path)

variable {σ : Type}

namespace Stays

variable {c : Host.Console σ} {p : Place} {s : Store σ} {r : Run}

theorem fail (h : Stays p s r) {u : Unwind} (hu : c.Fails u) :
    Failing c p (.ofUnwind u) s (r.fail u) where
  frame := h.frame
  chunk := h.chunk
  callers := h.callers
  held := h.held
  phase := ⟨u, rfl, hu, rfl⟩

theorem raise (h : Stays p s r) (cause : Exception.Cause) :
    Failing c p (.exception cause) s (r.raise cause) :=
  h.fail (u := .raise cause) (.inl ⟨_, rfl⟩)

theorem leave (h : Stays p s r) {v : Value} {o : Object} (hv : Matches v o) :
    Leaving p o s (r.withPhase (.leave (.ok v))) where
  frame := h.frame
  chunk := h.chunk
  callers := h.callers
  held := h.held
  phase := ⟨v, hv, rfl⟩

end Stays

namespace Poised

variable {p : Place} {pc : Nat} {stack : List Value} {s : Store σ} {r : Run}

theorem next (h : Poised p pc stack s r) (stack' : List Value) :
    Ready p pc stack' s (r.next stack') where
  frame := h.frame
  chunk := h.chunk
  callers := h.callers
  held := h.held
  pc := h.pc
  stack := rfl
  phase := rfl

theorem push (h : Poised p pc stack s r) (v : Value) : Ready p pc (v :: stack) s (r.push v) := by
  rw [Run.push, h.stack]
  exact h.next (v :: stack)

theorem jump (h : Poised p pc stack s r) (target : Nat) (stack' : List Value) :
    Ready p target stack' s (r.jump target stack') where
  frame := h.frame
  chunk := h.chunk
  callers := h.callers
  held := h.held
  pc := rfl
  stack := rfl
  phase := rfl

theorem withStack (h : Poised p pc stack s r) (stack' : List Value) :
    Poised p pc stack' s { r with current := { r.current with stack := stack' } } where
  frame := h.frame
  chunk := h.chunk
  callers := h.callers
  held := h.held
  pc := h.pc
  stack := rfl

theorem withPhase (h : Poised p pc stack s r) (phase : Phase) :
    Poised p pc stack s (r.withPhase phase) where
  frame := h.frame
  chunk := h.chunk
  callers := h.callers
  held := h.held
  pc := h.pc
  stack := h.stack

theorem withConsole (h : Poised p pc stack s r) (w : σ) :
    Poised p pc stack (s.withConsole w) r where
  frame := h.frame
  chunk := h.chunk
  callers := h.callers
  held := h.held.withConsole w
  pc := h.pc
  stack := h.stack

end Poised

def Follows {α : Type} (c : Host.Console σ) (n : Nat) (r : Run) (w : σ)
    (arrive : α → Store σ → Run → Prop) (fail : Stop → Store σ → Run → Prop) :
    Outcome σ α → Prop
  | .value a s => ∃ k r', Path c.quiet c.Sane k r w r' s.console ∧ arrive a s r'
  | .stopped u s => ∃ k r', Path c.quiet c.Sane k r w r' s.console ∧ fail u s r'
  | .unfinished => ∃ k r' x, n ≤ k ∧ Path c.quiet c.Sane k r w r' x

namespace Follows

variable {α β : Type} {c : Host.Console σ} {m n : Nat} {r : Run} {w : σ}
  {arrive : α → Store σ → Run → Prop} {fail : Stop → Store σ → Run → Prop} {o : Outcome σ α}

theorem arrived {a : α} {s : Store σ} (h : arrive a s r) :
    Follows c n r s.console arrive fail (.value a s) :=
  ⟨0, r, .refl r s.console, h⟩

theorem failed {u : Stop} {s : Store σ} (h : fail u s r) :
    Follows c n r s.console arrive fail (.stopped u s) :=
  ⟨0, r, .refl r s.console, h⟩

theorem mono (hmn : m ≤ n) (h : Follows c n r w arrive fail o) : Follows c m r w arrive fail o := by
  cases o with
  | value => exact h
  | stopped => exact h
  | unfinished =>
    obtain ⟨k, r', x, hk, hp⟩ := h
    exact ⟨k, r', x, Nat.le_trans hmn hk, hp⟩

theorem after {k : Nat} {r' : Run} {x : σ} (hp : Path c.quiet c.Sane k r w r' x)
    (h : Follows c n r' x arrive fail o) : Follows c (k + n) r w arrive fail o := by
  cases o with
  | value =>
    obtain ⟨l, q, hq, ha⟩ := h
    exact ⟨k + l, q, hp.trans hq, ha⟩
  | stopped =>
    obtain ⟨l, q, hq, ha⟩ := h
    exact ⟨k + l, q, hp.trans hq, ha⟩
  | unfinished =>
    obtain ⟨l, q, y, hl, hq⟩ := h
    exact ⟨k + l, q, y, Nat.add_le_add_left hl k, hp.trans hq⟩

theorem andThen {arrive' : β → Store σ → Run → Prop} {f : α → Store σ → Outcome σ β}
    (h : Follows c n r w arrive fail o)
    (hf : ∀ a s r', arrive a s r' → Follows c n r' s.console arrive' fail (f a s)) :
    Follows c n r w arrive' fail (o.andThen f) := by
  cases o with
  | value a s =>
    obtain ⟨k, q, hq, ha⟩ := h
    exact ((hf a s q ha).after hq).mono (Nat.le_add_left n k)
  | stopped => exact h
  | unfinished => exact h

theorem onward {arrive' : α → Store σ → Run → Prop} (h : Follows c n r w arrive fail o)
    (hf : ∀ a s r', arrive a s r' → Follows c n r' s.console arrive' fail (.value a s)) :
    Follows c n r w arrive' fail o := by
  have := h.andThen (f := Outcome.value) hf
  cases o <;> exact this

end Follows

theorem Ready.exists_poised {c : Host.Console σ} {p : Place} {pc : Nat} {stack : List Value}
    {s : Store σ} {r : Run} {i : Code.Instr} (h : Ready p pc stack s r)
    (hi : p.chunk.code[pc]? = some i) :
    ∃ k r', Path c.quiet c.Sane (k + 1) r s.console (r'.execute i) s.console ∧
      Poised p (pc + 1) stack s r' ∧ r'.current.lasti = pc * Code.instrWidth := by
  rw [← h.chunk, ← h.pc] at hi
  have hframe : ∃ f, r.machine.arena.Holds r.current.frame f := by
    obtain ⟨f, hf, -⟩ := h.held.frame
    exact ⟨f, h.frame ▸ hf⟩
  obtain ⟨k, hp⟩ := Host.path_execute c (w := s.console) h.held.untraced h.phase hframe hi
  refine ⟨k, Host.poised r, hp, ?_, congrArg (· * Code.instrWidth) h.pc⟩
  exact
    { frame := h.frame
      chunk := h.chunk
      callers := h.callers
      held := by
        simp only [Host.poised, Run.withArena, h.frame]
        exact h.held.setPosition _ _
      pc := congrArg (· + 1) h.pc
      stack := h.stack }

theorem Ready.follows {α : Type} {c : Host.Console σ} {n : Nat} {p : Place} {pc : Nat}
    {stack : List Value} {s : Store σ} {r : Run} {arrive : α → Store σ → Run → Prop}
    {fail : Stop → Store σ → Run → Prop} {o : Outcome σ α} {i : Code.Instr}
    (h : Ready p pc stack s r) (hi : p.chunk.code[pc]? = some i)
    (hf : ∀ r', Poised p (pc + 1) stack s r' →
      Follows c n (r'.execute i) s.console arrive fail o) :
    Follows c (n + 1) r s.console arrive fail o := by
  obtain ⟨k, r', hp, hq, -⟩ := h.exists_poised (c := c) hi
  exact ((hf r' hq).after hp).mono (by omega)

end Stepwise.Evaluator
