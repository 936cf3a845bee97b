import Stepwise.Machine.Host
import Stepwise.Proofs.Machine.Observed

/-! Runs against a host, move by move. Every run has at most one ending, since a host leaves
nothing open. -/

namespace Stepwise

def Activation.origin (x : Activation) : Exception.Origin :=
  ⟨x.chunk, x.lasti, x.line⟩

namespace Host

variable {σ : Type} {h : Host σ}

/-- The console gave an exception that came with such a place. -/
def Gives (h : Host σ) (origin : Exception.Origin) : Prop :=
  ∃ w e, (h.line w).1 = .error (.exception e) ∧ e.origin = some origin

/-- From one run and outside to another in this many moves, each of them made where `P` holds. -/
inductive Path (h : Host σ) (P : Run → Prop) : Nat → Run → σ → Run → σ → Prop
  | refl (r : Run) (w : σ) : Path h P 0 r w r w
  | step {n : Nat} {r r' r'' : Run} {w w' w'' : σ} (hr : P r) (hm : h.move r w = .inr (r', w'))
      (hp : Path h P n r' w' r'' w'') : Path h P (n + 1) r w r'' w''

namespace Path

variable {P Q : Run → Prop} {m n : Nat} {a b c : Run} {w x y : σ}

theorem single (ha : P a) (hm : h.move a w = .inr (b, x)) : Path h P 1 a w b x :=
  .step ha hm (.refl b x)

theorem trans (hp : Path h P m a w b x) (hq : Path h P n b x c y) : Path h P (m + n) a w c y := by
  induction hp with
  | refl => rwa [Nat.zero_add]
  | step hr hm _ ih =>
    rw [Nat.add_right_comm]
    exact .step hr hm (ih hq)

theorem finish_add (hp : Path h P m a w b x) (fuel : Nat) :
    h.finish (m + fuel) a w = h.finish fuel b x := by
  induction hp with
  | refl => rw [Nat.zero_add]
  | step _ hm _ ih =>
    rw [Nat.add_right_comm, finish, hm]
    exact ih

theorem rest (hp : Path h P n a w b x) (hq : Path h Q m a w c y) (hmn : m ≤ n) :
    Path h P (n - m) c y b x := by
  induction hq generalizing n with
  | refl => exact hp
  | step _ hm _ ih =>
    cases hp with
    | refl => omega
    | step _ hm' hp =>
      rw [hm] at hm'
      cases hm'
      rw [Nat.add_sub_add_right]
      exact ih hp (Nat.le_of_succ_le_succ hmn)

theorem holds (hp : Path h P n a w b x) (hq : Path h Q m a w c y) (hmn : m < n) : P c := by
  have hrest := hp.rest hq (Nat.le_of_lt hmn)
  obtain ⟨k, hk⟩ := Nat.exists_eq_add_of_lt hmn
  rw [show n - m = k + 1 by omega] at hrest
  cases hrest with
  | step hr _ _ => exact hr

end Path

theorem finish_of_move_inl {r : Run} {w : σ} {ending : Ending} (hm : h.move r w = .inl ending)
    (fuel : Nat) : h.finish (fuel + 1) r w = (some ending, r.machine, w) := by
  rw [finish, hm]

theorem finish_add_of_some {n : Nat} {r : Run} {w : σ} {ending : Ending} {m : Machine} {x : σ}
    (hf : h.finish n r w = (some ending, m, x)) (k : Nat) :
    h.finish (n + k) r w = (some ending, m, x) := by
  induction n generalizing r w with
  | zero => cases hf
  | succ n ih =>
    rw [Nat.add_right_comm, finish]
    rw [finish] at hf
    split at hf
    · exact hf
    · exact ih hf

def exception? (h : Host σ) (fuel : Nat) (r : Run) (w : σ) : Option Exception :=
  match (h.finish fuel r w).1 with
  | some (.error (.exception e)) => some e
  | _ => none

theorem finish_of_exception? {fuel : Nat} {r : Run} {w : σ} {e : Exception}
    (he : h.exception? fuel r w = some e) :
    ∃ m x, h.finish fuel r w = (some (.error (.exception e)), m, x) := by
  unfold exception? at he
  split at he
  · next hending =>
    cases he
    exact ⟨_, _, Prod.ext hending rfl⟩
  · cases he

theorem finish_unique {n k : Nat} {r : Run} {w x y : σ} {e f : Ending} {m m' : Machine}
    (hn : h.finish n r w = (some e, m, x)) (hk : h.finish k r w = (some f, m', y)) :
    e = f ∧ m = m' ∧ x = y := by
  have h1 := finish_add_of_some hn k
  have h2 := finish_add_of_some hk n
  rw [Nat.add_comm k n, h1] at h2
  cases h2
  exact ⟨rfl, rfl, rfl⟩

theorem Path.finish_eq_none {P : Run → Prop} {n fuel : Nat} {r r' : Run} {w w' : σ}
    (hp : Path h P n r w r' w')
    (hle : fuel ≤ n) : (h.finish fuel r w).1 = none := by
  induction hp generalizing fuel with
  | refl =>
    obtain rfl : fuel = 0 := by omega
    rfl
  | step _ hm _ ih =>
    cases fuel with
    | zero => rfl
    | succ fuel =>
      rw [finish, hm]
      exact ih (by omega)

inductive Steps (h : Host σ) (r : Run) (w : σ) : Run → σ → Prop
  | alone (hn : r.need = .nothing) : Steps h r w r.advance w
  | told {event : TraceEvent} {aux : Option Value} (hn : r.need = .control event aux) :
    Steps h r w
      ((r.withArena (h.control event aux r w).2.1).control (h.control event aux r w).1)
      (h.control event aux r w).2.2
  | polled (hp : r.phase = .poll) : Steps h r w (r.polled (h.cell w)) w
  | wrote {text : String} {thenRead : Bool} (hp : r.phase = .write text thenRead) :
    Steps h r w r.shown (h.write text w)
  | cleared (hp : r.phase = .clear) : Steps h r w r.shown (h.clear w)
  | read (hp : r.phase = .read) : Steps h r w (r.received (h.line w).1) (h.line w).2

theorem steps_of_move {r r' : Run} {w w' : σ} (hm : h.move r w = .inr (r', w')) :
    h.Steps r w r' w' := by
  unfold move at hm
  split at hm
  · next hn =>
    cases hm
    exact .alone hn
  · next hn =>
    cases hm
    exact .told hn
  · next hn =>
    cases hm
    exact .polled (Run.phase_of_need_cell hn)
  · next hn =>
    cases hm
    obtain ⟨thenRead, hp⟩ := Run.phase_of_need_write hn
    exact .wrote hp
  · next hn =>
    cases hm
    exact .cleared (Run.phase_of_need_clear hn)
  · next hn =>
    cases hm
    exact .read (Run.phase_of_need_line hn)
  · cases hm

theorem Steps.ne_ended {r r' : Run} {w w' : σ} (hs : h.Steps r w r' w') (ending : Ending) :
    r.phase ≠ .ended ending := by
  cases hs with
  | alone hn => exact fun hp => by simp [Run.need, hp] at hn
  | told hn => exact (Run.of_need_control hn).2.2 ending
  | polled hp | wrote hp | cleared hp | read hp => simp [hp]

theorem exists_path_of_finish {fuel : Nat} {r : Run} {w x : σ}
    {ending : Ending} {m : Machine} (hf : h.finish fuel r w = (some ending, m, x)) :
    ∃ k r', Path h (fun _ => True) k r w r' x ∧ h.move r' x = .inl ending := by
  induction fuel generalizing r w with
  | zero => cases hf
  | succ fuel ih =>
    rw [finish] at hf
    split at hf
    · next e hm =>
      cases hf
      exact ⟨0, r, .refl _ _, hm⟩
    · next r' w' hm =>
      obtain ⟨k, r'', hpath, hend⟩ := ih hf
      exact ⟨k + 1, r'', .step trivial hm hpath, hend⟩

theorem move_eq_inl {r : Run} {w : σ} {ending : Ending}
    (hm : h.move r w = .inl ending) : r.phase = .ended ending := by
  unfold move at hm
  split at hm <;> cases hm
  next hneed => exact Run.phase_of_need_done hneed

/-- What a console does: it shows texts, clears the screen and gives lines. -/
structure Console (σ : Type) where
  write : String → σ → σ
  clear : σ → σ
  line : σ → Except Unwind String × σ

/-- A host with no observer, whose interrupt cell stays clear. -/
def Console.quiet (c : Console σ) : Host σ where
  control _ _ r w := (.proceed, r.machine.arena, w)
  cell _ := false
  write := c.write
  clear := c.clear
  line := c.line

/-- One thing that a program did with its console. -/
inductive Interaction
  | wrote (text : String)
  | cleared
  | asked (answer : Except Unwind String)

/-- The console with a record of what was done with it, latest first. -/
def Console.recorded (c : Console σ) : Console (σ × List Interaction) where
  write text w := (c.write text w.1, .wrote text :: w.2)
  clear w := (c.clear w.1, .cleared :: w.2)
  line w :=
    let (answer, x) := c.line w.1
    (answer, x, .asked answer :: w.2)

end Host

end Stepwise
