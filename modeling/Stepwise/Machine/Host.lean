import Stepwise.Machine.Step

/-! Running to the end against a host, which answers everything the run needs. -/

namespace Stepwise

/-- What a run is answered from outside. The observer may look at the run and pin its frames. -/
structure Host (σ : Type) where
  control : TraceEvent → Option Value → Run → σ → Control × Arena × σ
  cell : σ → Bool
  write : String → σ → σ
  clear : σ → σ
  line : σ → Except Unwind String × σ

namespace Host

variable {σ : Type}

def move (h : Host σ) (r : Run) (w : σ) : Ending ⊕ (Run × σ) :=
  match r.need with
  | .nothing => .inr (r.advance, w)
  | .control event aux =>
    let (c, arena, w) := h.control event aux r w
    .inr ((r.withArena arena).control c, w)
  | .cell => .inr (r.polled (h.cell w), w)
  | .write text => .inr (r.shown, h.write text w)
  | .clear => .inr (r.shown, h.clear w)
  | .line =>
    let (line, w) := h.line w
    .inr (r.received line, w)
  | .done ending => .inl ending

/-- At most `fuel` moves; the ending is missing if they do not suffice. -/
def finish (h : Host σ) : Nat → Run → σ → Option Ending × Machine × σ
  | 0, r, w => (none, r.machine, w)
  | fuel + 1, r, w =>
    match h.move r w with
    | .inl ending => (some ending, r.machine, w)
    | .inr (r, w) => finish h fuel r w

end Host

end Stepwise
