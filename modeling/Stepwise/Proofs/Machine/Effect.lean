import Stepwise.Proofs.Machine.Observed

/-! Where the moves of a run lead to: the phase and the number of activations after an
instruction, and how far a run is from its end if no further instruction is let through. -/

namespace Stepwise.Run

open Code (Instr Opcode)

inductive Effect (depth : Nat) (op : Opcode) : Run → Prop
  | goes {r : Run} (hd : r.height = depth) (hp : r.phase = .fetch) : Effect depth op r
  | shows {r : Run} {text : String} {thenRead : Bool} (hd : r.height = depth)
    (hp : r.phase = .write text thenRead) : Effect depth op r
  | clears {r : Run} (hd : r.height = depth) (hp : r.phase = .clear) : Effect depth op r
  | reads {r : Run} (hd : r.height = depth) (hp : r.phase = .read) : Effect depth op r
  | enters {r : Run} (hd : r.height = depth + 1) (hp : r.phase = .call) : Effect depth op r
  | fails {r : Run} {u : Unwind} (hd : r.height = depth) (hp : r.phase = .leave (.error u)) :
    Effect depth op r
  | returns {r : Run} {v : Value} (hop : op = .returnValue) (hd : r.height = depth)
    (hp : r.phase = .leave (.ok v)) : Effect depth op r

section Effects

variable (r : Run) {op : Opcode}

theorem effect_settle (stack : List Value) (x : Value.Result) :
    Effect r.height op (r.settle stack x) := by
  cases x with
  | ok v => exact .goes rfl rfl
  | error cause => exact .fails rfl rfl

theorem effect_binary (f : Value → Value → Value.Result) : Effect r.height op (r.binary f) := by
  unfold binary
  split
  · exact effect_settle r _ _
  · exact .fails rfl rfl

theorem effect_callValue (f : Value) (args : List Value) :
    Effect r.height op (r.callValue f args) := by
  cases f with
  | builtin b =>
    simp only [callValue]
    split
    · exact .goes rfl rfl
    · exact .shows rfl rfl
    · exact .shows rfl rfl
    · exact .reads rfl rfl
    · exact .clears rfl rfl
    · exact .fails rfl rfl
  | function n chunk =>
    simp only [callValue]
    split
    · exact .fails rfl rfl
    · split
      · exact .fails rfl rfl
      · exact .enters rfl rfl
  | none | bool | int | float | str | code => exact .fails rfl rfl

theorem effect_execute (i : Instr) : Effect r.height i.op (r.execute i) := by
  obtain ⟨op, arg⟩ := i
  cases op with
  | nop | pushNull | jump => exact .goes rfl rfl
  | popTop =>
    simp only [execute]
    split
    · exact .goes rfl rfl
    · exact .fails rfl rfl
  | returnValue =>
    simp only [execute]
    split
    · exact .returns rfl rfl rfl
    · exact .fails rfl rfl
  | loadConst =>
    simp only [execute]
    split
    · exact .goes rfl rfl
    · exact .fails rfl rfl
  | loadName =>
    simp only [execute]
    split
    · split
      · exact .goes rfl rfl
      · exact .fails rfl rfl
    · exact .fails rfl rfl
  | storeName =>
    simp only [execute]
    split
    · exact .goes rfl rfl
    · exact .fails rfl rfl
    · exact .fails rfl rfl
  | binaryOp | compareOp =>
    simp only [execute]
    split
    · exact effect_binary r _
    · exact .fails rfl rfl
  | unaryOp =>
    simp only [execute]
    split
    · exact effect_settle r _ _
    · exact .fails rfl rfl
    · exact .fails rfl rfl
  | call =>
    simp only [execute]
    split
    · next f mark rest _ =>
      exact effect_callValue { r with current := { r.current with stack := rest } } f _
    · exact .fails rfl rfl
  | makeFunction =>
    simp only [execute]
    split
    · exact .goes rfl rfl
    · exact .fails rfl rfl
  | popJumpIfFalse | jumpIfFalseOrPop | jumpIfTrueOrPop =>
    simp only [execute]
    split
    · split <;> exact .goes rfl rfl
    · exact .fails rfl rfl

theorem effect_executeFetched {i : Instr} (hi : r.current.chunk.code[r.current.pc]? = some i) :
    Effect r.height i.op r.executeFetched := by
  simp only [executeFetched, hi]
  exact effect_execute { r with current := { r.current with pc := r.current.pc + 1 } } i

end Effects

/-- Whether an instruction is started next, as its poll has passed. -/
def isReady (r : Run) : Bool :=
  match r.phase with
  | .execute => true
  | _ => false

/-- Bounds the number of steps to the end if the next poll does not pass. What waits for a line
takes ten steps more. -/
def lag (r : Run) : Nat :=
  match r.phase with
  | .ended _ => 0
  | .leave _ => 8 * r.height
  | .poll => 8 * r.height + 1
  | .opcode => 8 * r.height + 2
  | .line => 8 * r.height + 3
  | .fetch => 8 * r.height + 4
  | .call | .clear => 8 * r.height + 5
  | .read => 8 * r.height + 16
  | .write _ _ => 8 * r.height + 17
  | .execute => 8 * r.height + 18

theorem Effect.lag_lt {depth : Nat} {op : Opcode} {r : Run} (h : Effect depth op r) :
    r.lag < 8 * depth + 18 ∧ r.isReady = false := by
  cases h with
  | goes hd hp | shows hd hp | clears hd hp | reads hd hp | enters hd hp | fails hd hp
  | returns _ hd hp =>
    simp only [lag, isReady, hp, hd]
    exact ⟨by omega, trivial⟩

variable {r : Run}

theorem lag_leave (ending : Ending) :
    (r.leave ending).lag < 8 * r.height ∧ (r.leave ending).isReady = false := by
  obtain ⟨m, a, callers, phase⟩ := r
  cases callers with
  | nil =>
    have hlt : 0 < 8 * 1 := by decide
    exact ⟨hlt, rfl⟩
  | cons caller callers =>
    have hlt : 8 * (callers.length + 1) + 4 < 8 * (callers.length + 1 + 1) := by omega
    cases ending with
    | ok v => exact ⟨hlt, rfl⟩
    | error u => exact ⟨Nat.lt_of_le_of_lt (Nat.le_add_right _ 4) hlt, rfl⟩

theorem lag_fetch (hp : r.phase = .fetch) : r.fetch.lag < r.lag ∧ r.fetch.isReady = false := by
  obtain ⟨m, a, callers, phase⟩ := r
  obtain rfl : phase = .fetch := hp
  simp only [fetch]
  split
  · exact ⟨Nat.lt_add_of_pos_right (by decide), rfl⟩
  · split
    · exact ⟨Nat.add_lt_add_left (by decide) _, rfl⟩
    · exact ⟨Nat.add_lt_add_left (by decide) _, rfl⟩

theorem lag_executeFetched (hp : r.phase = .execute) :
    r.executeFetched.lag < r.lag ∧ r.executeFetched.isReady = false := by
  have hlag : r.lag = 8 * r.height + 18 := by simp only [lag, hp]
  rw [hlag]
  cases hi : r.current.chunk.code[r.current.pc]? with
  | some i => exact (effect_executeFetched r hi).lag_lt
  | none =>
    simp only [executeFetched, hi]
    exact ⟨Nat.lt_add_of_pos_right (by decide), rfl⟩

theorem lag_advance (hn : r.need = .nothing ∨ ∃ event aux, r.need = .control event aux) :
    r.advance.lag < r.lag ∧ r.advance.isReady = false := by
  cases hp : r.phase with
  | call | line | opcode =>
    simp only [advance, hp, lag, withPhase, isReady]
    exact ⟨by simp only [height]; omega, trivial⟩
  | fetch =>
    simp only [advance, hp]
    exact lag_fetch hp
  | execute =>
    simp only [advance, hp]
    exact lag_executeFetched hp
  | leave ending =>
    have hlag : r.lag = 8 * r.height := by simp only [lag, hp]
    simp only [advance, hp, hlag]
    exact lag_leave ending
  | poll | write | clear | read | ended => simp [need, hp] at hn

theorem lag_control (hp : r.phase = .opcode) (c : Control) :
    (r.control c).lag < 8 * r.height + 2 ∧ (r.control c).isReady = false := by
  obtain ⟨m, a, callers, phase⟩ := r
  obtain rfl : phase = .opcode := hp
  cases c with
  | proceed | untrace => exact ⟨Nat.add_lt_add_left (by decide) _, rfl⟩
  | cancel | abort reason => exact ⟨Nat.lt_add_of_pos_right (by decide), rfl⟩

theorem lag_polled (hp : r.phase = .poll) :
    (r.polled true).lag < r.lag ∧ (r.polled true).isReady = false := by
  simp only [polled, lag, hp, fail, withPhase, isReady, if_true]
  exact ⟨by simp only [height]; omega, trivial⟩

theorem lag_shown (hp : (∃ text thenRead, r.phase = .write text thenRead) ∨ r.phase = .clear) :
    r.shown.lag < r.lag ∧ r.shown.isReady = false := by
  obtain ⟨text, thenRead, hp⟩ | hp := hp
  · simp only [shown, lag, hp]
    cases thenRead with
    | true => exact ⟨Nat.add_lt_add_left (by decide) _, rfl⟩
    | false => exact ⟨Nat.add_lt_add_left (by decide) _, rfl⟩
  · simp only [shown, lag, hp]
    exact ⟨Nat.add_lt_add_left (by decide) _, rfl⟩

theorem lag_received (line : Except Unwind String) :
    (r.received line).lag ≤ 8 * r.height + 4 ∧ (r.received line).isReady = false := by
  cases line with
  | ok line => exact ⟨Nat.le_refl _, rfl⟩
  | error u => exact ⟨Nat.le_add_right _ 4, rfl⟩

end Stepwise.Run
