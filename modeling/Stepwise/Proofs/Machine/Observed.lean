import Stepwise.Machine.Step

/-! What observation changes of a run. Whether a run is observed is looked at only where its
observer is told something; everything it does is the same with and without. -/

namespace Stepwise.Run

open Code (Instr)

def height (r : Run) : Nat :=
  r.callers.length + 1

def withTracing (r : Run) (tracing : Bool) : Run :=
  { r with machine := { r.machine with tracing } }

section Parts

variable (r : Run) (t : Bool)

@[simp] theorem phase_withTracing : (r.withTracing t).phase = r.phase := rfl

@[simp] theorem current_withTracing : (r.withTracing t).current = r.current := rfl

@[simp] theorem callers_withTracing : (r.withTracing t).callers = r.callers := rfl

@[simp] theorem arena_withTracing : (r.withTracing t).machine.arena = r.machine.arena := rfl

theorem withTracing_self : r.withTracing r.machine.tracing = r := rfl

theorem withTracing_eq_self {r : Run} {t : Bool} (h : r.machine.tracing = t) :
    r.withTracing t = r := by
  rw [← h, withTracing_self]

end Parts

variable (r : Run) (t : Bool)

theorem callValue_withTracing (f : Value) (args : List Value) :
    (r.withTracing t).callValue f args = (r.callValue f args).withTracing t := by
  cases f with
  | builtin b =>
    simp only [callValue]
    split <;> rfl
  | function n chunk =>
    simp only [callValue]
    split
    · rfl
    · by_cases h : r.machine.recursionLimit ≤ r.machine.depth
      · rw [if_pos h]
        exact if_pos h
      · rw [if_neg h]
        exact if_neg h
  | none | bool | int | float | str | code => rfl

theorem settle_withTracing (stack : List Value) (x : Value.Result) :
    (r.withTracing t).settle stack x = (r.settle stack x).withTracing t := by
  cases x <;> rfl

theorem binary_withTracing (f : Value → Value → Value.Result) :
    (r.withTracing t).binary f = (r.binary f).withTracing t := by
  simp only [binary, current_withTracing]
  split
  · exact settle_withTracing r t _ _
  · rfl

theorem execute_withTracing (i : Instr) :
    (r.withTracing t).execute i = (r.execute i).withTracing t := by
  obtain ⟨op, arg⟩ := i
  cases op with
  | call =>
    simp only [execute, current_withTracing]
    split
    · next f mark rest _ =>
      exact callValue_withTracing { r with current := { r.current with stack := rest } } t f _
    · rfl
  | binaryOp | compareOp =>
    simp only [execute]
    split
    · exact binary_withTracing r t _
    · rfl
  | unaryOp =>
    simp only [execute, current_withTracing]
    split
    · exact settle_withTracing r t _ _
    · rfl
    · rfl
  | loadName =>
    simp only [execute, current_withTracing, arena_withTracing]
    split
    · split <;> rfl
    · rfl
  | popJumpIfFalse | jumpIfFalseOrPop | jumpIfTrueOrPop =>
    simp only [execute, current_withTracing]
    split
    · split <;> rfl
    · rfl
  | storeName | popTop | returnValue | loadConst | makeFunction =>
    simp only [execute, current_withTracing]
    split <;> rfl
  | nop | pushNull | jump => rfl

theorem fetch_withTracing : (r.withTracing t).fetch = r.fetch.withTracing t := by
  simp only [fetch, current_withTracing]
  split <;> rfl

theorem executeFetched_withTracing :
    (r.withTracing t).executeFetched = r.executeFetched.withTracing t := by
  simp only [executeFetched, current_withTracing]
  split
  · next i _ =>
    exact execute_withTracing { r with current := { r.current with pc := r.current.pc + 1 } } t i
  · rfl

def quieted (r : Run) : Run :=
  r.withTracing false

theorem quieted_eq_self {r : Run} (h : r.machine.tracing = false) : r.quieted = r :=
  withTracing_eq_self h

theorem leave_quieted (ending : Ending) : r.quieted.leave ending = (r.leave ending).quieted := by
  obtain ⟨m, a, callers, phase⟩ := r
  cases callers with
  | nil => rfl
  | cons caller callers => cases ending <;> rfl

theorem advance_quieted : r.quieted.advance = r.advance.quieted := by
  simp only [advance, quieted, phase_withTracing]
  split
  · rfl
  · exact fetch_withTracing r false
  · rfl
  · rfl
  · exact executeFetched_withTracing r false
  · exact leave_quieted r _
  · rfl

theorem polled_quieted (interrupted : Bool) :
    r.quieted.polled interrupted = (r.polled interrupted).quieted := by
  cases interrupted <;> rfl

theorem shown_quieted : r.quieted.shown = r.shown.quieted := by
  simp only [shown, quieted, phase_withTracing]
  split <;> rfl

theorem received_quieted (line : Except Unwind String) :
    r.quieted.received line = (r.received line).quieted := by
  cases line <;> rfl

theorem control_proceed : r.control .proceed = r.advance := by
  obtain ⟨m, a, callers, phase⟩ := r
  cases phase with
  | leave ending => cases ending <;> rfl
  | _ => rfl

theorem control_untrace : r.control .untrace = r.quieted.advance := by
  obtain ⟨m, a, callers, phase⟩ := r
  cases phase with
  | leave ending => cases ending <;> rfl
  | _ => rfl

def Silent (r : Run) : Prop :=
  r.machine.tracing = false ∨ (∃ u, r.phase = .leave (.error u)) ∨ ∃ ending, r.phase = .ended ending

theorem leave_error_phase (u : Unwind) :
    (∃ v, (r.leave (.error u)).phase = .leave (.error v)) ∨
      ∃ v, (r.leave (.error u)).phase = .ended (.error v) := by
  obtain ⟨m, a, callers, phase⟩ := r
  cases callers with
  | nil => exact .inr ⟨_, rfl⟩
  | cons caller callers => exact .inl ⟨_, rfl⟩

theorem Silent.advance {r : Run} (h : r.Silent) : r.advance.Silent := by
  rcases h with h | ⟨u, h⟩ | ⟨ending, h⟩
  · refine .inl ?_
    rw [← quieted_eq_self h, advance_quieted]
    rfl
  · rw [Run.advance, h]
    rcases leave_error_phase r u with ⟨v, hv⟩ | ⟨v, hv⟩
    · exact .inr (.inl ⟨v, hv⟩)
    · exact .inr (.inr ⟨_, hv⟩)
  · rw [Run.advance, h]
    exact .inr (.inr ⟨ending, h⟩)

theorem Silent.untraced {r : Run} (h : r.Silent) (hl : ∀ ending, r.phase ≠ .leave ending)
    (he : ∀ ending, r.phase ≠ .ended ending) : r.machine.tracing = false :=
  h.resolve_right fun h => h.elim (fun ⟨_, h⟩ => hl _ h) fun ⟨_, h⟩ => he _ h

theorem silent_control_untrace : (r.control .untrace).Silent := by
  rw [control_untrace]
  exact Silent.advance (.inl rfl)

theorem silent_control_cancel : (r.control .cancel).Silent := by
  have hleave (u : Unwind) : (r.leave (.error u)).Silent := by
    rcases leave_error_phase r u with h | ⟨v, h⟩
    · exact .inr (.inl h)
    · exact .inr (.inr ⟨_, h⟩)
  obtain ⟨m, a, callers, phase⟩ := r
  cases phase with
  | leave ending =>
    cases ending with
    | ok v => exact hleave .cancelled
    | error u => exact hleave u
  | _ => exact .inr (.inl ⟨_, rfl⟩)

@[simp] theorem tracing_polled (interrupted : Bool) :
    (r.polled interrupted).machine.tracing = r.machine.tracing := by
  cases interrupted <;> rfl

@[simp] theorem tracing_shown : r.shown.machine.tracing = r.machine.tracing := by
  unfold shown
  split <;> rfl

@[simp] theorem tracing_received (line : Except Unwind String) :
    (r.received line).machine.tracing = r.machine.tracing := by
  cases line <;> rfl

section Needs

variable {r}

theorem phase_of_need_cell (h : r.need = .cell) : r.phase = .poll := by
  obtain ⟨⟨arena, limit, n, t⟩, a, callers, phase⟩ := r
  cases t <;> cases phase <;> first | rfl | cases h

theorem phase_of_need_write {text : String} (h : r.need = .write text) :
    ∃ thenRead, r.phase = .write text thenRead := by
  obtain ⟨⟨arena, limit, n, t⟩, a, callers, phase⟩ := r
  cases t <;> cases phase <;> cases h <;> exact ⟨_, rfl⟩

theorem phase_of_need_clear (h : r.need = .clear) : r.phase = .clear := by
  obtain ⟨⟨arena, limit, n, t⟩, a, callers, phase⟩ := r
  cases t <;> cases phase <;> first | rfl | cases h

theorem phase_of_need_line (h : r.need = .line) : r.phase = .read := by
  obtain ⟨⟨arena, limit, n, t⟩, a, callers, phase⟩ := r
  cases t <;> cases phase <;> first | rfl | cases h

theorem phase_of_need_done {ending : Ending} (h : r.need = .done ending) :
    r.phase = .ended ending := by
  obtain ⟨⟨arena, limit, n, t⟩, a, callers, phase⟩ := r
  cases t <;> cases phase <;> cases h <;> rfl

theorem of_need_control {event : TraceEvent} {aux : Option Value}
    (h : r.need = .control event aux) :
    r.machine.tracing = true ∧
      (event = .opcode ∧ r.phase = .opcode ∨ event ≠ .opcode ∧ r.phase ≠ .opcode) ∧
      ∀ ending, r.phase ≠ .ended ending := by
  obtain ⟨⟨arena, limit, n, t⟩, a, callers, phase⟩ := r
  cases t <;> cases phase <;> cases h <;> simp

theorem phase_of_need_opcode {aux : Option Value} (h : r.need = .control .opcode aux) :
    r.phase = .opcode := by
  obtain ⟨-, ⟨-, hphase⟩ | ⟨hne, -⟩, -⟩ := of_need_control h
  · exact hphase
  · exact (hne rfl).elim

theorem need_of_opcode (h : r.phase = .opcode) :
    r.need = .nothing ∨ ∃ event aux, r.need = .control event aux := by
  rw [need, h]
  cases r.machine.tracing with
  | true => exact .inr ⟨_, _, rfl⟩
  | false => exact .inl rfl

theorem need_quieted (h : r.need = .nothing ∨ ∃ event aux, r.need = .control event aux) :
    r.quieted.need = .nothing := by
  obtain ⟨⟨arena, limit, n, t⟩, a, callers, phase⟩ := r
  cases t <;> cases phase <;> simp_all [need, quieted, withTracing]

theorem need_quieted_of_cell (h : r.need = .cell) : r.quieted.need = .cell := by
  simp only [need, quieted, phase_withTracing, phase_of_need_cell h]

theorem need_quieted_of_write {text : String} (h : r.need = .write text) :
    r.quieted.need = .write text := by
  obtain ⟨thenRead, hp⟩ := phase_of_need_write h
  rw [need, hp] at h
  rw [need, quieted, phase_withTracing, hp, h]

theorem need_quieted_of_clear (h : r.need = .clear) : r.quieted.need = .clear := by
  simp only [need, quieted, phase_withTracing, phase_of_need_clear h]

end Needs

end Stepwise.Run
