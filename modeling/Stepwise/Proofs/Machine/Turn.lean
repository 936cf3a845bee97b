import Stepwise.Proofs.Machine.Observed

/-! What an instruction does to a run. It goes on in its activation, stores a value, or enters a
function; an exception that it raises does not tell where yet. Which of these it does depends on
the activation and on what names stand for, but not on where the frames lie: runs that agree in
the one agree in the other. -/

namespace Stepwise

def Phase.Bare : Phase → Prop
  | .leave (.error (.exception e)) => e = .raised e.cause
  | .ended _ => False
  | _ => True

namespace Run

open Code (Instr)

def turned (r : Run) (pc : Nat) (stack : List Value) (nextIdent : Nat) (phase : Phase) : Run where
  machine := { r.machine with nextIdent }
  current := { r.current with pc, stack }
  callers := r.callers
  phase := phase

def stored (r : Run) (name : String) (v : Value) (stack : List Value) : Run :=
  (r.withArena (r.machine.arena.store r.current.frame name v)).next stack

def entered (r : Run) (stack : List Value) (chunk : Chunk) (args : List Value) : Run :=
  { r with current := { r.current with stack } }.enter chunk args

inductive Turns (r s : Run) : Run → Run → Prop
  | goes (pc : Nat) (stack : List Value) (nextIdent : Nat) {phase : Phase} (hp : phase.Bare) :
    Turns r s (r.turned pc stack nextIdent phase) (s.turned pc stack nextIdent phase)
  | stores (name : String) (v : Value) (stack : List Value) :
    Turns r s (r.stored name v stack) (s.stored name v stack)
  | enters (stack : List Value) (chunk : Chunk) (args : List Value)
    (hl : r.machine.depth < r.machine.recursionLimit) :
    Turns r s (r.entered stack chunk args) (s.entered stack chunk args)

structure Peers (r s : Run) : Prop where
  chunk : s.current.chunk = r.current.chunk
  pc : s.current.pc = r.current.pc
  stack : s.current.stack = r.current.stack
  depth : s.machine.depth = r.machine.depth
  recursionLimit : s.machine.recursionLimit = r.machine.recursionLimit
  nextIdent : s.machine.nextIdent = r.machine.nextIdent
  lookup : ∀ name, s.machine.arena.lookup s.current.frame name =
    r.machine.arena.lookup r.current.frame name

namespace Peers

variable {r s : Run}

theorem refl (r : Run) : r.Peers r :=
  ⟨rfl, rfl, rfl, rfl, rfl, rfl, fun _ => rfl⟩

theorem popped (h : r.Peers s) (stack : List Value) :
    Peers { r with current := { r.current with stack } }
      { s with current := { s.current with stack } } :=
  ⟨h.chunk, h.pc, rfl, h.depth, h.recursionLimit, h.nextIdent, h.lookup⟩

theorem turns (h : r.Peers s) (pc : Nat) (stack : List Value) (n : Nat) (phase : Phase)
    (hp : phase.Bare) {x y : Run} (hx : x = r.turned pc stack (r.machine.nextIdent + n) phase)
    (hy : y = s.turned pc stack (s.machine.nextIdent + n) phase) : Turns r s x y := by
  rw [hx, hy, h.nextIdent]
  exact .goes pc stack _ hp

theorem next (h : r.Peers s) (stack : List Value) : Turns r s (r.next stack) (s.next stack) :=
  h.turns r.current.pc stack 0 .fetch trivial rfl (by rw [← h.pc]; rfl)

theorem jump (h : r.Peers s) (pc : Nat) (stack : List Value) :
    Turns r s (r.jump pc stack) (s.jump pc stack) :=
  h.turns pc stack 0 .fetch trivial rfl rfl

theorem withPhase (h : r.Peers s) (phase : Phase) (hp : phase.Bare) :
    Turns r s (r.withPhase phase) (s.withPhase phase) :=
  h.turns r.current.pc r.current.stack 0 phase hp rfl (by rw [← h.pc, ← h.stack]; rfl)

theorem push (h : r.Peers s) (v : Value) : Turns r s (r.push v) (s.push v) := by
  rw [Run.push, Run.push, h.stack]
  exact h.next _

theorem raise (h : r.Peers s) (cause : Exception.Cause) :
    Turns r s (r.raise cause) (s.raise cause) :=
  h.withPhase (.leave (.error (.raise cause))) rfl

theorem fault (h : r.Peers s) (reason : String) :
    Turns r s (r.fail (.fault reason)) (s.fail (.fault reason)) :=
  h.withPhase (.leave (.error (.fault reason))) trivial

theorem settle (h : r.Peers s) (stack : List Value) (x : Value.Result) :
    Turns r s (r.settle stack x) (s.settle stack x) := by
  cases x with
  | ok v => exact h.next _
  | error cause => exact h.raise cause

theorem binary (h : r.Peers s) (f : Value → Value → Value.Result) :
    Turns r s (r.binary f) (s.binary f) := by
  rw [Run.binary, Run.binary, h.stack]
  cases r.current.stack with
  | nil => exact h.fault _
  | cons right rest =>
    cases rest with
    | nil => exact h.fault _
    | cons left rest => exact h.settle rest (f left right)

theorem makeFunction (h : r.Peers s) (chunk : Chunk) :
    Turns r s (r.makeFunction chunk) (s.makeFunction chunk) := by
  refine h.turns r.current.pc (.function r.machine.nextIdent chunk :: r.current.stack) 1
    .fetch trivial rfl ?_
  rw [← h.pc, ← h.stack, ← h.nextIdent]
  rfl

theorem callValue (h : r.Peers s) (f : Value) (args : List Value) :
    Turns r s (r.callValue f args) (s.callValue f args) := by
  cases f with
  | builtin b =>
    simp only [Run.callValue]
    split
    · exact h.push _
    · exact h.withPhase _ trivial
    · exact h.withPhase _ trivial
    · exact h.withPhase _ trivial
    · exact h.withPhase _ trivial
    · exact h.raise _
  | function n chunk =>
    simp only [Run.callValue]
    split
    · exact h.raise _
    · by_cases hl : r.machine.recursionLimit ≤ r.machine.depth
      · rw [if_pos hl, if_pos (by rwa [h.recursionLimit, h.depth])]
        exact h.raise _
      · rw [if_neg hl, if_neg (by rwa [h.recursionLimit, h.depth])]
        have hs : s.enter chunk args = s.entered r.current.stack chunk args := by
          rw [← h.stack]
          rfl
        rw [hs]
        exact .enters r.current.stack chunk args (Nat.lt_of_not_le hl)
  | none | bool | int | float | str | code => exact h.raise _

theorem of_popped {stack : List Value} {x y : Run}
    (h : Turns { r with current := { r.current with stack } }
      { s with current := { s.current with stack } } x y) : Turns r s x y := by
  cases h with
  | goes pc stack n hp => exact .goes pc stack n hp
  | stores name v stack => exact .stores name v stack
  | enters stack chunk args hl => exact .enters stack chunk args hl

theorem execute (h : r.Peers s) (i : Instr) : Turns r s (r.execute i) (s.execute i) := by
  obtain ⟨op, arg⟩ := i
  cases op with
  | nop =>
    simp only [Run.execute, h.stack]
    exact h.next _
  | pushNull => exact h.push _
  | jump =>
    simp only [Run.execute, h.stack]
    exact h.jump arg _
  | popTop =>
    simp only [Run.execute, h.stack]
    cases r.current.stack with
    | nil => exact h.fault _
    | cons v rest => exact h.next rest
  | returnValue =>
    simp only [Run.execute, h.stack]
    cases r.current.stack with
    | nil => exact h.fault _
    | cons v rest => exact h.withPhase (.leave (.ok v)) trivial
  | loadConst =>
    simp only [Run.execute, h.chunk]
    cases r.current.chunk.constants[arg]? with
    | none => exact h.fault _
    | some v => exact h.push v
  | loadName =>
    simp only [Run.execute, h.chunk]
    cases r.current.chunk.names[arg]? with
    | none => exact h.fault _
    | some name =>
      simp only [h.lookup name]
      cases r.machine.arena.lookup r.current.frame name with
      | none => exact h.raise _
      | some v => exact h.push v
  | storeName =>
    simp only [Run.execute, h.chunk, h.stack]
    cases r.current.chunk.names[arg]? with
    | none => exact h.fault _
    | some name =>
      cases r.current.stack with
      | nil => exact h.fault _
      | cons v rest => exact .stores name v rest
  | binaryOp =>
    simp only [Run.execute]
    cases Code.arithOps[arg]? with
    | none => exact h.fault _
    | some op => exact h.binary _
  | compareOp =>
    simp only [Run.execute]
    cases Code.compareOps[arg]? with
    | none => exact h.fault _
    | some op => exact h.binary _
  | unaryOp =>
    simp only [Run.execute, h.stack]
    cases Code.unaryOps[arg]? with
    | none => exact h.fault _
    | some op =>
      cases r.current.stack with
      | nil => exact h.fault _
      | cons v rest => exact h.settle rest _
  | call =>
    simp only [Run.execute, h.stack]
    cases r.current.stack.drop arg with
    | nil => exact h.fault _
    | cons f below =>
      cases below with
      | nil => exact h.fault _
      | cons mark rest => exact of_popped ((h.popped rest).callValue f _)
  | makeFunction =>
    simp only [Run.execute, h.chunk]
    cases r.current.chunk.constants[arg]? with
    | none => exact h.fault _
    | some v =>
      cases v with
      | code n inner => exact h.makeFunction inner
      | _ => exact h.fault _
  | popJumpIfFalse =>
    simp only [Run.execute, h.stack]
    cases r.current.stack with
    | nil => exact h.fault _
    | cons v rest =>
      simp only
      split
      · exact h.next rest
      · exact h.jump arg rest
  | jumpIfFalseOrPop =>
    simp only [Run.execute, h.stack]
    cases r.current.stack with
    | nil => exact h.fault _
    | cons v rest =>
      simp only
      split
      · exact h.next rest
      · exact h.jump arg _
  | jumpIfTrueOrPop =>
    simp only [Run.execute, h.stack]
    cases r.current.stack with
    | nil => exact h.fault _
    | cons v rest =>
      simp only
      split
      · exact h.jump arg _
      · exact h.next rest

end Peers

theorem turns_execute (r : Run) (i : Instr) : Turns r r (r.execute i) (r.execute i) :=
  (Peers.refl r).execute i

def stepped (r : Run) : Run :=
  { r with current := { r.current with pc := r.current.pc + 1 } }

theorem executeFetched_of_some {r : Run} {i : Instr}
    (hi : r.current.chunk.code[r.current.pc]? = some i) :
    r.executeFetched = r.stepped.execute i := by
  simp only [executeFetched, hi]
  rfl

theorem executeFetched_of_none {r : Run} (hi : r.current.chunk.code[r.current.pc]? = none) :
    r.executeFetched = r.withPhase (.leave (.ok .none)) := by
  simp only [executeFetched, hi]

end Run

end Stepwise
