import Stepwise.Proofs.Code.Layout

/-! Control flow and the height of the value stack. An instruction takes values off the stack and
puts values on it, and goes on at one of its successors; from the start of a chunk this reaches
places at heights. A chunk is well formed if whatever can be reached is there and finds on the
stack what it needs. One assignment of heights to places that every instruction agrees with is
enough to show this, since no path can then bring another height. -/

namespace Stepwise.Code

/-- How many values an instruction finds on the stack at least. -/
def Instr.needs (i : Instr) : Nat :=
  match i.op with
  | .nop | .pushNull | .loadConst | .loadName | .makeFunction | .jump => 0
  | .popTop | .returnValue | .storeName | .unaryOp => 1
  | .popJumpIfFalse | .jumpIfFalseOrPop | .jumpIfTrueOrPop => 1
  | .binaryOp | .compareOp => 2
  | .call => i.arg + 2

/-- Where control goes from an instruction that is executed at a height, and the heights there. -/
def Instr.successors (i : Instr) (pc height : Nat) : List (Nat × Nat) :=
  match i.op with
  | .returnValue => []
  | .nop | .unaryOp => [(pc + 1, height)]
  | .pushNull | .loadConst | .loadName | .makeFunction => [(pc + 1, height + 1)]
  | .popTop | .storeName | .binaryOp | .compareOp => [(pc + 1, height - 1)]
  | .call => [(pc + 1, height - (i.arg + 1))]
  | .jump => [(i.arg, height)]
  | .popJumpIfFalse => [(pc + 1, height - 1), (i.arg, height - 1)]
  | .jumpIfFalseOrPop | .jumpIfTrueOrPop => [(pc + 1, height - 1), (i.arg, height)]

def Instr.isJump (i : Instr) : Bool :=
  match i.op with
  | .jump | .popJumpIfFalse | .jumpIfFalseOrPop | .jumpIfTrueOrPop => true
  | _ => false

/-- What an operand stands for is in the tables. -/
def Instr.Refers (t : Tables) (i : Instr) : Prop :=
  match i.op with
  | .loadConst => i.arg < t.constants.size
  | .makeFunction => ∃ n inner, t.constants[i.arg]? = some (.code n inner)
  | .loadName | .storeName => i.arg < t.names.size
  | .binaryOp => i.arg < arithOps.length
  | .compareOp => i.arg < compareOps.length
  | .unaryOp => i.arg < unaryOps.length
  | _ => True

/-- A place of the chunk, and the height of the value stack with which a path comes there. -/
inductive Reaches (chunk : Chunk) : Nat → Nat → Prop
  | start : Reaches chunk 0 0
  | step {pc height pc' height' : Nat} {i : Instr} (h : Reaches chunk pc height)
      (hi : chunk.code[pc]? = some i) (hs : (pc', height') ∈ i.successors pc height) :
      Reaches chunk pc' height'

structure WellFormed (chunk : Chunk) : Prop where
  positions : chunk.positions.size = chunk.code.size
  operands : ∀ (pc : Nat) (i : Instr), chunk.code[pc]? = some i → i.Refers (.ofChunk chunk)
  jumps : ∀ (pc : Nat) (i : Instr), chunk.code[pc]? = some i → i.isJump = true →
    i.arg < chunk.code.size
  last : ∃ i, chunk.code.back? = some i ∧ i.op = .returnValue
  reached : ∀ pc height, Reaches chunk pc height →
    ∃ i, chunk.code[pc]? = some i ∧ i.needs ≤ height ∧ (i.op = .returnValue → height = 1)
  height : ∀ pc height height', Reaches chunk pc height → Reaches chunk pc height' →
    height = height'

structure Instr.Agrees (heights : Nat → Nat) (size pc : Nat) (i : Instr) : Prop where
  needs : i.needs ≤ heights pc
  returns : i.op = .returnValue → heights pc = 1
  successors : ∀ q ∈ i.successors pc (heights pc), q.1 < size ∧ q.2 = heights q.1

variable {chunk : Chunk} {heights : Nat → Nat}

theorem Instr.exists_successor {i : Instr} (hi : i.isJump = true) (pc height : Nat) :
    ∃ height', (i.arg, height') ∈ i.successors pc height := by
  obtain ⟨op, arg⟩ := i
  cases op <;> cases hi <;> simp [successors]

theorem Instr.Agrees.arg_lt {size pc : Nat} {i : Instr} (h : i.Agrees heights size pc)
    (hi : i.isJump = true) : i.arg < size := by
  obtain ⟨height, hs⟩ := i.exists_successor hi pc (heights pc)
  exact (h.successors _ hs).1

theorem Reaches.height_eq {pc height : Nat} (h : Reaches chunk pc height)
    (hstart : heights 0 = 0) (hsize : 0 < chunk.code.size)
    (hall : ∀ (pc : Nat) (i : Instr), chunk.code[pc]? = some i →
      i.Agrees heights chunk.code.size pc) :
    pc < chunk.code.size ∧ height = heights pc := by
  induction h with
  | start => exact ⟨hsize, hstart.symm⟩
  | step _ hi hs ih =>
    rw [ih.2] at hs
    exact (hall _ _ hi).successors _ hs

def Instr.Leads (i : Instr) (pc pc' : Nat) : Prop :=
  ∃ height height', (pc', height') ∈ i.successors pc height

theorem Instr.Leads.cases {i : Instr} {pc pc' : Nat} (h : i.Leads pc pc') :
    pc' = pc + 1 ∨ i.isJump = true ∧ pc' = i.arg := by
  obtain ⟨height, height', h⟩ := h
  obtain ⟨op, arg⟩ := i
  cases op <;> simp_all [successors, isJump] <;> tauto

theorem Instr.leads_next {i : Instr} (hreturn : i.op ≠ .returnValue) (hjump : i.op ≠ .jump)
    (pc : Nat) : i.Leads pc (pc + 1) := by
  obtain ⟨op, arg⟩ := i
  cases op with
  | returnValue => exact (hreturn rfl).elim
  | jump => exact (hjump rfl).elim
  | _ => exact ⟨0, _, List.mem_cons_self⟩

theorem Instr.leads_arg {i : Instr} (hjump : i.isJump = true) (pc : Nat) : i.Leads pc i.arg :=
  ⟨0, i.exists_successor hjump pc 0⟩

end Stepwise.Code
