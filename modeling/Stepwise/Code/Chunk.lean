import Stepwise.Code.Opcode
import Stepwise.Source.Tree

/-! A chunk: the compiled body of a module or function. Instructions are two bytes wide, and
offsets count bytes. The type of constants is a parameter, since constants may hold chunks. -/

namespace Stepwise.Code

/-- The source position of an instruction; any part may be unknown. -/
structure Position where
  startLine : Option Nat
  endLine : Option Nat
  startCol : Option Nat
  endCol : Option Nat
deriving DecidableEq, Repr

def Position.unknown : Position :=
  ⟨none, none, none, none⟩

def Position.ofSpan (s : Source.Span) : Position :=
  ⟨some s.line, some s.endLine, some s.col, some s.endCol⟩

def instrWidth : Nat := 2

def moduleName : String := "<module>"

/-- Positions are those of the first instructions, in order. -/
structure ChunkOf (α : Type) where
  file : String
  name : String
  firstLine : Nat
  params : List String
  code : Array Instr
  positions : Array Position
  constants : Array α
  names : Array String

namespace ChunkOf

variable {α : Type}

/-- A module's local names are the global names. -/
def isModule (c : ChunkOf α) : Bool :=
  c.name == moduleName

def byteSize (c : ChunkOf α) : Nat :=
  c.code.size * instrWidth

def instrAt? (c : ChunkOf α) (offset : Nat) : Option Instr :=
  c.code[offset / instrWidth]?

def positionAt? (c : ChunkOf α) (offset : Nat) : Option Position :=
  c.positions[offset / instrWidth]?

def lineOf? (c : ChunkOf α) (index : Nat) : Option Nat :=
  c.positions[index]?.bind Position.startLine

end ChunkOf

/-- Operators are numbered by their place in these tables. -/
def arithOps : List Source.Arith :=
  [.add, .sub, .mul, .div, .floorDiv, .mod]

def compareOps : List Source.Relation :=
  [.equal, .unequal, .less, .lessEqual, .greater, .greaterEqual]

def unaryOps : List Source.UnaryOp :=
  [.neg, .not]

theorem arithOps_getElem?_idxOf (op : Source.Arith) : arithOps[arithOps.idxOf op]? = some op := by
  cases op <;> rfl

theorem compareOps_getElem?_idxOf (op : Source.Relation) :
    compareOps[compareOps.idxOf op]? = some op := by
  cases op <;> rfl

theorem unaryOps_getElem?_idxOf (op : Source.UnaryOp) :
    unaryOps[unaryOps.idxOf op]? = some op := by
  cases op <;> rfl

end Stepwise.Code
