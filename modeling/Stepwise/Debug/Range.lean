import Stepwise.Value.Basic

/-! The range of the source that a pause or a fault highlights. Lines and columns count from
one; a range without columns stands for whole lines. -/

namespace Stepwise

structure Range where
  startLine : Nat
  startColumn : Option Nat
  endLine : Nat
  endColumn : Option Nat
deriving DecidableEq, Repr

namespace Range

def columns (startLine startColumn endLine endColumn : Nat) : Range :=
  ⟨startLine, some startColumn, endLine, some endColumn⟩

def wholeLine (line : Nat) : Range :=
  ⟨line, none, line, none⟩

def isLineOnly (r : Range) : Bool :=
  r.startColumn.isNone && r.endColumn.isNone

/-- Where a line is unknown, the frame's line stands in for it; an unknown column is the
first. -/
def ofPosition (p : Code.Position) (frameLine : Nat) : Range :=
  let line := max frameLine 1
  { startLine := p.startLine.getD line
    startColumn := some (p.startCol.getD 0 + 1)
    endLine := p.endLine.getD line
    endColumn := some (p.endCol.getD 0 + 1) }

/-- The range of the instruction at an offset, if it has a position. -/
def at? (chunk : Chunk) (offset frameLine : Nat) : Option Range :=
  (chunk.positionAt? offset).map (ofPosition · frameLine)

theorem not_isLineOnly_ofPosition (p : Code.Position) (line : Nat) :
    (ofPosition p line).isLineOnly = false := by
  simp [ofPosition, isLineOnly]

end Range

end Stepwise
