/-! Places in a text. Lines count from one, columns count characters from zero, and the
end of a span lies behind its last character. -/

namespace Stepwise.Source

/-- Lines and columns are unbounded here. They stand for 32 bits, so a text is meant to have fewer
than `2 ^ 32` lines and columns. -/
structure Point where
  line : Nat
  col : Nat
deriving DecidableEq, Repr

def Point.advance (p : Point) (c : Char) : Point :=
  if c = '\n' then ⟨p.line + 1, 0⟩ else ⟨p.line, p.col + 1⟩

def Point.past (p : Point) (cs : List Char) : Point :=
  cs.foldl Point.advance p

@[simp] theorem Point.past_nil (p : Point) : p.past [] = p := rfl

@[simp] theorem Point.past_cons (p : Point) (c : Char) (cs : List Char) :
    p.past (c :: cs) = (p.advance c).past cs := rfl

theorem Point.past_append (p : Point) (cs ds : List Char) :
    p.past (cs ++ ds) = (p.past cs).past ds := by
  simp [Point.past]

/-- From one place to another, bounded as these are. -/
structure Span where
  line : Nat
  col : Nat
  endLine : Nat
  endCol : Nat
deriving DecidableEq, Repr, Inhabited

def Span.between (p q : Point) : Span :=
  ⟨p.line, p.col, q.line, q.col⟩

def Span.point (p : Point) : Span :=
  .between p p

def Span.to (s t : Span) : Span :=
  ⟨s.line, s.col, t.endLine, t.endCol⟩

end Stepwise.Source
