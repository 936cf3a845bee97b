import Stepwise.Value.Text

/-! The value that an instruction is about to work with, and whether to pause at it, by a
table of rules. Stores and jumps are passed by, as they belong to what was loaded before them. -/

namespace Stepwise

/-- The value about to be loaded, if any. -/
abbrev Hint := Option Value

def Hint.text : Hint → String
  | some v => v.repr
  | none => "<no value>"

abbrev NameLookup := String → Option Value

/-- Never to pause, or to pause with a constant, the value of a name, or nothing loaded. -/
inductive Hint.Rule
  | skip
  | constant
  | name
  | nothing
  | custom (rule : Nat → Chunk → NameLookup → Hint)

abbrev Hint.Rules := Code.Opcode → Hint.Rule

namespace Hint

def standard : Rules
  | .loadConst => .constant
  | .loadName => .name
  | .binaryOp | .compareOp | .unaryOp | .call => .nothing
  | _ => .skip

def Rules.set (rules : Rules) (op : Code.Opcode) (rule : Rule) : Rules :=
  fun o => if o = op then rule else rules o

def resolve (rules : Rules) (i : Code.Instr) (chunk : Chunk) (lookup : NameLookup) : Hint × Bool :=
  match rules i.op with
  | .skip => (none, false)
  | .constant => (chunk.constants[i.arg]?, true)
  | .name => (chunk.names[i.arg]?.bind lookup, true)
  | .nothing => (none, true)
  | .custom rule => (rule i.arg chunk lookup, true)

end Hint

end Stepwise
