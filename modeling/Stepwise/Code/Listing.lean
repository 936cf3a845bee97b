import Stepwise.Value.Text

/-! A readable listing of a chunk, one line for each instruction: source line, byte offset,
mnemonic, operand and what the operand refers to. -/

namespace Stepwise.Code

def padStart (width : Nat) (s : String) : String :=
  String.ofList (List.replicate (width - s.length) ' ') ++ s

def padEnd (width : Nat) (s : String) : String :=
  s ++ String.ofList (List.replicate (width - s.length) ' ')

def referent? (c : Chunk) (i : Instr) : Option String :=
  match i.op with
  | .loadConst | .makeFunction => c.constants[i.arg]?.map Value.repr
  | .loadName | .storeName => c.names[i.arg]?
  | .binaryOp => arithOps[i.arg]?.map Source.Arith.symbol
  | .compareOp => compareOps[i.arg]?.map Source.Relation.symbol
  | _ => none

def listingLine (c : Chunk) (index : Nat) (i : Instr) : String :=
  padStart 4 (((c.lineOf? index).map toString).getD "-") ++ " " ++
    padStart 6 (toString (index * instrWidth)) ++ " " ++
    padEnd 22 i.op.mnemonic ++ " " ++ toString i.arg ++
    ((referent? c i).map fun r => " (" ++ r ++ ")").getD "" ++ "\n"

def listing (c : Chunk) : String :=
  String.join (c.code.toList.mapIdx (listingLine c))

end Stepwise.Code
