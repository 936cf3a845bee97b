/-! Instructions. An operand is an index into a table of the chunk, an operator's number, a
count of arguments or the index of an instruction. -/

namespace Stepwise.Code

inductive Opcode
  | nop | popTop | returnValue | pushNull
  | loadConst | loadName | storeName
  | binaryOp | compareOp | unaryOp
  | call | makeFunction
  | jump | popJumpIfFalse | jumpIfFalseOrPop | jumpIfTrueOrPop
deriving DecidableEq, Repr

namespace Opcode

def all : List Opcode :=
  [nop, popTop, returnValue, pushNull, loadConst, loadName, storeName, binaryOp, compareOp,
    unaryOp, call, makeFunction, jump, popJumpIfFalse, jumpIfFalseOrPop, jumpIfTrueOrPop]

def mnemonic : Opcode → String
  | nop => "NOP"
  | popTop => "POP_TOP"
  | returnValue => "RETURN_VALUE"
  | pushNull => "PUSH_NULL"
  | loadConst => "LOAD_CONST"
  | loadName => "LOAD_NAME"
  | storeName => "STORE_NAME"
  | binaryOp => "BINARY_OP"
  | compareOp => "COMPARE_OP"
  | unaryOp => "UNARY_OP"
  | call => "CALL"
  | makeFunction => "MAKE_FUNCTION"
  | jump => "JUMP"
  | popJumpIfFalse => "POP_JUMP_IF_FALSE"
  | jumpIfFalseOrPop => "JUMP_IF_FALSE_OR_POP"
  | jumpIfTrueOrPop => "JUMP_IF_TRUE_OR_POP"

def ofMnemonic? (name : String) : Option Opcode :=
  all.find? fun op => op.mnemonic == name

end Opcode

structure Instr where
  op : Opcode
  arg : Nat
deriving DecidableEq, Repr

end Stepwise.Code
