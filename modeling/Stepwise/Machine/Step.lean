import Stepwise.Machine.Basic

/-! How a run moves: by itself (`advance`), and on the answers it waits for. -/

namespace Stepwise.Run

open Code (Instr)

def underflow : Unwind :=
  .fault "value stack underflow"

def badOperand (i : Instr) : Unwind :=
  .fault ("bad operand " ++ toString i.arg ++ " for " ++ i.op.mnemonic)

/-- Goes on with the result of an operation, below which `stack` lies. -/
def settle (r : Run) (stack : List Value) : Value.Result → Run
  | .ok v => r.next (v :: stack)
  | .error cause => r.raise cause

def arityFault? (chunk : Chunk) (given : Nat) : Option Exception.Cause :=
  if chunk.params.length < given then
    some (.tooManyArguments chunk.name chunk.params.length given)
  else if given < chunk.params.length then
    some (.missingArguments chunk.name (chunk.params.drop given))
  else none

def enter (r : Run) (chunk : Chunk) (args : List Value) : Run :=
  let locals := Dictionary.ofList (chunk.params.zip args)
  let (id, arena) := r.machine.arena.alloc (.new chunk (some r.current.frame) locals)
  { machine := { r.machine with arena, depth := r.machine.depth + 1 }
    current := .new id chunk
    callers := r.current :: r.callers
    phase := .call }

/-- Calls a value; its arguments are off the stack already. -/
def callValue (r : Run) (f : Value) (args : List Value) : Run :=
  match f with
  | .builtin b =>
    match b.call args with
    | .ok (.give v) => r.push v
    | .ok (.write text) => r.withPhase (.write text false)
    | .ok (.ask (some prompt)) => r.withPhase (.write prompt true)
    | .ok (.ask none) => r.withPhase .read
    | .ok .clear => r.withPhase .clear
    | .error cause => r.raise cause
  | .function _ chunk =>
    match arityFault? chunk args.length with
    | some cause => r.raise cause
    | none =>
      if r.machine.recursionLimit ≤ r.machine.depth then r.raise .recursionLimit
      else r.enter chunk args
  | v => r.raise (.notCallable v.typeName)

def makeFunction (r : Run) (chunk : Chunk) : Run :=
  let n := r.machine.nextIdent
  { r with machine := { r.machine with nextIdent := n + 1 } }.push (.function n chunk)

/-- Applies an operator with two operands, the right one topmost. -/
def binary (r : Run) (f : Value → Value → Value.Result) : Run :=
  match r.current.stack with
  | right :: left :: stack => r.settle stack (f left right)
  | _ => r.fail underflow

/-- The effect of an instruction; `pc` is already behind it. -/
def execute (r : Run) (i : Instr) : Run :=
  let chunk := r.current.chunk
  let stack := r.current.stack
  match i.op with
  | .nop => r.next stack
  | .popTop =>
    match stack with
    | _ :: stack => r.next stack
    | [] => r.fail underflow
  | .returnValue =>
    match stack with
    | v :: _ => r.withPhase (.leave (.ok v))
    | [] => r.fail underflow
  | .pushNull => r.push .none
  | .loadConst =>
    match chunk.constants[i.arg]? with
    | some v => r.push v
    | none => r.fail (badOperand i)
  | .loadName =>
    match chunk.names[i.arg]? with
    | some name =>
      match r.machine.arena.lookup r.current.frame name with
      | some v => r.push v
      | none => r.raise (.unbound name)
    | none => r.fail (badOperand i)
  | .storeName =>
    match chunk.names[i.arg]?, stack with
    | some name, v :: stack =>
      (r.withArena (r.machine.arena.store r.current.frame name v)).next stack
    | some _, [] => r.fail underflow
    | none, _ => r.fail (badOperand i)
  | .binaryOp =>
    match Code.arithOps[i.arg]? with
    | some op => r.binary (Value.arith op)
    | none => r.fail (badOperand i)
  | .compareOp =>
    match Code.compareOps[i.arg]? with
    | some op => r.binary (Value.compare op)
    | none => r.fail (badOperand i)
  | .unaryOp =>
    match Code.unaryOps[i.arg]?, stack with
    | some op, v :: stack => r.settle stack (Value.unary op v)
    | some _, [] => r.fail underflow
    | none, _ => r.fail (badOperand i)
  | .call =>
    match stack.drop i.arg with
    | f :: _ :: rest =>
      { r with current := { r.current with stack := rest } }.callValue f (stack.take i.arg).reverse
    | _ => r.fail underflow
  | .makeFunction =>
    match chunk.constants[i.arg]? with
    | some (.code _ inner) => r.makeFunction inner
    | _ => r.fail (badOperand i)
  | .jump => r.jump i.arg stack
  | .popJumpIfFalse =>
    match stack with
    | v :: stack => if v.truthy then r.next stack else r.jump i.arg stack
    | [] => r.fail underflow
  | .jumpIfFalseOrPop =>
    match stack with
    | v :: rest => if v.truthy then r.next rest else r.jump i.arg stack
    | [] => r.fail underflow
  | .jumpIfTrueOrPop =>
    match stack with
    | v :: rest => if v.truthy then r.jump i.arg stack else r.next rest
    | [] => r.fail underflow

/-- Finds the next instruction. Code that is run off its end returns nothing. -/
def fetch (r : Run) : Run :=
  let a := r.current
  match a.chunk.code[a.pc]? with
  | none => r.withPhase (.leave (.ok .none))
  | some _ =>
    let lasti := a.pc * Code.instrWidth
    let line := (a.chunk.lineOf? a.pc).getD a.line
    let r := r.withArena (r.machine.arena.setPosition a.frame lasti line)
    { r with
      current := { a with lasti, line, lastLine := line }
      phase := if line = a.lastLine then .opcode else .line }

def executeFetched (r : Run) : Run :=
  let a := r.current
  match a.chunk.code[a.pc]? with
  | some i => { r with current := { a with pc := a.pc + 1 } }.execute i
  | none => r.withPhase (.leave (.ok .none))

/-- An exception on its way out of an activation notes where that stood. -/
def noteLeaving (a : Activation) : Unwind → Unwind
  | .exception e => .exception
    { e with
      traceback := ⟨a.chunk.file, a.line, a.chunk.name⟩ :: e.traceback
      origin := e.origin.or (some ⟨a.chunk, a.lasti, a.line⟩) }
  | u => u

/-- Ends the current activation. A value goes to the caller, all else goes through it. -/
def leave (r : Run) (ending : Ending) : Run :=
  let a := r.current
  let ending := ending.mapError (noteLeaving a)
  let r := r.withArena (r.machine.arena.release a.frame)
  match r.callers with
  | [] =>
    { r with machine := { r.machine with tracing := false, depth := 0 }, phase := .ended ending }
  | caller :: callers =>
    let machine := { r.machine with depth := r.machine.depth - 1 }
    let r := { r with machine, current := caller, callers }
    match ending with
    | .ok v => r.push v
    | .error u => r.fail u

/-- The observer's answer takes the place of a value; all other endings stand. -/
def Ending.answered (ending : Ending) (c : Control) : Ending :=
  match ending, c with
  | .ok _, .cancel => .error .cancelled
  | .ok _, .abort reason => .error (.fault reason)
  | ending, _ => ending

def advance (r : Run) : Run :=
  match r.phase with
  | .call => r.withPhase .fetch
  | .fetch => r.fetch
  | .line => r.withPhase .opcode
  | .opcode => r.withPhase .poll
  | .execute => r.executeFetched
  | .leave ending => r.leave ending
  | _ => r

/-- Takes the observer's answer to the event that was told. -/
def control (r : Run) (c : Control) : Run :=
  let r := if c = .untrace then { r with machine := { r.machine with tracing := false } } else r
  match r.phase with
  | .leave ending => r.leave (Ending.answered ending c)
  | _ =>
    match c with
    | .cancel => r.fail .cancelled
    | .abort reason => r.fail (.fault reason)
    | _ => r.advance

def polled (r : Run) (interrupted : Bool) : Run :=
  if interrupted then r.fail .cancelled else r.withPhase .execute

def shown (r : Run) : Run :=
  match r.phase with
  | .write _ true => r.withPhase .read
  | _ => r.push .none

def received (r : Run) : Except Unwind String → Run
  | .ok line => r.push (.str line)
  | .error u => r.fail u

end Stepwise.Run
