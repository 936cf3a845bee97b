import Stepwise.Value.Text

/-! Exceptions: what a program may raise, why, and where. The wording of every cause is
here. -/

namespace Stepwise

inductive Exception.Kind
  | name | type | value | zeroDivision | overflow | recursion
  | keyboardInterrupt | endOfFile | runtime
deriving DecidableEq, Repr

def Exception.Kind.all : List Exception.Kind :=
  [.name, .type, .value, .zeroDivision, .overflow, .recursion, .keyboardInterrupt, .endOfFile,
    .runtime]

def Exception.Kind.title : Exception.Kind → String
  | .name => "NameError"
  | .type => "TypeError"
  | .value => "ValueError"
  | .zeroDivision => "ZeroDivisionError"
  | .overflow => "OverflowError"
  | .recursion => "RecursionError"
  | .keyboardInterrupt => "KeyboardInterrupt"
  | .endOfFile => "EOFError"
  | .runtime => "RuntimeError"

inductive Exception.Cause
  | unbound (name : String)
  | operands (op left right : String)
  | unordered (op left right : String)
  | negation (type : String)
  | integerOverflow
  | joinedTooLong
  | repeatedTooLong
  | divisionByZero
  | integerDivisionByZero
  | floatDivisionByZero
  | floatFloorByZero
  | floatModuloByZero
  | tooManyArguments (function : String) (params given : Nat)
  | missingArguments (function : String) (missing : List String)
  | recursionLimit
  | notCallable (type : String)
  | atMost (builtin : String) (most given : Nat)
  | notOneArgument (builtin : String) (given : Nat)
  | noLength (type : String)
  | notNumeric (type : String)
  | notInteger (literal : String)
  | outsideIntegers (number : String)
  | endOfInput
  | interrupted
  | superseded
  | worded (kind : Exception.Kind) (message : String)
deriving DecidableEq, Repr

namespace Exception.Cause

def kind : Exception.Cause → Exception.Kind
  | unbound _ => .name
  | operands .. | unordered .. | negation _ | tooManyArguments .. | missingArguments ..
  | notCallable _ | atMost .. | notOneArgument .. | noLength _ | notNumeric _ => .type
  | integerOverflow | joinedTooLong | repeatedTooLong | outsideIntegers _ => .overflow
  | divisionByZero | integerDivisionByZero | floatDivisionByZero | floatFloorByZero
  | floatModuloByZero => .zeroDivision
  | recursionLimit => .recursion
  | notInteger _ => .value
  | endOfInput => .endOfFile
  | interrupted => .keyboardInterrupt
  | superseded => .runtime
  | worded kind _ => kind

def plural (n : Nat) : String :=
  if n = 1 then "" else "s"

def enumeration (names : List String) : String :=
  match names.map fun n => "'" ++ n ++ "'" with
  | [] => ""
  | [a] => a
  | [a, b] => a ++ " and " ++ b
  | all => String.intercalate ", " all.dropLast ++ ", and " ++ all.getLastD ""

def message : Exception.Cause → String
  | unbound name => "name '" ++ name ++ "' is not defined"
  | operands op a b => "unsupported operand type(s) for " ++ op ++ ": '" ++ a ++ "' and '" ++ b ++ "'"
  | unordered op a b =>
    "'" ++ op ++ "' not supported between instances of '" ++ a ++ "' and '" ++ b ++ "'"
  | negation type => "bad operand type for unary -: '" ++ type ++ "'"
  | integerOverflow => "integer overflow"
  | joinedTooLong => "joined string is too long"
  | repeatedTooLong => "repeated string is too long"
  | divisionByZero => "division by zero"
  | integerDivisionByZero => "integer division or modulo by zero"
  | floatDivisionByZero => "float division by zero"
  | floatFloorByZero => "float floor division by zero"
  | floatModuloByZero => "float modulo"
  | tooManyArguments function params given =>
    function ++ "() takes " ++ toString params ++ " positional argument" ++ plural params ++
      " but " ++ toString given ++ (if given = 1 then " was" else " were") ++ " given"
  | missingArguments function missing =>
    function ++ "() missing " ++ toString missing.length ++ " required positional argument" ++
      plural missing.length ++ ": " ++ enumeration missing
  | recursionLimit => "maximum recursion depth exceeded"
  | notCallable type => "'" ++ type ++ "' object is not callable"
  | atMost builtin most given =>
    builtin ++ " expected at most " ++ toString most ++ " argument" ++ plural most ++
      ", got " ++ toString given
  | notOneArgument builtin given =>
    builtin ++ "() takes exactly one argument (" ++ toString given ++ " given)"
  | noLength type => "object of type '" ++ type ++ "' has no len()"
  | notNumeric type => "int() argument must be a string or a number, not '" ++ type ++ "'"
  | notInteger literal => "invalid literal for int() with base 10: " ++ literal
  | outsideIntegers number => "cannot convert float " ++ number ++ " to integer"
  | endOfInput => "EOF when reading a line"
  | interrupted => ""
  | superseded => "input request was superseded"
  | worded _ message => message

end Exception.Cause

structure Exception.Entry where
  file : String
  line : Nat
  function : String
deriving DecidableEq, Repr

/-- Where the innermost activation stood. -/
structure Exception.Origin where
  chunk : Chunk
  offset : Nat
  line : Nat

/-- The traceback has the outermost activation first. -/
structure Exception where
  cause : Exception.Cause
  traceback : List Exception.Entry
  origin : Option Exception.Origin

namespace Exception

def raised (cause : Cause) : Exception :=
  ⟨cause, [], none⟩

def kind (e : Exception) : Kind :=
  e.cause.kind

def message (e : Exception) : String :=
  e.cause.message

def summary (e : Exception) : String :=
  if e.message.isEmpty then e.kind.title else e.kind.title ++ ": " ++ e.message

end Exception

/-- Why an activation ended without a value. -/
inductive Unwind
  | exception (e : Exception)
  | cancelled
  | fault (reason : String)

def Unwind.raise (cause : Exception.Cause) : Unwind :=
  .exception (.raised cause)

end Stepwise
