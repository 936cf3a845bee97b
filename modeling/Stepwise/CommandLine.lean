import Stepwise.Settings
import Stepwise.Debug.Pause

/-! The arguments of the command line. Options stand before the command; an option that takes a
value has it behind an equality sign or as the next argument. -/

namespace Stepwise

structure Invocation where
  adapter : Bool
  config : Option String
  logLevel : Option String
  logFormat : Option Log.Format
  logFile : Option String
  command : Option (RunMode × String)

namespace Invocation

inductive Topic
  | program
  | command (mode : RunMode)
  | help
deriving DecidableEq, Repr

inductive Stop
  | help (topic : Topic)
  | version
  | misuse (reason : String)
deriving DecidableEq, Repr

def empty : Invocation :=
  ⟨false, none, none, none, none, none⟩

def once {α : Type} (name : String) (old : Option α) (new : α) : Except Stop (Option α) :=
  match old with
  | none => .ok (some new)
  | some _ => .error (.misuse ("the argument '" ++ name ++ "' cannot be used multiple times"))

def path (name value : String) : Except Stop String :=
  if value.isEmpty then .error (.misuse ("a value is required for '" ++ name ++ "'")) else .ok value

def takesValue (name : String) : Bool :=
  ["--config", "--log-level", "--log-format", "--log-file"].contains name

def isAdapterFlag (name : String) : Bool :=
  name == "--dap" || name == "--debug-adapter"

def set (i : Invocation) (name value : String) : Except Stop Invocation := do
  match name with
  | "--config" => return { i with config := ← once name i.config (← path name value) }
  | "--log-level" => return { i with logLevel := ← once name i.logLevel value }
  | "--log-file" => return { i with logFile := ← once name i.logFile (← path name value) }
  | _ =>
    match Log.Format.ofText value with
    | .ok f => return { i with logFormat := ← once name i.logFormat f }
    | .error e => throw (.misuse e.message)

def isOption (arg : String) : Bool :=
  arg.startsWith "-" && arg ≠ "-"

/-- The letter of an option behind a single hyphen. Those that there are end the reading, so that
more letters behind it have no effect. -/
def letter? (arg : String) : Option Char :=
  match arg.toList with
  | '-' :: c :: _ => if c = '-' then none else some c
  | _ => none

def unexpected (arg : String) : Stop :=
  .misuse ("unexpected argument '" ++ arg ++ "' found")

/-- The file of a command. Behind two hyphens nothing is an option. -/
def fileOf (mode : RunMode) (plain : Bool) (file : Option String) :
    List String → Except Stop String
  | [] => file.elim (.error (.misuse "a file is required")) .ok
  | arg :: rest =>
    if !plain && arg == "--" then fileOf mode true file rest
    else if !plain && (arg == "--help" || letter? arg == some 'h') then
      .error (.help (.command mode))
    else if !plain && isOption arg then .error (unexpected arg)
    else if file.isSome then .error (unexpected arg)
    else do fileOf mode plain (some (← path "<FILE>" arg)) rest

def commandMode? (word : String) : Option RunMode :=
  match word with
  | "run" => some .normal
  | "debug" => some .debug
  | _ => none

/-- What the words behind the command for help ask for: at most one command. -/
def topicOf : List String → Except Stop Topic
  | [] => .ok .program
  | [word] =>
    if word = "help" then .ok .help
    else (commandMode? word).elim (.error (unexpected word)) fun mode => .ok (.command mode)
  | _ :: word :: _ => .error (unexpected word)

def commandOf (word : String) (rest : List String) : Except Stop (RunMode × String) :=
  match commandMode? word with
  | some mode => do return (mode, ← fileOf mode false none rest)
  | none =>
    if word = "help" then topicOf rest >>= fun topic => .error (.help topic)
    else .error (unexpected word)

/-- The part of an option before an equality sign, and that behind it. -/
def divide (arg : String) : String × Option String :=
  let cs := arg.toList
  match cs.dropWhile (· ≠ '=') with
  | _ :: value => (String.ofList (cs.takeWhile (· ≠ '=')), some (String.ofList value))
  | [] => (arg, none)

def setFlag (i : Invocation) (arg : String) : Except Stop Invocation :=
  if isAdapterFlag arg then
    if i.adapter then .error (.misuse "the argument '--dap' cannot be used multiple times")
    else .ok { i with adapter := true }
  else if arg = "--help" || letter? arg = some 'h' then .error (.help .program)
  else if arg = "--version" || letter? arg = some 'V' then .error .version
  else .error (unexpected arg)

/-- Reads on behind `i`. A value that is an argument of its own is looked at only when the next
option comes or the command has been read, so its fault can be pending. -/
def parseFrom (i : Except Stop Invocation) : List String → Except Stop Invocation
  | [] => i
  | ["--"] => i
  | "--" :: arg :: _ => .error (unexpected arg)
  | arg :: rest =>
    if !isOption arg then do
      let command ← commandOf arg rest
      return { (← i) with command := some command }
    else
      let (name, value) := divide arg
      if !takesValue name then do parseFrom (.ok (← (← i).setFlag arg)) rest
      else
        match value, rest with
        | some value, rest => do parseFrom (.ok (← (← i).set name value)) rest
        | none, value :: rest =>
          if isOption value then .error (.misuse ("a value is required for '" ++ name ++ "'"))
          else do parseFrom ((← i).set name value) rest
        | none, [] => .error (.misuse ("a value is required for '" ++ name ++ "'"))

def parse (args : List String) : Except Stop Invocation :=
  parseFrom (.ok empty) args

def override (i : Invocation) (s : Settings) : Settings :=
  { s with
    log := { s.log with
      level := i.logLevel.getD s.log.level
      format := i.logFormat.getD s.log.format
      file := i.logFile.or s.log.file } }

/-- The settings of the file that an invocation names, or those that need none. -/
def settingsFile {m : Type → Type} [Monad m] (i : Invocation)
    (read : String → m (Except String String)) : m (Except Settings.Fault Settings) :=
  match i.config with
  | none => return .ok Settings.standard
  | some path => do
    match ← read path with
    | .ok text => return Settings.read path text
    | .error reason => return .error (.unreadable path reason)

def settings {m : Type → Type} [Monad m] (i : Invocation)
    (read : String → m (Except String String)) : m (Except Settings.Fault Settings) := do
  let base ← i.settingsFile read
  return do
    let s := i.override (← base)
    s.check
    return s

end Invocation

end Stepwise
