import Stepwise.Json.Reader
import Stepwise.Log.Filter
import Stepwise.Text.Blank

/-! Settings, which a JSON text may give. What it leaves out has its default. A group of settings
is an object, in which no setting stands twice, or an array of the settings in order. -/

namespace Stepwise

inductive Log.Format
  | pretty
  | compact
  | json
deriving DecidableEq, Repr

structure LogSettings where
  level : String
  format : Log.Format
  file : Option String
  overrides : Dictionary String

/-- The polls are milliseconds between two looks at the interrupt cell. -/
structure Settings where
  log : LogSettings
  unitName : String
  recursionLimit : Nat
  gatePoll : Nat
  readPoll : Nat

namespace Settings

inductive Fault
  | unreadable (path reason : String)
  | malformed (path : String)
  | unknownFormat (text : String)
  | unknownLevel (setting text : String)
  | empty (setting : String)
  | zero (setting : String)
deriving DecidableEq, Repr

namespace Fault

def setting? : Fault → Option String
  | unreadable .. | malformed _ => none
  | unknownFormat _ => some "log.format"
  | unknownLevel setting _ | empty setting | zero setting => some setting

def reason : Fault → String
  | unreadable _ reason => reason
  | malformed _ => "not the JSON of settings"
  | unknownFormat text => "unknown format '" ++ text ++ "'"
  | unknownLevel _ text => "unknown level '" ++ text ++ "'"
  | empty _ => "must not be empty"
  | zero _ => "must be at least 1"

def message (e : Fault) : String :=
  match e, e.setting? with
  | _, some setting => "invalid value for " ++ setting ++ ": " ++ e.reason
  | unreadable path _, none => "failed to read config " ++ path ++ ": " ++ e.reason
  | malformed path, none => "invalid config " ++ path ++ ": " ++ e.reason
  | _, none => e.reason

end Fault

end Settings

namespace Log.Format

def name : Format → String
  | pretty => "pretty"
  | compact => "compact"
  | json => "json"

def ofName? (name : String) : Option Format :=
  [pretty, compact, json].find? fun f => f.name = name

def ofText (text : String) : Except Settings.Fault Format :=
  (ofName? text.toLower).elim (.error (.unknownFormat text.toLower)) .ok

end Log.Format

namespace LogSettings

def standard : LogSettings :=
  ⟨"warn", .compact, none, .empty⟩

def levelOf (setting text : String) : Except Settings.Fault Log.Level :=
  (Log.Level.ofText? text).elim (.error (.unknownLevel setting text)) .ok

def globalLevel (s : LogSettings) : Except Settings.Fault Log.Level :=
  levelOf "log.level" s.level

/-- The level of the override for exactly this target, or else the global one. -/
def levelFor (s : LogSettings) (target : String) : Except Settings.Fault Log.Level :=
  match s.overrides.get? target with
  | some text => levelOf "log.targets" text
  | none => s.globalLevel

def targets : List String :=
  ["gate", "session", "terminal", "dap", "vm"].map ("step_debugger::" ++ ·)

def filter (s : LogSettings) : Except Settings.Fault Log.Filter := do
  let fallback ← s.globalLevel
  let entries ← (targets ++ s.overrides.keys).mapM fun t => return (t, ← s.levelFor t)
  return ⟨fallback, .ofList entries⟩

end LogSettings

namespace Settings

def standard : Settings :=
  ⟨.standard, "main.py", 1000, 20, 20⟩

def members? (names : List String) (j : Json) : Option (List (Option Json)) :=
  match j with
  | .obj fields => names.mapM (Json.single? fields)
  | .arr items =>
    if names.length < items.length then none
    else some (items.map some ++ List.replicate (names.length - items.length) none)
  | _ => none

def orDefault {α : Type} (read : Json → Option α) (standard : α) : Option Json → Option α
  | some j => read j
  | none => some standard

def text? (j : Json) : Option (Option String) :=
  if j.isNull then some none else j.asStr?.map some

def texts? (j : Json) : Option (Dictionary String) := do
  return .ofList (← (← j.asObj?).mapM fun f => return (f.1, ← f.2.asStr?))

def log? (j : Json) : Option LogSettings := do
  let s := LogSettings.standard
  match ← members? ["level", "format", "file", "targets"] j with
  | [level, format, file, targets] =>
    return {
      level := ← orDefault Json.asStr? s.level level
      format := ← orDefault (fun j => j.asCase?.bind Log.Format.ofName?) s.format format
      file := ← orDefault text? s.file file
      overrides := ← orDefault texts? s.overrides targets }
  | _ => none

def ofJson? (j : Json) : Option Settings := do
  let s := standard
  match ← members? ["log", "unitName", "recursionLimit", "gatePollMs", "readPollMs"] j with
  | [log, unitName, recursionLimit, gatePoll, readPoll] =>
    return {
      log := ← orDefault log? s.log log
      unitName := ← orDefault Json.asStr? s.unitName unitName
      recursionLimit := ← orDefault Json.asNat? s.recursionLimit recursionLimit
      gatePoll := ← orDefault Json.asNat? s.gatePoll gatePoll
      readPoll := ← orDefault Json.asNat? s.readPoll readPoll }
  | _ => none

def requireLevel (setting text : String) : Except Fault Unit :=
  (LogSettings.levelOf setting text).map fun _ => ()

def requirePositive (setting : String) (n : Nat) : Except Fault Unit :=
  if n = 0 then .error (.zero setting) else .ok ()

def check (s : Settings) : Except Fault Unit := do
  requireLevel "log.level" s.log.level
  s.log.overrides.entries.forM fun e => requireLevel "log.targets" e.2
  if (Text.trim s.unitName.toList).isEmpty then .error (.empty "unitName")
  requirePositive "recursionLimit" s.recursionLimit
  requirePositive "gatePollMs" s.gatePoll
  requirePositive "readPollMs" s.readPoll

def read (path text : String) : Except Fault Settings :=
  match (Json.readLenient? text.toList).bind ofJson? with
  | none => .error (.malformed path)
  | some s => s.check.map fun _ => s

end Settings

end Stepwise
