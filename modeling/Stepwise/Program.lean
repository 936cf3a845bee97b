import Stepwise.Adapter.Frame
import Stepwise.Adapter.Server
import Stepwise.CommandLine
import Stepwise.Prompt.Drive

/-! The program as a whole: what it writes and how it ends, by its arguments and its input. -/

namespace Stepwise

namespace Program

def screenText : Display → String
  | .text s => s
  | .cursor true => "\x1b[?25h"
  | .cursor false => "\x1b[?25l"

def complaint (message : String) : String :=
  "❌ " ++ message ++ "\n"

def nothingToDo : String :=
  "Nothing to do: pass \x60run FILE\x60, \x60debug FILE\x60 or --dap (see --help)\n"

def misuseCode : Nat := 2

def usage : Invocation.Topic → String
  | .program => "Usage: step-debugger [OPTIONS] [COMMAND]\n"
  | .command .normal => "Usage: step-debugger run <FILE>\n"
  | .command .debug => "Usage: step-debugger debug <FILE>\n"
  | .help => "Usage: step-debugger help [COMMAND]...\n"

def summary : Invocation.Topic → String
  | .program => "Step through programs one instruction at a time"
  | .command .normal => "Run a program without tracing"
  | .command .debug => "Run a program, pausing before each statement"
  | .help => "Print this message or the help of the given subcommand(s)"

def choices : Invocation.Topic → String
  | .program =>
    "Commands:\n" ++
      "  run    " ++ summary (.command .normal) ++ "\n" ++
      "  debug  " ++ summary (.command .debug) ++ "\n" ++
      "  help   " ++ summary .help ++ "\n\nOptions:\n" ++
      "      --dap                  Serve the debug adapter protocol on stdin/stdout\n" ++
      "      --config <FILE>        JSON configuration file\n" ++
      "      --log-level <LEVEL>    Log level override (error, warn, info, debug, trace)\n" ++
      "      --log-format <FORMAT>  Log format override (pretty, compact, json)\n" ++
      "      --log-file <FILE>      Append logs to this file instead of stderr\n" ++
      "  -h, --help                 Print help\n" ++
      "  -V, --version              Print version\n"
  | .command _ => "Arguments:\n  <FILE>  \n\nOptions:\n  -h, --help  Print help\n"
  | .help => "Arguments:\n  [COMMAND]...  Print help for the subcommand(s)\n"

def help (topic : Invocation.Topic) : String :=
  summary topic ++ "\n\n" ++ usage topic ++ "\n" ++ choices topic

inductive Plan
  | stop (code : Nat) (out err : String)
  | file (settings : Settings) (mode : RunMode) (path : String)
  | adapter (settings : Settings)

def versionText : String :=
  "step-debugger 0.1.0\n"

def refusal (message : String) : Plan :=
  .stop misuseCode "" (complaint message)

/-- Opens the file for records, if there is one, and says why it cannot be written to. -/
def logRefusal? {m : Type → Type} [Monad m] (append : String → m (Option String))
    (settings : Settings) : m (Option Settings.Fault) :=
  match settings.log.file with
  | none => return none
  | some path => return (← append path).map (.unreadable path)

/-- The adapter goes before a command. `read` gives a text, and `append` says why a file for
records cannot be written to, if it cannot. -/
def plan {m : Type → Type} [Monad m] (read : String → m (Except String String))
    (append : String → m (Option String)) (args : List String) : m Plan := do
  match Invocation.parse args with
  | .error (.help topic) => return .stop 0 (help topic) ""
  | .error .version => return .stop 0 versionText ""
  | .error (.misuse reason) =>
    return .stop misuseCode "" ("error: " ++ reason ++ "\n\n" ++ usage .program)
  | .ok i =>
    match ← i.settings read with
    | .error e => return refusal e.message
    | .ok settings =>
      match ← logRefusal? append settings with
      | some e => return refusal e.message
      | none =>
        if i.adapter then return .adapter settings
        else
          match i.command with
          | some (mode, path) => return .file settings mode path
          | none => return .stop misuseCode "" nothingToDo

def unreadable (reason : String) : String :=
  complaint ("console I/O failed: " ++ reason)

def begin (settings : Settings) (mode : RunMode) (path source : String) :
    Except SessionFault Drive :=
  Drive.start (.new settings.recursionLimit Hint.standard)
    ⟨source, (Files.lastName? path).getD settings.unitName, mode⟩

/-- What became of a run on the console, or of an attempt at one. -/
structure Ending where
  code : Nat
  out : String
  err : String

def Ending.ofDrive (d : Drive) : Ending :=
  let out := String.join (d.session.shared.console.output.toList.map screenText)
  match d.phase with
  | .over o => ⟨o.exitCode, out, d.shown⟩
  | .failed e => ⟨misuseCode, out, d.shown ++ complaint e.message⟩
  | _ => ⟨misuseCode, out, d.shown⟩

/-- Runs a file of a folder, with the lines that are left of the standard input, at most `fuel`
turns of `patience` steps. -/
def runFile (folder : Folder) (settings : Settings) (mode : RunMode) (path : String)
    (patience fuel : Nat) : Ending :=
  match (Folder.read path).run folder with
  | (.error reason, _) => ⟨misuseCode, "", unreadable reason⟩
  | (.ok source, folder) =>
    match begin settings mode path source with
    | .error e => ⟨misuseCode, "", complaint e.message⟩
    | .ok d => .ofDrive (d.finish patience fuel (Text.linesOf folder.input)).2

/-- The text of the log of an adapter, as far as the filter lets it through. -/
def logText (settings : Settings) (log : List Log.Record) : String :=
  match settings.log.filter with
  | .error _ => ""
  | .ok f =>
    String.join ((log.filter fun r => f.enables r.target r.level).map
      (Log.Record.text settings.log.file.isNone))

def errorText (settings : Settings) (log : List Log.Record) : String :=
  if settings.log.file.isSome then "" else logText settings log

def noteFault (s : Server) (e : Frame.Fault) : Server :=
  s.warn "unreadable message" [.named "error" e.message]

/-- Handles the messages of a stream until it ends, a message cannot be read, or the client
disconnects, at most `fuel` messages. Says whether the client is still connected. -/
def serve (fs : FileSystem) (patience : Nat) : Nat → Server → List UInt8 → Bool × Server
  | 0, s, _ => (true, s)
  | fuel + 1, s, bytes =>
    match Frame.read bytes with
    | (.ok (some m), rest) =>
      match s.handle fs patience m with
      | (true, s) => serve fs patience fuel s.pump rest
      | (false, s) => (false, s)
    | (.ok none, _) => (true, s)
    | (.error e, _) => (true, noteFault s e)

end Program

end Stepwise
