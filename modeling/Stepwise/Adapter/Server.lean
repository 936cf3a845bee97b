import Stepwise.Adapter.Message
import Stepwise.Debug.Wire
import Stepwise.Folder
import Stepwise.Log.Record
import Stepwise.Session.Controller
import Stepwise.Settings

/-! The debug adapter: it answers the requests of a client and tells it of the output, the pauses
and the end of the run. Every message it sends bears the number after that of the one before. -/

namespace Stepwise

/-- A server with what it has sent, how much of the output of its terminal was forwarded, and the
path of the program that was read last. -/
structure Server where
  settings : Settings
  sent : Array Message
  session : Option Session
  forwarded : Nat
  programPath : Option String
  log : Array Log.Record

namespace Server

def new (settings : Settings) : Server :=
  ⟨settings, #[], none, 0, none, #[]⟩

def target : String := "step_debugger::dap"

def send (s : Server) (type : String) (content : Message.Content) : Server :=
  { s with sent := s.sent.push ⟨s.sent.size + 1, type, content⟩ }

def respond (s : Server) (seq : Nat) (command : String) (body : Option Json) : Server :=
  s.send "response" (.response seq true command none body)

def warn (s : Server) (message : String) (details : List Log.Detail) : Server :=
  { s with log := s.log.push ⟨.warn, target, message, details⟩ }

def refuse (s : Server) (seq : Nat) (command reason : String) : Server :=
  (s.warn "request failed" [.named "command" command, .plain reason]).send "response"
    (.response seq false command (some reason) none)

def announce (s : Server) (name : String) (body : Option Json) : Server :=
  s.send "event" (.event name body)

def isActive (s : Server) : Bool :=
  s.session.any Session.isActive

/-! Telling the client of the run. -/

def outputBody (text : String) : Json :=
  .obj [("category", .str "stdout"), ("output", .str text)]

/-- Sends a text that the terminal was asked to show; nothing is told of the cursor. -/
def forward (s : Server) : Display → Server
  | .text text => s.announce "output" (some (outputBody text))
  | .cursor _ => s

def flush (s : Server) : Server :=
  match s.session with
  | none => s
  | some session =>
    let output := session.shared.console.output
    let s := (output.toList.drop s.forwarded).foldl forward s
    { s with forwarded := output.size }

def stoppedBody (p : Pause) : Json :=
  .obj [("reason", .str "step"), ("threadId", Json.nat 1), ("allThreadsStopped", .bool true),
    ("pause", Json.nat p.seq), ("highlight", p.highlight.toJson), ("loadedValue", p.hint.toJson)]

def tell (s : Server) : SessionEvent → Server
  | .paused p => s.announce "stopped" (some (stoppedBody p))
  | .terminated o =>
    (s.flush.announce "terminated" (some o.toJson)).announce "exited"
      (some (.obj [("exitCode", Json.nat o.exitCode)]))

/-- Sends what the events that wait tell; a run has no more than `fuel` of them. -/
def tellAll : Nat → Server → Server
  | 0, s => s
  | fuel + 1, s =>
    match s.session.map Session.poll with
    | some (.ok (some e, session)) => tellAll fuel ({ s with session := some session }.tell e)
    | _ => s

def eventCount (s : Server) : Nat :=
  ((s.session.bind fun session => session.shared.events).map List.length).getD 0

def pump (s : Server) : Server :=
  tellAll s.eventCount s.flush

/-- Lets the run move up to its next event, at most `patience` steps. -/
def work (s : Server) (patience : Nat) : Server :=
  { s with session := s.session.map (·.work Shared.hasEvent patience) }

/-- Whether an event of this name was sent after the first `n` messages. -/
def hasAnnounced (s : Server) (name : String) (n : Nat) : Bool :=
  (s.sent.toList.drop n).any fun m =>
    match m.content with
    | .event e _ => e == name
    | _ => false

/-- Lets the run move and tells of it until one more event of this name was sent, at most `fuel`
turns of `patience` steps. -/
def tellUntil (name : String) (patience : Nat) (s : Server) (fuel : Nat) : Server :=
  let rec turn : Nat → Server → Server
    | 0, t => t
    | fuel + 1, t =>
      let t := (t.work patience).pump
      if t.hasAnnounced name s.sent.size then t.pump else turn fuel t
  turn fuel s

/-! Requests. -/

def capabilities : Json :=
  .obj [("supportsConfigurationDoneRequest", .bool true), ("supportsTerminateRequest", .bool true),
    ("supportsStepBack", .bool false), ("supportsFunctionBreakpoints", .bool false),
    ("supportsConditionalBreakpoints", .bool false), ("supportsSetVariable", .bool false)]

def greet (s : Server) (seq : Nat) (command : String) : Server :=
  (s.respond seq command (some capabilities)).announce "initialized" none

def argument? (arguments : Option Json) (name : String) : Option Json :=
  arguments.bind (·.field? name)

def textArgument? (arguments : Option Json) (name : String) : Option String :=
  (argument? arguments name).bind Json.asStr?

def beginRun (s : Server) (seq : Nat) (command : String) (job : Job) : Server :=
  if s.isActive then s.refuse seq command SessionFault.alreadyActive.message
  else
    match (Session.new s.settings.recursionLimit Hint.standard).start job with
    | .error e => s.refuse seq command e.message
    | .ok session => { s with session := some session, forwarded := 0 }.respond seq command none

/-- Runs the source in the arguments, or else the program whose path they hold. -/
def launch (fs : FileSystem) (s : Server) (seq : Nat) (command : String)
    (arguments : Option Json) : Server :=
  let noDebug := ((argument? arguments "noDebug").bind Json.asBool?).getD false
  let mode := if noDebug then RunMode.normal else .debug
  match textArgument? arguments "source", textArgument? arguments "program" with
  | some source, _ =>
    let name := (textArgument? arguments "name").getD s.settings.unitName
    s.beginRun seq command ⟨source, name, mode⟩
  | none, some program =>
    match fs program with
    | .ok source =>
      let name := (Files.lastName? program).getD s.settings.unitName
      { s with programPath := some program }.beginRun seq command ⟨source, name, mode⟩
    | .error reason => s.refuse seq command ("cannot read " ++ program ++ ": " ++ reason)
  | none, none => s.refuse seq command "launch needs 'program' or 'source'"

def threadsBody : Json :=
  .obj [("threads", .arr [.obj [("id", Json.nat 1), ("name", .str "main")]])]

def notPaused : String := "not paused"

/-- The pause at which the run waits, and its session. -/
def pause? (s : Server) : Option (Session × Pause) :=
  s.session.bind fun session => session.state.pause?.map (session, ·)

/-- One frame of a stack. The innermost one shows the range of the pause. -/
def frameBody (path : Option String) (highlight : Range) (index : Nat) (e : StackEntry) : Json :=
  let place :=
    if index = 0 then
      [("line", Json.nat highlight.startLine), ("column", Json.nat (highlight.startColumn.getD 1)),
        ("endLine", Json.nat highlight.endLine), ("endColumn", Json.nat (highlight.endColumn.getD 1))]
    else [("line", Json.nat e.line), ("column", Json.nat 1)]
  .obj ([("id", Json.nat index), ("name", .str e.function)] ++ place ++
    [("source", .obj [("name", .str e.file), ("path", .str (path.getD e.file))])])

def stackTrace (s : Server) (seq : Nat) (command : String) : Server :=
  match s.pause? with
  | none => s.refuse seq command notPaused
  | some (session, p) =>
    match session.gallery.stack p.snapshot with
    | .error e => s.refuse seq command e.message
    | .ok stack =>
      let frames := stack.zipIdx.map fun (e, i) => frameBody s.programPath p.highlight i e
      s.respond seq command
        (some (.obj [("stackFrames", .arr frames), ("totalFrames", Json.nat frames.length)]))

def localsRef : Nat := 1

def globalsRef : Nat := 2

def scopesBody : Json :=
  let scope (name : String) (ref : Nat) : Json :=
    .obj [("name", .str name), ("variablesReference", Json.nat ref), ("expensive", .bool false)]
  .obj [("scopes", .arr [scope "Locals" localsRef, scope "Globals" globalsRef])]

def variableBody (e : String × Value) : Json :=
  .obj [("name", .str e.1), ("value", .str e.2.repr), ("type", .str e.2.typeName),
    ("variablesReference", Json.nat 0)]

def scopeOf (g : Gallery) (s : Snapshot) (ref : Nat) : Except DebugFault Scope :=
  if ref = localsRef then g.locals s
  else if ref = globalsRef then g.globals s
  else .ok .empty

def variableList (s : Server) (seq : Nat) (command : String) (arguments : Option Json) : Server :=
  let ref := ((argument? arguments "variablesReference").bind Json.asNat?).getD 0
  match s.pause? with
  | none => s.refuse seq command notPaused
  | some (session, p) =>
    match scopeOf session.gallery p.snapshot ref with
    | .error e => s.refuse seq command e.message
    | .ok scope =>
      s.respond seq command (some (.obj [("variables", .arr (scope.entries.map variableBody))]))

def resume (s : Server) (seq : Nat) (command : String) (d : Decision) : Server :=
  match s.session.map fun session : Session => session.resume d with
  | none => s.refuse seq command SessionFault.notActive.message
  | some (.error e, session) => { s with session := some session }.refuse seq command e.message
  | some (.ok (), session) =>
    { s with session := some session }.respond seq command <|
      match d with
      | .stopDebugging => some (.obj [("allThreadsContinued", .bool true)])
      | .continueStepping => none

def interrupt (s : Server) : Server :=
  if s.isActive then { s with session := s.session.map Session.interrupt } else s

def terminate (s : Server) (seq : Nat) (command : String) : Server :=
  if s.isActive then s.interrupt.respond seq command none
  else s.refuse seq command SessionFault.notActive.message

def terminalInput (s : Server) (seq : Nat) (command : String) (arguments : Option Json) : Server :=
  match s.session with
  | none => s.refuse seq command "no terminal is attached"
  | some session =>
    let data := (textArgument? arguments "data").getD ""
    { s with session := some (session.mapConsole (·.feed data)) }.respond seq command none

/-- Tells what is still to come of the run, in at most `fuel` turns. -/
def drain (patience : Nat) : Nat → Server → Server
  | 0, s =>
    let s := s.pump
    if s.isActive then s.warn "run did not stop before disconnect" [] else s
  | fuel + 1, s =>
    let s := s.pump
    if s.isActive then drain patience fuel (s.work patience) else s

/-- The number of turns in which an interrupted run ends: an event that waits, a pause, and the
end. -/
def drainTurns : Nat := 4

def disconnect (patience : Nat) (s : Server) (seq : Nat) (command : String) : Server :=
  (drain patience drainTurns s.interrupt).respond seq command none

def request (fs : FileSystem) (patience : Nat) (s : Server) (seq : Nat) (command : String)
    (arguments : Option Json) : Server :=
  match command with
  | "initialize" => s.greet seq command
  | "launch" => s.launch fs seq command arguments
  | "configurationDone" => s.respond seq command none
  | "threads" => s.respond seq command (some threadsBody)
  | "stackTrace" => s.stackTrace seq command
  | "scopes" => s.respond seq command (some scopesBody)
  | "variables" => s.variableList seq command arguments
  | "next" | "stepIn" => s.resume seq command .continueStepping
  | "continue" => s.resume seq command .stopDebugging
  | "terminate" | "pause" => s.terminate seq command
  | "terminalInput" => s.terminalInput seq command arguments
  | "disconnect" => s.disconnect patience seq command
  | _ =>
    (s.warn "unhandled command" [.named "command" command]).refuse seq command
      ("unsupported request '" ++ command ++ "'")

/-- Answers a message, which needs an answer only if it is a request. The client stays connected
unless it asks for the opposite. -/
def handle (fs : FileSystem) (patience : Nat) (s : Server) (m : Message) : Bool × Server :=
  match m.content with
  | .request command arguments =>
    (command ≠ "disconnect", s.request fs patience m.seq command arguments)
  | _ => (true, s)

def pathWanted? (m : Message) : Option String :=
  match m.content with
  | .request "launch" arguments =>
    if (textArgument? arguments "source").isSome then none else textArgument? arguments "program"
  | _ => none

end Server

end Stepwise
