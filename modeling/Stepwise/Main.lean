import Stepwise.Program

/-! The command line. A program on the console takes lines of the standard input when it wants
them, writes to the standard output, and shows its prompts on the standard error. The adapter
looks for the next message of its client while the run moves on, a slice of steps at a time. -/

namespace Stepwise.Program

/-- The number of steps between two looks at what else there is to do. -/
def slice : Nat := 20000

def patience : Nat := 1000000

def reasonOf (e : IO.Error) : String :=
  match e with
  | .noFileOrDirectory .. => PathFault.missing.reason
  | .inappropriateType _ 21 _ => PathFault.isFolder.reason
  | .inappropriateType .. => PathFault.noFolder.reason
  | .invalidArgument _ _ "name too long" => PathFault.tooLong.reason
  | e => toString e

def readText (path : String) : IO (Except String String) := do
  if let .error e := Folder.namesOf path then return .error e.reason
  try
    match String.fromUTF8? (← IO.FS.readBinFile path) with
    | some text => return .ok text
    | none => return .error PathFault.noText.reason
  catch e => return .error (reasonOf e)

def knowing (path : String) (found : Except String String) : FileSystem := fun p =>
  if p = path then found else .error PathFault.missing.reason

/-- Creates a file if there is none, and says why nothing can be appended to it, if that is so. -/
def openFile (path : String) : IO (Option String) := do
  try
    let _ ← IO.FS.Handle.mk path .append
    return none
  catch e => return some (reasonOf e)

def logStream (settings : Settings) : IO IO.FS.Stream := do
  match settings.log.file with
  | none => IO.getStderr
  | some path => return .ofHandle (← IO.FS.Handle.mk path .append)

def emit (stream : IO.FS.Stream) (text : String) : IO Unit := do
  unless text.isEmpty do
    stream.putStr text
    stream.flush

def nextLine : IO (Option String) := do
  return (Text.linesOf (← (← IO.getStdin).getLine)).head?

/-- Writes what was not written yet: the part of the output from `shown` on, and the prompts. -/
def present (d : Drive) (shown : Nat) : IO Drive := do
  let output := d.session.shared.console.output
  emit (← IO.getStdout) (String.join ((output.extract shown output.size).toList.map screenText))
  emit (← IO.getStderr) d.shown
  return { d with shown := "" }

/-- Runs to the end. -/
partial def converse (d : Drive) (shown : Nat) : IO UInt32 := do
  let count := d.session.shared.console.output.size
  let d ← present d shown
  match d.phase with
  | .over o => return o.exitCode.toUInt32
  | .failed e =>
    emit (← IO.getStderr) (complaint e.message)
    return misuseCode.toUInt32
  | _ =>
    if d.wantsLine then converse (d.give (← nextLine)) count
    else converse (d.step slice) count

/-- The bytes of a line, with its end. -/
partial def lineBytes (input : IO.FS.Stream) (done : ByteArray) : IO ByteArray := do
  let next ← input.read 1
  let done := done ++ next
  if next.isEmpty || next.toList.contains Frame.lineFeed then return done
  else lineBytes input done

/-- As many bytes as this, or all that are left. -/
partial def bodyBytes (input : IO.FS.Stream) (count : Nat) (done : ByteArray) : IO ByteArray := do
  if count ≤ done.size then return done
  let next ← input.read (count - done.size).toUSize
  if next.isEmpty then return done else bodyBytes input count (done ++ next)

/-- The first message of a stream; `header` has been read of it. -/
partial def nextMessage (input : IO.FS.Stream) (header : ByteArray) :
    IO (Except Frame.Fault (Option Message)) := do
  let line ← lineBytes input .empty
  let header := header ++ line
  match (Frame.readHeader none header.toList).1 with
  | .ok none => if line.isEmpty then return .ok none else nextMessage input header
  | .ok (some count) =>
    let body ← bodyBytes input count .empty
    return (Frame.read (header.toList ++ body.toList)).1
  | .error e => return .error e

def deliver (log : IO.FS.Stream) (sent noted : Nat) (s : Server) : IO Unit := do
  emit (← IO.getStdout) (String.join ((s.sent.toList.drop sent).map Frame.write))
  emit log (logText s.settings (s.log.toList.drop noted))

def filesFor (m : Message) : IO FileSystem := do
  match Server.pathWanted? m with
  | some path => return knowing path (← readText path)
  | none => return fun _ => .error PathFault.missing.reason

/-- Milliseconds between two looks at what a client that waits may have sent. -/
def pause : UInt32 := 10

/-- Serves until the client disconnects or its messages end. -/
partial def attend (log : IO.FS.Stream)
    (coming : Task (Except IO.Error (Except Frame.Fault (Option Message)))) (s : Server) :
    IO UInt32 := do
  let (sent, noted) := (s.sent.size, s.log.size)
  if ← IO.hasFinished coming then
    match coming.get with
    | .ok (.ok (some m)) =>
      let (connected, s) := s.handle (← filesFor m) patience m
      let s := if connected then s.pump else s
      deliver log sent noted s
      if connected then
        attend log (← IO.asTask (nextMessage (← IO.getStdin) .empty) .dedicated) s
      else return 0
    | .ok (.error e) =>
      deliver log sent noted (noteFault s e)
      return 0
    | _ => return 0
  else
    let resting := s.session.all Session.isIdle
    let s := (s.work slice).pump
    deliver log sent noted s
    if resting then IO.sleep pause
    attend log coming s

end Stepwise.Program

open Stepwise Program in
def main (args : List String) : IO UInt32 := do
  match ← plan readText openFile args with
  | .stop code out err =>
    emit (← IO.getStdout) out
    emit (← IO.getStderr) err
    return code.toUInt32
  | .file settings mode path =>
    match (← readText path).mapError unreadable with
    | .error text =>
      emit (← IO.getStderr) text
      return misuseCode.toUInt32
    | .ok source =>
      match begin settings mode path source with
      | .ok d => converse d 0
      | .error e =>
        emit (← IO.getStderr) (complaint e.message)
        return misuseCode.toUInt32
  | .adapter settings =>
    let first ← IO.asTask (nextMessage (← IO.getStdin) .empty) .dedicated
    attend (← logStream settings) first (.new settings)
