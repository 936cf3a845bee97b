import Stepwise.Prompt.Dialogue
import Stepwise.Text.Words

/-! One run on a console. Lines of input answer the prompts of pauses; while the program waits for
input they are typed into the terminal instead. When there are no more lines, a prompt ends the
run, and a read gets the end of input. How a line is divided into words is the affair of another
library, and a field of the state. -/

namespace Stepwise

inductive Drive.Phase
  | running
  | prompting (p : Pause)
  | over (o : Outcome)
  | failed (e : SessionFault)

/-- The flag `closed` says whether the input has ended, `shown` is what the prompts have shown, and
`words?` divides a line into words. -/
structure Drive where
  session : Session
  closed : Bool
  phase : Drive.Phase
  shown : String
  words? : String → Option (List String)

namespace Drive

def start (s : Session) (job : Job) : Except SessionFault Drive :=
  (s.start job).map fun s => ⟨s, false, .running, "", Text.words?⟩

def say (d : Drive) (text : String) : Drive :=
  { d with shown := d.shown ++ text }

def mark : String := "> "

def quit (d : Drive) : Drive :=
  { d with session := d.session.interrupt, phase := .running }

def ask (d : Drive) (p : Pause) : Drive :=
  let d := d.say mark
  if d.closed then d.quit else { d with phase := .prompting p }

def resume (d : Drive) (decision : Decision) : Drive :=
  match d.session.resume decision with
  | (.ok (), session) => { d with session, phase := .running }
  | (.error e, session) => { d with session, phase := .failed e }

def poll (d : Drive) : Drive :=
  match d.session.poll with
  | .error e => { d with phase := .failed e }
  | .ok (none, session) => { d with session }
  | .ok (some (.paused p), session) => ({ d with session }.say (Dialogue.pauseText session.files p)).ask p
  | .ok (some (.terminated o), session) =>
    { d with session, phase := .over o }.say (Dialogue.outcomeText o)

/-- Does what a line, or the end of the input, is to do at a prompt. -/
def answer (d : Drive) (p : Pause) : Option String → Drive
  | none => ({ d with closed := true }.say "\n").quit
  | some text =>
    match Command.ofLine d.words? text with
    | .resume decision => d.resume decision
    | .quit => d.quit
    | command => (d.say (Dialogue.answer d.session.gallery p.snapshot command)).ask p

def type (d : Drive) : Option String → Drive
  | some text => { d with session := d.session.mapConsole fun c => (c.feed text).feed "\r" }
  | none => { d with closed := true }

def endOfInput : String := "\x04"

/-- Whether the program waits for input, and nothing else happens. -/
def isReading (d : Drive) : Bool :=
  !d.session.shared.hasEvent && d.session.shared.console.isPending && d.session.isIdle

/-- Lets the run move, at most `patience` steps, and takes its next event. A read beyond the end
of the input gets that. -/
def step (d : Drive) (patience : Nat) : Drive :=
  match d.phase with
  | .running =>
    let d := { d with session := d.session.work Shared.hasEvent patience }
    if d.closed && d.isReading then
      { d with session := d.session.mapConsole (·.feed endOfInput) }
    else d.poll
  | _ => d

def wantsLine (d : Drive) : Bool :=
  match d.phase with
  | .prompting _ => true
  | .running => !d.closed && d.isReading
  | _ => false

def give (d : Drive) (text : Option String) : Drive :=
  match d.phase with
  | .prompting p => d.answer p text
  | _ => d.type text

/-- An interrupt while a command is waited for ends the run. -/
def notice (d : Drive) : Drive :=
  match d.phase with
  | .prompting _ => if d.session.shared.cell.isSet then (d.say "\n").quit else d
  | _ => d

/-- Runs to the end with these lines as input: the lines that were not taken, and the last
state. -/
def finish (patience : Nat) : Nat → Drive → List String → List String × Drive
  | 0, d, lines => (lines, d)
  | fuel + 1, d, lines =>
    match d.phase with
    | .over _ | .failed _ => (lines, d)
    | _ =>
      if d.wantsLine then finish patience fuel (d.give lines.head?) lines.tail
      else finish patience fuel (d.step patience) lines

end Drive

end Stepwise
