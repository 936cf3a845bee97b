import Stepwise.Prompt.Command
import Stepwise.Session.Controller

/-! What the pause prompt shows: the pause itself, the answers to commands, and how the run
ended. -/

namespace Stepwise.Dialogue

def line (s : String) : String :=
  s ++ "\n"

def pauseTitle (p : Pause) : String :=
  let h := p.highlight
  "🔍 [" ++ toString p.seq ++ "] " ++ p.snapshot.chunk.file ++ ":" ++ toString h.startLine ++ ":" ++
    toString (h.startColumn.getD 1) ++ "-" ++ toString h.endLine ++ ":" ++
    toString (h.endColumn.getD 1)

/-- The pause, the line it is on, and the value about to be loaded. -/
def pauseText (files : Files) (p : Pause) : String :=
  let source := files.line? p.snapshot.chunk.file (max p.highlight.startLine 1)
  "\n" ++ line (pauseTitle p) ++ ((source.map fun l => line ("    " ++ l)).getD "") ++
    if p.hint.isSome then line ("    loaded: " ++ p.hint.text) else ""

def faultText (e : DebugFault) : String :=
  line ("❌ " ++ e.message)

def printText (g : Gallery) (s : Snapshot) : Option String → String
  | none => line "usage: p NAME"
  | some name =>
    match g.lookup s name with
    | .ok (some v) => line (name ++ " = " ++ v.repr)
    | .ok none => line ("❌ name '" ++ name ++ "' is not defined")
    | .error e => faultText e

def bindingsText : Except DebugFault Scope → String
  | .ok scope =>
    match scope.entries with
    | [] => line "    <empty>"
    | entries => String.join (entries.map fun e => line ("    " ++ e.1 ++ " = " ++ e.2.repr))
  | .error e => faultText e

def stackText : Except DebugFault (List StackEntry) → String
  | .ok entries =>
    String.join (entries.zipIdx.map fun (e, i) =>
      line ("  #" ++ toString i ++ ": " ++ e.function ++ " (" ++ e.file ++ ":" ++ toString e.line ++
        ")"))
  | .error e => faultText e

def helpText : String :=
  line "Commands: (n)ext/(s)tep, (c)ontinue, p NAME, locals, globals, where, (q)uit"

def answer (g : Gallery) (s : Snapshot) : Command → String
  | .print name => printText g s name
  | .locals => bindingsText (g.locals s)
  | .globals => bindingsText (g.globals s)
  | .stack => stackText (g.stack s)
  | .help => helpText
  | .unknown word => line ("❓ Unknown command: " ++ word)
  | .resume _ | .quit => ""

def outcomeText : Outcome → String
  | .completed => line "\n✅ Program finished"
  | .cancelled => line "\n⏹  Program stopped"
  | .failed r => line ("\n❌ " ++ r.summary)
  | .fault reason => line ("\n💥 Debugger fault: " ++ reason)

end Stepwise.Dialogue
