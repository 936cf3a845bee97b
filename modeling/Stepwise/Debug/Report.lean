import Stepwise.Debug.Files
import Stepwise.Debug.Range
import Stepwise.Source.SyntaxError
import Stepwise.Value.Exception

/-! Reports of a failed run: of a text that is not a program, where a caret row marks the
columns of the fault, and of an exception, with its traceback. -/

namespace Stepwise

inductive Report.Kind
  | compile
  | runtime
deriving DecidableEq, Repr

structure Report where
  kind : Report.Kind
  name : String
  summary : String
  message : String
  highlight : Range
deriving Repr

namespace Report

def headline (file : String) (line : Nat) : String :=
  "  File \"" ++ file ++ "\", line " ++ toString line

def indented (cs : List Char) : String :=
  "    " ++ String.ofList cs ++ "\n"

/-- The columns of a fault under its line, of which `margin` characters are not shown. -/
def caretRow (margin column width : Nat) : List Char :=
  List.replicate (column - 1 - margin) ' ' ++ List.replicate width '^'

/-- As many carets as characters if the fault ends on its line behind its start, else one. -/
def caretCount (e : Source.SyntaxError) (column : Nat) : Nat :=
  match e.endColumn with
  | some last => if e.endLine = e.line ∧ column < last then last - column else 1
  | none => 1

def excerpt (e : Source.SyntaxError) (line : String) : String :=
  let cs := line.toList
  let kept := Text.trimStart cs
  indented (Text.trimEnd kept) ++
    match e.column with
    | some column => indented (caretRow (cs.length - kept.length) column (caretCount e column))
    | none => ""

def ofSyntaxError (e : Source.SyntaxError) (file : String) (files : Files) : Report where
  kind := .compile
  name := e.kind.name
  summary := e.summary
  message := headline file e.line ++ "\n" ++
    ((files.line? file e.line).map (excerpt e)).getD "" ++ e.summary
  highlight :=
    match e.column, e.endColumn with
    | some column, some last => .columns e.line column e.endLine last
    | some column, none => .columns e.line column e.line column
    | none, _ => .wholeLine e.line

def tracebackEntry (files : Files) (entry : Exception.Entry) : String :=
  headline entry.file entry.line ++ ", in " ++ entry.function ++ "\n" ++
    ((files.line? entry.file entry.line).map fun l => indented (Text.trim l.toList)).getD ""

/-- The failing instruction, or else the innermost line of the traceback. -/
def highlightOf (e : Exception) : Range :=
  match e.origin.bind fun o => Range.at? o.chunk o.offset o.line with
  | some range => range
  | none => .wholeLine ((e.traceback.getLast?.map Exception.Entry.line).getD 1)

def ofException (e : Exception) (files : Files) : Report where
  kind := .runtime
  name := e.kind.title
  summary := e.summary
  message := "Traceback (most recent call last):\n" ++
    String.join (e.traceback.map (tracebackEntry files)) ++ e.summary
  highlight := highlightOf e

end Report

inductive Outcome
  | completed
  | cancelled
  | failed (report : Report)
  | fault (reason : String)
deriving Repr

def Outcome.exitCode : Outcome → Nat
  | .completed => 0
  | .failed _ => 1
  | .cancelled => 130
  | .fault _ => 2

def Outcome.ofEnding (files : Files) : Except Unwind Value → Outcome
  | .ok _ => .completed
  | .error .cancelled => .cancelled
  | .error (.exception e) => .failed (.ofException e files)
  | .error (.fault reason) => .fault reason

end Stepwise
