import Stepwise.Debug.Fault
import Stepwise.Debug.Pause
import Stepwise.Debug.Report
import Stepwise.Json.Basic

/-! The forms in which ranges, hints, faults, reports and outcomes are told to clients. -/

namespace Stepwise

namespace Range

def toJson (r : Range) : Json :=
  let column (name : String) (c : Option Nat) : List (String × Json) :=
    (c.map fun n => (name, Json.nat n)).toList
  .obj ([("startLine", Json.nat r.startLine)] ++ column "startColumn" r.startColumn ++
    [("endLine", Json.nat r.endLine)] ++ column "endColumn" r.endColumn)

def number? (j : Json) : Option Nat :=
  j.asNat?.filter (· ≤ 0xFFFFFFFF)

def column? (j : Json) : Option (Option Nat) :=
  if j.isNull then some none else (number? j).map some

/-- A range is an object, or an array of its fields, of which the last may be missing. -/
def ofJson? (j : Json) : Option Range :=
  match j with
  | .arr [a, b, c] => return ⟨← number? a, ← column? b, ← number? c, none⟩
  | .arr [a, b, c, d] => return ⟨← number? a, ← column? b, ← number? c, ← column? d⟩
  | .obj _ => do
    let field (name : String) : Json := (j.field? name).getD .null
    return ⟨← number? (field "startLine"), ← column? (field "startColumn"),
      ← number? (field "endLine"), ← column? (field "endColumn")⟩
  | _ => none

end Range

def Hint.toJson (h : Hint) : Json :=
  Json.optional (fun v => .obj [("repr", .str v.repr), ("type", .str v.typeName)]) h

def Report.Kind.name : Report.Kind → String
  | .compile => "compile"
  | .runtime => "runtime"

def Report.toJson (r : Report) : Json :=
  .obj [("kind", .str r.kind.name), ("name", .str r.name), ("summary", .str r.summary),
    ("message", .str r.message), ("highlight", r.highlight.toJson)]

namespace Outcome

def toFields : Outcome → List (String × Json)
  | .completed => [("outcome", .str "completed")]
  | .cancelled => [("outcome", .str "cancelled")]
  | .failed r => [("outcome", .str "failed"), ("error", r.toJson)]
  | .fault reason => [("outcome", .str "fault"), ("reason", .str reason)]

def toJson (o : Outcome) : Json :=
  .obj o.toFields

end Outcome

def DebugFault.name : DebugFault → String
  | gateBusy _ => "GateBusy"
  | noPendingPause => "NoPendingPause"
  | stalePause _ _ => "StalePause"
  | snapshotReleased => "SnapshotReleased"
  | staleFrame => "StaleFrame"
  | controllerGone => "ControllerGone"

def DebugFault.toJson (e : DebugFault) : Json :=
  .obj [("error", .str e.name), ("message", .str e.message)]

def Value.toJson (v : Value) : Json :=
  .arr [.str v.typeName, .str v.repr]

/-- How an activation ended; a failure is reported over these texts. -/
def endingToJson (files : Files) : Except Unwind Value → Json
  | .ok v => .obj [("value", v.toJson)]
  | .error .cancelled => .obj [("error", .str "Cancelled")]
  | .error (.fault reason) => .obj [("error", .str "Fault"), ("message", .str reason)]
  | .error (.exception e) =>
    let entry (t : Exception.Entry) : Json := .arr [.str t.file, Json.nat t.line, .str t.function]
    let origin (o : Exception.Origin) : Json :=
      .arr [.str o.chunk.name, Json.nat o.offset, Json.nat o.line]
    .obj [("error", .str e.kind.title), ("message", .str e.message), ("summary", .str e.summary),
      ("traceback", .arr (e.traceback.map entry)), ("failure", Json.optional origin e.origin),
      ("report", (Report.ofException e files).toJson)]

def Decision.ofName? (name : String) : Option Decision :=
  [.continueStepping, .stopDebugging].find? fun d => d.name == name

def RunMode.ofName? : String → Option RunMode
  | "normal" => some .normal
  | "debug" => some .debug
  | _ => none

end Stepwise
