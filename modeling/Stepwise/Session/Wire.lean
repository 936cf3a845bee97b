import Stepwise.Debug.Wire
import Stepwise.Session.Controller

/-! The forms in which faults of a session, what a snapshot shows, and pauses are told. -/

namespace Stepwise

namespace SessionFault

def name : SessionFault → String
  | alreadyActive => "AlreadyActive"
  | notActive => "NotActive"
  | notPaused => "NotPaused"
  | debug e => e.name

def toJson (e : SessionFault) : Json :=
  .obj [("error", .str e.name), ("message", .str e.message)]

end SessionFault

def bindingsToJson (scope : Scope) : Json :=
  .arr (scope.entries.map fun e => .arr [.str e.1, .str e.2.typeName, .str e.2.repr])

def StackEntry.toJson (e : StackEntry) : Json :=
  .arr [.str e.function, .str e.file, Json.nat e.line]

def instrToJson (i : Code.Instr) : Json :=
  .arr [.str i.op.mnemonic, Json.nat i.arg]

def FrameId.toJson (id : FrameId) : Json :=
  .arr [Json.nat id.index, Json.nat id.generation.toNat]

namespace Gallery

/-- What was copied when the snapshot was taken, which can be told ever after. -/
def identityToJson (g : Gallery) (s : Snapshot) : Json :=
  .obj [("file", .str s.chunk.file), ("function", .str s.chunk.name), ("lasti", Json.nat s.lasti),
    ("line", Json.nat s.line), ("released", .bool (g.isReleased s)), ("id", s.frame.toJson)]

def orFault {α : Type} (f : α → Json) : Except DebugFault α → Json
  | .ok a => f a
  | .error e => e.toJson

/-- What a snapshot shows under a word; a look-up is for a name. -/
def ask (g : Gallery) (s : Snapshot) (what name : String) : Json :=
  match what with
  | "lookup" => orFault (Json.optional Value.toJson) (g.lookup s name)
  | "locals" => orFault bindingsToJson (g.locals s)
  | "globals" => orFault bindingsToJson (g.globals s)
  | "stack" => orFault (fun es => .arr (es.map StackEntry.toJson)) (g.stack s)
  | "instruction" => orFault instrToJson (g.instruction s)
  | _ => g.identityToJson s

end Gallery

namespace Pause

def inspected : List String :=
  ["locals", "globals", "stack", "instruction"]

/-- A pause, with all that its snapshot shows if that is wanted. -/
def toJson (g : Gallery) (inspect : Bool) (p : Pause) : Json :=
  let s := p.snapshot
  .obj ([("seq", Json.nat p.seq), ("highlight", p.highlight.toJson),
    ("loadedValue", p.hint.toJson),
    ("at", .arr [.str s.chunk.name, Json.nat s.lasti, Json.nat s.line]),
    ("display", .str p.hint.text)] ++
    if inspect then inspected.map fun what => (what, g.ask s what "") else [])

end Pause

end Stepwise
