import Stepwise.Json.Reader
import Stepwise.Json.Writer

/-! Messages between a debug adapter and its client. What a message is shows in its fields, not
in the word for its type: the first of response, event and request whose required fields are
there and whose fields have the right types. -/

namespace Stepwise

inductive Message.Content
  | response (answered : Nat) (success : Bool) (command : String) (message : Option String)
    (body : Option Json)
  | event (name : String) (body : Option Json)
  | request (command : String) (arguments : Option Json)
deriving Repr

structure Message where
  seq : Nat
  type : String
  content : Message.Content
deriving Repr

namespace Message

/-- The value of an optional field in its canonical form; null counts as absent. -/
def payload? (fields : List (String × Json)) (name : String) : Option (Option Json) :=
  (Json.single? fields name).map fun v => (v.filter fun j => !j.isNull).map Json.canonical

def required? {α : Type} (fields : List (String × Json)) (name : String) (read : Json → Option α) :
    Option α := do
  read (← ← Json.single? fields name)

def optional? {α : Type} (fields : List (String × Json)) (name : String) (read : Json → Option α) :
    Option (Option α) := do
  match (← Json.single? fields name).filter fun j => !j.isNull with
  | some j => (read j).map some
  | none => some none

def response? (fields : List (String × Json)) : Option Content :=
  return .response (← required? fields "request_seq" Json.asNat?)
    (← required? fields "success" Json.asBool?) (← required? fields "command" Json.asStr?)
    (← optional? fields "message" Json.asStr?) (← payload? fields "body")

def event? (fields : List (String × Json)) : Option Content :=
  return .event (← required? fields "event" Json.asStr?) (← payload? fields "body")

def request? (fields : List (String × Json)) : Option Content :=
  return .request (← required? fields "command" Json.asStr?) (← payload? fields "arguments")

def ofJson? (j : Json) : Option Message := do
  let fields ← j.asObj?
  return ⟨← required? fields "seq" Json.asNat?, ← required? fields "type" Json.asStr?,
    ← ((response? fields).or (event? fields)).or (request? fields)⟩

def field {α : Type} (name : String) (write : α → Json) (v : Option α) : List (String × Json) :=
  (v.map fun a => (name, write a)).toList

def Content.toFields : Content → List (String × Json)
  | response answered success command message body =>
    [("request_seq", Json.nat answered), ("success", .bool success), ("command", .str command)] ++
      field "message" Json.str message ++ field "body" Json.canonical body
  | event name body => ("event", .str name) :: field "body" Json.canonical body
  | request command arguments =>
    ("command", .str command) :: field "arguments" Json.canonical arguments

def toFields (m : Message) : List (String × Json) :=
  ("type", .str m.type) :: m.content.toFields

def toJson (m : Message) : Json :=
  .obj (("seq", Json.nat m.seq) :: m.toFields)

end Message

end Stepwise
