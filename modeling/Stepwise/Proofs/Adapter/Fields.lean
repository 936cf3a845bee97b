import Mathlib
import Stepwise.Adapter.Message

/-! The fields of a message. Its number, its type and its content stand side by side in one object,
and nothing says which form the content has. The fields of each form are such that it is found
again. -/

namespace Stepwise

namespace Json

variable {fields : List (String × Json)} {name other : String} {j : Json}

@[simp] theorem single?_nil : single? [] name = some none := rfl

@[simp] theorem single?_cons_of_ne (h : other ≠ name) :
    single? ((other, j) :: fields) name = single? fields name := by
  simp [single?, h]

@[simp] theorem single?_cons (h : single? fields name = some none) :
    single? ((name, j) :: fields) name = some (some j) := by
  unfold single? at h ⊢
  split at h
  · next hnil => simp [hnil]
  · cases h
  · cases h

@[simp] theorem asNat?_nat (n : Nat) : (nat n).asNat? = some n := by
  simp [nat, int, asNat?, asInt?]

@[simp] theorem asStr?_str (s : String) : (str s).asStr? = some s := rfl

@[simp] theorem asBool?_bool (b : Bool) : (bool b).asBool? = some b := rfl

end Json

namespace Message

variable {α : Type} {fields : List (String × Json)} {name other : String} {write : α → Json}
  {read : Json → Option α} {v : Option α} {j : Json}

@[simp] theorem single?_field_of_ne (h : other ≠ name) :
    Json.single? (field other write v ++ fields) name = Json.single? fields name := by
  cases v with
  | none => rfl
  | some a => exact Json.single?_cons_of_ne h

@[simp] theorem single?_field (h : Json.single? fields name = some none) :
    Json.single? (field name write v ++ fields) name = some (v.map write) := by
  cases v with
  | none => exact h
  | some a => exact Json.single?_cons h

@[simp] theorem single?_lastField_of_ne (h : other ≠ name) :
    Json.single? (field other write v) name = some none := by
  rw [← List.append_nil (field other write v), single?_field_of_ne h, Json.single?_nil]

@[simp] theorem single?_lastField :
    Json.single? (field name write v) name = some (v.map write) := by
  rw [← List.append_nil (field name write v), single?_field Json.single?_nil]

theorem required?_eq (h : Json.single? fields name = some (some j)) :
    required? fields name read = read j := by
  simp [required?, h]

theorem required?_missing (h : Json.single? fields name = some none) :
    required? fields name read = none := by
  simp [required?, h]

theorem optional?_eq (write : α → Json) (h : Json.single? fields name = some (v.map write))
    (hnull : ∀ a, (write a).isNull = false) (hread : ∀ a, read (write a) = some a) :
    optional? fields name read = some v := by
  cases v with
  | none => simp [optional?, h]
  | some a => simp [optional?, h, Option.filter, hnull, hread]

theorem payload?_eq {v : Option Json} (h : Json.single? fields name = some (v.map Json.canonical))
    (hnull : ∀ j ∈ v, j.isNull = false) (hv : ∀ j ∈ v, j.canonical = j) :
    payload? fields name = some v := by
  cases v with
  | none => simp [payload?, h]
  | some j => simp [payload?, h, hnull j rfl, hv j rfl]

def Content.payload : Content → Option Json
  | .response _ _ _ _ body => body
  | .event _ body => body
  | .request _ arguments => arguments

/-- The data that is there is not null, and canonical. -/
structure Content.IsProper (c : Content) : Prop where
  present : ∀ j ∈ c.payload, j.isNull = false
  canonical : ∀ j ∈ c.payload, j.canonical = j

theorem single?_fields {seq type : Json} (content : Content) (hseq : "seq" ≠ name)
    (htype : "type" ≠ name) :
    Json.single? (("seq", seq) :: ("type", type) :: content.toFields) name =
      Json.single? content.toFields name := by
  rw [Json.single?_cons_of_ne hseq, Json.single?_cons_of_ne htype]

/-- The forms are tried in order. A response has the fields of a request as well, so that it is
tried first; events and requests lack the number that a response answers, and requests lack the
name of an event. -/
theorem content?_toFields {content : Content} (h : content.IsProper)
    (hfields : ∀ name, "seq" ≠ name → "type" ≠ name →
      Json.single? fields name = Json.single? content.toFields name) :
    ((response? fields).or (event? fields)).or (request? fields) = some content := by
  cases content with
  | response answered success command message body =>
    have hanswered : required? fields "request_seq" Json.asNat? = some answered := by
      rw [required?_eq (j := .nat answered) (by simp +decide [hfields, Content.toFields]),
        Json.asNat?_nat]
    have hsuccess : required? fields "success" Json.asBool? = some success :=
      required?_eq (j := .bool success) (by simp +decide [hfields, Content.toFields])
    have hcommand : required? fields "command" Json.asStr? = some command :=
      required?_eq (j := .str command) (by simp +decide [hfields, Content.toFields])
    have hmessage : optional? fields "message" Json.asStr? = some message :=
      optional?_eq Json.str (by simp +decide [hfields, Content.toFields])
        (fun _ => rfl) fun _ => rfl
    have hbody : payload? fields "body" = some body :=
      payload?_eq (by simp +decide [hfields, Content.toFields]) h.present h.canonical
    simp [response?, hanswered, hsuccess, hcommand, hmessage, hbody]
  | event name body =>
    have hanswered : required? fields "request_seq" Json.asNat? = none :=
      required?_missing (by simp +decide [hfields, Content.toFields])
    have hname : required? fields "event" Json.asStr? = some name :=
      required?_eq (j := .str name) (by simp +decide [hfields, Content.toFields])
    have hbody : payload? fields "body" = some body :=
      payload?_eq (by simp +decide [hfields, Content.toFields]) h.present h.canonical
    simp [response?, event?, hanswered, hname, hbody]
  | request command arguments =>
    have hanswered : required? fields "request_seq" Json.asNat? = none :=
      required?_missing (by simp +decide [hfields, Content.toFields])
    have hname : required? fields "event" Json.asStr? = none :=
      required?_missing (by simp +decide [hfields, Content.toFields])
    have hcommand : required? fields "command" Json.asStr? = some command :=
      required?_eq (j := .str command) (by simp +decide [hfields, Content.toFields])
    have harguments : payload? fields "arguments" = some arguments :=
      payload?_eq (by simp +decide [hfields, Content.toFields]) h.present h.canonical
    simp [response?, event?, request?, hanswered, hname, hcommand, harguments]

theorem single?_toFields (content : Content) (h : name = "seq" ∨ name = "type") :
    Json.single? content.toFields name = some none := by
  rcases h with rfl | rfl <;> cases content <;> simp +decide [Content.toFields]

theorem ofJson?_toJson {m : Message} (h : m.content.IsProper) : ofJson? m.toJson = some m := by
  have hseq : required? (("seq", .nat m.seq) :: m.toFields) "seq" Json.asNat? = some m.seq := by
    rw [required?_eq (j := .nat m.seq)
      (by simp +decide [toFields, single?_toFields m.content (.inl rfl)]), Json.asNat?_nat]
  have htype : required? (("seq", .nat m.seq) :: m.toFields) "type" Json.asStr? = some m.type :=
    required?_eq (j := .str m.type)
      (by simp +decide [toFields, single?_toFields m.content (.inr rfl)])
  have hcontent : ((response? (("seq", .nat m.seq) :: m.toFields)).or
      (event? (("seq", .nat m.seq) :: m.toFields))).or
        (request? (("seq", .nat m.seq) :: m.toFields)) = some m.content :=
    content?_toFields h fun _ => single?_fields m.content
  simp [ofJson?, toJson, Json.asObj?, hseq, htype, hcontent]

end Message

end Stepwise
