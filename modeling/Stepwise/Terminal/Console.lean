import Stepwise.Terminal.Editor
import Stepwise.Terminal.Hub

/-! Reading lines from a terminal. At most one read is pending: it holds the slot of the
console, and the keys edit its line. A read that begins while another is pending takes the
slot from it, which ends the other one as cancelled. Reads, deliveries of keys and
cancellations go on in single steps, between which the others may move. -/

namespace Stepwise

inductive Display
  | text (s : String)
  | cursor (visible : Bool)
deriving DecidableEq, Repr

inductive ReadOutcome
  | line (text : String)
  | cancelled
  | interrupted
  | endOfInput
deriving DecidableEq, Repr

def Editor.Outcome.ofRead? : Editor.Outcome → Option ReadOutcome
  | pending => none
  | line text => some (.line text)
  | interrupted => some .interrupted
  | endOfInput => some .endOfInput

structure Pending where
  read : Nat
  editor : Editor
  subscription : Nat
deriving DecidableEq, Repr

/-- A terminal with its pending read. `mail` holds the outcomes that were sent and not yet received,
`deserted` the reads that nothing can be sent to any more. -/
structure Console where
  nextRead : Nat
  hub : Hub Nat
  slot : Option Pending
  mail : List (Nat × ReadOutcome)
  deserted : List Nat
  output : Array Display

namespace Console

def new : Console :=
  ⟨1, .empty, none, [], [], #[]⟩

def isPending (c : Console) : Bool :=
  c.slot.isSome

def display (c : Console) (d : Display) : Console :=
  { c with output := c.output.push d }

def write (c : Console) (s : String) : Console :=
  c.display (.text s)

def send (c : Console) (read : Nat) (o : ReadOutcome) : Console :=
  { c with mail := c.mail ++ [(read, o)] }

def unsubscribe (c : Console) (subscription : Nat) : Console :=
  { c with hub := c.hub.unsubscribe subscription }

def discard (c : Console) (p : Pending) : Console :=
  { c.unsubscribe p.subscription with deserted := p.read :: c.deserted }

def uninstall (c : Console) (read : Nat) : Option Pending × Console :=
  if c.slot.any fun p => p.read = read then (c.slot, { c with slot := none }) else (none, c)

/-- Applies a key to a read, if it is pending: the echo, and the read if that ended it. -/
def press (c : Console) (read : Nat) (key : Key) :
    List Char × Option (Pending × ReadOutcome) × Console :=
  match c.slot with
  | none => ([], none, c)
  | some p =>
    if p.read = read then
      let (outcome, echo, editor) := p.editor.apply key
      let p := { p with editor }
      match outcome.ofRead? with
      | some o => (echo, some (p, o), { c with slot := none })
      | none => (echo, none, { c with slot := some p })
    else ([], none, c)

end Console

/-- What is left to do about a read that was taken out of the slot. -/
inductive ReadClosing
  | telling (p : Pending) (o : ReadOutcome)
  | discarding (p : Pending)

def ReadClosing.step (f : ReadClosing) (c : Console) : Option ReadClosing × Console :=
  match f with
  | telling p o => (some (discarding p), c.send p.read o)
  | discarding p => (none, c.discard p)

def ReadClosing.weight : ReadClosing → Nat
  | telling .. => 2
  | discarding _ => 1

def ReadClosing.finish (f : ReadClosing) (c : Console) : Console :=
  match f with
  | telling p o => (c.send p.read o).discard p
  | discarding p => c.discard p

/-- A key on its way to the reads that were subscribed when it came. -/
structure Delivery where
  key : Key
  reads : List Nat
  echo : List Char
  closing : Option ReadClosing

namespace Delivery

def new (c : Console) (key : Key) : Delivery :=
  ⟨key, c.hub.handlers, [], none⟩

def step (d : Delivery) (c : Console) : Option (Delivery × Console) :=
  match d.echo, d.closing, d.reads with
  | e :: es, _, _ => some ({ d with echo := [] }, c.write (String.ofList (e :: es)))
  | [], some f, _ =>
    let (closing, c) := f.step c
    some ({ d with closing }, c)
  | [], none, read :: reads =>
    let (echo, ended, c) := c.press read d.key
    some ({ d with reads, echo, closing := ended.map fun (p, o) => .telling p o }, c)
  | [], none, [] => none

def weight (d : Delivery) : Nat :=
  4 * d.reads.length + (if d.echo.isEmpty then 0 else 1) + (d.closing.map ReadClosing.weight).getD 0

theorem weight_step {d d' : Delivery} {c c' : Console} (h : d.step c = some (d', c')) :
    d'.weight < d.weight := by
  obtain ⟨key, reads, echo, closing⟩ := d
  match echo, closing, reads with
  | e :: es, _, _ =>
    simp only [step, Option.some.injEq, Prod.mk.injEq] at h
    simp [← h.1, weight]
  | [], some (.telling p o), _ =>
    simp only [step, ReadClosing.step, Option.some.injEq, Prod.mk.injEq] at h
    simp [← h.1, weight, ReadClosing.weight]
  | [], some (.discarding p), _ =>
    simp only [step, ReadClosing.step, Option.some.injEq, Prod.mk.injEq] at h
    simp [← h.1, weight, ReadClosing.weight]
  | [], none, read :: reads =>
    simp only [step, Option.some.injEq, Prod.mk.injEq] at h
    rw [← h.1]
    cases (c.press read key).2.1 <;> simp only [weight, List.length_cons, Option.map_none,
      Option.map_some, Option.getD_none, Option.getD_some, ReadClosing.weight, List.isEmpty_nil,
      if_true] <;> split <;> omega
  | [], none, [] => simp [step] at h

def finish (d : Delivery) (c : Console) : Console :=
  match _h : d.step c with
  | none => c
  | some (d', c') => finish d' c'
termination_by d.weight
decreasing_by exact weight_step _h

end Delivery

namespace Console

def type (c : Console) (key : Key) : Console :=
  (Delivery.new c key).finish c

def feed (c : Console) (data : String) : Console :=
  (Key.decode data.toList).foldl type c

/-- Takes the pending read, if any, out of the slot as cancelled. -/
def cancel (c : Console) : Option ReadClosing × Console :=
  (c.slot.map fun p => .telling p .cancelled, { c with slot := none })

def cancelPending (c : Console) : Bool × Console :=
  match c.cancel with
  | (some f, c) => (true, f.finish c)
  | (none, c) => (false, c)

end Console

inductive Reader.Stage
  | subscribing
  | showing (subscription : Nat)
  | installing (subscription : Nat)
  | superseding (f : ReadClosing)
  | waiting
  | checking
  | uninstalling (o : ReadOutcome)
  | leaving (held : Option Pending) (idle : Bool) (o : ReadOutcome)
  | hiding (o : ReadOutcome)
  | ended (o : ReadOutcome)

structure Reader where
  id : Nat
  stage : Reader.Stage

namespace Reader

def new (c : Console) : Reader × Console :=
  (⟨c.nextRead, .subscribing⟩, { c with nextRead := c.nextRead + 1 })

/-- The outcome that was sent to a read, and the mail without it. -/
def receive? (id : Nat) (mail : List (Nat × ReadOutcome)) :
    Option (ReadOutcome × List (Nat × ReadOutcome)) :=
  (mail.find? fun m => m.1 = id).map fun m => (m.2, mail.eraseP fun m => m.1 = id)

/-- One step. `interrupted` says whether the interrupt cell is set. -/
def step (r : Reader) (interrupted : Bool) (c : Console) : Reader × Console :=
  let goto (stage : Stage) : Reader := ⟨r.id, stage⟩
  match r.stage with
  | .subscribing =>
    let (subscription, hub) := c.hub.subscribe r.id
    (goto (.showing subscription), { c with hub })
  | .showing subscription => (goto (.installing subscription), c.display (.cursor true))
  | .installing subscription =>
    (goto (match c.slot with
      | some previous => .superseding (.telling previous .cancelled)
      | none => .waiting),
      { c with slot := some ⟨r.id, .empty, subscription⟩ })
  | .superseding f =>
    let (f, c) := f.step c
    (goto (match f with
      | some f => .superseding f
      | none => .waiting), c)
  | .waiting =>
    match receive? r.id c.mail with
    | some (o, mail) => (goto (.uninstalling o), { c with mail })
    | none =>
      (goto (if c.deserted.contains r.id then .uninstalling .cancelled else .checking), c)
  | .checking => (goto (if interrupted then .uninstalling .interrupted else .waiting), c)
  | .uninstalling o =>
    let (held, c) := c.uninstall r.id
    (goto (.leaving held (!c.isPending) o), c)
  | .leaving held idle o =>
    (goto (if idle then .hiding o else .ended o),
      match held with
      | some p => c.discard p
      | none => c)
  | .hiding o => (goto (.ended o), c.display (.cursor false))
  | .ended _ => (r, c)

def outcome? (r : Reader) : Option ReadOutcome :=
  match r.stage with
  | .ended o => some o
  | _ => none

/-- Whether the read can only look in vain for mail and interrupt. -/
def isIdle (r : Reader) (interrupted : Bool) (c : Console) : Bool :=
  match r.stage with
  | .waiting | .checking =>
    !interrupted && (receive? r.id c.mail).isNone && !c.deserted.contains r.id
  | _ => false

end Reader

end Stepwise
