import Stepwise.Terminal.Console

/-! All that goes on at a console: any number of reads, keys and cancellations, which move in
single steps and in any order. What the steps do to the slot and to the mail is noted, and also
every key that is applied to a read. -/

namespace Stepwise

namespace Editor

/-- The line after keys that came in this order. -/
def typed (keys : List Key) : Editor :=
  keys.foldl (fun e key => (e.apply key).2.2) empty

@[simp] theorem typed_append (keys : List Key) (key : Key) :
    typed (keys ++ [key]) = ((typed keys).apply key).2.2 := by
  simp [typed]

end Editor

namespace Delivery

def target? (d : Delivery) (c : Console) : Option Nat :=
  match d.echo, d.closing, d.reads with
  | [], none, read :: _ => if c.slot.any fun p => p.read = read then some read else none
  | _, _, _ => none

inductive Steps (c : Console) : Delivery → Delivery → Console → Prop
  | write (key : Key) (reads : List Nat) (e : Char) (es : List Char) (f : Option ReadClosing) :
    Steps c ⟨key, reads, e :: es, f⟩ ⟨key, reads, [], f⟩ (c.write (String.ofList (e :: es)))
  | settle (key : Key) (reads : List Nat) (f : ReadClosing) :
    Steps c ⟨key, reads, [], some f⟩ ⟨key, reads, [], (f.step c).1⟩ (f.step c).2
  | press (key : Key) (read : Nat) (reads : List Nat) :
    Steps c ⟨key, read :: reads, [], none⟩
      ⟨key, reads, (c.press read key).1, (c.press read key).2.1.map fun (p, o) => .telling p o⟩
      (c.press read key).2.2

theorem step_steps {d d' : Delivery} {c c' : Console} (h : d.step c = some (d', c')) :
    Steps c d d' c' := by
  obtain ⟨key, reads, echo, closing⟩ := d
  match echo, closing, reads with
  | e :: es, f, reads =>
    obtain ⟨rfl, rfl⟩ := Prod.mk.inj (Option.some.inj h)
    exact .write key reads e es f
  | [], some f, reads =>
    obtain ⟨rfl, rfl⟩ := Prod.mk.inj (Option.some.inj h)
    exact .settle key reads f
  | [], none, read :: reads =>
    obtain ⟨rfl, rfl⟩ := Prod.mk.inj (Option.some.inj h)
    exact .press key read reads
  | [], none, [] => cases h

end Delivery

namespace Reader

inductive Steps (c : Console) (id : Nat) : Stage → Stage → Console → Prop
  | subscribe :
    Steps c id .subscribing (.showing (c.hub.subscribe id).1)
      { c with hub := (c.hub.subscribe id).2 }
  | show (s : Nat) : Steps c id (.showing s) (.installing s) (c.display (.cursor true))
  | install (s : Nat) (h : c.slot = none) :
    Steps c id (.installing s) .waiting { c with slot := some ⟨id, .empty, s⟩ }
  | supersede (s : Nat) (p : Pending) (h : c.slot = some p) :
    Steps c id (.installing s) (.superseding (.telling p .cancelled))
      { c with slot := some ⟨id, .empty, s⟩ }
  | settle (f f' : ReadClosing) (h : (f.step c).1 = some f') :
    Steps c id (.superseding f) (.superseding f') (f.step c).2
  | settled (f : ReadClosing) (h : (f.step c).1 = none) :
    Steps c id (.superseding f) .waiting (f.step c).2
  | receive (o : ReadOutcome) (before after : List (Nat × ReadOutcome))
    (h : c.mail = before ++ (id, o) :: after) (hbefore : ∀ m ∈ before, m.1 ≠ id) :
    Steps c id .waiting (.uninstalling o) { c with mail := before ++ after }
  | despair (h : ∀ m ∈ c.mail, m.1 ≠ id) (hd : c.deserted.contains id = true) :
    Steps c id .waiting (.uninstalling .cancelled) c
  | look : Steps c id .waiting .checking c
  | interrupt : Steps c id .checking (.uninstalling .interrupted) c
  | wait : Steps c id .checking .waiting c
  | uninstall (p : Pending) (idle : Bool) (o : ReadOutcome) (h : c.slot = some p)
    (hp : p.read = id) :
    Steps c id (.uninstalling o) (.leaving (some p) idle o) { c with slot := none }
  | absent (idle : Bool) (o : ReadOutcome) (h : ∀ p, c.slot = some p → p.read ≠ id) :
    Steps c id (.uninstalling o) (.leaving none idle o) c
  | discard (p : Pending) (idle : Bool) (o : ReadOutcome) :
    Steps c id (.leaving (some p) idle o) (if idle then .hiding o else .ended o) (c.discard p)
  | leave (idle : Bool) (o : ReadOutcome) :
    Steps c id (.leaving none idle o) (if idle then .hiding o else .ended o) c
  | hide (o : ReadOutcome) : Steps c id (.hiding o) (.ended o) (c.display (.cursor false))
  | rest (o : ReadOutcome) : Steps c id (.ended o) (.ended o) c

theorem id_step (r : Reader) (interrupted : Bool) (c : Console) :
    (r.step interrupted c).1.id = r.id := by
  obtain ⟨id, st⟩ := r
  cases st with
  | waiting => simp only [step]; split <;> rfl
  | _ => rfl

theorem receive?_eq_some {id : Nat} {mail mail' : List (Nat × ReadOutcome)} {o : ReadOutcome}
    (h : receive? id mail = some (o, mail')) :
    ∃ before after, mail = before ++ (id, o) :: after ∧ mail' = before ++ after ∧
      ∀ m ∈ before, m.1 ≠ id := by
  obtain ⟨m, hm, heq⟩ := Option.map_eq_some_iff.1 h
  obtain ⟨hid, before, after, rfl, hbefore⟩ := List.find?_eq_some_iff_append.1 hm
  have hbefore : ∀ m ∈ before, m.1 ≠ id := by simpa using hbefore
  obtain ⟨rfl, rfl⟩ := Prod.mk.inj heq
  obtain rfl : m.1 = id := by simpa using hid
  refine ⟨before, after, rfl, ?_, hbefore⟩
  rw [List.eraseP_append_right _ (by simpa using hbefore)]
  simp

theorem receive?_eq_none {id : Nat} {mail : List (Nat × ReadOutcome)} :
    receive? id mail = none ↔ ∀ m ∈ mail, m.1 ≠ id := by
  simp [receive?]

theorem step_steps (r : Reader) (interrupted : Bool) (c : Console) :
    Steps c r.id r.stage (r.step interrupted c).1.stage (r.step interrupted c).2 := by
  obtain ⟨id, st⟩ := r
  cases st with
  | subscribing => exact .subscribe
  | showing s => exact .show s
  | installing s =>
    cases hslot : c.slot with
    | none => simpa only [step, hslot] using .install s hslot
    | some p => simpa only [step, hslot] using .supersede s p hslot
  | superseding f =>
    cases hf : (f.step c).1 with
    | none => simpa only [step, hf] using .settled f hf
    | some f' => simpa only [step, hf] using .settle f f' hf
  | waiting =>
    cases hmail : receive? id c.mail with
    | some m =>
      obtain ⟨before, after, h, hafter, hbefore⟩ := receive?_eq_some hmail
      simpa only [step, hmail, hafter] using .receive m.1 before after h hbefore
    | none =>
      by_cases hd : c.deserted.contains id = true
      · simpa only [step, hmail, hd, if_true] using .despair (receive?_eq_none.1 hmail) hd
      · simpa only [step, hmail, hd] using .look
  | checking =>
    cases interrupted with
    | true => exact .interrupt
    | false => exact .wait
  | uninstalling o =>
    cases hslot : c.slot with
    | none =>
      simpa only [step, Console.uninstall, hslot] using
        .absent _ o fun p hp => nomatch hslot.symm.trans hp
    | some p =>
      by_cases hp : p.read = id
      · simpa only [step, Console.uninstall, hslot, Option.any_some, hp, decide_true, if_true]
          using .uninstall p _ o hslot hp
      · simpa only [step, Console.uninstall, hslot, Option.any_some, hp, decide_false] using
          .absent _ o fun q hq => by obtain rfl := Option.some.inj (hslot.symm.trans hq); exact hp
  | leaving held idle o =>
    cases held with
    | none => exact .leave idle o
    | some p => exact .discard p idle o
  | «hiding» o => exact .hide o
  | ended o => exact .rest o

end Reader

/-- A read, the delivery of a key, or a cancellation with what is left of it. -/
inductive Party
  | read (r : Reader)
  | delivery (d : Delivery)
  | cancellation (f : Option ReadClosing)

namespace Party

def step (interrupted : Bool) (c : Console) : Party → Party × Console
  | read r =>
    let (r, c) := r.step interrupted c
    (read r, c)
  | delivery d =>
    match d.step c with
    | some (d, c) => (delivery d, c)
    | none => (delivery d, c)
  | cancellation (some f) =>
    let (f, c) := f.step c
    (cancellation f, c)
  | cancellation none => (cancellation none, c)

def isDone (c : Console) : Party → Bool
  | read r => r.outcome?.isSome
  | delivery d => (d.step c).isNone
  | cancellation f => f.isNone

end Party

namespace Traffic

/-- A read took the slot, from another one perhaps; a party applied its key to a read; a read was
sent an outcome. -/
inductive Note
  | installed (read : Nat) (previous : Option Nat)
  | applied (party read : Nat) (key : Key)
  | sent (read : Nat) (o : ReadOutcome)
deriving DecidableEq, Repr

namespace Note

def installedNotes (before after : Console) : List Note :=
  match after.slot with
  | some p =>
    if before.slot.any fun q => q.read = p.read then []
    else [.installed p.read (before.slot.map Pending.read)]
  | none => []

def sentNotes (before after : Console) : List Note :=
  (after.mail.drop before.mail.length).map fun m => .sent m.1 m.2

def appliedNotes (i : Nat) (before : Console) : Party → List Note
  | .delivery d => (d.target? before).toList.map fun read => .applied i read d.key
  | _ => []

end Note

end Traffic

/-- A console, the parties at it in the order in which they began, and what was noted of them. -/
structure Traffic where
  console : Console
  parties : List Party
  log : List Traffic.Note

namespace Traffic

/-- A read, a key or a cancellation begins, or a party takes its next step, while the interrupt cell
that it may look at is set or not. -/
inductive Action
  | read
  | key (key : Key)
  | cancel
  | step (i : Nat) (interrupted : Bool)

def new : Traffic :=
  ⟨.new, [], []⟩

def begin (t : Traffic) (e : Party) (c : Console) : Traffic :=
  { t with console := c, parties := t.parties ++ [e] }

def act (t : Traffic) : Action → Traffic
  | .read =>
    let (r, c) := Reader.new t.console
    t.begin (.read r) c
  | .key key => t.begin (.delivery (.new t.console key)) t.console
  | .cancel =>
    let (f, c) := t.console.cancel
    t.begin (.cancellation f) c
  | .step i interrupted =>
    match t.parties[i]? with
    | some e =>
      let (e', c) := e.step interrupted t.console
      ⟨c, t.parties.set i e', t.log ++ (Note.appliedNotes i t.console e ++
        (Note.sentNotes t.console c ++ Note.installedNotes t.console c))⟩
    | none => t

def run (as : List Action) : Traffic :=
  as.foldl act new

def steps (i n : Nat) : List Action :=
  List.replicate n (.step i false)

def Note.sent? (read : Nat) : Note → Option ReadOutcome
  | sent r o => if r = read then some o else none
  | _ => none

def Note.applied? (read : Nat) : Note → Option Key
  | applied _ r key => if r = read then some key else none
  | _ => none

def sentTo (t : Traffic) (read : Nat) : List ReadOutcome :=
  t.log.filterMap (Note.sent? read)

def keysTo (t : Traffic) (read : Nat) : List Key :=
  t.log.filterMap (Note.applied? read)

end Traffic

end Stepwise
