import Stepwise.Proofs.Session.Conductor
import Stepwise.Proofs.Terminal.Lines
import Stepwise.Prompt.Drive

/-! A run whose input is a list of lines, in single steps. The controller looks for the end of the
run. If there is none yet it looks for a pending read, takes a line for it, if one has come, and
types that, key by key. Between two of these steps the run may move, and lines may come. So that
the keys of a line reach the read that the line was taken for, and no other, it is said how far the
typist and the read have come with each other. -/

namespace Stepwise

namespace Typist

/-- An event of the run is looked for next, or a pending read; a line is taken for the read; keys
are typed for it, one of which is on its way. -/
inductive Stage
  | watching
  | looking
  | taking
  | typing (keys : List Key)
  | delivering (d : Delivery) (keys : List Key)

def keysOf : Option String → List Key
  | some text => Key.decode text.toList ++ Key.decode "\r".toList
  | none => Key.decode Drive.endOfInput.toList

end Typist

/-- The lines that are still to come and those that came and were not taken, whether nothing comes
any more, and whether this was noticed. -/
structure Typist where
  conductor : Conductor
  stage : Typist.Stage
  coming : List String
  queue : List String
  hungUp : Bool
  closed : Bool

namespace Typist

def console (t : Typist) : Console :=
  t.conductor.system.session.shared.console

def take (t : Typist) : Typist :=
  if t.closed then { t with stage := .typing (keysOf none) }
  else
    match t.queue with
    | line :: queue => { t with queue, stage := .typing (keysOf (some line)) }
    | [] => { t with closed := t.hungUp, stage := .watching }

def drive (t : Typist) : Typist :=
  match t.conductor.stand with
  | .awaiting =>
    match t.stage with
    | .watching => { t with conductor := t.conductor.act .look, stage := .looking }
    | .looking => { t with stage := if t.console.isPending then .taking else .watching }
    | .taking => t.take
    | .typing [] => { t with stage := .watching }
    | .typing (key :: keys) => { t with stage := .delivering (.new t.console key) keys }
    | .delivering d keys =>
      match d.step t.console with
      | some (d, c) =>
        { t with
          conductor := t.conductor.act (.terminal fun _ => c)
          stage := .delivering d keys }
      | none => { t with stage := .typing keys }
  | _ => t

def arrive (t : Typist) : Typist :=
  match t.coming with
  | line :: coming => { t with coming, queue := t.queue ++ [line] }
  | [] => { t with hungUp := true }

inductive Move
  | work
  | drive
  | arrive

def act (t : Typist) : Move → Typist
  | .work => { t with conductor := t.conductor.act .work }
  | .drive => t.drive
  | .arrive => t.arrive

def moves (t : Typist) (ms : List Move) : Typist :=
  ms.foldl act t

/-- Starts a run whose input are these lines. -/
def begin (s : System) (job : Job) (lines : List String) : Typist :=
  ⟨.begin s job, .watching, lines, [], false, false⟩

inductive Drives (t : Typist) : Typist → Prop
  | watch (h : t.stage = .watching) :
    Drives t { t with conductor := t.conductor.act .look, stage := .looking }
  | see (h : t.stage = .looking) (hc : t.console.isPending = true) :
    Drives t { t with stage := .taking }
  | lookAway (h : t.stage = .looking) (hc : t.console.isPending = false) :
    Drives t { t with stage := .watching }
  | takeEnd (h : t.stage = .taking) (hc : t.closed = true) :
    Drives t { t with stage := .typing (keysOf none) }
  | takeLine {line : String} {queue : List String} (h : t.stage = .taking) (hc : t.closed = false)
    (hq : t.queue = line :: queue) :
    Drives t { t with queue, stage := .typing (keysOf (some line)) }
  | takeNothing (h : t.stage = .taking) (hc : t.closed = false) (hq : t.queue = []) :
    Drives t { t with closed := t.hungUp, stage := .watching }
  | rest (h : t.stage = .typing []) : Drives t { t with stage := .watching }
  | press {key : Key} {keys : List Key} (h : t.stage = .typing (key :: keys)) :
    Drives t { t with stage := .delivering (.new t.console key) keys }
  | deliver {d d' : Delivery} {keys : List Key} {c : Console} (h : t.stage = .delivering d keys)
    (hd : d.step t.console = some (d', c)) :
    Drives t { t with
      conductor := t.conductor.act (.terminal fun _ => c)
      stage := .delivering d' keys }
  | delivered {d : Delivery} {keys : List Key} (h : t.stage = .delivering d keys)
    (hd : d.step t.console = none) : Drives t { t with stage := .typing keys }

theorem drive_drives {t : Typist} (h : t.conductor.stand = .awaiting) : t.Drives t.drive := by
  cases hst : t.stage with
  | watching =>
    simp only [drive, h, hst]
    exact .watch hst
  | looking =>
    simp only [drive, h, hst]
    split
    · next hc => exact .see hst hc
    · next hc => exact .lookAway hst (Bool.eq_false_iff.2 hc)
  | taking =>
    simp only [drive, h, hst, take]
    split
    · next hc => exact .takeEnd hst hc
    · next hc =>
      split
      · next hq => exact .takeLine hst (Bool.eq_false_iff.2 hc) hq
      · next hq => exact .takeNothing hst (Bool.eq_false_iff.2 hc) hq
  | typing keys =>
    cases keys with
    | nil =>
      simp only [drive, h, hst]
      exact .rest hst
    | cons key keys =>
      simp only [drive, h, hst]
      exact .press hst
  | delivering d keys =>
    cases hd : d.step t.console with
    | none =>
      simp only [drive, h, hst, hd]
      exact .delivered hst hd
    | some next =>
      simp only [drive, h, hst, hd]
      exact .deliver hst hd

theorem drive_watching {t : Typist} (h : t.conductor.stand = .awaiting)
    (hst : t.stage = .watching) :
    t.drive = { t with conductor := t.conductor.act .look, stage := .looking } := by
  simp only [drive, h, hst]

theorem drive_of_ended {t : Typist} {o : Outcome} (h : t.conductor.stand = .ended o) :
    t.drive = t := by
  simp only [drive, h]

theorem spells_keysOf_some {text : String} (h : ∀ c ∈ text.toList, Editor.isPrintable c = true) :
    Editor.empty.Spells (keysOf (some text)) (.line text) := by
  have hline := Editor.spells_line (e := .empty) h rfl
  have henter : Key.decode "\r".toList = [.enter] := by
    simp [Key.decode, Key.next, Key.ofChar]
  rw [keysOf, Key.decode_printable h, henter]
  rwa [Editor.empty, List.nil_append, String.ofList_toList] at hline

theorem spells_keysOf_none : Editor.empty.Spells (keysOf none) .endOfInput := by
  have hend : keysOf none = [.endOfInput] := by
    simp [keysOf, Drive.endOfInput, Key.decode, Key.next, Key.ofChar]
  rw [hend]
  exact Editor.spells_endOfInput .empty

namespace Stage

inductive Idle : Stage → List (Nat × Nat) → Prop
  | watching : Idle watching []
  | looking : Idle looking []
  | typed : Idle (typing []) []
  | delivered (key : Key) (echo : List Char) : Idle (delivering ⟨key, [], echo, none⟩ []) []
  | discarding (key : Key) (echo : List Char) (p : Pending) :
    Idle (delivering ⟨key, [], echo, some (.discarding p)⟩ []) [(p.subscription, p.read)]

inductive Types (id : Nat) : Stage → List Key → Prop
  | typing (keys : List Key) : Types id (typing keys) keys
  | pressing (key : Key) (keys : List Key) :
    Types id (delivering ⟨key, [id], [], none⟩ keys) (key :: keys)
  | pressed (key : Key) (echo : List Char) (keys : List Key) :
    Types id (delivering ⟨key, [], echo, none⟩ keys) keys

inductive Tells (p : Pending) (o : ReadOutcome) : Stage → Prop
  | intro (key : Key) (echo : List Char) :
    Tells p o (delivering ⟨key, [], echo, some (.telling p o)⟩ [])

end Stage

structure Fresh (id s : Nat) (subs : List (Nat × Nat)) (c : Console) : Prop where
  deserted : id ∉ c.deserted
  others : ∀ e ∈ subs, e.1 ≠ s ∧ e.2 ≠ id

/-- How far a typist and the read of a run, if there is one, have come with each other, where the
read is to get this outcome. The number counts what was taken for the read and not yet received. -/
inductive Meets (o : ReadOutcome) : Nat → Option Reader → Stage → Console → Prop
  | away {st : Stage} {c : Console} {subs : List (Nat × Nat)} (hc : c.Stands none [] subs)
    (hst : st.Idle subs) : Meets o 0 none st c
  | subscribing {st : Stage} {c : Console} {subs : List (Nat × Nat)} {id : Nat}
    (hc : c.Stands none [] subs) (hst : st.Idle subs) (hid : id < c.nextRead)
    (hnew : id ∉ c.deserted ∧ ∀ e ∈ subs, e.2 ≠ id) :
    Meets o 0 (some ⟨id, .subscribing⟩) st c
  | subscribed {st : Stage} {c : Console} {subs : List (Nat × Nat)} {id s : Nat}
    {stage : Reader.Stage} (hr : stage = .showing s ∨ stage = .installing s)
    (hc : c.Stands none [] (subs ++ [(s, id)])) (hst : st.Idle subs)
    (hnew : Fresh id s subs c) : Meets o 0 (some ⟨id, stage⟩) st c
  | pending {st : Stage} {c : Console} {subs : List (Nat × Nat)} {id s : Nat}
    {stage : Reader.Stage} (hr : stage = .waiting ∨ stage = .checking)
    (hc : c.Stands (some ⟨id, .empty, s⟩) [] (subs ++ [(s, id)]))
    (hst : st.Idle subs ∨ st = .taking ∧ subs = []) (hnew : Fresh id s subs c) :
    Meets o 0 (some ⟨id, stage⟩) st c
  | typed {st : Stage} {c : Console} {id s : Nat} {stage : Reader.Stage} {e : Editor}
    {keys : List Key} (hr : stage = .waiting ∨ stage = .checking)
    (hc : c.Stands (some ⟨id, e, s⟩) [] [(s, id)]) (hst : st.Types id keys)
    (hkeys : e.Spells keys o) (hnew : id ∉ c.deserted) : Meets o 1 (some ⟨id, stage⟩) st c
  | told {st : Stage} {c : Console} {id s : Nat} {stage : Reader.Stage} {e : Editor}
    (hr : stage = .waiting ∨ stage = .checking) (hc : c.Stands none [] [(s, id)])
    (hst : st.Tells ⟨id, e, s⟩ o) (hnew : id ∉ c.deserted) : Meets o 1 (some ⟨id, stage⟩) st c
  | sent {st : Stage} {c : Console} {subs : List (Nat × Nat)} {id : Nat} {stage : Reader.Stage}
    (hr : stage = .waiting ∨ stage = .checking) (hc : c.Stands none [(id, o)] subs)
    (hst : st.Idle subs) : Meets o 1 (some ⟨id, stage⟩) st c
  | got {st : Stage} {c : Console} {subs : List (Nat × Nat)} {id : Nat} {stage : Reader.Stage}
    (hr : stage = .uninstalling o ∨ (∃ idle, stage = .leaving none idle o) ∨ stage = .hiding o ∨
      stage = .ended o) (hc : c.Stands none [] subs) (hst : st.Idle subs) :
    Meets o 1 (some ⟨id, stage⟩) st c

namespace Meets

variable {o : ReadOutcome} {n : Nat} {r : Option Reader} {st st' : Stage} {c c' : Console}

theorem display (h : Meets o n r st c) (d : Display) : Meets o n r st (c.display d) := by
  cases h with
  | away hc hst => exact .away (hc.display d) hst
  | subscribing hc hst hid hnew => exact .subscribing (hc.display d) hst hid hnew
  | subscribed hr hc hst hnew => exact .subscribed hr (hc.display d) hst ⟨hnew.1, hnew.2⟩
  | pending hr hc hst hnew => exact .pending hr (hc.display d) hst ⟨hnew.1, hnew.2⟩
  | typed hr hc hst hkeys hnew => exact .typed hr (hc.display d) hst hkeys hnew
  | told hr hc hst hnew => exact .told hr (hc.display d) hst hnew
  | sent hr hc hst => exact .sent hr (hc.display d) hst
  | got hr hc hst => exact .got hr (hc.display d) hst

section Reads

theorem begin (h : Meets o n none st c) :
    Meets o n (some (Reader.new c).1) st (Reader.new c).2 := by
  cases h with
  | away hc hst =>
    refine .subscribing hc.begin hst (Nat.lt_succ_self _) ⟨fun hmem => ?_, fun e he => ?_⟩
    · exact Nat.lt_irrefl _ (hc.deserted _ hmem)
    · exact Nat.ne_of_lt (hc.bounded e he).2

theorem read {r : Reader} (h : Meets o n (some r) st c) (hr : r.outcome? = none) :
    Meets o n (some (r.step false c).1) st (r.step false c).2 := by
  cases h with
  | subscribing hc hst hid hnew =>
    refine .subscribed (.inl rfl) (hc.subscribe hid) hst ⟨hnew.1, fun e he => ⟨?_, hnew.2 e he⟩⟩
    exact Nat.ne_of_lt (Nat.lt_succ_of_le (hc.bounded e he).1)
  | subscribed hstage hc hst hnew =>
    obtain rfl | rfl := hstage
    · exact .subscribed (.inr rfl) (hc.display _) hst ⟨hnew.1, hnew.2⟩
    · simp only [Reader.step, hc.slot]
      exact .pending (.inl rfl) (hc.occupy _) (.inl hst) ⟨hnew.1, hnew.2⟩
  | pending hstage hc hst hnew =>
    obtain rfl | rfl := hstage
    · simp only [Reader.step, hc.mail]
      refine .pending (.inr ?_) hc hst hnew
      simp [hnew.deserted]
    · exact .pending (.inl rfl) hc hst hnew
  | typed hstage hc hst hkeys hnew =>
    obtain rfl | rfl := hstage
    · simp only [Reader.step, hc.mail]
      refine .typed (.inr ?_) hc hst hkeys hnew
      simp [hnew]
    · exact .typed (.inl rfl) hc hst hkeys hnew
  | told hstage hc hst hnew =>
    obtain rfl | rfl := hstage
    · simp only [Reader.step, hc.mail]
      refine .told (.inr ?_) hc hst hnew
      simp [hnew]
    · exact .told (.inl rfl) hc hst hnew
  | @sent _ _ _ id _ hstage hc hst =>
    obtain rfl | rfl := hstage
    · have hmail : Reader.receive? id [(id, o)] = some (o, []) := by simp [Reader.receive?]
      simp only [Reader.step, hc.mail, hmail]
      exact .got (.inl rfl) (hc.carry []) hst
    · exact .sent (.inl rfl) hc hst
  | got hstage hc hst =>
    obtain rfl | ⟨idle, rfl⟩ | rfl | rfl := hstage
    · simp only [Reader.step, Console.uninstall, hc.slot]
      exact .got (.inr (.inl ⟨_, rfl⟩)) hc hst
    · refine .got ?_ hc hst
      cases idle with
      | true => exact .inr (.inr (.inl rfl))
      | false => exact .inr (.inr (.inr rfl))
    · exact .got (.inr (.inr (.inr rfl))) (hc.display _) hst
    · cases hr

theorem received {r : Reader} {o' : ReadOutcome} (h : Meets o n (some r) st c)
    (hr : r.outcome? = some o') : n = 1 ∧ o' = o ∧ ∀ next, Meets next 0 none st c := by
  cases h with
  | subscribing => cases hr
  | subscribed hstage | pending hstage | typed hstage | told hstage | sent hstage =>
    obtain rfl | rfl := hstage <;> cases hr
  | got hstage hc hst =>
    obtain rfl | ⟨idle, rfl⟩ | rfl | rfl := hstage
    · cases hr
    · cases hr
    · cases hr
    · cases hr
      exact ⟨rfl, rfl, fun _ => .away hc hst⟩

end Reads

section Typing

theorem restage (h : Meets o n r st c) (hidle : ∀ subs, st.Idle subs → st'.Idle subs)
    (htypes : ∀ id keys, keys ≠ [] → st.Types id keys → st'.Types id keys)
    (htells : ∀ p, st.Tells p o → st'.Tells p o) (htaking : st ≠ .taking) :
    Meets o n r st' c := by
  cases h with
  | away hc hst => exact .away hc (hidle _ hst)
  | subscribing hc hst hid hnew => exact .subscribing hc (hidle _ hst) hid hnew
  | subscribed hr hc hst hnew => exact .subscribed hr hc (hidle _ hst) hnew
  | pending hr hc hst hnew =>
    obtain hst | ⟨hst, -⟩ := hst
    · exact .pending hr hc (.inl (hidle _ hst)) hnew
    · exact (htaking hst).elim
  | typed hr hc hst hkeys hnew => exact .typed hr hc (htypes _ _ hkeys.ne_nil hst) hkeys hnew
  | told hr hc hst hnew => exact .told hr hc (htells _ hst) hnew
  | sent hr hc hst => exact .sent hr hc (hidle _ hst)
  | got hr hc hst => exact .got hr hc (hidle _ hst)

theorem rest (h : Meets o n r st c) (hst : st = .watching ∨ st = .looking ∨ st = .typing [])
    (hst' : st'.Idle []) : Meets o n r st' c := by
  refine h.restage (fun subs hidle => ?_) (fun id keys hkeys htypes => ?_) (fun p htells => ?_) ?_
  · obtain rfl | rfl | rfl := hst <;> cases hidle <;> exact hst'
  · obtain rfl | rfl | rfl := hst <;> cases htypes
    exact (hkeys rfl).elim
  · obtain rfl | rfl | rfl := hst <;> cases htells
  · obtain rfl | rfl | rfl := hst <;> exact fun he => nomatch he

theorem seen (h : Meets o n r .looking c) (hc : c.isPending = true) : Meets o n r .taking c := by
  rw [Console.isPending] at hc
  cases h with
  | away hc' | subscribing hc' | subscribed _ hc' | sent _ hc' | got _ hc' =>
    rw [hc'.slot] at hc
    cases hc
  | pending hr hc hst hnew =>
    obtain hst | ⟨hst, -⟩ := hst
    · cases hst
      exact .pending hr hc (.inr ⟨rfl, rfl⟩) hnew
    · cases hst
  | typed _ _ hst => cases hst
  | told _ _ hst => cases hst

theorem waited (h : Meets o n r .taking c) : Meets o n r .watching c := by
  cases h with
  | away _ hst | subscribing _ hst | subscribed _ _ hst | sent _ _ hst | got _ _ hst => cases hst
  | pending hr hc hst hnew =>
    obtain hst | ⟨-, rfl⟩ := hst
    · cases hst
    · exact .pending hr hc (.inl .watching) hnew
  | typed _ _ hst => cases hst
  | told _ _ hst => cases hst

theorem eq_zero (h : Meets o n r .taking c) : n = 0 := by
  cases h with
  | away | subscribing | subscribed | pending => rfl
  | sent _ _ hst | got _ _ hst => cases hst
  | typed _ _ hst => cases hst
  | told _ _ hst => cases hst

theorem taken (h : Meets o n r .taking c) {keys : List Key} (hkeys : Editor.empty.Spells keys o) :
    Meets o 1 r (.typing keys) c := by
  cases h with
  | away _ hst | subscribing _ hst | subscribed _ _ hst | sent _ _ hst | got _ _ hst => cases hst
  | pending hr hc hst hnew =>
    obtain hst | ⟨-, rfl⟩ := hst
    · cases hst
    · exact .typed hr hc (.typing keys) hkeys hnew.deserted
  | typed _ _ hst => cases hst
  | told _ _ hst => cases hst

theorem press {key : Key} {keys : List Key} (h : Meets o n r (.typing (key :: keys)) c) :
    Meets o n r (.delivering (.new c key) keys) c := by
  cases h with
  | away _ hst | subscribing _ hst | subscribed _ _ hst | sent _ _ hst | got _ _ hst => cases hst
  | pending _ _ hst => obtain hst | ⟨hst, -⟩ := hst <;> cases hst
  | typed hr hc hst hkeys hnew =>
    cases hst
    rw [Delivery.new, Hub.handlers, hc.entries]
    exact .typed hr hc (.pressing key keys) hkeys hnew
  | told _ _ hst => cases hst

variable {d d' : Delivery} {keys : List Key}

theorem discard {key : Key} {reads : List Nat} {p : Pending}
    (h : Meets o n r (.delivering ⟨key, reads, [], some (.discarding p)⟩ keys) c) :
    Meets o n r (.delivering ⟨key, reads, [], none⟩ keys) (c.discard p) := by
  have hnew {id s : Nat} (h : Fresh id s [(p.subscription, p.read)] c) :
      Fresh id s [] (c.discard p) := by
    obtain ⟨hs, hid⟩ := h.others _ List.mem_cons_self
    exact ⟨fun hmem => (List.mem_cons.1 hmem).elim (fun he => hid he.symm) h.deserted, nofun⟩
  have hothers {id s : Nat} (h : Fresh id s [(p.subscription, p.read)] c) :
      ∀ e ∈ [(s, id)], e.1 ≠ p.subscription := by
    intro e he
    cases List.mem_singleton.1 he
    exact fun he => (h.others _ List.mem_cons_self).1 he.symm
  cases h with
  | away hc hst =>
    cases hst
    exact .away (hc.discard nofun) (.delivered ..)
  | subscribing hc hst hid hfresh =>
    cases hst
    refine .subscribing (hc.discard nofun) (.delivered ..) hid ⟨fun hmem => ?_, nofun⟩
    obtain rfl | hmem := List.mem_cons.1 hmem
    · exact hfresh.2 _ List.mem_cons_self rfl
    · exact hfresh.1 hmem
  | subscribed hr hc hst hfresh =>
    cases hst
    exact .subscribed hr (hc.discard (hothers hfresh)) (.delivered ..) (hnew hfresh)
  | pending hr hc hst hfresh =>
    obtain hst | ⟨hst, -⟩ := hst <;> cases hst
    exact .pending hr (hc.discard (hothers hfresh)) (.inl (.delivered ..)) (hnew hfresh)
  | typed _ _ hst => cases hst
  | told _ _ hst => cases hst
  | sent hr hc hst =>
    cases hst
    exact .sent hr (hc.discard nofun) (.delivered ..)
  | got hr hc hst =>
    cases hst
    exact .got hr (hc.discard nofun) (.delivered ..)

theorem tell {key : Key} {reads : List Nat} {p : Pending} {o' : ReadOutcome}
    (h : Meets o n r (.delivering ⟨key, reads, [], some (.telling p o')⟩ keys) c) :
    Meets o n r (.delivering ⟨key, reads, [], some (.discarding p)⟩ keys) (c.send p.read o') := by
  cases h with
  | away _ hst | subscribing _ hst | subscribed _ _ hst | sent _ _ hst | got _ _ hst => cases hst
  | pending _ _ hst => obtain hst | ⟨hst, -⟩ := hst <;> cases hst
  | typed _ _ hst => cases hst
  | told hr hc hst hnew =>
    cases hst
    exact .sent hr (hc.send _ _) (.discarding ..)

theorem apply {key : Key} {id : Nat} {reads : List Nat}
    (h : Meets o n r (.delivering ⟨key, id :: reads, [], none⟩ keys) c) :
    Meets o n r (.delivering ⟨key, reads, (c.press id key).1,
      (c.press id key).2.1.map fun (p, o) => .telling p o⟩ keys) (c.press id key).2.2 := by
  cases h with
  | away _ hst | subscribing _ hst | subscribed _ _ hst | sent _ _ hst | got _ _ hst => cases hst
  | pending _ _ hst => obtain hst | ⟨hst, -⟩ := hst <;> cases hst
  | typed hr hc hst hkeys hnew =>
    cases hst
    cases hkeys with
    | last hkey =>
      rw [Console.press_last hc.slot hkey]
      exact .told hr (hc.occupy none) (.intro ..) hnew
    | step hkey hkeys =>
      rw [Console.press_step hc.slot hkey]
      exact .typed hr (hc.occupy _) (.pressed ..) hkeys hnew
  | told _ _ hst => cases hst

theorem deliver (h : Meets o n r (.delivering d keys) c) (hd : d.step c = some (d', c')) :
    Meets o n r (.delivering d' keys) c' := by
  cases Delivery.step_steps hd with
  | write key reads e es f =>
    refine (h.restage (fun subs hidle => ?_) (fun id keys hkeys htypes => ?_)
      (fun p htells => ?_) nofun).display _
    · cases hidle with
      | delivered => exact .delivered ..
      | discarding => exact .discarding ..
    · cases htypes
      exact .pressed ..
    · cases htells
      exact .intro ..
  | settle key reads f =>
    cases f with
    | telling p o' => exact h.tell
    | discarding p => exact h.discard
  | press key read reads => exact h.apply

theorem delivered (h : Meets o n r (.delivering d keys) c) (hd : d.step c = none) :
    Meets o n r (.typing keys) c := by
  refine h.restage (fun subs hidle => ?_) (fun id keys hkeys htypes => ?_) (fun p htells => ?_)
    nofun
  · cases hidle with
    | delivered => exact .typed
    | discarding key echo p => cases echo <;> cases hd
  · cases htypes with
    | pressing => cases hd
    | pressed => exact .typing _
  · cases htells with
    | intro key echo => cases echo <;> cases hd

end Typing

end Meets

end Typist

end Stepwise
