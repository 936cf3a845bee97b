import Stepwise.Proofs.Machine.Faultless
import Stepwise.Proofs.Machine.Turn

/-! The instructions of an activation follow one another as control leads. After an instruction the
activation goes on at a successor of it, at once or when the function that it called has returned;
until then it is the caller of what runs. -/

namespace Stepwise

open Code (Instr)

structure Activation.At (x a : Activation) : Prop where
  frame : a.frame = x.frame
  chunk : a.chunk = x.chunk
  pc : a.pc = x.pc

structure Activation.Precedes (x a : Activation) : Prop where
  frame : a.frame = x.frame
  chunk : a.chunk = x.chunk
  leads : ∃ i, x.chunk.code[x.pc]? = some i ∧ i.Leads x.pc a.pc

def Activation.op? (x : Activation) : Option Code.Opcode :=
  (x.chunk.code[x.pc]?).map Instr.op

namespace Run

def Awaits (x : Activation) (callers : List Activation) : Prop :=
  x.op? = some .call ∧ ∃ a ∈ callers, x.Precedes a

/-- The run has come to the instruction that the activation stands at, and to no other one of that
activation since. -/
def Past (x : Activation) (r : Run) : Prop :=
  match r.phase with
  | .poll | .execute => x.At r.current ∨ Awaits x r.callers
  | .leave (.ok _) => Awaits x r.callers
  | .leave (.error _) | .ended _ => True
  | _ => x.Precedes r.current ∨ Awaits x r.callers

/-- How an instruction is left that is not a return: with an exception, to one of its successors, or
into a function. -/
inductive Passes (r : Run) (pc : Nat) (i : Instr) (s : Run) : Prop
  | fails (u : Unwind) (hp : s.phase = .leave (.error u))
  | goes (hc : s.callers = r.callers) (hframe : s.current.frame = r.current.frame)
    (hchunk : s.current.chunk = r.current.chunk) (hl : i.Leads pc s.current.pc)
    (hp : s.phase = .fetch ∨ s.phase = .clear ∨ s.phase = .read ∨
      ∃ text thenRead, s.phase = .write text thenRead)
  | calls (hop : i.op = .call) (a : Activation) (hc : s.callers = a :: r.callers)
    (hframe : a.frame = r.current.frame) (hchunk : a.chunk = r.current.chunk)
    (hl : i.Leads pc a.pc) (hp : s.phase = .call)
  | returns (hop : i.op = .returnValue) (hc : s.callers = r.callers) (v : Value)
    (hp : s.phase = .leave (.ok v))

section Passes

variable {r : Run} {pc : Nat} {i : Instr}

theorem passes_next (hl : i.Leads pc r.current.pc) (stack : List Value) :
    r.Passes pc i (r.next stack) :=
  .goes rfl rfl rfl hl (.inl rfl)

theorem passes_settle (hl : i.Leads pc r.current.pc) (stack : List Value) (x : Value.Result) :
    r.Passes pc i (r.settle stack x) := by
  cases x with
  | ok v => exact passes_next hl _
  | error cause => exact .fails _ rfl

theorem passes_binary (hl : i.Leads pc r.current.pc) (f : Value → Value → Value.Result) :
    r.Passes pc i (r.binary f) := by
  unfold binary
  split
  · exact passes_settle hl _ _
  · exact .fails _ rfl

theorem passes_callValue (hop : i.op = .call) (hl : i.Leads pc r.current.pc) (f : Value)
    (args : List Value) : r.Passes pc i (r.callValue f args) := by
  cases f with
  | builtin b =>
    simp only [callValue]
    split
    · exact passes_next hl _
    · exact .goes rfl rfl rfl hl (.inr (.inr (.inr ⟨_, _, rfl⟩)))
    · exact .goes rfl rfl rfl hl (.inr (.inr (.inr ⟨_, _, rfl⟩)))
    · exact .goes rfl rfl rfl hl (.inr (.inr (.inl rfl)))
    · exact .goes rfl rfl rfl hl (.inr (.inl rfl))
    · exact .fails _ rfl
  | function n chunk =>
    simp only [callValue]
    split
    · exact .fails _ rfl
    · split
      · exact .fails _ rfl
      · exact .calls hop r.current rfl rfl rfl hl rfl
  | none | bool | int | float | str | code => exact .fails _ rfl

theorem Passes.of_popped {stack : List Value} {s : Run}
    (h : Passes { r with current := { r.current with stack } } pc i s) : r.Passes pc i s := by
  cases h with
  | fails u hp => exact .fails u hp
  | goes hc hframe hchunk hl hp => exact .goes hc hframe hchunk hl hp
  | calls hop a hc hframe hchunk hl hp => exact .calls hop a hc hframe hchunk hl hp
  | returns hop hc v hp => exact .returns hop hc v hp

theorem passes_execute (hpc : r.current.pc = pc + 1) : r.Passes pc i (r.execute i) := by
  obtain ⟨op, arg⟩ := i
  have hnext (hreturn : op ≠ .returnValue) (hjump : op ≠ .jump) :
      (Instr.mk op arg).Leads pc r.current.pc := hpc ▸ Instr.leads_next hreturn hjump pc
  have hjump (hj : (Instr.mk op arg).isJump = true) (stack : List Value) :
      r.Passes pc ⟨op, arg⟩ (r.jump arg stack) :=
    .goes rfl rfl rfl (Instr.leads_arg hj pc) (.inl rfl)
  cases op with
  | nop | pushNull => exact passes_next (hnext (by decide) (by decide)) _
  | jump => exact hjump rfl _
  | returnValue =>
    simp only [execute]
    split
    · exact .returns rfl rfl _ rfl
    · exact .fails _ rfl
  | popTop | loadConst =>
    simp only [execute]
    split
    · exact passes_next (hnext (by decide) (by decide)) _
    · exact .fails _ rfl
  | loadName =>
    simp only [execute]
    split
    · split
      · exact passes_next (hnext (by decide) (by decide)) _
      · exact .fails _ rfl
    · exact .fails _ rfl
  | storeName =>
    simp only [execute]
    split
    · exact .goes rfl rfl rfl (hnext (by decide) (by decide)) (.inl rfl)
    · exact .fails _ rfl
    · exact .fails _ rfl
  | binaryOp | compareOp =>
    simp only [execute]
    split
    · exact passes_binary (hnext (by decide) (by decide)) _
    · exact .fails _ rfl
  | unaryOp =>
    simp only [execute]
    split
    · exact passes_settle (hnext (by decide) (by decide)) _ _
    · exact .fails _ rfl
    · exact .fails _ rfl
  | call =>
    simp only [execute]
    split
    · next f _ rest _ =>
      have hcalls := passes_callValue (r := { r with current := { r.current with stack := rest } })
        rfl (hnext (by decide) (by decide)) f (r.current.stack.take arg).reverse
      exact hcalls.of_popped
    · exact .fails _ rfl
  | makeFunction =>
    simp only [execute]
    split
    · exact .goes rfl rfl rfl (hnext (by decide) (by decide)) (.inl rfl)
    · exact .fails _ rfl
  | popJumpIfFalse | jumpIfFalseOrPop | jumpIfTrueOrPop =>
    simp only [execute]
    split
    · split
      · first | exact passes_next (hnext (by decide) (by decide)) _ | exact hjump rfl _
      · first | exact hjump rfl _ | exact passes_next (hnext (by decide) (by decide)) _
    · exact .fails _ rfl

end Passes

namespace Past

variable {F : Code.Family} {given : String → Prop} {x : Activation} {r : Run}

theorem of_awaits (h : Awaits x r.callers) : Past x r := by
  unfold Past
  split <;> first | exact .inr h | exact h | trivial

theorem of_error {u : Unwind} (hp : r.phase = .leave (.error u)) : Past x r := by
  simp only [Past, hp]

theorem of_precedes (h : x.Precedes r.current) (hp : r.phase = .fetch ∨ r.phase = .clear ∨
    r.phase = .read ∨ ∃ text thenRead, r.phase = .write text thenRead) : Past x r := by
  obtain hp | hp | hp | ⟨text, thenRead, hp⟩ := hp <;> simp only [Past, hp] <;> exact .inl h

theorem of_passes {i : Instr} {pc : Nat} {s : Run} (h : r.Passes pc i s)
    (hx : x.frame = r.current.frame ∧ x.chunk = r.current.chunk ∧ x.pc = pc)
    (hi : x.chunk.code[x.pc]? = some i) (hop : i.op ≠ .returnValue) : Past x s := by
  obtain ⟨hframe, hchunk, rfl⟩ := hx
  cases h with
  | fails u hp => exact of_error hp
  | goes hc hf hk hl hp =>
    exact of_precedes ⟨hf.trans hframe.symm, hk.trans hchunk.symm, i, hi, hl⟩ hp
  | calls hcall a hc hf hk hl hp =>
    refine of_awaits ⟨by rw [Activation.op?, hi, Option.map_some, hcall], a, ?_, ?_⟩
    · rw [hc]
      exact List.mem_cons_self
    · exact ⟨hf.trans hframe.symm, hk.trans hchunk.symm, i, hi, hl⟩
  | returns hr => exact (hop hr).elim

theorem awaits_of_passes {i : Instr} {pc : Nat} {s : Run} (h : r.Passes pc i s)
    (hx : Awaits x r.callers) : Past x s := by
  cases h with
  | fails u hp => exact of_error hp
  | goes hc | returns _ hc => exact of_awaits (hc ▸ hx)
  | calls _ a hc =>
    obtain ⟨hop, b, hb, hx⟩ := hx
    exact of_awaits ⟨hop, b, hc ▸ List.mem_cons_of_mem a hb, hx⟩

theorem executeFetched (h : Past x r) (hp : r.phase = .execute) (hs : r.Sound F given)
    (hop : x.op? ≠ some .returnValue) : Past x r.executeFetched := by
  obtain ⟨i, hi, -⟩ := hs.faultless.instr (by simp only [isAtInstr, hp])
  have hpasses : r.stepped.Passes r.current.pc i (r.stepped.execute i) := passes_execute rfl
  rw [executeFetched_of_some hi]
  simp only [Past, hp] at h
  obtain hat | hawaits := h
  · have hx : x.chunk.code[x.pc]? = some i := by rw [← hat.chunk, ← hat.pc, hi]
    refine of_passes hpasses ⟨hat.frame.symm, hat.chunk.symm, hat.pc.symm⟩ hx fun hr => hop ?_
    rw [Activation.op?, hx, Option.map_some, hr]
  · exact awaits_of_passes hpasses hawaits

theorem fetch (h : Past x r) (hp : r.phase = .fetch) (hs : r.Sound F given) : Past x r.fetch := by
  obtain ⟨i, hi, -⟩ := hs.faultless.instr (by simp only [isAtInstr, hp])
  simp only [Past, hp] at h
  simp only [Run.fetch, hi, Run.withArena]
  split <;> exact h.imp (fun k => ⟨k.frame, k.chunk, k.leads⟩) id

theorem leave_error (x : Activation) (r : Run) (u : Unwind) : Past x (r.leave (.error u)) := by
  unfold Run.leave
  simp only [Run.withArena]
  cases r.callers with
  | nil => trivial
  | cons caller callers => exact of_error rfl

theorem leave (h : Past x r) {ending : Ending} (hp : r.phase = .leave ending) :
    Past x (r.leave ending) := by
  cases ending with
  | error u => exact leave_error x r u
  | ok v =>
    simp only [Past, hp] at h
    unfold Run.leave
    simp only [Run.withArena]
    cases hcallers : r.callers with
    | nil => trivial
    | cons caller callers =>
      obtain ⟨hop, a, ha, hx⟩ := h
      rcases List.mem_cons.1 (hcallers ▸ ha) with rfl | ha
      · exact .inl ⟨hx.frame, hx.chunk, hx.leads⟩
      · exact .inr ⟨hop, a, ha, hx⟩

theorem advance_of_opcode (hp : r.phase = .opcode) (h : x.At r.current ∨ Awaits x r.callers) :
    Past x r.advance := by
  simp only [Run.advance, hp]
  exact h

theorem advance (h : Past x r) (hs : r.Sound F given) (hop : x.op? ≠ some .returnValue)
    (hne : r.phase = .opcode → r.current.frame ≠ x.frame) : Past x r.advance := by
  unfold Run.advance
  split
  · next hp =>
    simp only [Past, hp] at h
    exact h
  · next hp => exact h.fetch hp hs
  · next hp =>
    simp only [Past, hp] at h
    exact h
  · next hp =>
    simp only [Past, hp] at h
    exact .inr (h.resolve_left fun hx => hne hp hx.frame)
  · next hp => exact h.executeFetched hp hs hop
  · next hp => exact h.leave hp
  · exact h

theorem quieted (h : Past x r) : Past x r.quieted :=
  h

theorem control (h : Past x r.advance) (c : Control) : Past x (r.control c) := by
  cases c with
  | proceed => exact r.control_proceed ▸ h
  | untrace =>
    rw [control_untrace, advance_quieted]
    exact h.quieted
  | cancel | abort reason =>
    unfold Run.control
    simp only [reduceCtorEq, if_false]
    split
    · next ending _ =>
      cases ending <;> exact leave_error x r _
    · exact of_error rfl

theorem polled (h : Past x r) (hp : r.phase = .poll) (interrupted : Bool) :
    Past x (r.polled interrupted) := by
  unfold Run.polled
  split
  · exact of_error rfl
  · simp only [Past, hp] at h
    exact h

theorem push (h : x.Precedes r.current ∨ Awaits x r.callers) (v : Value) : Past x (r.push v) :=
  h.imp (fun k => ⟨k.frame, k.chunk, k.leads⟩) id

theorem shown (h : Past x r)
    (hp : (∃ text thenRead, r.phase = .write text thenRead) ∨ r.phase = .clear) :
    Past x r.shown := by
  unfold Run.shown
  obtain ⟨text, thenRead, hp⟩ | hp := hp
  · simp only [Past, hp] at h
    cases thenRead <;> simp only [hp]
    · exact push h _
    · exact h
  · simp only [Past, hp] at h
    simp only [hp]
    exact push h _

theorem received (h : Past x r) (hp : r.phase = .read) (line : Except Unwind String) :
    Past x (r.received line) := by
  simp only [Past, hp] at h
  cases line with
  | ok line => exact push h _
  | error u => exact of_error rfl

end Past

end Run

structure Activation.Fetched (a : Activation) : Prop where
  lasti : a.lasti = a.pc * Code.instrWidth
  line : ∀ line, a.chunk.lineOf? a.pc = some line → a.line = line

namespace Run

def Fetches (r : Run) : Prop :=
  r.phase = .line ∨ r.phase = .opcode → r.current.Fetched

variable {r : Run}

theorem Fetches.of_ne (hline : r.phase ≠ .line) (hopcode : r.phase ≠ .opcode) : r.Fetches :=
  fun h => h.elim (absurd · hline) (absurd · hopcode)

theorem fetches_fetch (r : Run) : r.fetch.Fetches := by
  unfold fetch
  dsimp only
  split
  · exact .of_ne nofun nofun
  · refine fun _ => ⟨rfl, fun line hline => ?_⟩
    dsimp only at hline ⊢
    rw [hline, Option.getD_some]

theorem Passes.fetches {s : Run} {pc : Nat} {i : Instr} (h : r.Passes pc i s) : s.Fetches := by
  cases h with
  | fails _ hp | calls _ _ _ _ _ _ hp | returns _ _ _ hp =>
    exact .of_ne (by simp [hp]) (by simp [hp])
  | goes _ _ _ _ hp =>
    obtain hp | hp | hp | ⟨text, thenRead, hp⟩ := hp <;>
      exact .of_ne (by simp [hp]) (by simp [hp])

theorem fetches_leave (r : Run) (ending : Ending) : (r.leave ending).Fetches := by
  unfold leave
  simp only [withArena]
  cases r.callers with
  | nil => rintro (h | h) <;> cases h
  | cons caller callers => cases ending <;> rintro (h | h) <;> cases h

theorem Fetches.advance (h : r.Fetches) : r.advance.Fetches := by
  unfold Run.advance
  split
  · exact .of_ne nofun nofun
  · exact r.fetches_fetch
  · next hp => exact fun _ => h (.inl hp)
  · exact .of_ne nofun nofun
  · cases hi : r.current.chunk.code[r.current.pc]? with
    | none => exact executeFetched_of_none hi ▸ .of_ne nofun nofun
    | some i =>
      rw [executeFetched_of_some hi]
      exact (passes_execute rfl).fetches
  · exact r.fetches_leave _
  · exact h

theorem Fetches.control (h : r.Fetches) (c : Control) : (r.control c).Fetches := by
  cases c with
  | proceed => exact r.control_proceed ▸ h.advance
  | untrace =>
    rw [control_untrace, advance_quieted]
    exact h.advance
  | cancel | abort reason =>
    unfold Run.control
    simp only [reduceCtorEq, if_false]
    split
    · exact r.fetches_leave _
    · exact .of_ne nofun nofun

end Run

end Stepwise
