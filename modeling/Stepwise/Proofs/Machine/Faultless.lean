import Mathlib.Logic.Relation
import Stepwise.Machine.Host
import Stepwise.Proofs.Code.Units
import Stepwise.Proofs.Machine.Bindings
import Stepwise.Proofs.Machine.Path

/-! Runs of compiled code make no faults. Whatever a run is answered from outside, the activation
that is current stands at a place of its chunk that control flow reaches, with as many values on
its stack as belong there, and those below it stand where a call leaves them. So the next
instruction is there and finds what it needs, and a fault can only be one that was given from
outside. -/

namespace Stepwise

structure Code.Family where
  Holds : Chunk → Prop
  wellFormed : ∀ {c : Chunk}, Holds c → WellFormed c
  isConstant : ∀ {c : Chunk}, Holds c → ∀ {i : Nat} {v : Value}, c.constants[i]? = some v →
    IsConstant v
  nested : ∀ {c : Chunk}, Holds c → ∀ {i n : Nat} {inner : Chunk},
    c.constants[i]? = some (.code n inner) → Holds inner

def Value.Within (F : Code.Family) : Value → Prop
  | function _ chunk | code _ chunk => F.Holds chunk
  | _ => True

theorem Value.IsPlain.within {F : Code.Family} {v : Value} (h : v.IsPlain) : v.Within F := by
  cases v with
  | function | code => exact h.elim
  | _ => trivial

namespace Code.Family

theorem constant (F : Family) {chunk : Chunk} (h : F.Holds chunk) {i : Nat} {v : Value}
    (hi : chunk.constants[i]? = some v) : v.Within F := by
  cases F.isConstant h hi with
  | literal => exact (Value.isPlain_ofLiteral _).within
  | code n c => exact F.nested h hi

def compiled : Family where
  Holds chunk := ∃ file inFunction body, Source.Stmt.AllProper body ∧
    Compiles file inFunction body chunk
  wellFormed := fun ⟨_, _, _, hp, hc⟩ => hc.wellFormed hp
  isConstant := fun ⟨_, _, _, hp, hc⟩ _ _ hi => hc.isConstant hp hi
  nested := fun ⟨file, _, _, hp, hc⟩ _ _ _ hi => by
    obtain ⟨inner, hinner, hc⟩ := hc.nested hi
    exact ⟨file, true, inner, hp.bodies inner hinner, hc⟩

def units {file text : String} {chunk : Chunk} (h : compile file text = .ok chunk) : Family where
  Holds := IsUnit chunk
  wellFormed := fun hu => by
    obtain ⟨inFunction, body, hp, hc⟩ := compiles_unit h hu
    exact hc.wellFormed hp
  isConstant := fun hu _ _ hi => by
    obtain ⟨inFunction, body, hp, hc⟩ := compiles_unit h hu
    exact hc.isConstant hp hi
  nested := fun hu _ _ _ hi => .nested hu hi

end Code.Family

/-- The activation stands at a place that control flow reaches once it has the values that it
still waits for. -/
structure Activation.Stands (F : Code.Family) (a : Activation) (missing : Nat) : Prop where
  chunk : F.Holds a.chunk
  reaches : Code.Reaches a.chunk a.pc (a.stack.length + missing)
  stack : ∀ v ∈ a.stack, v.Within F

theorem Activation.Stands.push {F : Code.Family} {a : Activation} (h : a.Stands F 1) {v : Value}
    (hv : v.Within F) : Activation.Stands F { a with stack := v :: a.stack } 0 where
  chunk := h.chunk
  reaches := h.reaches
  stack w hw := by
    rcases List.mem_cons.1 hw with rfl | hw
    · exact hv
    · exact h.stack w hw

def Ending.Sound (F : Code.Family) (given : String → Prop) : Ending → Prop
  | .ok v => v.Within F
  | .error (.fault reason) => given reason
  | .error _ => True

namespace Run

open Code (Instr Reaches)

variable {F : Code.Family} {given : String → Prop}

def Placed (F : Code.Family) (given : String → Prop) (a : Activation) : Phase → Prop
  | .call | .fetch | .line | .opcode | .poll | .execute => a.Stands F 0
  | .write _ _ | .clear | .read => a.Stands F 1
  | .leave ending | .ended ending => ending.Sound F given

structure Sound (F : Code.Family) (given : String → Prop) (r : Run) : Prop where
  arena : r.machine.arena.All (Value.Within F)
  callers : ∀ a ∈ r.callers, a.Stands F 1
  placed : Placed F given r.current r.phase

section Execute

variable {r : Run}

structure Outer (F : Code.Family) (r : Run) : Prop where
  arena : r.machine.arena.All (Value.Within F)
  callers : ∀ a ∈ r.callers, a.Stands F 1

theorem Outer.raise (h : r.Outer F) (cause : Exception.Cause) : (r.raise cause).Sound F given :=
  ⟨h.arena, h.callers, trivial⟩

theorem Outer.next (h : r.Outer F) {stack : List Value}
    (hs : Activation.Stands F { r.current with stack } 0) : (r.next stack).Sound F given :=
  ⟨h.arena, h.callers, hs⟩

theorem Outer.push (h : r.Outer F) (hs : r.current.Stands F 1) {v : Value} (hv : v.Within F) :
    (r.push v).Sound F given :=
  h.next (hs.push hv)

theorem Outer.callValue (h : r.Outer F) (hs : r.current.Stands F 1) {f : Value} {args : List Value}
    (hf : f.Within F) (hargs : ∀ v ∈ args, v.Within F) : (r.callValue f args).Sound F given := by
  cases f with
  | builtin b =>
    simp only [Run.callValue]
    split
    · next v hv => exact h.push hs (Builtin.isPlain_of_give hv).within
    · exact ⟨h.arena, h.callers, hs⟩
    · exact ⟨h.arena, h.callers, hs⟩
    · exact ⟨h.arena, h.callers, hs⟩
    · exact ⟨h.arena, h.callers, hs⟩
    · exact h.raise _
  | function n chunk =>
    simp only [Run.callValue]
    split
    · exact h.raise _
    · split
      · exact h.raise _
      · have hlocals : Scope.All (Value.Within F) (Dictionary.ofList (chunk.params.zip args)) :=
          .ofList fun e he => hargs e.2 (List.of_mem_zip he).2
        refine ⟨h.arena.alloc hlocals, fun a ha => ?_, hf, .start, List.forall_mem_nil _⟩
        rcases List.mem_cons.1 ha with rfl | ha
        · exact hs
        · exact h.callers a ha
  | none | bool | int | float | str | code => exact h.raise _

theorem Outer.settle (h : r.Outer F) {stack : List Value}
    (hs : Activation.Stands F { r.current with stack } 1) {x : Value.Result}
    (hx : ∀ v, x = .ok v → v.IsPlain) : (r.settle stack x).Sound F given := by
  cases x with
  | ok v => exact h.next (hs.push (hx v rfl).within)
  | error cause => exact h.raise cause

theorem exists_of_two_le_length {α : Type} {xs : List α} (h : 2 ≤ xs.length) :
    ∃ x y rest, xs = x :: y :: rest := by
  match xs, h with
  | x :: y :: rest, _ => exact ⟨x, y, rest, rfl⟩

theorem Outer.binary (h : r.Outer F) {f : Value → Value → Value.Result}
    (hf : ∀ v w x, f v w = .ok x → x.IsPlain) (htwo : 2 ≤ r.current.stack.length)
    (hstands : ∀ stack : List Value, stack.length + 2 = r.current.stack.length →
      stack ⊆ r.current.stack → Activation.Stands F { r.current with stack } 1) :
    (r.binary f).Sound F given := by
  obtain ⟨right, left, stack, hs⟩ := exists_of_two_le_length htwo
  simp only [Run.binary, hs]
  refine h.settle (hstands stack (by rw [hs]; rfl) fun v hv => ?_) (hf left right)
  rw [hs]
  exact List.mem_cons_of_mem _ (List.mem_cons_of_mem _ hv)

/-- An instruction that control flow reaches is executed without a fault, and leaves the
activation at one of its successors. -/
theorem Outer.execute (h : r.Outer F) {pc : Nat} {i : Instr}
    (hc : F.Holds r.current.chunk) (hpc : r.current.pc = pc + 1)
    (hi : r.current.chunk.code[pc]? = some i)
    (hr : Reaches r.current.chunk pc r.current.stack.length)
    (hall : ∀ v ∈ r.current.stack, v.Within F) : (r.execute i).Sound F given := by
  obtain ⟨i', hi', hneeds, -⟩ := (F.wellFormed hc).reached pc _ hr
  cases hi.symm.trans hi'
  have hrefers := (F.wellFormed hc).operands pc i hi
  have hstands (stack : List Value) (missing : Nat)
      (hs : (pc + 1, stack.length + missing) ∈ i.successors pc r.current.stack.length)
      (hsub : stack ⊆ r.current.stack) :
      Activation.Stands F { r.current with stack } missing :=
    ⟨hc, by rw [hpc]; exact hr.step hi hs, fun v hv => hall v (hsub hv)⟩
  have hjump (stack : List Value)
      (hs : (i.arg, stack.length) ∈ i.successors pc r.current.stack.length)
      (hsub : stack ⊆ r.current.stack) : (r.jump i.arg stack).Sound F given :=
    ⟨h.arena, h.callers, hc, hr.step hi hs, fun v hv => hall v (hsub hv)⟩
  obtain ⟨op, arg⟩ := i
  cases op with
  | nop => exact h.next (hstands _ 0 (by simp [Instr.successors]) (List.Subset.refl _))
  | pushNull =>
    exact h.push (hstands _ 1 (by simp [Instr.successors]) (List.Subset.refl _)) trivial
  | jump => exact hjump _ (by simp [Instr.successors]) (List.Subset.refl _)
  | popTop =>
    simp only [Run.execute]
    split
    · next v stack hs =>
      exact h.next (hstands stack 0 (by simp [Instr.successors, hs]) (by simp [hs]))
    · next hs => simp [Instr.needs, hs] at hneeds
  | returnValue =>
    simp only [Run.execute]
    split
    · next v stack hs => exact ⟨h.arena, h.callers, hall v (by simp [hs])⟩
    · next hs => simp [Instr.needs, hs] at hneeds
  | loadConst =>
    simp only [Run.execute]
    split
    · next v hv =>
      exact h.push (hstands _ 1 (by simp [Instr.successors]) (List.Subset.refl _))
        (F.constant hc hv)
    · next hv => exact absurd hrefers (Nat.not_lt.2 (Array.getElem?_eq_none_iff.1 hv))
  | loadName =>
    simp only [Run.execute]
    split
    · split
      · next v hv =>
        exact h.push (hstands _ 1 (by simp [Instr.successors]) (List.Subset.refl _))
          (h.arena.lookup hv)
      · exact h.raise _
    · next hv => exact absurd hrefers (Nat.not_lt.2 (Array.getElem?_eq_none_iff.1 hv))
  | storeName =>
    simp only [Run.execute]
    split
    · next name v stack _ hs =>
      have hstore := h.arena.store r.current.frame name (hall v (by simp [hs]))
      exact ⟨hstore, h.callers, hstands stack 0 (by simp [Instr.successors, hs]) (by simp [hs])⟩
    · next hs => simp [Instr.needs, hs] at hneeds
    · next hv => exact absurd hrefers (Nat.not_lt.2 (Array.getElem?_eq_none_iff.1 hv))
  | binaryOp =>
    simp only [Run.execute]
    split
    · refine h.binary (fun _ _ _ => Value.isPlain_arith) hneeds fun stack hlen hsub => ?_
      exact hstands stack 1 (by simp only [Instr.successors, ← hlen]; simp) hsub
    · next hv => exact absurd hrefers (Nat.not_lt.2 (List.getElem?_eq_none_iff.1 hv))
  | compareOp =>
    simp only [Run.execute]
    split
    · refine h.binary (fun _ _ _ => Value.isPlain_compare) hneeds fun stack hlen hsub => ?_
      exact hstands stack 1 (by simp only [Instr.successors, ← hlen]; simp) hsub
    · next hv => exact absurd hrefers (Nat.not_lt.2 (List.getElem?_eq_none_iff.1 hv))
  | unaryOp =>
    simp only [Run.execute]
    split
    · next op v stack _ hs =>
      exact h.settle (hstands stack 1 (by simp [Instr.successors, hs]) (by simp [hs]))
        fun _ => Value.isPlain_unary
    · next hs => simp [Instr.needs, hs] at hneeds
    · next hv => exact absurd hrefers (Nat.not_lt.2 (List.getElem?_eq_none_iff.1 hv))
  | call =>
    simp only [Run.execute]
    have htwo : 2 ≤ (r.current.stack.drop arg).length := by
      rw [List.length_drop]
      simp only [Instr.needs] at hneeds
      omega
    obtain ⟨f, mark, rest, hs⟩ := exists_of_two_le_length htwo
    have hsub : ∀ v ∈ f :: mark :: rest, v ∈ r.current.stack := fun v hv =>
      List.drop_subset arg _ (hs ▸ hv)
    have hlen : r.current.stack.length - arg = rest.length + 2 := by
      rw [← List.length_drop, hs]
      rfl
    rw [hs]
    refine Outer.callValue (r := { r with current := { r.current with stack := rest } })
      ⟨h.arena, h.callers⟩ (hstands rest 1 ?_ fun v hv => ?_)
      (hall f (hsub f List.mem_cons_self)) fun v hv => ?_
    · simp only [Instr.successors, List.mem_singleton, Prod.mk.injEq, true_and]
      omega
    · exact hsub v (List.mem_cons_of_mem _ (List.mem_cons_of_mem _ hv))
    · exact hall v (List.mem_of_mem_take (List.mem_reverse.1 hv))
  | makeFunction =>
    obtain ⟨n, inner, hget⟩ := hrefers
    have hget : r.current.chunk.constants[arg]? = some (.code n inner) := hget
    have hinner : F.Holds inner := F.constant hc (v := .code n inner) hget
    simp only [Run.execute, hget]
    exact ⟨h.arena, h.callers,
      (hstands _ 1 (by simp [Instr.successors]) (List.Subset.refl _)).push hinner⟩
  | popJumpIfFalse =>
    simp only [Run.execute]
    split
    · next v stack hs =>
      split
      · exact h.next (hstands stack 0 (by simp [Instr.successors, hs]) (by simp [hs]))
      · exact hjump stack (by simp [Instr.successors, hs]) (by simp [hs])
    · next hs => simp [Instr.needs, hs] at hneeds
  | jumpIfFalseOrPop | jumpIfTrueOrPop =>
    simp only [Run.execute]
    split
    · next v stack hs =>
      have hpop := hstands stack 0 (by simp [Instr.successors, hs]) (by simp [hs])
      have hkeep := hjump _ (by simp [Instr.successors]) (List.Subset.refl _)
      split
      · first | exact h.next hpop | exact hkeep
      · first | exact h.next hpop | exact hkeep
    · next hs => simp [Instr.needs, hs] at hneeds

end Execute

namespace Sound

variable {r : Run}

theorem outer (h : r.Sound F given) : r.Outer F :=
  ⟨h.arena, h.callers⟩

theorem fail (h : r.Sound F given) {u : Unwind} (hu : Ending.Sound F given (.error u)) :
    (r.fail u).Sound F given :=
  ⟨h.arena, h.callers, hu⟩

theorem fetch (h : r.Sound F given) (hs : r.current.Stands F 0) : r.fetch.Sound F given := by
  obtain ⟨i, hi, -⟩ := (F.wellFormed hs.chunk).reached _ _ hs.reaches
  simp only [Run.fetch, hi]
  refine ⟨h.arena.setPosition _ _ _, h.callers, ?_⟩
  have hstands : Activation.Stands F { r.current with
      lasti := r.current.pc * Code.instrWidth
      line := (r.current.chunk.lineOf? r.current.pc).getD r.current.line
      lastLine := (r.current.chunk.lineOf? r.current.pc).getD r.current.line } 0 :=
    ⟨hs.chunk, hs.reaches, hs.stack⟩
  split
  · exact hstands
  · exact hstands

theorem executeFetched (h : r.Sound F given) (hs : r.current.Stands F 0) :
    r.executeFetched.Sound F given := by
  obtain ⟨i, hi, -⟩ := (F.wellFormed hs.chunk).reached _ _ hs.reaches
  simp only [Run.executeFetched, hi]
  exact Outer.execute (r := { r with current := { r.current with pc := r.current.pc + 1 } })
    ⟨h.arena, h.callers⟩ hs.chunk rfl hi hs.reaches hs.stack

theorem mapError_noteLeaving {ending : Ending} (h : ending.Sound F given) (a : Activation) :
    Ending.Sound F given (ending.mapError (noteLeaving a)) := by
  cases ending with
  | ok v => exact h
  | error u => cases u <;> exact h

theorem leave (h : r.Sound F given) {ending : Ending} (hending : ending.Sound F given) :
    (r.leave ending).Sound F given := by
  have hleft := mapError_noteLeaving hending r.current
  have harena := h.arena.release r.current.frame
  have hcallers := h.callers
  unfold Run.leave
  simp only [Run.withArena]
  generalize ending.mapError (noteLeaving r.current) = left at hleft ⊢
  cases hcs : r.callers with
  | nil => exact ⟨harena, by simp, hleft⟩
  | cons caller callers =>
    rw [hcs] at hcallers
    have hrest : ∀ a ∈ callers, a.Stands F 1 := fun a ha => hcallers a (List.mem_cons_of_mem _ ha)
    cases left with
    | ok v => exact ⟨harena, hrest, (hcallers caller List.mem_cons_self).push hleft⟩
    | error u => exact ⟨harena, hrest, hleft⟩

theorem answered {ending : Ending} (h : ending.Sound F given) {c : Control}
    (hc : ∀ reason, c = .abort reason → given reason) :
    Ending.Sound F given (Ending.answered ending c) := by
  cases ending with
  | error u => cases c <;> exact h
  | ok v =>
    cases c with
    | abort reason => exact hc reason rfl
    | cancel => trivial
    | proceed | untrace => exact h

theorem advance (h : r.Sound F given) : r.advance.Sound F given := by
  have hplaced := h.placed
  unfold Run.advance
  split
  · next hp =>
    rw [hp] at hplaced
    exact ⟨h.arena, h.callers, hplaced⟩
  · next hp =>
    rw [hp] at hplaced
    exact h.fetch hplaced
  · next hp =>
    rw [hp] at hplaced
    exact ⟨h.arena, h.callers, hplaced⟩
  · next hp =>
    rw [hp] at hplaced
    exact ⟨h.arena, h.callers, hplaced⟩
  · next hp =>
    rw [hp] at hplaced
    exact h.executeFetched hplaced
  · next ending hp =>
    rw [hp] at hplaced
    exact h.leave hplaced
  · exact h

theorem withTracing (h : r.Sound F given) (tracing : Bool) :
    Sound F given { r with machine := { r.machine with tracing } } :=
  ⟨h.arena, h.callers, h.placed⟩

theorem control (h : r.Sound F given) {c : Control}
    (hc : ∀ reason, c = .abort reason → given reason) : (r.control c).Sound F given := by
  have hr : Sound F given
      (if c = .untrace then { r with machine := { r.machine with tracing := false } } else r) := by
    split
    · exact h.withTracing false
    · exact h
  unfold Run.control
  generalize (if c = .untrace then { r with machine := { r.machine with tracing := false } }
    else r) = r' at hr ⊢
  dsimp only
  have hplaced := hr.placed
  split
  · next ending hp =>
    rw [hp] at hplaced
    exact hr.leave (answered hplaced hc)
  · split
    · exact hr.fail trivial
    · next reason => exact hr.fail (hc reason rfl)
    · exact hr.advance

theorem polled (h : r.Sound F given) (hn : r.need = .cell) (interrupted : Bool) :
    (r.polled interrupted).Sound F given := by
  have hplaced := h.placed
  unfold Run.polled
  split
  · exact h.fail trivial
  · rw [phase_of_need_cell hn] at hplaced
    exact ⟨h.arena, h.callers, hplaced⟩

theorem shown (h : r.Sound F given) (hs : r.current.Stands F 1) : r.shown.Sound F given := by
  unfold Run.shown
  split
  · exact ⟨h.arena, h.callers, hs⟩
  · exact h.outer.push hs trivial

theorem received (h : r.Sound F given) (hs : r.current.Stands F 1) {line : Except Unwind String}
    (hline : ∀ reason, line = .error (.fault reason) → given reason) :
    (r.received line).Sound F given := by
  cases line with
  | ok line => exact h.outer.push hs trivial
  | error u =>
    refine h.fail ?_
    cases u with
    | fault reason => exact hline reason rfl
    | _ => trivial

end Sound

/-- One move of a run, on whatever answer it gets. Observers may pin frames and let go of them at
any time. The faults that are given from outside are of a known kind. -/
inductive Moves (given : String → Prop) : Run → Run → Prop
  | advance {r : Run} (hn : r.need = .nothing) : Moves given r r.advance
  | control {r : Run} {event : TraceEvent} {aux : Option Value} (hn : r.need = .control event aux)
    (c : Control) (hc : ∀ reason, c = .abort reason → given reason) : Moves given r (r.control c)
  | polled {r : Run} (hn : r.need = .cell) (interrupted : Bool) :
    Moves given r (r.polled interrupted)
  | wrote {r : Run} {text : String} (hn : r.need = .write text) : Moves given r r.shown
  | cleared {r : Run} (hn : r.need = .clear) : Moves given r r.shown
  | received {r : Run} (hn : r.need = .line) (line : Except Unwind String)
    (hline : ∀ reason, line = .error (.fault reason) → given reason) :
    Moves given r (r.received line)
  | repinned {r : Run} {a : Arena} (ha : r.machine.arena.Repinned a) : Moves given r (r.withArena a)

/-- A machine on which compiled texts were run, any number of them. -/
inductive Ready (given : String → Prop) : Machine → Prop
  | new (recursionLimit nextIdent : Nat) (tracing : Bool) :
    Ready given { Machine.new recursionLimit nextIdent with tracing }
  | after {m : Machine} {file text : String} {chunk : Chunk} {r : Run} {ending : Ending}
    (hm : Ready given m) (hc : Code.compile file text = .ok chunk)
    (hr : Relation.ReflTransGen (Moves given) (start m chunk) r) (he : r.phase = .ended ending)
    (tracing : Bool) : Ready given { r.machine with tracing }

theorem Sound.moves {r r' : Run} (h : r.Sound F given) (hm : Moves given r r') :
    r'.Sound F given := by
  have hplaced := h.placed
  cases hm with
  | advance => exact h.advance
  | control _ c hc => exact h.control hc
  | polled hn interrupted => exact h.polled hn interrupted
  | wrote hn =>
    obtain ⟨thenRead, hp⟩ := phase_of_need_write hn
    rw [hp] at hplaced
    exact h.shown hplaced
  | cleared hn =>
    rw [phase_of_need_clear hn] at hplaced
    exact h.shown hplaced
  | received hn line hline =>
    rw [phase_of_need_line hn] at hplaced
    exact h.received hplaced hline
  | repinned ha => exact ⟨h.arena.repinned ha, h.callers, hplaced⟩

theorem Sound.reaches {r r' : Run} (h : r.Sound F given)
    (hr : Relation.ReflTransGen (Moves given) r r') : r'.Sound F given := by
  induction hr with
  | refl => exact h
  | tail _ hm ih => exact ih.moves hm

theorem sound_start {m : Machine} {chunk : Chunk} (hm : m.arena.All (Value.Within F))
    (hc : F.Holds chunk) : (start m chunk).Sound F given where
  arena := hm.alloc .empty
  callers := List.forall_mem_nil _
  placed := (⟨hc, .start, List.forall_mem_nil _⟩ : Activation.Stands F _ 0)

theorem all_builtins (F : Code.Family) : (Arena.new builtinScope).All (Value.Within F) :=
  .new fun _ _ hv => (Evaluator.isPlain_of_builtinScope hv).within

theorem holds_compile {file text : String} {chunk : Chunk}
    (h : Code.compile file text = .ok chunk) : Code.Family.compiled.Holds chunk :=
  ⟨file, Code.compiles_unit h .self⟩

theorem Ready.arena {m : Machine} (h : Ready given m) :
    m.arena.All (Value.Within .compiled) := by
  induction h with
  | new => exact all_builtins _
  | after _ hc hr _ _ ih => exact ((sound_start ih (holds_compile hc)).reaches hr).arena

/-- Whether an instruction of the current activation is due. -/
def isAtInstr (r : Run) : Bool :=
  match r.phase with
  | .call | .fetch | .line | .opcode | .poll | .execute => true
  | _ => false

/-- The next instruction is there and finds what it needs, and no fault is of the machine's own
making. -/
structure Faultless (given : String → Prop) (r : Run) : Prop where
  instr : r.isAtInstr = true → ∃ i, r.current.chunk.code[r.current.pc]? = some i ∧
    i.needs ≤ r.current.stack.length
  fault : ∀ reason, r.phase = .leave (.error (.fault reason)) ∨
    r.phase = .ended (.error (.fault reason)) → given reason

theorem Sound.faultless {r : Run} (h : r.Sound F given) : r.Faultless given := by
  obtain ⟨m, a, callers, phase⟩ := r
  have hplaced := h.placed
  have hinstr (hs : a.Stands F 0) :
      ∃ i, a.chunk.code[a.pc]? = some i ∧ i.needs ≤ a.stack.length := by
    obtain ⟨i, hi, hneeds, -⟩ := (F.wellFormed hs.chunk).reached _ _ hs.reaches
    exact ⟨i, hi, hneeds⟩
  refine ⟨fun hat => ?_, fun reason hp => ?_⟩
  · cases phase with
    | call | fetch | line | opcode | poll | execute => exact hinstr hplaced
    | write | clear | read | leave | ended => cases hat
  · obtain hp | hp := hp
    · rw [hp] at hplaced
      exact hplaced
    · rw [hp] at hplaced
      exact hplaced

end Run

/-- A host whose observer does nothing to frames but pin them and let go of them. The faults that
it gives are of a known kind. -/
structure Host.Keeps {σ : Type} (given : String → Prop) (h : Host σ) : Prop where
  repinned : ∀ event aux (r : Run) w, r.machine.arena.Repinned (h.control event aux r w).2.1
  abort : ∀ event aux r w reason, (h.control event aux r w).1 = .abort reason → given reason
  line : ∀ w reason, (h.line w).1 = .error (.fault reason) → given reason

namespace Run

variable {σ : Type} {F : Code.Family} {given : String → Prop} {h : Host σ}

open Relation (ReflTransGen)

theorem moves_of_host (hh : h.Keeps given) {r r' : Run} {w w' : σ}
    (hm : h.move r w = .inr (r', w')) : ReflTransGen (Moves given) r r' := by
  unfold Host.move at hm
  split at hm
  · next hn =>
    cases hm
    exact .single (.advance hn)
  · next event aux hn =>
    have hpinned := hh.repinned event aux r w
    have habort := hh.abort event aux r w
    generalize h.control event aux r w = x at hm hpinned habort
    cases hm
    -- what a run needs does not depend on the pins
    have hn : (r.withArena x.2.1).need = .control event aux := hn
    exact .head (.repinned hpinned) (.single (.control hn x.1 habort))
  · next hn =>
    cases hm
    exact .single (.polled hn (h.cell w))
  · next hn =>
    cases hm
    exact .single (.wrote hn)
  · next hn =>
    cases hm
    exact .single (.cleared hn)
  · next hn =>
    cases hm
    exact .single (.received hn (h.line w).1 (hh.line w))
  · cases hm

theorem Sound.finish (hh : h.Keeps given) {r : Run} (hr : r.Sound F given) {fuel : Nat} {w : σ}
    {ending : Ending} (he : (h.finish fuel r w).1 = some ending) : ending.Sound F given := by
  induction fuel generalizing r w with
  | zero => cases he
  | succ fuel ih =>
    simp only [Host.finish] at he
    split at he
    · next hm =>
      cases he
      have hplaced := hr.placed
      rw [Host.move_eq_inl hm] at hplaced
      exact hplaced
    · next hm => exact ih (hr.reaches (moves_of_host hh hm)) he

end Run

namespace Code

/-- The chunks of a compiled text, the module's and those of the functions in it, are well formed
and their statements start with nothing on the stack. A run of them, on a machine on which any
compiled texts were run before and on any answers, makes no fault and does not come to the end of
the code; so a fault in which it ends under a host is one that the host gave. -/
theorem compiled_well_formed {file text : String} {chunk : Chunk}
    (h : compile file text = .ok chunk) :
    (∀ unit, IsUnit chunk unit → WellFormed unit ∧
      ∃ inFunction body, Compiles file inFunction body unit ∧
        ∀ pc ∈ Source.Stmt.allStarts body 0, ∀ height, Reaches unit pc height → height = 0) ∧
      ∀ given m, Run.Ready given m →
        (∀ r, Relation.ReflTransGen (Run.Moves given) (Run.start m chunk) r →
          r.Faultless given) ∧
        ∀ (σ : Type) (host : Host σ), host.Keeps given → ∀ fuel w reason,
          (host.finish fuel (Run.start m chunk) w).1 = some (.error (.fault reason)) →
            given reason := by
  refine ⟨fun unit hu => ?_, fun given m hm => ?_⟩
  · obtain ⟨inFunction, body, hp, hc⟩ := compiles_unit h hu
    exact ⟨hc.wellFormed hp, inFunction, body, hc, fun pc hpc height hr => hc.starts hpc hr⟩
  · have hstart : (Run.start m chunk).Sound .compiled given :=
      Run.sound_start hm.arena (Run.holds_compile h)
    exact ⟨fun r hr => (hstart.reaches hr).faultless,
      fun σ host hh fuel w reason he => hstart.finish hh he⟩

def winding : String :=
  "def f(n):\n    while n and n < 9:\n        if n == 4:\n            return f\n" ++
  "        n = n + 1\nf(2)\n"

theorem compiled_well_formed_winding :
    ∃ chunk n inner, compile "<winding>" winding = .ok chunk ∧
      chunk.constants[0]? = some (.code n inner) ∧ WellFormed chunk ∧ WellFormed inner ∧
      ∀ r, Relation.ReflTransGen (Run.Moves fun _ => False) (Run.start (.new 10 0) chunk) r →
        r.Faultless fun _ => False := by
  have hcompiles : (compile "<winding>" winding).toOption.any (fun chunk =>
      chunk.constants[0]?.any fun v => v.typeName == "code") = true := by
    decide +kernel
  cases hk : compile "<winding>" winding with
  | error e =>
    rw [hk] at hcompiles
    cases hcompiles
  | ok chunk =>
    rw [hk] at hcompiles
    obtain ⟨v, hv, hcode⟩ := (Option.any_eq_true ..).1
      (show (chunk.constants[0]?.any fun v => v.typeName == "code") = true from hcompiles)
    obtain ⟨n, inner, rfl⟩ : ∃ n inner, v = .code n inner := by
      cases v with
      | code n inner => exact ⟨n, inner, rfl⟩
      | _ => cases hcode
    obtain ⟨hunits, hruns⟩ := compiled_well_formed hk
    exact ⟨chunk, n, inner, rfl, hv, (hunits chunk .self).1, (hunits inner (.nested .self hv)).1,
      (hruns _ _ (.new 10 0 false)).1⟩

end Code

end Stepwise
