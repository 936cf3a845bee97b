import Stepwise.Proofs.Machine.Aftermath
import Stepwise.Proofs.Machine.Path
import Stepwise.Proofs.Machine.Succession

/-! What the observer of a run is told, in order. The events of an activation are those between its
call and its return; where it calls a function, all events of that function come in between. So the
events of a run are nested as its activations are. Whatever the observer answers and however
activations end, this holds as long as it is told of events at all. -/

namespace Stepwise

def Control.stops : Control → Bool
  | .cancel | .abort _ => true
  | .proceed | .untrace => false

/-- An event that the observer was told, and its answer. -/
structure Told where
  event : TraceEvent
  frame : FrameId
  chunk : Chunk
  lasti : Nat
  line : Nat
  aux : Option Value
  answer : Control

namespace Told

def of (r : Run) (event : TraceEvent) (aux : Option Value) (answer : Control) : Told :=
  ⟨event, r.current.frame, r.current.chunk, r.current.lasti, r.current.line, aux, answer⟩

def handed (t : Told) : Option Value :=
  if t.answer.stops then none else t.aux

end Told

/-- The host with a record of all that its observer was told. -/
def Host.recording {σ : Type} (h : Host σ) : Host (σ × List Told) where
  control event aux r w :=
    let (c, arena, x) := h.control event aux r w.1
    (c, arena, x, w.2 ++ [.of r event aux c])
  cell w := h.cell w.1
  write text w := (h.write text w.1, w.2)
  clear w := (h.clear w.1, w.2)
  line w :=
    let (line, x) := h.line w.1
    (line, x, w.2)

namespace EventLog

/-- How far an activation has come with its events. It is between two instructions; a line was told
whose instruction has to follow; an instruction was told, which may be a call; only the return can
follow, without a value; the return was told, and this goes on to the caller. -/
inductive Standing
  | fresh
  | ready
  | announced
  | executing
  | failing
  | closed (handed : Option Value)

namespace Standing

/-- Another instruction can follow, and so can the return. -/
def isFree : Standing → Bool
  | ready | executing => true
  | _ => false

/-- Where an activation comes to by an event, which the observer's answer may make it fail at. -/
def after (c : Control) (next : Standing) : Standing :=
  if c.stops then failing else next

/-- Where a caller comes to that is handed a value or nothing. -/
def resumed (handed : Option Value) : Standing :=
  if handed.isSome then ready else failing

end Standing

/-- An event that an activation can tell whose instruction before was on a line. It comes to another
place by that, and perhaps to another line. -/
inductive Tells (line : Nat) (t : Told) : Standing → Standing → Nat → Prop
  | call (he : t.event = .call) : Tells line t .fresh (.after t.answer .ready) line
  | line {p : Standing} (he : t.event = .line) (hp : p.isFree = true) (hl : t.line ≠ line) :
    Tells line t p (.after t.answer .announced) t.line
  | opcode {p : Standing} (he : t.event = .opcode) (hp : p = .announced ∨ p.isFree = true)
    (hl : t.line = line) : Tells line t p (.after t.answer .executing) line
  | ret {p : Standing} (he : t.event = .ret) (hp : p.isFree = true ∨ p = .failing ∧ t.aux = none) :
    Tells line t p (.closed t.handed) line

end EventLog

open EventLog (Standing Tells)

/-- The events of an activation so far, in between them those of what it called: the frame and the
chunk of the activation, how far it has come, and the line of its last instruction. -/
inductive EventLog : FrameId → Chunk → Standing → Nat → List Told → Prop
  | fresh (id : FrameId) (chunk : Chunk) : EventLog id chunk .fresh 0 []
  | told {id : FrameId} {chunk : Chunk} {p q : Standing} {line line' : Nat} {log : List Told}
    {t : Told} (h : EventLog id chunk p line log) (hid : t.frame = id) (hchunk : t.chunk = chunk)
    (ht : Tells line t p q line') : EventLog id chunk q line' (log ++ [t])
  | called {id id' : FrameId} {chunk chunk' : Chunk} {line line' : Nat} {log inner : List Told}
    {handed : Option Value} (h : EventLog id chunk .executing line log)
    (hinner : EventLog id' chunk' (.closed handed) line' inner) :
    EventLog id chunk (.resumed handed) line (log ++ inner)

namespace EventLog

/-- The events of an activation inside those of its callers, of which the last is the module. -/
inductive Nested (id : FrameId) (chunk : Chunk) :
    Activation → List Activation → Standing → Nat → List Told → Prop
  | base {x : Activation} {p : Standing} {line : Nat} {log : List Told} (hframe : x.frame = id)
    (hchunk : x.chunk = chunk) (h : EventLog id chunk p line log) :
    Nested id chunk x [] p line log
  | inside {x caller : Activation} {callers : List Activation} {p : Standing} {line : Nat}
    {outer log : List Told}
    (hcaller : Nested id chunk caller callers .executing caller.lastLine outer)
    (h : EventLog x.frame x.chunk p line log) :
    Nested id chunk x (caller :: callers) p line (outer ++ log)

namespace Nested

variable {id : FrameId} {chunk : Chunk} {x y : Activation} {callers : List Activation}
  {p q : Standing} {line line' : Nat} {log : List Told}

theorem congr (h : Nested id chunk x callers p line log) (hframe : y.frame = x.frame)
    (hchunk : y.chunk = x.chunk) : Nested id chunk y callers p line log := by
  cases h with
  | base hx hk h => exact .base (hframe.trans hx) (hchunk.trans hk) h
  | inside hcaller h => exact .inside hcaller (by rwa [hframe, hchunk])

theorem told (h : Nested id chunk x callers p line log) {t : Told} (hframe : t.frame = x.frame)
    (hchunk : t.chunk = x.chunk) (ht : Tells line t p q line') :
    Nested id chunk x callers q line' (log ++ [t]) := by
  cases h with
  | base hx hk h => exact .base hx hk (h.told (hframe.trans hx) (hchunk.trans hk) ht)
  | inside hcaller h =>
    rw [List.append_assoc]
    exact .inside hcaller (h.told hframe hchunk ht)

theorem called (h : Nested id chunk x callers .executing line log) {id' : FrameId}
    {chunk' : Chunk} {handed : Option Value} {inner : List Told}
    (hinner : EventLog id' chunk' (.closed handed) line' inner) :
    Nested id chunk x callers (.resumed handed) line (log ++ inner) := by
  cases h with
  | base hx hk h => exact .base hx hk (h.called hinner)
  | inside hcaller h =>
    rw [List.append_assoc]
    exact .inside hcaller (h.called hinner)

theorem entered (h : Nested id chunk x callers .executing x.lastLine log) (id' : FrameId)
    (chunk' : Chunk) : Nested id chunk (.new id' chunk') (x :: callers) .fresh 0 log := by
  rw [← List.append_nil log]
  exact .inside h (.fresh id' chunk')

theorem returned {handed : Option Value}
    (h : Nested id chunk x (y :: callers) (.closed handed) line log) :
    Nested id chunk y callers (.resumed handed) y.lastLine log := by
  cases h with
  | inside hcaller h => exact hcaller.called h

theorem eventLog (h : Nested id chunk x [] p line log) : EventLog id chunk p line log := by
  cases h with
  | base _ _ h => exact h

end Nested

end EventLog

open EventLog (Nested)

namespace Run

/-- How far the current activation has come with its events, in every phase of a run. -/
def Stands (r : Run) (p : Standing) (line : Nat) : Prop :=
  match r.phase with
  | .call => p = .fresh ∧ line = r.current.lastLine
  | .fetch => p.isFree = true ∧ line = r.current.lastLine
  | .line => p.isFree = true ∧ line ≠ r.current.line ∧ r.current.line = r.current.lastLine
  | .opcode => (p = .announced ∨ p.isFree = true) ∧ line = r.current.line ∧
    line = r.current.lastLine
  | .poll | .execute | .write _ _ | .clear | .read => p = .executing ∧ line = r.current.lastLine
  | .leave (.ok _) => p.isFree = true
  | .leave (.error _) => p.isFree = true ∨ p = .failing
  | .ended ending => p = .closed ending.toOption ∧ r.callers = []

def HasTold (r : Run) (id : FrameId) (chunk : Chunk) (log : List Told) : Prop :=
  ∃ p line, Nested id chunk r.current r.callers p line log ∧ r.Stands p line

variable {r : Run} {id : FrameId} {chunk : Chunk} {log : List Told} {p : Standing} {line : Nat}

theorem hasTold_start (m : Machine) (chunk : Chunk) :
    (Run.start m chunk).HasTold (Run.start m chunk).current.frame chunk [] :=
  ⟨.fresh, 0, .base rfl rfl (.fresh _ _), rfl, rfl⟩

inductive Works (r : Run) : Run → Prop
  | goes (pc : Nat) (stack : List Value) (machine : Machine) (phase : Phase)
    (hp : phase = .fetch ∨ phase = .clear ∨ phase = .read ∨
      (∃ text thenRead, phase = .write text thenRead) ∨ ∃ ending, phase = .leave ending) :
    Works r ⟨machine, { r.current with pc, stack }, r.callers, phase⟩
  | calls (pc : Nat) (stack : List Value) (machine : Machine) (id : FrameId) (chunk : Chunk) :
    Works r ⟨machine, .new id chunk, { r.current with pc, stack } :: r.callers, .call⟩

theorem works_execute (r : Run) (i : Code.Instr) : Works r (r.stepped.execute i) := by
  have hpasses : r.stepped.Passes r.current.pc i (r.stepped.execute i) := passes_execute rfl
  have hturns := turns_execute r.stepped i
  generalize r.stepped.execute i = s at hpasses hturns
  cases hturns with
  | @goes pc stack n phase =>
    refine .goes pc stack _ phase ?_
    cases hpasses with
    | fails u hp => exact .inr (.inr (.inr (.inr ⟨_, hp⟩)))
    | goes _ _ _ _ hp =>
      obtain hp | hp | hp | hp := hp
      · exact .inl hp
      · exact .inr (.inl hp)
      · exact .inr (.inr (.inl hp))
      · exact .inr (.inr (.inr (.inl hp)))
    | calls _ a hc => exact absurd hc (List.cons_ne_self _ _).symm
    | returns _ _ v hp => exact .inr (.inr (.inr (.inr ⟨_, hp⟩)))
  | stores name v stack => exact .goes _ stack _ .fetch (.inl rfl)
  | enters stack chunk args hl => exact .calls _ stack _ _ chunk

inductive Announces (r : Run) : TraceEvent → Option Value → Prop
  | call (hp : r.phase = .call) : Announces r .call none
  | line (hp : r.phase = .line) : Announces r .line none
  | opcode (hp : r.phase = .opcode) : Announces r .opcode none
  | ret {ending : Ending} (hp : r.phase = .leave ending) : Announces r .ret ending.toOption

theorem announces_of_need {event : TraceEvent} {aux : Option Value}
    (h : r.need = .control event aux) : r.Announces event aux := by
  obtain ⟨⟨arena, limit, n, t⟩, a, callers, phase⟩ := r
  cases t <;> cases phase <;> cases h
  · exact .call rfl
  · exact .line rfl
  · exact .opcode rfl
  · exact .ret rfl

theorem control_of_leave {ending : Ending} (hp : r.phase = .leave ending) (c : Control) :
    ∃ t, r.control c = (r.leave (Ending.answered ending c)).withTracing t := by
  cases c with
  | untrace =>
    refine ⟨false, ?_⟩
    rw [control_untrace, advance_quieted, Run.advance, hp]
    cases ending <;> rfl
  | proceed | cancel | abort =>
    refine ⟨_, Eq.trans ?_ (withTracing_self _).symm⟩
    simp only [Run.control, hp, reduceCtorEq, if_false]

theorem control_of_not_stops {c : Control} (hc : c.stops = false) :
    ∃ t, r.control c = r.advance.withTracing t := by
  cases c with
  | proceed => exact ⟨_, r.control_proceed.trans (withTracing_self _).symm⟩
  | untrace => exact ⟨false, r.control_untrace.trans r.advance_quieted⟩
  | cancel | abort => cases hc

theorem control_of_stops (hp : ∀ ending, r.phase ≠ .leave ending) {c : Control}
    (hc : c.stops = true) : ∃ u, r.control c = r.fail u := by
  cases c with
  | proceed | untrace => cases hc
  | cancel | abort =>
    simp only [Run.control, reduceCtorEq, if_false]
    exact ⟨_, rfl⟩

theorem toOption_answered (ending : Ending) (c : Control) :
    (Ending.answered ending c).toOption = if c.stops then none else ending.toOption := by
  cases ending <;> cases c <;> rfl

namespace HasTold

theorem fail (h : Nested id chunk r.current r.callers p line log)
    (hp : p.isFree = true ∨ p = .failing) (u : Unwind) : (r.fail u).HasTold id chunk log :=
  ⟨p, line, h, hp⟩

theorem push (h : Nested id chunk r.current r.callers p line log) (hp : p.isFree = true)
    (hl : line = r.current.lastLine) (v : Value) : (r.push v).HasTold id chunk log :=
  ⟨p, line, h.congr rfl rfl, hp, hl⟩

theorem fetch (h : r.HasTold id chunk log) (hp : r.phase = .fetch) :
    r.fetch.HasTold id chunk log := by
  obtain ⟨p, line, hn, hs⟩ := h
  rw [Stands, hp] at hs
  obtain ⟨hfree, hline⟩ := hs
  unfold Run.fetch
  dsimp only
  split
  · exact ⟨p, line, hn, hfree⟩
  · refine ⟨p, line, hn.congr rfl rfl, ?_⟩
    unfold Stands
    by_cases hl : (r.current.chunk.lineOf? r.current.pc).getD r.current.line = r.current.lastLine
    · simp only [if_pos hl]
      exact ⟨.inr hfree, hline.trans hl.symm, hline.trans hl.symm⟩
    · simp only [if_neg hl]
      exact ⟨hfree, fun he => hl (he.symm.trans hline), trivial⟩

theorem works {s : Run} (hw : r.Works s)
    (hn : Nested id chunk r.current r.callers .executing r.current.lastLine log) :
    s.HasTold id chunk log := by
  cases hw with
  | goes pc stack machine phase hp =>
    refine ⟨.executing, r.current.lastLine, hn.congr rfl rfl, ?_⟩
    obtain rfl | rfl | rfl | ⟨text, thenRead, rfl⟩ | ⟨ending, rfl⟩ := hp
    · exact ⟨rfl, rfl⟩
    · exact ⟨rfl, rfl⟩
    · exact ⟨rfl, rfl⟩
    · exact ⟨rfl, rfl⟩
    · cases ending with
      | ok v => exact (rfl : Standing.executing.isFree = true)
      | error u => exact .inl rfl
  | calls pc stack machine id' chunk' =>
    have hcaller : Nested id chunk { r.current with pc, stack } r.callers .executing
        r.current.lastLine log := hn.congr rfl rfl
    exact ⟨.fresh, 0, hcaller.entered id' chunk', rfl, rfl⟩

theorem executeFetched (h : r.HasTold id chunk log) (hp : r.phase = .execute) :
    r.executeFetched.HasTold id chunk log := by
  obtain ⟨p, line, hn, hs⟩ := h
  rw [Stands, hp] at hs
  obtain ⟨rfl, rfl⟩ := hs
  cases hi : r.current.chunk.code[r.current.pc]? with
  | none =>
    rw [executeFetched_of_none hi]
    exact ⟨.executing, _, hn, rfl⟩
  | some i =>
    rw [executeFetched_of_some hi]
    exact works (works_execute r i) hn

theorem polled (h : r.HasTold id chunk log) (hp : r.phase = .poll) (interrupted : Bool) :
    (r.polled interrupted).HasTold id chunk log := by
  obtain ⟨p, line, hn, hs⟩ := h
  rw [Stands, hp] at hs
  cases interrupted with
  | true => exact fail hn (.inl (by rw [hs.1]; rfl)) .cancelled
  | false => exact ⟨p, line, hn, hs⟩

theorem shown (h : r.HasTold id chunk log)
    (hp : (∃ text thenRead, r.phase = .write text thenRead) ∨ r.phase = .clear) :
    r.shown.HasTold id chunk log := by
  obtain ⟨p, line, hn, hs⟩ := h
  have hs : p = .executing ∧ line = r.current.lastLine := by
    obtain ⟨text, thenRead, hp⟩ | hp := hp <;> rwa [Stands, hp] at hs
  unfold Run.shown
  split
  · exact ⟨p, line, hn, hs⟩
  · exact push hn (by rw [hs.1]; rfl) hs.2 .none

theorem received (h : r.HasTold id chunk log) (hp : r.phase = .read)
    (answer : Except Unwind String) : (r.received answer).HasTold id chunk log := by
  obtain ⟨p, line, hn, hs⟩ := h
  rw [Stands, hp] at hs
  have hfree : p.isFree = true := by rw [hs.1]; rfl
  cases answer with
  | ok text => exact push hn hfree hs.2 (.str text)
  | error u => exact fail hn (.inl hfree) u

theorem leave {ending : Ending}
    (hn : Nested id chunk r.current r.callers (.closed ending.toOption) line log) :
    (r.leave ending).HasTold id chunk log := by
  unfold Run.leave
  simp only [Run.withArena]
  cases hc : r.callers with
  | nil =>
    rw [hc] at hn
    refine ⟨_, line, hn, ?_, rfl⟩
    cases ending <;> rfl
  | cons caller callers =>
    rw [hc] at hn
    cases ending with
    | ok v => exact push hn.returned rfl rfl v
    | error u => exact fail hn.returned (.inr rfl) _

theorem withTracing (h : r.HasTold id chunk log) (t : Bool) :
    (r.withTracing t).HasTold id chunk log :=
  h

theorem controlled (hp : ∀ ending, r.phase ≠ .leave ending) {next : Standing} {c : Control}
    (hn : Nested id chunk r.current r.callers (.after c next) line log)
    (hnext : Nested id chunk r.current r.callers next line log → r.advance.HasTold id chunk log) :
    (r.control c).HasTold id chunk log := by
  cases hc : c.stops with
  | true =>
    obtain ⟨u, hu⟩ := control_of_stops hp hc
    rw [hu]
    rw [Standing.after, hc, if_pos rfl] at hn
    exact fail hn (.inr rfl) u
  | false =>
    obtain ⟨t, ht⟩ := control_of_not_stops (r := r) hc
    rw [ht]
    rw [Standing.after, hc, if_neg Bool.false_ne_true] at hn
    exact (hnext hn).withTracing t

theorem told (h : r.HasTold id chunk log) {event : TraceEvent} {aux : Option Value}
    (hneed : r.need = .control event aux) (arena : Arena) (c : Control) :
    ((r.withArena arena).control c).HasTold id chunk (log ++ [.of r event aux c]) := by
  obtain ⟨p, line, hn, hs⟩ := h
  have htold {q : Standing} {line' : Nat} (ht : Tells line (.of r event aux c) p q line') :
      Nested id chunk (r.withArena arena).current (r.withArena arena).callers q line'
        (log ++ [.of r event aux c]) := hn.told rfl rfl ht
  cases announces_of_need hneed with
  | call hp =>
    rw [Stands, hp] at hs
    obtain ⟨rfl, hl⟩ := hs
    refine controlled (by simp [withArena, hp]) (htold (.call rfl)) fun hn => ?_
    simp only [Run.advance, withArena, hp]
    exact ⟨_, _, hn, rfl, hl⟩
  | line hp =>
    rw [Stands, hp] at hs
    obtain ⟨hfree, hne, hl⟩ := hs
    refine controlled (by simp [withArena, hp]) (htold (.line rfl hfree hne.symm)) fun hn => ?_
    simp only [Run.advance, withArena, hp]
    exact ⟨_, _, hn, .inl rfl, rfl, hl⟩
  | opcode hp =>
    rw [Stands, hp] at hs
    obtain ⟨hstanding, hline, hl⟩ := hs
    refine controlled (by simp [withArena, hp]) (htold (.opcode rfl hstanding hline.symm))
      fun hn => ?_
    simp only [Run.advance, withArena, hp]
    exact ⟨_, _, hn, rfl, hl⟩
  | @ret ending hp =>
    obtain ⟨t, ht⟩ := control_of_leave (r := r.withArena arena) hp c
    rw [ht]
    have hstanding : p.isFree = true ∨ p = .failing ∧ ending.toOption = none := by
      rw [Stands, hp] at hs
      cases ending with
      | ok v => exact .inl hs
      | error u => exact hs.imp_right fun hs => ⟨hs, rfl⟩
    have hclosed := htold (.ret rfl hstanding)
    rw [show (Told.of r .ret ending.toOption c).handed = (Ending.answered ending c).toOption from
      (toOption_answered ending c).symm] at hclosed
    exact (leave hclosed).withTracing t

theorem advance (h : r.HasTold id chunk log) (hneed : r.need = .nothing)
    (htracing : r.machine.tracing = true) : r.advance.HasTold id chunk log := by
  cases hp : r.phase with
  | fetch =>
    rw [Run.advance, hp]
    exact h.fetch hp
  | execute =>
    rw [Run.advance, hp]
    exact h.executeFetched hp
  | call | line | opcode | leave => simp [need, hp, htracing] at hneed
  | poll | write | clear | read | ended => simp [need, hp] at hneed

end HasTold

/-- The next move of the current activation gives its value: it is at a return, or its code has no
more instructions. -/
def Produces (r : Run) (v : Value) : Prop :=
  (r.phase = .fetch ∨ r.phase = .execute) ∧
    match r.current.chunk.code[r.current.pc]? with
    | some i => r.phase = .execute ∧ i.op = .returnValue ∧ r.current.stack.head? = some v
    | none => v = .none

theorem not_produces (hf : r.phase ≠ .fetch) (he : r.phase ≠ .execute) (v : Value) :
    ¬ r.Produces v :=
  fun h => h.1.elim hf he

theorem produces_iff_of_none (hp : r.phase = .fetch ∨ r.phase = .execute)
    (hi : r.current.chunk.code[r.current.pc]? = none) (v : Value) :
    r.Produces v ↔ v = .none := by
  simp only [Produces, hi, hp, true_and]

theorem error_of_leave {ending left : Ending} (hl : (r.leave ending).phase = .leave left) :
    ∃ u, left = .error u := by
  unfold Run.leave at hl
  simp only [Run.withArena] at hl
  cases hc : r.callers with
  | nil => simp [hc] at hl
  | cons caller callers =>
    cases ending with
    | ok v => simp [hc, Except.mapError, Run.push, Run.next] at hl
    | error u =>
      simp only [hc, Except.mapError, Run.fail, Run.withPhase, Phase.leave.injEq] at hl
      exact ⟨_, hl.symm⟩

theorem produces_iff_of_execute {i : Code.Instr} (hp : r.phase = .execute)
    (hi : r.current.chunk.code[r.current.pc]? = some i) {ending : Ending}
    (hl : (r.stepped.execute i).phase = .leave ending) (v : Value) :
    ending = .ok v ↔ r.Produces v := by
  simp only [Produces, hi, hp, or_true, true_and]
  by_cases hop : i.op = .returnValue
  · have hstack : r.stepped.current.stack = r.current.stack := rfl
    simp only [Run.execute, hop, hstack] at hl
    cases hs : r.current.stack with
    | nil =>
      rw [hs] at hl
      cases hl
      simp
    | cons top below =>
      rw [hs] at hl
      cases hl
      simp [hop]
  · have hpasses : r.stepped.Passes r.current.pc i (r.stepped.execute i) := passes_execute rfl
    refine iff_of_false ?_ fun h => hop h.1
    rintro rfl
    cases hpasses with
    | fails u hu => exact nomatch hl.symm.trans hu
    | goes _ _ _ _ hg => simp [hl] at hg
    | calls _ _ _ _ _ _ hc => exact nomatch hl.symm.trans hc
    | returns hr => exact hop hr

/-- An activation that comes to its ending by itself has a value exactly if it produces that. -/
theorem produces_iff_of_advance {ending : Ending} (hl : r.advance.phase = .leave ending)
    (hr : ∀ ending, r.phase ≠ .leave ending) (v : Value) : ending = .ok v ↔ r.Produces v := by
  unfold Run.advance at hl
  split at hl
  · cases hl
  · next hp =>
    unfold Run.fetch at hl
    dsimp only at hl
    split at hl
    · next hi =>
      cases hl
      rw [produces_iff_of_none (.inl hp) hi, Except.ok.injEq, eq_comm]
    · dsimp only at hl
      split at hl <;> cases hl
  · cases hl
  · cases hl
  · next hp =>
    cases hi : r.current.chunk.code[r.current.pc]? with
    | none =>
      rw [executeFetched_of_none hi] at hl
      cases hl
      rw [produces_iff_of_none (.inr hp) hi, Except.ok.injEq, eq_comm]
    | some i =>
      rw [executeFetched_of_some hi] at hl
      exact produces_iff_of_execute hp hi hl v
  · next hp => exact absurd hp (hr _)
  · exact absurd hl (hr ending)

theorem phase_of_need_ret {aux : Option Value} (h : r.need = .control .ret aux) :
    ∃ ending, r.phase = .leave ending ∧ ending.toOption = aux := by
  cases announces_of_need h with
  | ret hp => exact ⟨_, hp, rfl⟩

theorem produces_iff_of_control {event : TraceEvent} {aux : Option Value}
    (hneed : r.need = .control event aux) (arena : Arena) {c : Control} {ending : Ending}
    (hl : ((r.withArena arena).control c).phase = .leave ending) (v : Value) :
    ending = .ok v ↔ r.Produces v := by
  by_cases hr : ∀ ending, r.phase ≠ .leave ending
  · cases hc : c.stops with
    | true =>
      obtain ⟨u, hu⟩ := control_of_stops (r := r.withArena arena) hr hc
      rw [hu] at hl
      cases hl
      refine iff_of_false (by simp) (not_produces ?_ ?_ v) <;>
        exact fun hp => by simp [need, hp] at hneed
    | false =>
      obtain ⟨t, ht⟩ := control_of_not_stops (r := r.withArena arena) hc
      rw [ht] at hl
      exact produces_iff_of_advance (r := r.withArena arena) hl hr v
  · obtain ⟨left, hp⟩ := not_forall_not.1 hr
    obtain ⟨t, ht⟩ := control_of_leave (r := r.withArena arena) hp c
    rw [ht] at hl
    obtain ⟨u, rfl⟩ := error_of_leave hl
    exact iff_of_false (by simp) (not_produces (by simp [hp]) (by simp [hp]) v)

theorem tracing_control {c : Control} (hc : c ≠ .untrace)
    (hr : ∀ ending, (r.control c).phase ≠ .ended ending) :
    (r.control c).machine.tracing = r.machine.tracing := by
  cases c with
  | untrace => exact absurd rfl hc
  | proceed =>
    rw [control_proceed] at hr ⊢
    exact (settings_advance r).2 hr
  | cancel | abort reason =>
    cases hp : r.phase with
    | leave ending =>
      simp only [Run.control, reduceCtorEq, if_false, hp] at hr ⊢
      exact (settings_leave r _).2 hr
    | _ => simp only [Run.control, reduceCtorEq, if_false, hp]; rfl

theorem tracing_advance_eq_false (ht : r.machine.tracing = false) :
    r.advance.machine.tracing = false := by
  rw [← quieted_eq_self ht, advance_quieted]
  rfl

end Run

namespace Host

variable {σ : Type} {h : Host σ} {r r' : Run} {w w' : σ} {id : FrameId} {chunk : Chunk}
  {log : List Told}

theorem ret_iff_produces (hs : h.Steps r w r' w') {aux : Option Value}
    (hneed : r'.need = .control .ret aux) (v : Value) : aux = some v ↔ r.Produces v := by
  obtain ⟨ending, hl, rfl⟩ := Run.phase_of_need_ret hneed
  have hvalue : ending.toOption = some v ↔ ending = .ok v := by
    cases ending <;> simp [Except.toOption]
  rw [hvalue]
  cases hs with
  | alone hn =>
    by_cases hr : ∀ ending, r.phase ≠ .leave ending
    · exact Run.produces_iff_of_advance hl hr v
    · obtain ⟨left, hp⟩ := not_forall_not.1 hr
      rw [Run.advance, hp] at hl
      obtain ⟨u, rfl⟩ := Run.error_of_leave hl
      exact iff_of_false (by simp) (Run.not_produces (by simp [hp]) (by simp [hp]) v)
  | told hn => exact Run.produces_iff_of_control hn _ hl v
  | polled hp =>
    have hnot := Run.not_produces (r := r) (by simp [hp]) (by simp [hp]) v
    cases hc : h.cell w <;> rw [hc] at hl <;> cases hl
    exact iff_of_false (by simp) hnot
  | @wrote _ thenRead hp =>
    cases thenRead <;> simp [Run.shown, hp, Run.withPhase, Run.push, Run.next] at hl
  | cleared hp => simp [Run.shown, hp, Run.push, Run.next] at hl
  | read hp =>
    have hnot := Run.not_produces (r := r) (by simp [hp]) (by simp [hp]) v
    cases hc : (h.line w).1 <;> rw [hc] at hl <;> cases hl
    exact iff_of_false (by simp) hnot

structure Recorded (id : FrameId) (chunk : Chunk) (r : Run) (log : List Told) : Prop where
  silent : ∀ t ∈ log, t.answer = .untrace → r.machine.tracing = false
  last : ∀ before t after, log = before ++ t :: after → t.answer = .untrace → after = []
  nested : ∃ x callers p line, Nested id chunk x callers p line log
  traced : (∀ t ∈ log, t.answer ≠ .untrace) →
    ((∀ ending, r.phase ≠ .ended ending) → r.machine.tracing = true) ∧ r.HasTold id chunk log

namespace Recorded

theorem quietly (h : Recorded id chunk r log) (hr : ∀ ending, r.phase ≠ .ended ending)
    (hfalse : r.machine.tracing = false → r'.machine.tracing = false)
    (htrue : r.machine.tracing = true → r.HasTold id chunk log →
      ((∀ ending, r'.phase ≠ .ended ending) → r'.machine.tracing = true) ∧
        r'.HasTold id chunk log) : Recorded id chunk r' log where
  silent t ht hu := hfalse (h.silent t ht hu)
  last := h.last
  nested := h.nested
  traced hlog :=
    have ⟨htracing, htold⟩ := h.traced hlog
    htrue (htracing hr) htold

theorem told (h : Recorded id chunk r log) {event : TraceEvent} {aux : Option Value}
    (hneed : r.need = .control event aux) (arena : Arena) (c : Control) :
    Recorded id chunk ((r.withArena arena).control c) (log ++ [.of r event aux c]) := by
  obtain ⟨htracing, -, hr⟩ := Run.of_need_control hneed
  have hlog : ∀ t ∈ log, t.answer ≠ .untrace := fun t ht hu => by
    rw [h.silent t ht hu] at htracing
    cases htracing
  have htold := (h.traced hlog).2.told hneed arena c
  refine ⟨fun t ht hu => ?_, fun before t after he hu => ?_, ?_, fun hall => ⟨fun hr' => ?_, htold⟩⟩
  · rcases List.mem_append.1 ht with ht | ht
    · exact absurd hu (hlog t ht)
    · cases List.mem_singleton.1 ht
      obtain rfl : c = .untrace := hu
      rw [Run.control_untrace, Run.advance_quieted]
      rfl
  · obtain rfl | ⟨after, last, rfl⟩ := after.eq_nil_or_concat
    · rfl
    · have he : log = before ++ t :: after := by
        have happend : log ++ [.of r event aux c] = (before ++ t :: after) ++ [last] := by
          rw [he]
          simp
        exact (List.append_inj' happend rfl).1
      exact absurd hu (hlog t (he ▸ List.mem_append_right _ List.mem_cons_self))
  · obtain ⟨p, line, hn, -⟩ := htold
    exact ⟨_, _, p, line, hn⟩
  · have hc : c ≠ .untrace := hall _ (List.mem_append_right _ List.mem_cons_self)
    exact (Run.tracing_control hc hr').trans htracing

theorem step {x y : σ × List Told} (hrec : Recorded id chunk r x.2)
    (hs : h.recording.Steps r x r' y) : Recorded id chunk r' y.2 := by
  have hr := hs.ne_ended
  cases hs with
  | alone hn =>
    exact hrec.quietly hr Run.tracing_advance_eq_false fun ht htold =>
      ⟨fun hr' => ((Run.settings_advance r).2 hr').trans ht, htold.advance hn ht⟩
  | told hn => exact hrec.told hn _ _
  | polled hp =>
    have htracing := r.tracing_polled (h.recording.cell x)
    exact hrec.quietly hr htracing.trans fun ht htold =>
      ⟨fun _ => htracing.trans ht, htold.polled hp _⟩
  | wrote hp =>
    exact hrec.quietly hr r.tracing_shown.trans fun ht htold =>
      ⟨fun _ => r.tracing_shown.trans ht, htold.shown (.inl ⟨_, _, hp⟩)⟩
  | cleared hp =>
    exact hrec.quietly hr r.tracing_shown.trans fun ht htold =>
      ⟨fun _ => r.tracing_shown.trans ht, htold.shown (.inr hp)⟩
  | read hp =>
    have htracing := r.tracing_received (h.recording.line x).1
    exact hrec.quietly hr htracing.trans fun ht htold =>
      ⟨fun _ => htracing.trans ht, htold.received hp _⟩

theorem path {P : Run → Prop} {n : Nat} {x y : σ × List Told} (hrec : Recorded id chunk r x.2)
    (hp : Path h.recording P n r x r' y) : Recorded id chunk r' y.2 := by
  induction hp with
  | refl => exact hrec
  | step _ hm _ ih => exact ih (hrec.step (steps_of_move hm))

end Recorded

end Host

/-- A run that starts with an observer tells it nested events, whatever it executes, whatever the
console does and whatever the observer answers. If the observer goes, it goes by its last answer.
Until then the events are those of the activations under way, each inside those of its caller; when
the run has ended, they are complete. A return is told with a value exactly if its activation
produced that. -/
theorem Machine.events_nested {σ : Type} (h : Host σ) (m : Machine) (chunk : Chunk) {n : Nat}
    {w w' : σ} {r : Run} {log : List Told}
    (hp : Host.Path h.recording (fun _ => True) n (Run.start { m with tracing := true } chunk)
      (w, []) r (w', log)) :
    let id := (Run.start m chunk).current.frame
    (∀ before t after, log = before ++ t :: after → t.answer = .untrace → after = []) ∧
      (∃ x callers p line, Nested id chunk x callers p line log) ∧
      ((∀ t ∈ log, t.answer ≠ .untrace) →
        (∀ ending, r.phase ≠ .ended ending) →
          ∃ p line, Nested id chunk r.current r.callers p line log ∧ r.Stands p line) ∧
      ((∀ t ∈ log, t.answer ≠ .untrace) → ∀ ending, r.phase = .ended ending →
        ∃ line, EventLog id chunk (.closed ending.toOption) line log) ∧
      ∀ r' x aux, h.recording.move r (w', log) = .inr (r', x) → r'.need = .control .ret aux →
        ∀ v, aux = some v ↔ r.Produces v := by
  intro id
  have hstart : Host.Recorded id chunk (Run.start { m with tracing := true } chunk) [] :=
    ⟨nofun, fun before t after he => by simp at he,
      ⟨_, _, .fresh, 0, .base rfl rfl (.fresh _ _)⟩, fun _ => ⟨fun _ => rfl, Run.hasTold_start _ _⟩⟩
  have hrec := hstart.path hp
  refine ⟨hrec.last, hrec.nested, fun hlog _ => (hrec.traced hlog).2, fun hlog ending hend => ?_,
    fun r' x aux hm hneed => Host.ret_iff_produces (Host.steps_of_move hm) hneed⟩
  obtain ⟨p, line, hn, hs⟩ := (hrec.traced hlog).2
  rw [Run.Stands, hend] at hs
  obtain ⟨rfl, hcallers⟩ := hs
  rw [hcallers] at hn
  exact ⟨line, hn.eventLog⟩

theorem Machine.events_nested_descent :
    ∃ chunk e n r log, Code.compile "<descent>" descent = .ok chunk ∧
      Host.Path hoarder.recording (fun _ => True) n
        (Run.start { Machine.new 3 0 with tracing := true } chunk) ((), []) r ((), log) ∧
      r.phase = .ended (.error (.exception e)) ∧ (∀ t ∈ log, t.answer ≠ .untrace) ∧
      (log.map Told.event).count .call = 3 ∧
      ∃ line, EventLog (Run.start (.new 3 0) chunk).current.frame chunk (.closed none) line log := by
  have hruns : (Code.compile "<descent>" descent).toOption.any (fun chunk =>
      let start := Run.start { Machine.new 3 0 with tracing := true } chunk
      let log := (hoarder.recording.finish 300 start ((), [])).2.2.2
      (hoarder.recording.exception? 300 start ((), [])).isSome &&
        (log.all (fun t => decide (t.answer ≠ .untrace)) &&
          decide ((log.map Told.event).count .call = 3))) = true := by
    decide +kernel
  obtain ⟨chunk, hk, hruns⟩ := Code.exists_of_any_toOption hruns
  obtain ⟨hraised, hlog⟩ := Bool.and_eq_true_iff.1 hruns
  obtain ⟨hanswers, hcalls⟩ := Bool.and_eq_true_iff.1 hlog
  obtain ⟨e, he⟩ := Option.isSome_iff_exists.1 hraised
  obtain ⟨m, ⟨⟨⟩, log⟩, hf⟩ := Host.finish_of_exception? he
  rw [hf] at hanswers hcalls
  obtain ⟨n, r, hpath, hend⟩ := Host.exists_path_of_finish hf
  have hphase := Host.move_eq_inl hend
  have hanswers : ∀ t ∈ log, t.answer ≠ .untrace := fun t ht =>
    of_decide_eq_true (List.all_eq_true.1 hanswers t ht)
  obtain ⟨-, -, -, hevents, -⟩ := events_nested hoarder (.new 3 0) chunk hpath
  exact ⟨chunk, e, n, r, log, hk, hpath, hphase, hanswers, of_decide_eq_true hcalls,
    hevents hanswers _ hphase⟩

end Stepwise
