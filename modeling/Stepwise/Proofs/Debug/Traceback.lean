import Stepwise.Debug.Snapshot
import Stepwise.Proofs.Machine.Aftermath
import Stepwise.Proofs.Machine.Path

/-! Tracebacks and call stacks. A snapshot shows the stack that the frames in the arena are linked
to; an exception gathers its traceback from the activations that it leaves. Both are lists of the
same activations: what an exception has gathered, and what of the stack is still to be left, are
together the stack that a snapshot showed at the last instruction. -/

namespace Stepwise

def Activation.entry (x : Activation) : StackEntry :=
  ⟨x.chunk.name, x.chunk.file, x.line⟩

/-- The same line, as a call stack shows it. -/
def Exception.Entry.shown (e : Exception.Entry) : StackEntry :=
  ⟨e.function, e.file, e.line⟩

namespace Arena

variable {a : Arena} {x : Activation} {xs : List Activation}

theorem Linked.ancestors_eq (h : a.Linked xs) {fuel : Nat} (hf : xs.length ≤ fuel) :
    Gallery.ancestors a fuel (xs.head?.map Activation.frame) = xs.map Activation.entry := by
  induction h generalizing fuel with
  | nil => cases fuel <;> rfl
  | cons hactive hx _ ih =>
    obtain ⟨fuel, rfl⟩ := Nat.exists_eq_succ_of_ne_zero (Nat.ne_zero_of_lt hf)
    simp only [List.head?_cons, Option.map_some, Gallery.ancestors, frame?_of_active? hactive,
      List.map_cons, hx.chunk, hx.line, hx.parent, ih (Nat.le_of_succ_le_succ hf)]
    rfl

theorem Bears.length_le (h : a.Bears xs) : xs.length ≤ a.slots.size := by
  rw [← h.unreleased_eq, unreleased, ← Array.length_toList]
  exact List.countP_le_length

theorem Bears.stack_eq (h : a.Bears (x :: xs)) (chunk : Chunk) (lasti line : Nat) :
    ∃ s g, (Gallery.new a).capture x.frame chunk lasti line = .ok (s, g) ∧
      g.stack s = .ok (⟨chunk.name, chunk.file, line⟩ :: xs.map Activation.entry) := by
  obtain ⟨f, hf, hx⟩ := h.head
  obtain ⟨b, hpin⟩ := exists_pin (isLive_of_active? hf)
  have hb : b.Bears (x :: xs) := h.repinned (.pin .refl hpin)
  have hactive : b.active? x.frame = some f := (active?_pin hpin x.frame).trans hf
  have hcapture : (Gallery.new a).capture x.frame chunk lasti line =
      .ok (⟨0, x.frame, chunk, lasti, line⟩, ⟨b, #[⟨x.frame, 1, false⟩]⟩) := by
    simp only [Gallery.capture, Gallery.new, hpin]
    rfl
  refine ⟨_, _, hcapture, ?_⟩
  have hlinked : b.Linked xs := by
    cases hb.linked with
    | cons _ _ hxs => exact hxs
  have hlength : xs.length ≤ b.slots.size := Nat.le_of_succ_le hb.length_le
  simp only [Gallery.stack, Gallery.guarded, Gallery.isReleased, isLive_of_active? hactive,
    frame?_of_active? hactive, Option.bind_some, hx.parent, hlinked.ancestors_eq hlength]
  rfl

end Arena

/-- What an observer finds at an instruction: where it is, and the stack that a snapshot shows. -/
structure Sighting where
  origin : Exception.Origin
  stack : Except DebugFault (List StackEntry)

namespace Sighting

/-- A snapshot of the current activation is taken and asked for the stack. -/
def of (r : Run) : Sighting where
  origin := r.current.origin
  stack := do
    let x := r.current
    let (s, g) ← (Gallery.new r.machine.arena).capture x.frame x.chunk x.lasti x.line
    g.stack s

def expected (r : Run) : Sighting :=
  ⟨r.current.origin, .ok ((r.current :: r.callers).map Activation.entry)⟩

theorem of_eq {r : Run} (h : r.machine.arena.Bears (r.current :: r.callers)) :
    of r = expected r := by
  obtain ⟨s, g, hcapture, hstack⟩ :=
    h.stack_eq r.current.chunk r.current.lasti r.current.line
  simp only [of, hcapture]
  exact congrArg (Sighting.mk _) hstack

end Sighting

namespace Host

variable {σ : Type}

/-- The observer only looks on: it pins frames and lets the run go on. -/
structure Observes (h : Host σ) : Prop where
  proceed : ∀ event aux r w, (h.control event aux r w).1 = .proceed
  repinned : ∀ event aux (r : Run) w, r.machine.arena.Repinned (h.control event aux r w).2.1

/-- The host with a note of the last instruction that its observer was told of. -/
def noting (h : Host σ) : Host (σ × Option Sighting) where
  control event aux r w :=
    let (c, arena, x) := h.control event aux r w.1
    (c, arena, x, if event = .opcode then some (.of r) else w.2)
  cell w := h.cell w.1
  write text w := (h.write text w.1, w.2)
  clear w := (h.clear w.1, w.2)
  line w :=
    let (line, x) := h.line w.1
    (line, x, w.2)

end Host

namespace Run

open Exception (Origin)

/-- The exception has gathered what the sighting showed above these activations, and its place is
that of the sighting unless it came with one. -/
structure Gathered (given : Origin → Prop) (s : Sighting) (xs : List Activation) (e : Exception) :
    Prop where
  stack : s.stack = .ok (e.traceback.reverse.map Exception.Entry.shown ++ xs.map Activation.entry)
  origin : e.origin.or (xs.head?.map Activation.origin) = some s.origin ∨
    ∃ origin, e.origin = some origin ∧ given origin

def Sighted (given : Origin → Prop) (r : Run) (last : Option Sighting) : Prop :=
  match r.phase with
  | .poll | .execute | .write _ _ | .clear | .read => last = some (.expected r)
  | .leave (.error (.exception e)) | .ended (.error (.exception e)) =>
    ∃ s, last = some s ∧ Gathered given s r.activations e
  | _ => True

variable {given : Origin → Prop} {r : Run} {last : Option Sighting}

theorem Gathered.raised {e : Exception} (htraceback : e.traceback = [])
    (horigin : ∀ origin, e.origin = some origin → given origin) :
    Gathered given (.expected r) (r.current :: r.callers) e where
  stack := by rw [htraceback]; rfl
  origin := by
    cases ho : e.origin with
    | none => exact .inl rfl
    | some origin => exact .inr ⟨origin, rfl, horigin origin ho⟩

theorem Gathered.left {s : Sighting} {x : Activation} {xs : List Activation} {e e' : Exception}
    (h : Gathered given s (x :: xs) e) (he : noteLeaving x (.exception e) = .exception e') :
    Gathered given s xs e' := by
  cases he
  refine ⟨?_, ?_⟩
  · rw [h.stack]
    simp [Activation.entry, Exception.Entry.shown]
  · obtain ho | ⟨origin, ho, hgiven⟩ := h.origin
    · have ho : e.origin.or (some x.origin) = some s.origin := ho
      exact .inl (congrArg (Option.or · (xs.head?.map Activation.origin)) ho)
    · exact .inr ⟨origin, by simp [ho], hgiven⟩

theorem Sighted.fail (h : last = some (.expected r)) {u : Unwind}
    (hu : ∀ e, u = .exception e → e.traceback = [] ∧
      ∀ origin, e.origin = some origin → given origin) : Sighted given (r.fail u) last := by
  cases u with
  | exception e =>
    obtain ⟨htraceback, horigin⟩ := hu e rfl
    exact ⟨_, h, .raised htraceback horigin⟩
  | cancelled | fault reason => trivial

theorem Sighted.turns (h : last = some (.expected r)) {s r' s' : Run} (ht : Turns r s r' s') :
    Sighted given r' last := by
  cases ht with
  | goes pc stack n hp =>
    rename_i phase
    cases phase with
    | leave ending =>
      cases ending with
      | ok v => trivial
      | error u =>
        refine Sighted.fail (r := r.turned pc stack n (.leave (.error u))) h fun e he => ?_
        subst he
        have hraised : e = .raised e.cause := hp
        rw [hraised]
        exact ⟨rfl, fun origin ho => nomatch ho⟩
    | ended => cases hp
    | poll | execute | write | clear | read => exact h
    | call | fetch | line | opcode => trivial
  | stores name v stack => trivial
  | enters stack chunk args hl => trivial

theorem Sighted.leave {ending : Ending} (hp : r.phase = .leave ending) (h : Sighted given r last) :
    Sighted given (r.leave ending) last := by
  obtain ⟨m, x, callers, phase⟩ := r
  obtain rfl : phase = .leave ending := hp
  cases ending with
  | ok v => cases callers <;> trivial
  | error u =>
    cases u with
    | exception e =>
      obtain ⟨s, hs, hgathered⟩ := h
      have hleft := Gathered.left hgathered rfl
      cases callers with
      | nil => exact ⟨s, hs, hleft⟩
      | cons caller callers => exact ⟨s, hs, hleft⟩
    | cancelled | fault reason => cases callers <;> trivial

theorem Sighted.advance (h : Sighted given r last)
    (ho : r.phase = .opcode → last = some (.expected r)) : Sighted given r.advance last := by
  unfold Run.advance
  split
  · trivial
  · unfold Run.fetch
    dsimp only
    split
    · trivial
    · generalize hphase : (if (r.current.chunk.lineOf? r.current.pc).getD r.current.line =
        r.current.lastLine then Phase.opcode else Phase.line) = phase
      split at hphase <;> subst hphase <;> trivial
  · trivial
  · next hp => exact ho hp
  · next hp =>
    have hseen : last = some (.expected r) := by rwa [Sighted, hp] at h
    cases hi : r.current.chunk.code[r.current.pc]? with
    | none => exact executeFetched_of_none hi ▸ trivial
    | some i =>
      rw [executeFetched_of_some hi]
      exact Sighted.turns (r := r.stepped) hseen (turns_execute r.stepped i)
  · next ending hp => exact h.leave hp
  · exact h

end Run

namespace Host

open Run (Sighted)

variable {σ : Type} {h : Host σ} {r : Run} {last : Option Sighting}

structure Follows (h : Host σ) (r : Run) (last : Option Sighting) : Prop where
  upright : r.Upright
  tracing : (∀ ending, r.phase ≠ .ended ending) → r.machine.tracing = true
  noted : Sighted h.Gives r last

theorem Follows.advance (hf : h.Follows r last) (hr : ∀ ending, r.phase ≠ .ended ending)
    (ho : r.phase = .opcode → last = some (.expected r)) : h.Follows r.advance last where
  upright := hf.upright.advance
  tracing hp := ((Run.settings_advance r).2 hp).trans (hf.tracing hr)
  noted := hf.noted.advance ho

theorem Follows.push (hf : h.Follows r last) (hr : ∀ ending, r.phase ≠ .ended ending)
    (v : Value) : h.Follows (r.push v) last where
  upright := hf.upright.push hr v
  tracing _ := hf.tracing hr
  noted := trivial

theorem Follows.fail (hf : h.Follows r last) (hr : ∀ ending, r.phase ≠ .ended ending) {u : Unwind}
    (hn : Sighted h.Gives (r.fail u) last) : h.Follows (r.fail u) last where
  upright := hf.upright.withPhase hr (by simp)
  tracing _ := hf.tracing hr
  noted := hn

theorem Follows.shown (hf : h.Follows r last) (hr : ∀ ending, r.phase ≠ .ended ending)
    (hn : last = some (.expected r)) : h.Follows r.shown last := by
  unfold Run.shown
  split
  · exact ⟨hf.upright.withPhase hr (by simp), fun _ => hf.tracing hr, hn⟩
  · exact hf.push hr .none

theorem Follows.received
    (hline : ∀ w e, (h.line w).1 = .error (.exception e) → e.traceback = []) (hf : h.Follows r last)
    (hr : ∀ ending, r.phase ≠ .ended ending) (hn : last = some (.expected r)) (w : σ) :
    h.Follows (r.received (h.line w).1) last := by
  cases hl : (h.line w).1 with
  | ok line => exact hf.push hr (.str line)
  | error u =>
    refine hf.fail hr (Sighted.fail hn fun e he => ?_)
    subst he
    exact ⟨hline w e hl, fun origin ho => ⟨w, e, hl, ho⟩⟩

theorem Follows.told (hh : h.Observes) (hf : h.Follows r last) {event : TraceEvent}
    {aux : Option Value} (hn : r.need = .control event aux) (w : σ) :
    h.Follows ((r.withArena (h.control event aux r w).2.1).control (h.control event aux r w).1)
      (if event = .opcode then some (.of r) else last) := by
  obtain ⟨-, hevent, hr⟩ := Run.of_need_control hn
  have hpinned := hh.repinned event aux r w
  generalize (h.control event aux r w).2.1 = a at hpinned
  rw [hh.proceed, Run.control_proceed]
  have hseen : Sighting.of r = .expected r := Sighting.of_eq (hf.upright.running hr)
  refine Follows.advance (r := r.withArena a)
    ⟨hf.upright.repinned hpinned, fun _ => hf.tracing hr, ?_⟩ hr fun ho => ?_
  · obtain ⟨rfl, hp⟩ | ⟨hne, -⟩ := hevent
    · unfold Sighted
      simp only [Run.withArena, hp]
    · rw [if_neg hne]
      exact hf.noted
  · obtain ⟨rfl, -⟩ | ⟨-, hp⟩ := hevent
    · rw [if_pos rfl, hseen]
      rfl
    · exact absurd ho hp

theorem Follows.step (hh : h.Observes)
    (hline : ∀ w e, (h.line w).1 = .error (.exception e) → e.traceback = []) {r' : Run}
    {x y : σ × Option Sighting} (hf : h.Follows r x.2) (hs : h.noting.Steps r x r' y) :
    h.Follows r' y.2 := by
  have hr := hs.ne_ended
  have hsighted := hf.noted
  cases hs with
  | alone hn =>
    refine hf.advance hr fun ho => ?_
    simp [Run.need, ho, hf.tracing hr] at hn
  | told hn => exact hf.told hh hn x.1
  | polled hp =>
    rw [Sighted, hp] at hsighted
    cases h.noting.cell x with
    | true => exact hf.fail hr trivial
    | false => exact ⟨hf.upright.withPhase hr (by simp), fun _ => hf.tracing hr, hsighted⟩
  | wrote hp | cleared hp =>
    rw [Sighted, hp] at hsighted
    exact hf.shown hr hsighted
  | read hp =>
    rw [Sighted, hp] at hsighted
    exact hf.received hline hr hsighted x.1

theorem Follows.finish (hh : h.Observes)
    (hline : ∀ w e, (h.line w).1 = .error (.exception e) → e.traceback = []) {fuel : Nat}
    {w w' : σ} {last' : Option Sighting} {ending : Ending} {m : Machine} (hf : h.Follows r last)
    (hfinish : h.noting.finish fuel r (w, last) = (some ending, m, w', last')) :
    ∃ r', r'.phase = .ended ending ∧ h.Follows r' last' := by
  induction fuel generalizing r w last with
  | zero => cases hfinish
  | succ fuel ih =>
    simp only [Host.finish] at hfinish
    split at hfinish
    · next hm =>
      cases hfinish
      exact ⟨r, move_eq_inl hm, hf⟩
    · next hm => exact ih (hf.step hh hline (steps_of_move hm)) hfinish

end Host

/-- A run with an observer that only looks on, on a console whose exceptions come without a
traceback, ends in an exception only if an instruction was told of. The traceback is then the
stack that a snapshot showed at the last of them, in the opposite order. If the exceptions of the
console come without a place of failure too, then the place is that of the instruction. -/
theorem Machine.Served.traceback_eq_stack {σ : Type} {h : Host σ} (hh : h.Observes)
    (hline : ∀ w e, (h.line w).1 = .error (.exception e) → e.traceback = []) {m : Machine}
    (hm : m.Served) (ht : m.tracing = true) (chunk : Chunk) {fuel : Nat} {w w' : σ}
    {e : Exception} {m' : Machine} {last : Option Sighting}
    (hf : h.noting.finish fuel (Run.start m chunk) (w, none) =
      (some (.error (.exception e)), m', w', last)) :
    ∃ s, last = some s ∧ s.stack = .ok (e.traceback.reverse.map Exception.Entry.shown) ∧
      ((∀ w e, (h.line w).1 = .error (.exception e) → e.origin = none) →
        e.origin = some s.origin) := by
  have hstart : h.Follows (Run.start m chunk) none :=
    ⟨.start hm.bears.1 hm.bears.2 chunk, fun _ => ht, trivial⟩
  obtain ⟨r, hp, hfollows⟩ := hstart.finish hh hline hf
  have hsighted := hfollows.noted
  rw [Run.Sighted, hp] at hsighted
  obtain ⟨s, rfl, hgathered⟩ := hsighted
  rw [Run.activations_of_ended hp] at hgathered
  refine ⟨s, rfl, by simpa using hgathered.stack, fun hnone => ?_⟩
  obtain ho | ⟨origin, -, w, e, hl, ho⟩ := hgathered.origin
  · simpa using ho
  · rw [hnone w e hl] at ho
    cases ho

def division : String :=
  "def f(n):\n    return 1 / n\nf(0)\n"

theorem Machine.traceback_eq_stack_division :
    ∃ chunk e s, Code.compile "<division>" division = .ok chunk ∧
      (∃ m, hoarder.noting.finish 200
        (Run.start { Machine.new 10 0 with tracing := true } chunk) ((), none) =
          (some (.error (.exception e)), m, (), some s)) ∧
      e.traceback = [⟨"<division>", 3, "<module>"⟩, ⟨"<division>", 2, "f"⟩] ∧
      s.stack = .ok [⟨"f", "<division>", 2⟩, ⟨"<module>", "<division>", 3⟩] ∧
      e.origin = some s.origin := by
  have hruns : (Code.compile "<division>" division).toOption.any (fun chunk =>
      (hoarder.noting.exception? 200
        (Run.start { Machine.new 10 0 with tracing := true } chunk) ((), none)).any fun e =>
          decide (e.traceback =
            [⟨"<division>", 3, "<module>"⟩, ⟨"<division>", 2, "f"⟩])) = true := by
    decide +kernel
  obtain ⟨chunk, hk, hruns⟩ := Code.exists_of_any_toOption hruns
  obtain ⟨e, he, htraceback⟩ := (Option.any_eq_true _ _).1 hruns
  have htraceback := of_decide_eq_true htraceback
  obtain ⟨m, x, hf⟩ := Host.finish_of_exception? he
  obtain ⟨s, hs, hstack, horigin⟩ := Served.traceback_eq_stack (h := hoarder)
    ⟨fun _ _ _ _ => rfl, repinned_hoarder⟩ (fun _ _ hl => nomatch hl)
    (.traced (.new 10 0) true) rfl chunk hf
  rw [htraceback] at hstack
  exact ⟨chunk, e, s, hk, ⟨m, by rw [← hs]; exact hf⟩, htraceback, hstack,
    horigin fun _ _ hl => nomatch hl⟩

def elsewhere : Host Unit where
  control _ _ r w := (.proceed, r.machine.arena, w)
  cell _ := false
  write _ w := w
  clear w := w
  line w :=
    let origin : Exception.Origin := ⟨⟨"<elsewhere>", "f", 7, [], #[], #[], #[], #[]⟩, 0, 7⟩
    (.error (.exception ⟨.endOfInput, [], some origin⟩), w)

/-- A place that the console names stays, and is not that of the last instruction. -/
theorem Machine.origin_elsewhere :
    elsewhere.Observes ∧
      (∀ w e, (elsewhere.line w).1 = .error (.exception e) → e.traceback = []) ∧
      ∃ chunk e s m, Code.compile "<question>" "input()\n" = .ok chunk ∧
        elsewhere.noting.finish 40
          (Run.start { Machine.new 10 0 with tracing := true } chunk) ((), none) =
            (some (.error (.exception e)), m, (), some s) ∧
        (e.origin.map (·.line) = some 7 ∧ s.origin.line = 1) ∧ e.origin ≠ some s.origin := by
  refine ⟨⟨fun _ _ _ _ => rfl, fun _ _ _ _ => .refl⟩, fun w e hl => by cases hl; rfl, ?_⟩
  have hruns : (Code.compile "<question>" "input()\n").toOption.any (fun chunk =>
      let start := Run.start { Machine.new 10 0 with tracing := true } chunk
      ((elsewhere.noting.exception? 40 start ((), none)).any fun e =>
        decide (e.origin.map (·.line) = some 7)) &&
      (elsewhere.noting.finish 40 start ((), none)).2.2.2.any fun s =>
        decide (s.origin.line = 1)) = true := by
    decide +kernel
  obtain ⟨chunk, hk, hruns⟩ := Code.exists_of_any_toOption hruns
  obtain ⟨hraised, hseen⟩ := Bool.and_eq_true_iff.1 hruns
  obtain ⟨e, he, hgiven⟩ := (Option.any_eq_true _ _).1 hraised
  obtain ⟨m, ⟨⟨⟩, last⟩, hf⟩ := Host.finish_of_exception? he
  rw [hf] at hseen
  obtain ⟨s, rfl, hline⟩ := (Option.any_eq_true _ _).1 hseen
  have hgiven := of_decide_eq_true hgiven
  have hline := of_decide_eq_true hline
  refine ⟨chunk, e, s, m, hk, hf, ⟨hgiven, hline⟩, fun heq => ?_⟩
  rw [heq, Option.map_some, hline] at hgiven
  cases hgiven

end Stepwise
