import Stepwise.Proofs.Machine.Upright

/-! What can be seen of a run: everything but where its frames lie and how they are pinned. Two
runs of which the same can be seen go on to do the same, whatever their arenas hold besides. -/

namespace Stepwise

/-- What can be seen of an activation, with the names in its frame. -/
structure Station where
  chunk : Chunk
  pc : Nat
  lasti : Nat
  line : Nat
  lastLine : Nat
  stack : List Value
  locals : Option Scope

def Machine.emptied (m : Machine) : Machine :=
  { m with arena := { m.arena with slots := #[], free := [] } }

theorem Machine.emptied_eq_iff {m m' : Machine} : m'.emptied = m.emptied ↔
    m'.arena.globals = m.arena.globals ∧ m'.arena.builtins = m.arena.builtins ∧
      m'.recursionLimit = m.recursionLimit ∧ m'.nextIdent = m.nextIdent ∧
      m'.tracing = m.tracing ∧ m'.depth = m.depth := by
  simp only [emptied, Machine.mk.injEq, Arena.mk.injEq, true_and, and_assoc]

/-- What can be seen of a run, innermost activation first. -/
structure Sight where
  phase : Phase
  machine : Machine
  stations : List Station

namespace Arena

variable {a b : Arena} {x y : Activation} {xs ys : List Activation}

def station (a : Arena) (x : Activation) : Station :=
  ⟨x.chunk, x.pc, x.lasti, x.line, x.lastLine, x.stack, (a.active? x.frame).map Frame.locals⟩

theorem stations_congr (h : ∀ x ∈ xs, b.active? x.frame = a.active? x.frame) :
    xs.map b.station = xs.map a.station :=
  List.map_congr_left fun x hx => by rw [station, station, h x hx]

structure Matches (a b : Arena) (xs ys : List Activation) : Prop where
  left : a.Bears xs
  right : b.Bears ys
  globals : b.globals = a.globals
  stations : ys.map b.station = xs.map a.station

namespace Matches

theorem head (h : a.Matches b (x :: xs) (y :: ys)) : b.station y = a.station x :=
  (List.cons.inj h.stations).1

theorem tail (h : a.Matches b (x :: xs) (y :: ys)) : ys.map b.station = xs.map a.station :=
  (List.cons.inj h.stations).2

theorem length_eq (h : a.Matches b xs ys) : ys.length = xs.length := by
  simpa using congrArg List.length h.stations

/-- The frames of the innermost activations have the same names and are of the same chunk. -/
theorem frames (h : a.Matches b (x :: xs) (y :: ys)) : ∃ f g, a.active? x.frame = some f ∧
    b.active? y.frame = some g ∧ g.locals = f.locals ∧ g.chunk = f.chunk := by
  obtain ⟨f, hf, hx⟩ := h.left.head
  obtain ⟨g, hg, hy⟩ := h.right.head
  have hlocals := congrArg Station.locals h.head
  simp only [station, hf, hg, Option.map_some, Option.some.injEq] at hlocals
  have hchunk : y.chunk = x.chunk := congrArg Station.chunk h.head
  exact ⟨f, g, hf, hg, hlocals, by rw [hy.chunk, hx.chunk, hchunk]⟩

theorem lookup (h : a.Matches b (x :: xs) (y :: ys)) (hb : b.builtins = a.builtins)
    (name : String) : b.lookup y.frame name = a.lookup x.frame name := by
  obtain ⟨f, g, hf, hg, hlocals, hchunk⟩ := h.frames
  rw [Arena.lookup, Arena.lookup, locals?_of_active? hf, locals?_of_active? hg, hlocals, hchunk,
    h.globals, hb]

theorem exists_eq (h : a.Matches b (x :: xs) (y :: ys)) : ∃ frame, y = { x with frame } := by
  have hhead := h.head
  simp only [station, Station.mk.injEq] at hhead
  obtain ⟨hchunk, hpc, hlasti, hline, hlast, hstack, -⟩ := hhead
  exact ⟨y.frame, by rw [← hchunk, ← hpc, ← hlasti, ← hline, ← hlast, ← hstack]⟩

theorem turned (h : a.Matches b (x :: xs) (y :: ys)) (pc : Nat) (stack : List Value) :
    a.Matches b ({ x with pc, stack } :: xs) ({ y with pc, stack } :: ys) where
  left := h.left.turned pc stack
  right := h.right.turned pc stack
  globals := h.globals
  stations := by
    have hhead := h.head
    simp only [station, Station.mk.injEq] at hhead
    simp only [List.map_cons, h.tail, station, hhead]

theorem popped (h : a.Matches b (x :: xs) (y :: ys)) (stack : List Value) :
    a.Matches b ({ x with stack } :: xs) ({ y with stack } :: ys) := by
  obtain ⟨frame, rfl⟩ := h.exists_eq
  exact h.turned x.pc stack

theorem setPosition (h : a.Matches b (x :: xs) (y :: ys)) (lasti line lastLine : Nat) :
    (a.setPosition x.frame lasti line).Matches (b.setPosition y.frame lasti line)
      ({ x with lasti, line, lastLine } :: xs) ({ y with lasti, line, lastLine } :: ys) where
  left := h.left.setPosition lasti line lastLine
  right := h.right.setPosition lasti line lastLine
  globals := by
    rw [Arena.setPosition, Arena.setPosition, globals_modifyFrame, globals_modifyFrame, h.globals]
  stations := by
    obtain ⟨f, g, hf, hg, hlocals, -⟩ := h.frames
    have hxs : xs.map (a.setPosition x.frame lasti line).station = xs.map a.station :=
      stations_congr fun z hz => by
        rw [active?_setPosition, if_neg (h.left.ne_of_mem_tail hz)]
    have hys : ys.map (b.setPosition y.frame lasti line).station = ys.map b.station :=
      stations_congr fun z hz => by
        rw [active?_setPosition, if_neg (h.right.ne_of_mem_tail hz)]
    have hhead := h.head
    simp only [station, Station.mk.injEq] at hhead
    simp only [List.map_cons, hxs, hys, h.tail, station, active?_setPosition, if_true, hf, hg,
      Option.map_some, hlocals, hhead]

theorem store (h : a.Matches b (x :: xs) (y :: ys)) (name : String) (v : Value) :
    (a.store x.frame name v).Matches (b.store y.frame name v) (x :: xs) (y :: ys) where
  left := h.left.store name v
  right := h.right.store name v
  globals := by
    obtain ⟨f, g, hf, hg, -, hchunk⟩ := h.frames
    rw [globals_store hf, globals_store hg, hchunk, h.globals]
  stations := by
    obtain ⟨f, g, hf, hg, hlocals, hchunk⟩ := h.frames
    have hxs : xs.map (a.store x.frame name v).station = xs.map a.station :=
      stations_congr fun z hz => by rw [active?_store hf, if_neg (h.left.ne_of_mem_tail hz)]
    have hys : ys.map (b.store y.frame name v).station = ys.map b.station :=
      stations_congr fun z hz => by rw [active?_store hg, if_neg (h.right.ne_of_mem_tail hz)]
    have hwritten : (g.written name v).locals = (f.written name v).locals := by
      unfold Frame.written
      rw [hchunk]
      split
      · exact hlocals
      · exact congrArg (fun s : Scope => s.insert name v) hlocals
    have hhead := h.head
    simp only [station, Station.mk.injEq] at hhead
    simp only [List.map_cons, hxs, hys, h.tail, station, active?_store hf, active?_store hg,
      if_true, Option.map_some, hwritten, hhead]

theorem alloc (h : a.Matches b xs ys) {f g : Frame} (hx : x.frame = (a.alloc f).1)
    (hy : y.frame = (b.alloc g).1) (hf : x.Framed (xs.head?.map Activation.frame) f)
    (hg : y.Framed (ys.head?.map Activation.frame) g) (hlocals : g.locals = f.locals)
    (hsame : y = { x with frame := y.frame }) :
    (a.alloc f).2.Matches (b.alloc g).2 (x :: xs) (y :: ys) := by
  have hleft := h.left.alloc hx hf
  have hright := h.right.alloc hy hg
  refine ⟨hleft, hright, ?_, ?_⟩
  · rw [globals_alloc, globals_alloc, h.globals]
  · have hxs : xs.map (a.alloc f).2.station = xs.map a.station :=
      stations_congr fun z hz => by
        rw [active?_alloc h.left.sound, if_neg (hx ▸ hleft.ne_of_mem_tail hz)]
    have hys : ys.map (b.alloc g).2.station = ys.map b.station :=
      stations_congr fun z hz => by
        rw [active?_alloc h.right.sound, if_neg (hy ▸ hright.ne_of_mem_tail hz)]
    rw [List.map_cons, List.map_cons, hxs, hys, h.stations, station, station, hx, hy,
      active?_alloc h.left.sound, active?_alloc h.right.sound, if_pos rfl, if_pos rfl,
      Option.map_some, Option.map_some, hlocals, hsame]

theorem release (h : a.Matches b (x :: xs) (y :: ys)) :
    (a.release x.frame).Matches (b.release y.frame) xs ys where
  left := h.left.release
  right := h.right.release
  globals := by rw [globals_release, globals_release, h.globals]
  stations := by
    have hxs : xs.map (a.release x.frame).station = xs.map a.station :=
      stations_congr fun z hz => by rw [active?_release, if_neg (h.left.ne_of_mem_tail hz)]
    have hys : ys.map (b.release y.frame).station = ys.map b.station :=
      stations_congr fun z hz => by rw [active?_release, if_neg (h.right.ne_of_mem_tail hz)]
    rw [hxs, hys, h.tail]

theorem repinned (h : a.Matches b xs ys) {a' b' : Arena} (ha : a.Repinned a')
    (hb : b.Repinned b') : a'.Matches b' xs ys where
  left := h.left.repinned ha
  right := h.right.repinned hb
  globals := by rw [ha.scopes.1, hb.scopes.1, h.globals]
  stations := by
    rw [stations_congr fun z _ => ha.active? z.frame, stations_congr fun z _ => hb.active? z.frame,
      h.stations]

end Matches

end Arena

namespace Run

open Relation (ReflTransGen)

variable {r s : Run}

def sight (r : Run) : Sight :=
  ⟨r.phase, r.machine.emptied, r.activations.map r.machine.arena.station⟩

structure Alike (r s : Run) : Prop where
  left : r.Upright
  right : s.Upright
  same : s.sight = r.sight

theorem sight_of_matches (hr : ∀ ending, r.phase ≠ .ended ending) (hphase : s.phase = r.phase)
    (hmachine : s.machine.emptied = r.machine.emptied)
    (h : r.machine.arena.Matches s.machine.arena (r.current :: r.callers)
      (s.current :: s.callers)) : s.sight = r.sight := by
  have hs : ∀ ending, s.phase ≠ .ended ending := hphase ▸ hr
  rw [sight, sight, hphase, hmachine, activations_of_running hr, activations_of_running hs,
    h.stations]

theorem peers (hmachine : s.machine.emptied = r.machine.emptied)
    (h : r.machine.arena.Matches s.machine.arena (r.current :: r.callers)
      (s.current :: s.callers)) : r.Peers s where
  chunk := congrArg Station.chunk h.head
  pc := congrArg Station.pc h.head
  stack := congrArg Station.stack h.head
  depth := (Machine.emptied_eq_iff.1 hmachine).2.2.2.2.2
  recursionLimit := (Machine.emptied_eq_iff.1 hmachine).2.2.1
  nextIdent := (Machine.emptied_eq_iff.1 hmachine).2.2.2.1
  lookup := h.lookup (Machine.emptied_eq_iff.1 hmachine).2.1

theorem sight_of_turns (hmachine : s.machine.emptied = r.machine.emptied)
    (h : r.machine.arena.Matches s.machine.arena (r.current :: r.callers)
      (s.current :: s.callers)) {r' s' : Run} (ht : Turns r s r' s') : s'.sight = r'.sight := by
  obtain ⟨hglobals, hbuiltins, hlimit, hident, htracing, hdepth⟩ :=
    Machine.emptied_eq_iff.1 hmachine
  cases ht with
  | goes pc stack n hp =>
    refine sight_of_matches (running_of_bare hp) rfl ?_ (h.turned pc stack)
    exact Machine.emptied_eq_iff.2 ⟨hglobals, hbuiltins, hlimit, rfl, htracing, hdepth⟩
  | stores name v stack =>
    have hstored := h.store name v
    refine sight_of_matches (by simp [stored, Run.next]) rfl ?_ (hstored.popped stack)
    refine Machine.emptied_eq_iff.2 ⟨hstored.globals, ?_, hlimit, hident, htracing, hdepth⟩
    exact (Arena.builtins_store ..).trans (hbuiltins.trans (Arena.builtins_store ..).symm)
  | enters stack chunk args hl =>
    have hentered := (h.popped stack).alloc (x := (r.entered stack chunk args).current)
      (y := (s.entered stack chunk args).current) rfl rfl ⟨rfl, rfl, rfl, rfl⟩
      ⟨rfl, rfl, rfl, rfl⟩ rfl rfl
    refine sight_of_matches (by simp [entered, enter]) rfl ?_ hentered
    refine Machine.emptied_eq_iff.2
      ⟨hentered.globals, ?_, hlimit, hident, htracing, congrArg Nat.succ hdepth⟩
    exact (Arena.builtins_alloc ..).trans (hbuiltins.trans (Arena.builtins_alloc ..).symm)

namespace Alike

theorem phase (h : Alike r s) : s.phase = r.phase :=
  congrArg Sight.phase h.same

theorem machine (h : Alike r s) : s.machine.emptied = r.machine.emptied :=
  congrArg Sight.machine h.same

theorem tracing (h : Alike r s) : s.machine.tracing = r.machine.tracing :=
  (Machine.emptied_eq_iff.1 h.machine).2.2.2.2.1

theorem need (h : Alike r s) : s.need = r.need := by
  rw [Run.need, Run.need, h.phase, h.tracing]

theorem arenas (h : Alike r s) :
    r.machine.arena.Matches s.machine.arena r.activations s.activations :=
  ⟨h.left.bears, h.right.bears, (Machine.emptied_eq_iff.1 h.machine).1,
    congrArg Sight.stations h.same⟩

theorem running (h : Alike r s) (hr : ∀ ending, r.phase ≠ .ended ending) :
    r.machine.arena.Matches s.machine.arena (r.current :: r.callers) (s.current :: s.callers) := by
  have harenas := h.arenas
  rwa [activations_of_running hr, activations_of_running (h.phase ▸ hr)] at harenas

theorem withPhase (h : Alike r s) (hr : ∀ ending, r.phase ≠ .ended ending) {phase : Phase}
    (hp : ∀ ending, phase ≠ .ended ending) : Alike (r.withPhase phase) (s.withPhase phase) where
  left := h.left.withPhase hr hp
  right := h.right.withPhase (h.phase ▸ hr) hp
  same := sight_of_matches hp rfl h.machine (h.running hr)

theorem push (h : Alike r s) (hr : ∀ ending, r.phase ≠ .ended ending) (v : Value) :
    Alike (r.push v) (s.push v) where
  left := h.left.push hr v
  right := h.right.push (h.phase ▸ hr) v
  same := sight_of_turns h.machine (h.running hr) ((peers h.machine (h.running hr)).push v)

theorem executeFetched (h : Alike r s) (hp : r.phase = .execute) :
    Alike r.executeFetched s.executeFetched := by
  have hr : ∀ ending, r.phase ≠ .ended ending := by simp [hp]
  refine ⟨h.left.executeFetched hp, h.right.executeFetched (h.phase.trans hp), ?_⟩
  have hm := h.running hr
  have hsame := peers h.machine hm
  cases hi : r.current.chunk.code[r.current.pc]? with
  | none =>
    rw [executeFetched_of_none hi, executeFetched_of_none (by rwa [hsame.chunk, hsame.pc])]
    exact (h.withPhase hr (by simp)).same
  | some i =>
    rw [executeFetched_of_some hi, executeFetched_of_some (by rwa [hsame.chunk, hsame.pc])]
    have hstepped : r.stepped.machine.arena.Matches s.stepped.machine.arena
        (r.stepped.current :: r.stepped.callers) (s.stepped.current :: s.stepped.callers) := by
      obtain ⟨frame, hs⟩ := hm.exists_eq
      have hturned := hm.turned (r.current.pc + 1) r.current.stack
      rw [hs] at hturned
      rw [stepped, stepped, hs]
      exact hturned
    have hpeers := peers (r := r.stepped) (s := s.stepped) h.machine hstepped
    exact sight_of_turns (r := r.stepped) (s := s.stepped) h.machine hstepped (hpeers.execute i)

theorem fetch (h : Alike r s) (hp : r.phase = .fetch) : Alike r.fetch s.fetch := by
  have hr : ∀ ending, r.phase ≠ .ended ending := by simp [hp]
  refine ⟨h.left.fetch hp, h.right.fetch (h.phase.trans hp), ?_⟩
  have hm := h.running hr
  have hmachine := Machine.emptied_eq_iff.1 h.machine
  obtain ⟨m, x, xs, phase⟩ := r
  obtain ⟨m', y, ys, phase'⟩ := s
  obtain ⟨frame, rfl⟩ := hm.exists_eq
  cases hi : x.chunk.code[x.pc]? with
  | none =>
    simp only [Run.fetch, hi]
    exact (h.withPhase hr (by simp)).same
  | some i =>
    simp only [Run.fetch, hi]
    have hset := hm.setPosition (x.pc * Code.instrWidth) ((x.chunk.lineOf? x.pc).getD x.line)
      ((x.chunk.lineOf? x.pc).getD x.line)
    refine sight_of_matches (fun ending => ?_) rfl ?_ hset
    · dsimp only
      split <;> simp
    · refine Machine.emptied_eq_iff.2 ⟨hset.globals, ?_, hmachine.2.2⟩
      exact (Arena.builtins_modifyFrame ..).trans
        (hmachine.2.1.trans (Arena.builtins_modifyFrame ..).symm)

theorem leave (h : Alike r s) (hr : ∀ ending, r.phase ≠ .ended ending) (ending : Ending) :
    Alike (r.leave ending) (s.leave ending) := by
  refine ⟨h.left.leave hr ending, h.right.leave (h.phase ▸ hr) ending, ?_⟩
  have hm := h.running hr
  obtain ⟨hglobals, hbuiltins, hlimit, hident, htracing, hdepth⟩ :=
    Machine.emptied_eq_iff.1 h.machine
  obtain ⟨m, x, xs, phase⟩ := r
  obtain ⟨m', y, ys, phase'⟩ := s
  obtain ⟨frame, rfl⟩ := hm.exists_eq
  have hnote (ending : Ending) : ending.mapError (noteLeaving { x with frame }) =
      ending.mapError (noteLeaving x) := rfl
  have hreleased := hm.release
  simp only [Run.leave, Run.withArena, hnote]
  generalize ending.mapError (noteLeaving x) = left
  have hbuiltins' : (m'.arena.release frame).builtins = (m.arena.release x.frame).builtins :=
    (Arena.builtins_release ..).trans (hbuiltins.trans (Arena.builtins_release ..).symm)
  cases xs with
  | nil =>
    obtain rfl : ys = [] := List.length_eq_zero_iff.1 hreleased.length_eq
    simp only [sight, activations, Sight.mk.injEq, List.map_nil, and_true, true_and]
    exact Machine.emptied_eq_iff.2 ⟨hreleased.globals, hbuiltins', hlimit, hident, rfl, rfl⟩
  | cons caller callers =>
    obtain ⟨caller', callers', rfl⟩ := List.exists_cons_of_length_eq_add_one hreleased.length_eq
    have hemptied :
        Machine.emptied { m' with arena := m'.arena.release frame, depth := m'.depth - 1 } =
          Machine.emptied { m with arena := m.arena.release x.frame, depth := m.depth - 1 } :=
      Machine.emptied_eq_iff.2
        ⟨hreleased.globals, hbuiltins', hlimit, hident, htracing, congrArg (· - 1) hdepth⟩
    cases left with
    | ok v =>
      obtain ⟨frame', rfl⟩ := hreleased.exists_eq
      exact sight_of_matches (by simp [Run.push, Run.next]) rfl hemptied (hreleased.popped _)
    | error u => exact sight_of_matches (by simp [Run.fail, Run.withPhase]) rfl hemptied hreleased

theorem advance (h : Alike r s) : Alike r.advance s.advance := by
  unfold Run.advance
  rw [h.phase]
  split
  · next hp => exact h.withPhase (by simp [hp]) (by simp)
  · next hp => exact h.fetch hp
  · next hp => exact h.withPhase (by simp [hp]) (by simp)
  · next hp => exact h.withPhase (by simp [hp]) (by simp)
  · next hp => exact h.executeFetched hp
  · next ending hp => exact h.leave (by simp [hp]) ending
  · exact h

theorem quieted (h : Alike r s) : Alike r.quieted s.quieted := by
  obtain ⟨hglobals, hbuiltins, hlimit, hident, -, hdepth⟩ := Machine.emptied_eq_iff.1 h.machine
  refine ⟨h.left.quieted, h.right.quieted, ?_⟩
  have hmachine : s.quieted.machine.emptied = r.quieted.machine.emptied :=
    Machine.emptied_eq_iff.2 ⟨hglobals, hbuiltins, hlimit, hident, rfl, hdepth⟩
  have hstations := h.arenas.stations
  rw [sight, sight, hmachine]
  simp only [Sight.mk.injEq, true_and]
  exact ⟨h.phase, hstations⟩

theorem control (h : Alike r s) (hr : ∀ ending, r.phase ≠ .ended ending) (c : Control) :
    Alike (r.control c) (s.control c) := by
  cases c with
  | proceed => exact control_proceed r ▸ control_proceed s ▸ h.advance
  | untrace => exact control_untrace r ▸ control_untrace s ▸ h.quieted.advance
  | cancel | abort reason =>
    unfold Run.control
    simp only [reduceCtorEq, if_false]
    rw [h.phase]
    split
    · exact h.leave hr _
    · exact h.withPhase hr (by simp)

theorem polled (h : Alike r s) (hr : ∀ ending, r.phase ≠ .ended ending) (interrupted : Bool) :
    Alike (r.polled interrupted) (s.polled interrupted) := by
  cases interrupted with
  | true => exact h.withPhase hr (by simp)
  | false => exact h.withPhase hr (by simp)

theorem shown (h : Alike r s) (hr : ∀ ending, r.phase ≠ .ended ending) :
    Alike r.shown s.shown := by
  unfold Run.shown
  rw [h.phase]
  split
  · exact h.withPhase hr (by simp)
  · exact h.push hr .none

theorem received (h : Alike r s) (hr : ∀ ending, r.phase ≠ .ended ending)
    (line : Except Unwind String) : Alike (r.received line) (s.received line) := by
  cases line with
  | ok line => exact h.push hr _
  | error u => exact h.withPhase hr (by simp)

theorem repinned (h : Alike r s) {a b : Arena} (ha : r.machine.arena.Repinned a)
    (hb : s.machine.arena.Repinned b) : Alike (r.withArena a) (s.withArena b) := by
  have hm := h.arenas.repinned ha hb
  obtain ⟨-, hbuiltins, hrest⟩ := Machine.emptied_eq_iff.1 h.machine
  refine ⟨h.left.repinned ha, h.right.repinned hb, ?_⟩
  have hmachine : (s.withArena b).machine.emptied = (r.withArena a).machine.emptied :=
    Machine.emptied_eq_iff.2 ⟨hm.globals, by
      simp only [withArena, ha.scopes.2, hb.scopes.2, hbuiltins], hrest⟩
  rw [sight, sight, hmachine]
  simp only [Sight.mk.injEq, true_and]
  exact ⟨h.phase, hm.stations⟩

/-- Two runs that start on machines with the same global names and settings, while no frame is in
use. -/
theorem start {m m' : Machine} (hm : m.arena.Bears []) (hm' : m'.arena.Bears [])
    (hb : m.arena.builtins = builtinScope) (h : m'.emptied = m.emptied) (chunk : Chunk) :
    Alike (Run.start m chunk) (Run.start m' chunk) := by
  refine ⟨.start hm hb chunk, .start hm' ?_ chunk, ?_⟩
  · exact (Machine.emptied_eq_iff.1 h).2.1.trans hb
  · obtain ⟨hglobals, hbuiltins, hlimit, hident, htracing, -⟩ := Machine.emptied_eq_iff.1 h
    have hmatches : m.arena.Matches m'.arena [] [] := ⟨hm, hm', hglobals, rfl⟩
    have hstarted := hmatches.alloc (x := (Run.start m chunk).current)
      (y := (Run.start m' chunk).current) rfl rfl ⟨rfl, rfl, rfl, rfl⟩ ⟨rfl, rfl, rfl, rfl⟩ rfl rfl
    refine sight_of_matches (by simp [Run.start]) rfl ?_ hstarted
    refine Machine.emptied_eq_iff.2 ⟨hstarted.globals, ?_, hlimit, hident, htracing, rfl⟩
    exact (Arena.builtins_alloc ..).trans (hbuiltins.trans (Arena.builtins_alloc ..).symm)

end Alike

end Run

end Stepwise
