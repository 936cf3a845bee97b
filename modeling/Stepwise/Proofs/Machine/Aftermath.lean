import Stepwise.Proofs.Machine.Quiet
import Stepwise.Proofs.Machine.Sight

/-! What a run leaves behind. However it ends, all of its frames are released, so that only pinned
ones are left, and its observer is gone. The next run on the machine does what it would do on a
new machine with the same global names. -/

namespace Stepwise

namespace Arena

theorem exists_newcomers (a b : Arena) : ∃ ids : List FrameId, ids.Nodup ∧
    (∀ id ∈ ids, a.isLive id = false ∧ b.isLive id = true) ∧
      b.occupied ≤ a.occupied + ids.length := by
  have hmem {c : Arena} {id : FrameId} : (id ∈ c.handles fun _ => true) ↔ c.isLive id = true := by
    simp [mem_handles, isLive_iff]
  have hnodup := nodup_handles b fun _ => true
  have hold : ((b.handles fun _ => true).filter a.isLive).length ≤ a.occupied := by
    rw [← length_handles_true]
    refine ((hnodup.filter _).subperm fun id hid => ?_).length_le
    exact hmem.2 (List.mem_filter.1 hid).2
  refine ⟨(b.handles fun _ => true).filter fun id => !a.isLive id, hnodup.filter _,
    fun id hid => ?_, ?_⟩
  · obtain ⟨hb, ha⟩ := List.mem_filter.1 hid
    exact ⟨by simpa using ha, hmem.1 hb⟩
  · have hsplit := (b.handles fun _ => true).length_eq_length_filter_add a.isLive
    rw [length_handles_true] at hsplit
    omega

theorem Bears.pinned {a : Arena} (h : a.Bears []) {id : FrameId} (hid : a.isLive id = true) :
    ∃ o, a.outline? id = some o ∧ o.retired = true ∧ 0 < o.pins := by
  obtain ⟨o, ho⟩ := isLive_iff_outline?.1 hid
  obtain ⟨s, f, hs, hf, rfl⟩ := outline?_eq_some_iff.1 ho
  cases hr : s.retired with
  | true => exact ⟨_, ho, hr, h.kept _ _ ho hr⟩
  | false => cases h.only id f (active?_eq_some_iff.2 ⟨s, hs, hr, hf⟩)

end Arena

/-- The observer only pins frames and lets go of them, and decides by what can be seen of the run.
What a snapshot shows of a frame that was left could be seen when it was left, so that an observer
may remember it. -/
structure Host.Watches {σ : Type} (h : Host σ) : Prop where
  repinned : ∀ event aux (r : Run) w, r.machine.arena.Repinned (h.control event aux r w).2.1
  blind : ∀ event aux (r s : Run) w, s.sight = r.sight →
    (h.control event aux s w).1 = (h.control event aux r w).1 ∧
      (h.control event aux s w).2.2 = (h.control event aux r w).2.2

namespace Run.Alike

variable {σ : Type} {h : Host σ} {r s : Run}

theorem move (ha : Alike r s) (hh : h.Watches) (w : σ) :
    (∃ ending, h.move r w = .inl ending ∧ h.move s w = .inl ending) ∨
      ∃ r' s' w', h.move r w = .inr (r', w') ∧ h.move s w = .inr (s', w') ∧ Alike r' s' := by
  have hneed := ha.need
  unfold Host.move
  rw [hneed]
  cases hn : r.need with
  | nothing => exact .inr ⟨_, _, _, rfl, rfl, ha.advance⟩
  | control event aux =>
    obtain ⟨hc, hw⟩ := hh.blind event aux r s w ha.same
    have hpinned := ha.repinned (hh.repinned event aux r w) (hh.repinned event aux s w)
    have hmoved := hpinned.control (of_need_control hn).2.2 (h.control event aux r w).1
    refine .inr ⟨_, _, _, rfl, ?_, hmoved⟩
    simp only [hc, hw]
  | cell => exact .inr ⟨_, _, _, rfl, rfl, ha.polled (by simp [phase_of_need_cell hn]) _⟩
  | write text =>
    obtain ⟨thenRead, hp⟩ := phase_of_need_write hn
    exact .inr ⟨_, _, _, rfl, rfl, ha.shown (by simp [hp])⟩
  | clear => exact .inr ⟨_, _, _, rfl, rfl, ha.shown (by simp [phase_of_need_clear hn])⟩
  | line => exact .inr ⟨_, _, _, rfl, rfl, ha.received (by simp [phase_of_need_line hn]) _⟩
  | done ending => exact .inl ⟨ending, rfl, rfl⟩

theorem finish (ha : Alike r s) (hh : h.Watches) (fuel : Nat) (w : σ) :
    (h.finish fuel s w).1 = (h.finish fuel r w).1 ∧
      (h.finish fuel s w).2.2 = (h.finish fuel r w).2.2 ∧
        (h.finish fuel s w).2.1.emptied = (h.finish fuel r w).2.1.emptied := by
  induction fuel generalizing r s w with
  | zero => exact ⟨rfl, rfl, ha.machine⟩
  | succ fuel ih =>
    obtain ⟨ending, hr, hs⟩ | ⟨r', s', w', hr, hs, hnext⟩ := ha.move hh w
    · simp only [Host.finish, hr, hs, true_and]
      exact ha.machine
    · simp only [Host.finish, hr, hs]
      exact ih hnext w'

end Run.Alike

theorem Run.exists_of_finish {σ : Type} {h : Host σ} {given : String → Prop} (hh : h.Keeps given)
    {fuel : Nat} {r : Run} {w w' : σ} {ending : Ending} {m : Machine}
    (hf : h.finish fuel r w = (some ending, m, w')) :
    ∃ r', Relation.ReflTransGen (Run.Moves given) r r' ∧ r'.phase = .ended ending ∧
      r'.machine = m := by
  induction fuel generalizing r w with
  | zero => cases hf
  | succ fuel ih =>
    simp only [Host.finish] at hf
    split at hf
    · next hm =>
      cases hf
      exact ⟨r, .refl, Host.move_eq_inl hm, rfl⟩
    · next hm =>
      obtain ⟨r', hr, he⟩ := ih hf
      exact ⟨r', (moves_of_host hh hm).trans hr, he⟩

namespace Machine

open Relation (ReflTransGen)

/-- A machine on which any chunks were run, each of them to an ending and on any answers. -/
inductive Served : Machine → Prop
  | new (recursionLimit nextIdent : Nat) : Served (.new recursionLimit nextIdent)
  | traced {m : Machine} (h : Served m) (tracing : Bool) : Served { m with tracing }
  | after {m : Machine} (h : Served m) (chunk : Chunk) {r : Run} {ending : Ending}
    (hr : ReflTransGen (Run.Moves fun _ => True) (Run.start m chunk) r)
    (he : r.phase = .ended ending) : Served r.machine

/-- A new machine with the settings and the global names of another. -/
def renewed (m : Machine) : Machine :=
  { Machine.new m.recursionLimit m.nextIdent with
    arena := { Arena.new builtinScope with globals := m.arena.globals } }

variable {m : Machine}

theorem Served.bears (h : m.Served) : m.arena.Bears [] ∧ m.arena.builtins = builtinScope := by
  induction h with
  | new => exact ⟨.new builtinScope, rfl⟩
  | traced _ _ ih => exact ih
  | after _ chunk hr he ih =>
    have hup := (Run.Upright.start ih.1 ih.2 chunk).reaches hr
    exact ⟨Run.activations_of_ended he ▸ hup.bears, hup.builtins⟩

theorem renewed_bears (m : Machine) : m.renewed.arena.Bears [] where
  sound := ⟨(Arena.sound_new builtinScope).mem_free, .nil⟩
  kept := Arena.Kept.new builtinScope
  linked := .nil
  nodup := .nil
  only := (Arena.Bears.new builtinScope).only

/-- While a run goes on, the counter of the machine tells how many activations there are, which is
how many frames are unreleased and no more than the limit allows. However it ends, be it by a
value, an exception, an answer or a fault, the counter is at zero, no frame is left unreleased, more
slots are held than before only for frames that are still pinned, and there is no observer; and what
is executed next does what it would do on a new machine with the same global names. -/
theorem Served.leaves_nothing (hm : m.Served) (chunk : Chunk) {r : Run}
    (hr : ReflTransGen (Run.Moves fun _ => True) (Run.start m chunk) r) :
    ((∀ ending, r.phase ≠ .ended ending) →
      r.machine.depth = r.height ∧ r.machine.arena.unreleased = r.machine.depth ∧
        r.machine.depth ≤ max 1 m.recursionLimit) ∧
    ∀ ending, r.phase = .ended ending →
      r.callers = [] ∧ r.machine.depth = 0 ∧ r.machine.tracing = false ∧ r.machine.arena.unreleased = 0 ∧
      (∃ pinned : List FrameId, pinned.Nodup ∧
        (∀ id ∈ pinned, m.arena.isLive id = false ∧ ∃ o, r.machine.arena.outline? id = some o ∧
          o.retired = true ∧ 0 < o.pins) ∧
        r.machine.arena.occupied ≤ m.arena.occupied + pinned.length) ∧
      ∀ (σ : Type) (h : Host σ), h.Watches → ∀ next tracing fuel w,
        let used := h.finish fuel (Run.start { r.machine with tracing } next) w
        let fresh := h.finish fuel (Run.start { r.machine.renewed with tracing } next) w
        used.1 = fresh.1 ∧ used.2.2 = fresh.2.2 ∧
          used.2.1.arena.globals = fresh.2.1.arena.globals ∧
          used.2.1.nextIdent = fresh.2.1.nextIdent := by
  have hup := (Run.Upright.start hm.bears.1 hm.bears.2 chunk).reaches hr
  refine ⟨fun hp => ⟨hup.counts hp, ?_, ?_⟩, fun ending he => ?_⟩
  · rw [(hup.running hp).unreleased_eq, hup.counts hp]
    rfl
  · have hlimit : r.machine.recursionLimit = m.recursionLimit := Run.recursionLimit_reaches hr
    rw [hup.counts hp]
    exact hlimit ▸ hup.bound
  · have hbears : r.machine.arena.Bears [] := Run.activations_of_ended he ▸ hup.bears
    obtain ⟨hcallers, htracing⟩ := hup.finished ending he
    have hdepth : r.machine.depth = 0 := by rw [hup.depth, Run.activations_of_ended he]; rfl
    refine ⟨hcallers, hdepth, htracing, hbears.unreleased_eq, ?_,
      fun σ h hh next tracing fuel w => ?_⟩
    · obtain ⟨ids, hnodup, hids, hle⟩ := Arena.exists_newcomers m.arena r.machine.arena
      exact ⟨ids, hnodup, fun id hid => ⟨(hids id hid).1, hbears.pinned (hids id hid).2⟩, hle⟩
    · have hsame : { r.machine with tracing }.emptied = { r.machine.renewed with tracing }.emptied :=
        emptied_eq_iff.2 ⟨rfl, hup.builtins, rfl, rfl, rfl, hdepth⟩
      have halike : Run.Alike (Run.start { r.machine.renewed with tracing } next)
          (Run.start { r.machine with tracing } next) := by
        refine .start ?_ ?_ rfl hsame next
        · exact renewed_bears r.machine
        · exact hbears
      obtain ⟨hending, hworld, hmachine⟩ := halike.finish hh fuel w
      obtain ⟨hglobals, -, -, hident, -⟩ := emptied_eq_iff.1 hmachine
      exact ⟨hending, hworld, hglobals, hident⟩

def hoarder : Host Unit where
  control event _ r w :=
    (.proceed, if event = .call then (r.machine.arena.pin r.current.frame).getD r.machine.arena
      else r.machine.arena, w)
  cell _ := false
  write _ w := w
  clear w := w
  line w := (.ok "", w)

theorem repinned_hoarder (event : TraceEvent) (aux : Option Value) (r : Run) (w : Unit) :
    r.machine.arena.Repinned (hoarder.control event aux r w).2.1 := by
  simp only [hoarder]
  split
  · cases hp : r.machine.arena.pin r.current.frame with
    | none => exact .refl
    | some a => exact .pin .refl hp
  · exact .refl

theorem keeps_hoarder : hoarder.Keeps fun _ => True :=
  ⟨repinned_hoarder, fun _ _ _ _ _ _ => trivial, fun _ _ _ => trivial⟩

theorem watches_hoarder : hoarder.Watches :=
  ⟨repinned_hoarder, fun _ _ _ _ _ _ => ⟨rfl, rfl⟩⟩

def descent : String :=
  "def f(n):\n    return f(n)\nf(1)\n"

theorem leaves_nothing_descent :
    ∃ chunk r e, Code.compile "<descent>" descent = .ok chunk ∧
      ReflTransGen (Run.Moves fun _ => True)
        (Run.start { Machine.new 3 0 with tracing := true } chunk) r ∧
      r.phase = .ended (.error (.exception e)) ∧ e.cause = .recursionLimit ∧
      r.machine.arena.occupied = 3 ∧ r.callers = [] ∧ r.machine.depth = 0 ∧
      r.machine.arena.unreleased = 0 ∧
      ∀ next fuel,
        (hoarder.finish fuel (Run.start { r.machine with tracing := true } next) ()).1 =
          (hoarder.finish fuel (Run.start { r.machine.renewed with tracing := true } next) ()).1 := by
  have hruns : (Code.compile "<descent>" descent).toOption.any (fun chunk =>
      let start := Run.start { Machine.new 3 0 with tracing := true } chunk
      ((hoarder.exception? 300 start ()).any fun e => decide (e.cause = .recursionLimit)) &&
        decide ((hoarder.finish 300 start ()).2.1.arena.occupied = 3)) = true := by
    decide +kernel
  obtain ⟨chunk, hk, hruns⟩ := Code.exists_of_any_toOption hruns
  obtain ⟨hraised, hoccupied⟩ := Bool.and_eq_true_iff.1 hruns
  obtain ⟨e, he, hcause⟩ := (Option.any_eq_true _ _).1 hraised
  obtain ⟨m, x, hf⟩ := Host.finish_of_exception? he
  have hoccupied := of_decide_eq_true hoccupied
  rw [hf] at hoccupied
  obtain ⟨r, hr, he, rfl⟩ := Run.exists_of_finish keeps_hoarder hf
  obtain ⟨hcallers, hdepth, -, hunreleased, -, hnext⟩ :=
    (Served.leaves_nothing (.traced (.new 3 0) true) chunk hr).2 _ he
  exact ⟨chunk, r, e, hk, hr, he, of_decide_eq_true hcause, hoccupied, hcallers, hdepth, hunreleased,
    fun next fuel => (hnext _ _ watches_hoarder next true fuel ()).1⟩

end Machine

end Stepwise
