import Stepwise.Proofs.Session.System
import Stepwise.Proofs.Terminal.Parties

/-! What a run writes to its terminal. What was written stays. The slot of the console is held by
nothing but the read that the run waits in, so no key is shown behind the end of a run. -/

namespace Stepwise

variable {c c' : Console}

def Console.Extends (c c' : Console) : Prop :=
  c.output.toList <+: c'.output.toList

namespace Console

theorem Extends.of_eq (h : c'.output = c.output) : c.Extends c' :=
  ⟨[], by rw [List.append_nil, h]⟩

theorem Extends.trans {c'' : Console} (h : c.Extends c') (h' : c'.Extends c'') : c.Extends c'' :=
  List.IsPrefix.trans h h'

theorem extends_display (c : Console) (d : Display) : c.Extends (c.display d) :=
  ⟨[d], Array.toList_push.symm⟩

theorem output_press (c : Console) (read : Nat) (key : Key) :
    (c.press read key).2.2.output = c.output := by
  unfold press
  split
  · rfl
  · split
    · dsimp only
      split <;> rfl
    · rfl

theorem press_of_slot_none {read : Nat} {key : Key} (h : c.slot = none) :
    c.press read key = ([], none, c) := by
  unfold press
  rw [h]

end Console

theorem ReadClosing.output_step (f : ReadClosing) (c : Console) :
    (f.step c).2.output = c.output := by
  cases f <;> rfl

namespace Delivery.Steps

variable {d d' : Delivery} (h : Steps c d d' c')
include h

theorem «extends» : c.Extends c' := by
  cases h with
  | write => exact c.extends_display _
  | settle key reads f => exact .of_eq (f.output_step c)
  | press key read => exact .of_eq (c.output_press read key)

theorem output_eq (he : d.echo = []) : c'.output = c.output := by
  cases h with
  | write => cases he
  | settle key reads f => exact f.output_step c
  | press key read => exact c.output_press read key

theorem echo_eq (he : d.echo = []) (hslot : c.slot = none) : d'.echo = [] := by
  cases h with
  | write => cases he
  | settle => rfl
  | press => rw [Console.press_of_slot_none hslot]

end Delivery.Steps

namespace Reader

variable {id : Nat} {st st' : Stage}

theorem Steps.extends (h : Steps c id st st' c') : c.Extends c' := by
  cases h with
  | «show» | hide => exact c.extends_display _
  | settle f | settled f => exact .of_eq (f.output_step c)
  | _ => exact .of_eq rfl

def Holds (r : Reader) (c : Console) : Prop :=
  match r.stage with
  | .waiting | .checking | .uninstalling _ => ∀ p, c.slot = some p → p.read = r.id
  | .superseding _ => False
  | _ => c.slot = none

theorem Holds.step {r : Reader} (h : r.Holds c) (interrupted : Bool) :
    (r.step interrupted c).1.Holds (r.step interrupted c).2 := by
  obtain ⟨id, st⟩ := r
  have hid := id_step ⟨id, st⟩ interrupted c
  have hsteps := step_steps ⟨id, st⟩ interrupted c
  generalize Reader.step ⟨id, st⟩ interrupted c = x at hid hsteps ⊢
  obtain ⟨⟨id', st'⟩, c'⟩ := x
  obtain rfl : id' = id := hid
  dsimp only at hsteps ⊢
  cases hsteps with
  | supersede s p hslot => exact absurd (hslot.symm.trans h) nofun
  | settle | settled => exact h.elim
  | install s hslot =>
    rintro _ ⟨⟩
    rfl
  | absent idle o hslot =>
    refine Option.eq_none_iff_forall_ne_some.2 fun p hp => ?_
    exact hslot p hp (h p hp)
  | uninstall => rfl
  | discard p idle | leave idle => cases idle <;> exact h
  | _ => exact h

end Reader

namespace Worker

variable {w : Worker} {s : Shared}

def Holds (w : Worker) (c : Console) : Prop :=
  match w with
  | reading _ _ r => r.Holds c
  | _ => c.slot = none

theorem slot_of_outcome? {r : Reader} {o : ReadOutcome} (h : r.Holds c) (ho : r.outcome? = some o) :
    c.slot = none := by
  obtain ⟨id, st⟩ := r
  cases st with
  | ended => exact h
  | _ => cases ho

theorem console_move (b : Brief) (run : Run) (tracer : Tracer) (s : Shared) :
    s.console.Extends (move b run tracer s).2.console ∧
      (s.console.slot = none → (move b run tracer s).1.Holds (move b run tracer s).2.console) := by
  unfold move
  split
  · exact ⟨.of_eq rfl, id⟩
  · split
    · exact ⟨.of_eq rfl, id⟩
    · split <;> exact ⟨.of_eq rfl, id⟩
  · exact ⟨.of_eq rfl, id⟩
  · exact ⟨s.console.extends_display _, id⟩
  · exact ⟨s.console.extends_display _, id⟩
  · exact ⟨.of_eq rfl, id⟩
  · exact ⟨.of_eq rfl, id⟩

theorem extends_step (b : Brief) (w : Worker) (s : Shared) :
    s.console.Extends (w.step b s).2.console := by
  cases w with
  | loading | announcing | finished => exact .of_eq rfl
  | running run tracer => exact (console_move b run tracer s).1
  | suspended run tracer pause wait => cases wait <;> exact .of_eq rfl
  | reading run tracer r =>
    cases ho : r.outcome? with
    | some o =>
      simp only [step, read, ho]
      exact .of_eq rfl
    | none =>
      simp only [step, read, ho]
      exact (r.step_steps _ _).extends
  | concluding arena o =>
    cases o with
    | failed => exact s.console.extends_display _
    | _ => exact .of_eq rfl

theorem extends_work (b : Brief) (stop : Shared → Bool) (fuel : Nat) (w : Worker) (s : Shared) :
    s.console.Extends (w.work b stop fuel s).2.console := by
  induction fuel generalizing w s with
  | zero => exact .of_eq rfl
  | succ fuel ih =>
    rw [work]
    split
    · exact .of_eq rfl
    · exact (extends_step b w s).trans (ih _ _)

theorem Holds.step (h : w.Holds s.console) (b : Brief) :
    (w.step b s).1.Holds (w.step b s).2.console := by
  cases w with
  | loading =>
    unfold Worker.step load
    dsimp only
    split <;> exact h
  | announcing | finished => exact h
  | running run tracer => exact (console_move b run tracer s).2 h
  | suspended run tracer pause wait => cases wait <;> exact h
  | reading run tracer r =>
    cases ho : r.outcome? with
    | some o =>
      simp only [Worker.step, read, ho]
      exact slot_of_outcome? h ho
    | none =>
      simp only [Worker.step, read, ho]
      exact Reader.Holds.step h _
  | concluding arena o => cases o <;> exact h

theorem Holds.keeps (h : w.Holds c) (hc : c.Keeps c') : w.Holds c' := by
  have hnone (hslot : c.slot = none) : c'.slot = none :=
    Option.eq_none_iff_forall_ne_some.2 fun q hq => by
      obtain ⟨p, hp, -⟩ := hc.slot q hq
      exact absurd (hslot.symm.trans hp) nofun
  cases w with
  | reading run tracer r =>
    obtain ⟨id, st⟩ := r
    cases st with
    | waiting | checking | uninstalling =>
      intro q hq
      obtain ⟨p, hp, hread⟩ := hc.slot q hq
      exact hread ▸ h p hp
    | superseding => exact h
    | _ => exact hnone h
  | _ => exact hnone h

theorem Touched.holds {w' : Worker} (ht : w.Touched w') (h : w.Holds c) : w'.Holds c := by
  cases ht with
  | same => exact h
  | pins arena => cases w <;> exact h
  | mail d => cases w <;> exact h

/-! What a run tells its controller. -/

def tells : Worker → List SessionEvent
  | suspended _ _ p (.publishing _) => [.paused p]
  | announcing _ o => [.terminated o]
  | _ => []

inductive HasTold : Worker → List SessionEvent → Prop
  | moving {w : Worker} (hw : ∀ arena, w ≠ finished arena) (ps : List Pause) :
    HasTold w (ps.map .paused)
  | ended (arena : Arena) (ps : List Pause) (o : Outcome) :
    HasTold (finished arena) (ps.map .paused ++ [.terminated o])

theorem events_step_eq (b : Brief) (w : Worker) (s : Shared) :
    (w.step b s).2.events = s.events.map (· ++ w.tells) := by
  have hsame {w : Worker} (ht : w.tells = []) (he : (w.step b s).2.events = s.events) :
      (w.step b s).2.events = s.events.map (· ++ w.tells) := by simp [ht, he]
  cases w with
  | loading | finished => exact hsame rfl rfl
  | announcing => rfl
  | running run tracer => exact hsame rfl (events_move b run tracer s)
  | suspended run tracer pause wait =>
    cases wait with
    | publishing => rfl
    | _ => exact hsame rfl rfl
  | reading run tracer r =>
    refine hsame rfl ?_
    simp only [step, read]
    split <;> rfl
  | concluding arena o => cases o <;> exact hsame rfl rfl

theorem map_note_tells (b : Brief) (hs : s.events.isSome = true) :
    w.tells.map SessionEvent.note = (w.notes s).filter Note.isTold := by
  obtain ⟨es, hes⟩ := Option.isSome_iff_exists.1 hs
  obtain ⟨told, hevents, -, hnotes⟩ := events_step b w s
  rw [events_step_eq, hes, Option.map_some, Option.map_some, Option.some.injEq] at hevents
  rw [← hnotes hs, List.append_cancel_left hevents]

theorem HasTold.step {es : List SessionEvent} (h : w.HasTold es) (b : Brief) (s : Shared) :
    (w.step b s).1.HasTold (es ++ w.tells) := by
  cases h with
  | ended arena ps o =>
    rw [show (finished arena).tells = [] from rfl, List.append_nil]
    exact .ended arena ps o
  | moving hw ps =>
    have hmoves {w' : Worker} (h : ∀ arena, w' ≠ finished arena) :
        w'.HasTold (ps.map .paused ++ []) := by
      rw [List.append_nil]
      exact .moving h ps
    cases w with
    | finished arena => exact absurd rfl (hw arena)
    | announcing arena o => exact .ended arena ps o
    | loading =>
      refine hmoves ?_
      unfold Worker.step load
      dsimp only
      split <;> exact nofun
    | running run tracer =>
      refine hmoves ?_
      unfold Worker.step move
      dsimp only
      split
      · exact nofun
      · split
        · exact nofun
        · split <;> exact nofun
      all_goals exact nofun
    | suspended run tracer pause wait =>
      cases wait with
      | publishing mail =>
        have hps : ps.map SessionEvent.paused ++ [.paused pause] = (ps ++ [pause]).map .paused := by
          rw [List.map_append]
          rfl
        rw [tells, hps]
        exact .moving (fun _ h => by cases h) _
      | _ => exact hmoves fun _ h => by cases h
    | reading run tracer r =>
      refine hmoves ?_
      unfold Worker.step read
      dsimp only
      split <;> exact nofun
    | concluding arena o => exact hmoves nofun

theorem Touched.hasTold {w' : Worker} {es : List SessionEvent} (ht : w.Touched w')
    (h : w.HasTold es) : w'.HasTold es := by
  cases h with
  | moving hw ps =>
    refine .moving (fun arena harena => ?_) ps
    cases ht with
    | same => exact hw arena harena
    | pins | mail => cases w <;> first | exact hw _ rfl | cases harena
  | ended arena ps o => cases ht <;> exact .ended _ ps o

theorem HasTold.last {before rest : List SessionEvent} {o : Outcome}
    (h : w.HasTold (before ++ .terminated o :: rest)) :
    rest = [] ∧ ∃ arena, w = finished arena := by
  have hpaused {ps : List Pause} {before rest : List SessionEvent}
      (hes : before ++ .terminated o :: rest = ps.map .paused) : False := by
    have hmem : SessionEvent.terminated o ∈ ps.map SessionEvent.paused :=
      hes ▸ List.mem_append_right _ List.mem_cons_self
    obtain ⟨p, -, hp⟩ := List.mem_map.1 hmem
    cases hp
  generalize hes : before ++ .terminated o :: rest = es at h
  cases h with
  | moving hw ps => exact (hpaused hes).elim
  | ended arena ps o' =>
    refine ⟨?_, arena, rfl⟩
    rcases List.eq_nil_or_concat rest with rfl | ⟨init, x, rfl⟩
    · rfl
    · rw [List.concat_eq_append, ← List.cons_append, ← List.append_assoc] at hes
      exact (hpaused (List.append_inj' hes rfl).1).elim

end Worker

end Stepwise
