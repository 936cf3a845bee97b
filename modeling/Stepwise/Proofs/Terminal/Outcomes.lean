import Mathlib.Data.List.Perm.Basic
import Stepwise.Proofs.Terminal.Parties

/-! Whatever goes on at a console and in whatever order it moves, what becomes of every read is
legal. So every read is sent one outcome at most, none of them waits for nothing, and a line
that is returned is the one that was typed to the read. -/

namespace Stepwise

open ReadStatus

variable {c : Console} {read : Nat}

namespace Traffic

variable {t : Traffic}

def stages (t : Traffic) (read : Nat) : List Reader.Stage :=
  t.parties.flatMap (Party.stages read)

def owed (t : Traffic) (read : Nat) : List ReadClosing :=
  t.parties.flatMap fun e => ReadClosing.owed read e.closing?

def readStatus (t : Traffic) (read : Nat) : ReadStatus :=
  t.console.readStatus read (t.owed read) (t.sentTo read) (t.keysTo read)

/-- All reads fare as they should, and a read that superseded another one has told it so before
it waits itself. -/
structure Orderly (t : Traffic) : Prop where
  legal : ∀ read, Legal (t.stages read) (t.readStatus read)
  begun : ∀ read, t.console.nextRead ≤ read → t.stages read = []
  answered : ∀ read old, .installed read (some old) ∈ t.log → .sent old .cancelled ∈ t.log ∨
    ∃ p : Pending, p.read = old ∧ .superseding (.telling p .cancelled) ∈ t.stages read

theorem orderly_new : new.Orderly where
  legal _ := legal_unborn
  begun _ _ := rfl
  answered := nofun

theorem stages_begin {e : Party} {c : Console} :
    (t.begin e c).stages read = t.stages read ++ e.stages read := by
  simp [stages, begin]

theorem Orderly.begin {e : Party} {c : Console} (h : t.Orderly)
    (hbegun : ∀ read, c.nextRead ≤ read → t.stages read ++ e.stages read = [])
    (hlegal : ∀ read, Legal (e.stages read ++ t.stages read)
      (c.readStatus read (ReadClosing.owed read e.closing? ++ t.owed read) (t.sentTo read)
        (t.keysTo read))) : (t.begin e c).Orderly where
  legal read := by
    rw [stages_begin]
    refine Legal.perm List.perm_append_comm ?_ (hlegal read)
    simpa [Traffic.begin, owed] using List.perm_append_comm
  begun read hread := by
    rw [stages_begin]
    exact hbegun read hread
  answered read old hmem := by
    rw [stages_begin]
    exact (h.answered read old hmem).imp_right fun ⟨p, hp, hst⟩ =>
      ⟨p, hp, List.mem_append_left _ hst⟩

theorem Orderly.beginRead (h : t.Orderly) : (t.act .read).Orderly := by
  refine h.begin (fun read hread => ?_) (fun read => ?_)
  · have hlt : t.console.nextRead < read := hread
    simp [Party.stages, Nat.ne_of_lt hlt, h.begun read (Nat.le_of_lt hlt)]
  · have hlegal := h.legal read
    by_cases hread : t.console.nextRead = read
    · rw [h.begun read (Nat.le_of_eq hread)] at hlegal ⊢
      simp only [Party.stages, hread, if_true]
      exact hlegal.begin
    · simp only [Party.stages, hread, if_false]
      exact hlegal

theorem Orderly.beginKey (h : t.Orderly) (key : Key) : (t.act (.key key)).Orderly := by
  refine h.begin (fun read hread => ?_) h.legal
  simpa [Party.stages] using h.begun read hread

theorem Orderly.beginCancel (h : t.Orderly) : (t.act .cancel).Orderly := by
  refine h.begin (fun read hread => ?_) (fun read => ?_)
  · simpa [Party.stages] using h.begun read hread
  · have hlegal := h.legal read
    cases hslot : t.console.slot with
    | none =>
      rw [readStatus, Console.readStatus, hslot] at hlegal
      exact hlegal
    | some p =>
      have htake : Legal (t.stages read) ({ t.console with slot := none }.readStatus read
          (ReadClosing.owed read (some (.telling p .cancelled)) ++ t.owed read)
          (t.sentTo read) (t.keysTo read ++ [])) :=
        Console.legal_take hslot rfl rfl (fun _ => rfl) (fun _ _ => trivial) hlegal
      rw [List.append_nil] at htake
      exact htake

namespace Note

variable {c' : Console}

theorem eq_applied {n : Note} {i : Nat} {e : Party} (h : n ∈ appliedNotes i c e) :
    ∃ d read, e = .delivery d ∧ d.target? c = some read ∧ n = .applied i read d.key := by
  cases e with
  | read | cancellation => cases h
  | delivery d =>
    obtain ⟨read, hread, rfl⟩ := List.mem_map.1 h
    exact ⟨d, read, rfl, Option.mem_toList.1 hread, rfl⟩

theorem eq_sent {n : Note} (h : n ∈ sentNotes c c') : ∃ read o, n = .sent read o := by
  obtain ⟨m, -, rfl⟩ := List.mem_map.1 h
  exact ⟨m.1, m.2, rfl⟩

theorem eq_installed {n : Note} (h : n ∈ installedNotes c c') :
    ∃ q, c'.slot = some q ∧ (c.slot.any fun p => p.read = q.read) = false ∧
      n = .installed q.read (c.slot.map Pending.read) := by
  unfold installedNotes at h
  split at h
  case h_1 q hq =>
    split at h
    case isTrue => cases h
    case isFalse hne => exact ⟨q, hq, by simpa using hne, List.mem_singleton.1 h⟩
  case h_2 => cases h

theorem filterMap_sent?_appliedNotes (i : Nat) (e : Party) :
    (appliedNotes i c e).filterMap (sent? read) = [] :=
  List.filterMap_eq_nil_iff.2 fun _ h => by
    obtain ⟨_, _, -, -, rfl⟩ := eq_applied h
    rfl

theorem filterMap_sent?_installedNotes : (installedNotes c c').filterMap (sent? read) = [] :=
  List.filterMap_eq_nil_iff.2 fun _ h => by
    obtain ⟨_, -, -, rfl⟩ := eq_installed h
    rfl

theorem filterMap_applied?_sentNotes : (sentNotes c c').filterMap (applied? read) = [] :=
  List.filterMap_eq_nil_iff.2 fun _ h => by
    obtain ⟨_, _, rfl⟩ := eq_sent h
    rfl

theorem filterMap_applied?_installedNotes :
    (installedNotes c c').filterMap (applied? read) = [] :=
  List.filterMap_eq_nil_iff.2 fun _ h => by
    obtain ⟨_, -, -, rfl⟩ := eq_installed h
    rfl

end Note

variable {i : Nat} {interrupted : Bool}

theorem parties_step {e : Party} (he : t.parties[i]? = some e) :
    (t.act (.step i interrupted)).parties = t.parties.set i (e.step interrupted t.console).1 := by
  simp only [act, he]

theorem console_step {e : Party} (he : t.parties[i]? = some e) :
    (t.act (.step i interrupted)).console = (e.step interrupted t.console).2 := by
  simp only [act, he]

theorem sentTo_step {e : Party} (he : t.parties[i]? = some e) :
    (t.act (.step i interrupted)).sentTo read =
      t.sentTo read ++ t.console.arrivals read (e.step interrupted t.console).2 := by
  simp only [act, he, sentTo, List.filterMap_append, Note.filterMap_sent?_appliedNotes,
    Note.filterMap_sent?_installedNotes, List.nil_append, List.append_nil, Console.arrivals]

theorem keysTo_step {e : Party} (he : t.parties[i]? = some e) :
    (t.act (.step i interrupted)).keysTo read = t.keysTo read ++ e.presses read t.console := by
  simp only [act, he, keysTo, List.filterMap_append, Party.filterMap_appliedNotes,
    Note.filterMap_applied?_sentNotes, Note.filterMap_applied?_installedNotes, List.append_nil]

theorem stages_id_step (e : Party) (c : Console) :
    (e.step interrupted c).1.stages read = [] ↔ e.stages read = [] := by
  cases e with
  | read r => simp [Party.step, Party.stages, r.id_step]
  | delivery d => simp only [Party.step]; split <;> rfl
  | cancellation f => cases f <;> rfl

theorem installed_over {e : Party} {old : Nat}
    (h : .installed read (some old) ∈ Note.installedNotes c (e.step interrupted c).2) :
    ∃ p : Pending, p.read = old ∧
      .superseding (.telling p .cancelled) ∈ (e.step interrupted c).1.stages read := by
  obtain ⟨q, hq, hne, heq⟩ := Note.eq_installed h
  obtain ⟨rfl, hprevious⟩ := Note.installed.inj heq
  obtain ⟨p, hslot, rfl⟩ := Option.map_eq_some_iff.1 hprevious.symm
  rcases e.keeps_step interrupted with hkeep | ⟨id, s, rfl⟩
  · obtain ⟨p', hp', hread⟩ := hkeep.slot q hq
    simp [hp', hread] at hne
  · obtain rfl := Option.some.inj hq
    refine ⟨p, rfl, ?_⟩
    simp [Party.step, Reader.step, Party.stages, hslot]

theorem sent_of_superseding {e : Party} {p : Pending}
    (h : .superseding (.telling p .cancelled) ∈ e.stages read) :
    .sent p.read .cancelled ∈ Note.sentNotes c (e.step interrupted c).2 := by
  cases e with
  | read r =>
    obtain ⟨id, st⟩ := r
    by_cases hid : id = read
    · simp only [Party.stages, hid, if_true, List.mem_singleton] at h
      subst h
      simp [Party.step, Reader.step, ReadClosing.step, Note.sentNotes, Console.send]
    · simp [Party.stages, hid] at h
  | delivery | cancellation => cases h

theorem Orderly.step (h : t.Orderly) (i : Nat) (interrupted : Bool) :
    (t.act (.step i interrupted)).Orderly := by
  cases he : t.parties[i]? with
  | none => simpa only [act, he] using h
  | some e =>
    obtain ⟨hi, heq⟩ := List.getElem?_eq_some_iff.1 he
    have hbefore := (List.getElem_cons_eraseIdx_perm hi).symm
    have hafter := (List.set_perm_cons_eraseIdx hi (e.step interrupted t.console).1).symm
    rw [heq] at hbefore
    have hlog : (t.act (.step i interrupted)).log =
        t.log ++ (Note.appliedNotes i t.console e ++
          (Note.sentNotes t.console (e.step interrupted t.console).2 ++
            Note.installedNotes t.console (e.step interrupted t.console).2)) := by
      simp only [act, he]
    refine ⟨fun read => ?_, fun read hread => ?_, fun read old hmem => ?_⟩
    · have hlegal := Legal.perm (hbefore.flatMap_right _) (hbefore.flatMap_right _) (h.legal read)
      have hstep := Party.legal_step_cons interrupted hlegal
      rw [stages, readStatus, owed, parties_step he, console_step he, sentTo_step he, keysTo_step he]
      exact Legal.perm (hafter.flatMap_right _) (hafter.flatMap_right _) hstep
    · rw [console_step he, Party.nextRead_step] at hread
      have hnil := List.flatMap_eq_nil_iff.1 (h.begun read hread)
      refine List.flatMap_eq_nil_iff.2 fun e' he' => ?_
      rw [parties_step he] at he'
      rcases List.mem_or_eq_of_mem_set he' with he' | rfl
      · exact hnil e' he'
      · exact (stages_id_step e t.console).2 (hnil e (List.mem_of_getElem? he))
    · have hstages : ∀ st, st ∈ (t.act (.step i interrupted)).stages read ↔
          st ∈ (e.step interrupted t.console).1.stages read ∨
            st ∈ (t.parties.eraseIdx i).flatMap (Party.stages read) := fun st => by
        rw [stages, parties_step he, ← (hafter.flatMap_right _).mem_iff, List.flatMap_cons, List.mem_append]
      rw [hlog, List.mem_append, List.mem_append, List.mem_append] at hmem
      rw [hlog]
      rcases hmem with hmem | hmem | hmem | hmem
      · rcases h.answered read old hmem with hsent | ⟨p, rfl, hst⟩
        · exact .inl (List.mem_append_left _ hsent)
        · rw [stages, (hbefore.flatMap_right _).mem_iff, List.flatMap_cons, List.mem_append] at hst
          rcases hst with hst | hst
          · exact .inl (by simp [sent_of_superseding hst])
          · exact .inr ⟨p, rfl, (hstages _).2 (.inr hst)⟩
      · obtain ⟨_, _, _, _, hn⟩ := Note.eq_applied hmem
        cases hn
      · obtain ⟨_, _, hn⟩ := Note.eq_sent hmem
        cases hn
      · obtain ⟨p, hp, hst⟩ := installed_over hmem
        exact .inr ⟨p, hp, (hstages _).2 (.inl hst)⟩

theorem Orderly.act (h : t.Orderly) (a : Action) : (t.act a).Orderly := by
  cases a with
  | read => exact h.beginRead
  | key key => exact h.beginKey key
  | cancel => exact h.beginCancel
  | step i interrupted => exact h.step i interrupted

theorem orderly_run (as : List Action) : (run as).Orderly := by
  have hrun (as : List Action) : ∀ t : Traffic, t.Orderly → (as.foldl Traffic.act t).Orderly := by
    induction as with
    | nil => exact fun _ h => h
    | cons a as ih => exact fun t h => ih _ (h.act a)
  exact hrun as new orderly_new

theorem mem_stages {st : Reader.Stage} :
    st ∈ t.stages read ↔ .read ⟨read, st⟩ ∈ t.parties := by
  refine List.mem_flatMap.trans ⟨?_, fun h => ⟨_, h, by simp [Party.stages]⟩⟩
  rintro ⟨e, he, hst⟩
  cases e with
  | read r =>
    obtain ⟨id, st'⟩ := r
    by_cases hid : id = read
    · simp only [Party.stages, hid, if_true, List.mem_singleton] at hst
      rwa [hst, ← hid]
    · simp [Party.stages, hid] at hst
  | delivery | cancellation => cases hst

theorem Orderly.stands (h : t.Orderly) {r : Reader} (hr : .read r ∈ t.parties) :
    (t.readStatus r.id).Stands r.stage :=
  (h.legal r.id).stands r.stage (mem_stages.2 hr)

theorem Orderly.stages_eq (h : t.Orderly) {r : Reader} (hr : .read r ∈ t.parties) :
    t.stages r.id = [r.stage] := by
  have hmem := mem_stages.2 hr
  obtain ⟨st, hst⟩ := List.length_eq_one_iff.1
    (Nat.le_antisymm (h.legal r.id).single (List.length_pos_of_mem hmem))
  rw [hst, List.mem_singleton] at hmem
  rw [hst, hmem]

theorem Orderly.eq_of_id_eq (h : t.Orderly) {i j : Nat} {r r' : Reader}
    (hi : t.parties[i]? = some (.read r)) (hj : t.parties[j]? = some (.read r'))
    (hid : r.id = r'.id) : i = j := by
  by_contra hne
  obtain ⟨hlt, heq⟩ := List.getElem?_eq_some_iff.1 hi
  have hperm := List.getElem_cons_eraseIdx_perm hlt
  have hmem : .read r' ∈ t.parties.eraseIdx i :=
    List.mem_eraseIdx_iff_getElem?.2 ⟨j, fun h => hne h.symm, hj⟩
  have hrest : r'.stage ∈ (t.parties.eraseIdx i).flatMap (Party.stages r.id) :=
    List.mem_flatMap.2 ⟨_, hmem, by simp [Party.stages, hid]⟩
  have hlen := (h.legal r.id).single
  rw [stages, ← (hperm.flatMap_right _).length_eq, heq, List.flatMap_cons,
    List.length_append] at hlen
  have hpos := List.length_pos_of_mem hrest
  simp only [Party.stages, if_true, List.length_singleton] at hlen
  omega

theorem closing?_of_isDone {e : Party} (h : e.isDone c = true) : e.closing? = none := by
  cases e with
  | read r =>
    obtain ⟨id, st⟩ := r
    cases st with
    | ended => rfl
    | _ => cases h
  | delivery d =>
    obtain ⟨key, reads, echo, closing⟩ := d
    match echo, closing, reads, h with
    | [], none, [], _ => rfl
  | cancellation f => exact Option.isNone_iff_eq_none.1 h

theorem stage_of_outcome? {r : Reader} {o : ReadOutcome} (h : r.outcome? = some o) :
    r.stage = .ended o := by
  obtain ⟨id, st⟩ := r
  cases st with
  | ended => exact congrArg _ (Option.some.inj h)
  | _ => cases h

def IsPending (t : Traffic) (r : Reader) : Prop :=
  ∃ p, t.console.slot = some p ∧ p.read = r.id

/-- One read is pending at a time, and each of them is sent one outcome at most. A read that waits
for an outcome is not given up, and it returns what it was sent, or that it was interrupted; by then
the one that it took the slot from was told that it is cancelled. A line is what the keys of the
read made of an empty one, up to the first that ended it. When everything has come to its end, no
read is pending or subscribed. -/
structure Settled (t : Traffic) : Prop where
  pending : ∀ (i j : Nat) (r r' : Reader), t.parties[i]? = some (.read r) →
    t.parties[j]? = some (.read r') → t.IsPending r → t.IsPending r' → i = j
  once : ∀ read, (t.sentTo read).length ≤ 1
  awaited : ∀ r : Reader, .read r ∈ t.parties → r.stage = .waiting →
    Reader.receive? r.id t.console.mail = none → t.console.deserted.contains r.id = false
  returned : ∀ (r : Reader) (o : ReadOutcome), .read r ∈ t.parties → r.outcome? = some o →
    o = .interrupted ∨ t.sentTo r.id = [o]
  superseded : ∀ (r : Reader) (o : ReadOutcome) (old : Nat), .read r ∈ t.parties →
    r.outcome? = some o → .installed r.id (some old) ∈ t.log → .sent old .cancelled ∈ t.log
  line : ∀ (r : Reader) (text : String), .read r ∈ t.parties → r.outcome? = some (.line text) →
    ∃ keys, t.keysTo r.id = keys ++ [.enter] ∧ (∀ key ∈ keys, key.isEnding = false) ∧
      text = String.ofList (Editor.typed keys).buffer
  finished : (∀ e ∈ t.parties, e.isDone t.console = true) →
    t.console.slot = none ∧ t.console.hub.entries = []

theorem Orderly.left (h : t.Orderly) (hdone : ∀ e ∈ t.parties, e.isDone t.console = true)
    (read : Nat) : (t.readStatus read).slot = none ∧ (t.readStatus read).subscriptions = [] := by
  have hlegal := h.legal read
  have howed : t.owed read = [] := List.flatMap_eq_nil_iff.2 fun e he => by
    rw [closing?_of_isDone (hdone e he)]
    rfl
  cases hst : t.stages read with
  | nil =>
    obtain ⟨hfresh, hsubs⟩ := hlegal.unborn hst
    exact ⟨hfresh.slot, hsubs⟩
  | cons st =>
    have hmem : st ∈ t.stages read := hst ▸ List.mem_cons_self
    obtain ⟨o, ho⟩ := Option.isSome_iff_exists.1 (hdone _ (mem_stages.1 hmem))
    obtain rfl : st = .ended o := stage_of_outcome? ho
    obtain ⟨hinstalled, hslot, -⟩ := hlegal.stands _ hmem
    refine ⟨hslot, hlegal.deserted ?_⟩
    rcases hinstalled with hsome | hne | hd
    · rw [hslot] at hsome
      cases hsome
    · exact absurd howed hne
    · exact hd

theorem Orderly.settled (h : t.Orderly) : t.Settled where
  pending i j r r' hi hj hr hr' := by
    obtain ⟨p, hp, hr⟩ := hr
    obtain ⟨q, hq, hr'⟩ := hr'
    obtain rfl := Option.some.inj (hp.symm.trans hq)
    exact h.eq_of_id_eq hi hj (hr.symm.trans hr')
  once read := (h.legal read).sent
  awaited r hr hst hmail := by
    have hlegal := h.legal r.id
    have hnil : t.console.mail.filter (fun m => m.1 = r.id) = [] := by
      simpa [List.filter_eq_nil_iff] using Reader.receive?_eq_none.1 hmail
    rw [h.stages_eq hr, hst, readStatus, Console.readStatus, hnil] at hlegal
    exact hlegal.not_deserted
  returned r o hr ho := by
    have hstands := h.stands hr
    rw [stage_of_outcome? ho] at hstands
    exact hstands.2.2
  superseded r o old hr ho hlog := by
    rcases h.answered r.id old hlog with hsent | ⟨p, -, hst⟩
    · exact hsent
    · rw [h.stages_eq hr, stage_of_outcome? ho] at hst
      cases List.mem_singleton.1 hst
  line r text hr ho := by
    have hstands := h.stands hr
    rw [stage_of_outcome? ho] at hstands
    rcases hstands.2.2 with hnone | hsent
    · cases hnone
    · exact (h.legal r.id).answers _ (hsent ▸ List.mem_cons_self)
  finished hdone := by
    refine ⟨?_, List.eq_nil_iff_forall_not_mem.2 fun e he => ?_⟩
    · cases hslot : t.console.slot with
      | none => rfl
      | some p =>
        have := (h.left hdone p.read).1
        simp [readStatus, Console.readStatus, hslot] at this
    · have hnil := List.filter_eq_nil_iff.1 (List.map_eq_nil_iff.1 (h.left hdone e.2).2)
      exact hnil e he (decide_eq_true rfl)

/-- In whatever order reads, keys, cancellations and interrupts come and move, one read is
pending at a time and each has one outcome. -/
theorem one_outcome_each (as : List Action) : (run as).Settled :=
  (orderly_run as).settled

example :
    let t := run (Action.read :: steps 0 3 ++ Action.read :: steps 1 5 ++
      Action.key (.char 'a') :: steps 2 3 ++ Action.key .enter :: steps 3 5 ++ steps 0 4 ++
      steps 1 4)
    t.sentTo 1 = [.cancelled] ∧ t.sentTo 2 = [.line "a"] ∧
      t.parties.all (Party.isDone t.console) = true := by
  decide +kernel

end Traffic

end Stepwise
