import Mathlib.Data.List.Induction
import Mathlib.Data.List.Nodup
import Stepwise.Proofs.Terminal.Outcomes

/-! To how many reads a key is applied. It goes to those that were subscribed when it came, one
after the other, and is applied to the one in the slot. Another read may take the slot meanwhile,
and then the key is applied to that one too; in no other way is it applied twice. -/

namespace Stepwise.Traffic

variable {t : Traffic} {i read : Nat} {key : Key} {interrupted : Bool}

def notes (t : Traffic) (i : Nat) (interrupted : Bool) (e : Party) : List Note :=
  Note.appliedNotes i t.console e ++
    (Note.sentNotes t.console (e.step interrupted t.console).2 ++
      Note.installedNotes t.console (e.step interrupted t.console).2)

theorem log_step {e : Party} (he : t.parties[i]? = some e) :
    (t.act (.step i interrupted)).log = t.log ++ t.notes i interrupted e := by
  simp only [act, he]
  rfl

theorem log_act (t : Traffic) (a : Action) :
    (t.act a).log = t.log ∨ ∃ i interrupted e, a = .step i interrupted ∧
      t.parties[i]? = some e ∧ (t.act a).log = t.log ++ t.notes i interrupted e := by
  cases a with
  | read | key | cancel => exact .inl rfl
  | step i interrupted =>
    cases he : t.parties[i]? with
    | none => exact .inl (by simp only [act, he])
    | some e => exact .inr ⟨i, interrupted, e, rfl, he, log_step he⟩

namespace Note

variable {c c' : Console}

theorem installed_of_slot {q : Pending} (hq : c'.slot = some q) :
    (∃ p, c.slot = some p ∧ p.read = q.read) ∨
      ∃ old, .installed q.read old ∈ installedNotes c c' := by
  by_cases h : (c.slot.any fun p => p.read = q.read) = true
  · obtain ⟨p, hp, hread⟩ := (Option.any_eq_true _ _).1 h
    exact .inl ⟨p, hp, of_decide_eq_true hread⟩
  · exact .inr ⟨_, by rw [installedNotes, hq]; simp only [h]; exact List.mem_cons_self⟩

theorem installedNotes_of_keeps (h : c.Keeps c') : installedNotes c c' = [] := by
  refine List.eq_nil_iff_forall_not_mem.2 fun n hn => ?_
  obtain ⟨q, hq, hne, -⟩ := eq_installed hn
  obtain ⟨p, hp, hread⟩ := h.slot q hq
  simp [hp, hread] at hne

theorem sentNotes_of_mail_eq (h : c'.mail = c.mail) : sentNotes c c' = [] := by
  simp [sentNotes, h]

end Note

/-- A key is noted as applied when the next step of its delivery presses it, and nothing else
is noted of that step. -/
theorem notes_of_applied {e : Party} {j : Nat}
    (h : .applied j read key ∈ t.notes i interrupted e) :
    j = i ∧ t.notes i interrupted e = [.applied i read key] ∧
      (∃ p, t.console.slot = some p ∧ p.read = read) ∧
      ∃ reads, e = .delivery ⟨key, read :: reads, [], none⟩ := by
  rcases List.mem_append.1 h with h | h
  · obtain ⟨⟨k, reads, echo, closing⟩, r, rfl, htarget, hn⟩ := Note.eq_applied h
    obtain ⟨rfl, rfl, rfl⟩ := Note.applied.inj hn
    match echo, closing, reads with
    | [], none, r :: reads =>
      simp only [Delivery.target?] at htarget
      split at htarget
      case isFalse => cases htarget
      case isTrue hslot =>
        obtain rfl := Option.some.inj htarget
        obtain ⟨p, hp, hread⟩ := (Option.any_eq_true _ _).1 hslot
        obtain ⟨hkeeps, hmail⟩ := Console.keeps_press (c := t.console) r key
        refine ⟨rfl, ?_, ⟨p, hp, of_decide_eq_true hread⟩, reads, rfl⟩
        rw [notes, Party.step, Delivery.step]
        dsimp only
        rw [Note.sentNotes_of_mail_eq hmail, Note.installedNotes_of_keeps hkeeps]
        simp [Note.appliedNotes, Delivery.target?, hslot]
  · rcases List.mem_append.1 h with h | h
    · obtain ⟨_, _, hn⟩ := Note.eq_sent h
      cases hn
    · obtain ⟨_, _, _, hn⟩ := Note.eq_installed h
      cases hn

structure Typed (t : Traffic) : Prop where
  moved : ∀ before j r k rest, t.log = before ++ .applied j r k :: rest →
    ∀ q, t.console.slot = some q → q.read ≠ r → ∃ old, .installed q.read old ∈ rest
  reads : ∀ j d, t.parties[j]? = some (.delivery d) →
    d.reads.Nodup ∧ ∀ r k, .applied j r k ∈ t.log → r ∉ d.reads ∧ k = d.key
  begun : ∀ j r k, .applied j r k ∈ t.log → j < t.parties.length

theorem split_log {log new before rest : List Note} {n : Note}
    (h : log ++ new = before ++ n :: rest) :
    (∃ mid, log = before ++ n :: mid ∧ rest = mid ++ new) ∨
      ∃ first, before = log ++ first ∧ new = first ++ n :: rest := by
  rcases List.append_eq_append_iff.1 h with h | ⟨mid, hlog, hnew⟩
  · exact .inr h
  · cases mid with
    | nil => exact .inr ⟨[], by simpa using hlog.symm, hnew.symm⟩
    | cons m mid =>
      obtain ⟨rfl, rfl⟩ := List.cons.inj hnew
      exact .inl ⟨mid, hlog, rfl⟩

/-- A delivery was one before, of the same key, and has no reads to come to that it had not. -/
theorem sublist_reads {e : Party} {c : Console} {d : Delivery}
    (h : (e.step interrupted c).1 = .delivery d) :
    ∃ d', e = .delivery d' ∧ d.key = d'.key ∧ d.reads.Sublist d'.reads := by
  cases e with
  | read r => cases h
  | cancellation f => cases f <;> cases h
  | delivery d' =>
    refine ⟨d', rfl, ?_⟩
    cases hd : d'.step c with
    | none =>
      simp only [Party.step, hd, Party.delivery.injEq] at h
      rw [h]
      exact ⟨rfl, List.Sublist.refl _⟩
    | some dc =>
      simp only [Party.step, hd, Party.delivery.injEq] at h
      have hsteps := Delivery.step_steps hd
      rw [h] at hsteps
      generalize dc.2 = c' at hsteps
      cases hsteps with
      | write | settle => exact ⟨rfl, List.Sublist.refl _⟩
      | press key r reads => exact ⟨rfl, List.sublist_cons_self r reads⟩

/-- Whoever takes the slot from the read that a key was applied to is noted behind that. -/
theorem Typed.moved_step (h : t.Typed) {e : Party} (he : t.parties[i]? = some e)
    {before rest : List Note} {j r : Nat} {k : Key}
    (hsplit : (t.act (.step i interrupted)).log = before ++ .applied j r k :: rest) {q : Pending}
    (hq : (t.act (.step i interrupted)).console.slot = some q) (hne : q.read ≠ r) :
    ∃ old, .installed q.read old ∈ rest := by
  rw [log_step he] at hsplit
  rw [console_step he] at hq
  have hnew {old : Option Nat} (h : .installed q.read old ∈ Note.installedNotes t.console
      (e.step interrupted t.console).2) :
      .installed q.read old ∈ t.notes i interrupted e :=
    List.mem_append_right _ (List.mem_append_right _ h)
  rcases split_log hsplit with ⟨mid, hmid, rfl⟩ | ⟨first, -, hnotes⟩
  · rcases Note.installed_of_slot hq with ⟨p, hp, hread⟩ | ⟨old, hold⟩
    · obtain ⟨old, hold⟩ := h.moved before j r k mid hmid p hp (hread ▸ hne)
      exact ⟨old, List.mem_append_left _ (hread ▸ hold)⟩
    · exact ⟨old, List.mem_append_right _ (hnew hold)⟩
  · obtain ⟨-, hone, ⟨p, hp, hpr⟩, -⟩ :=
      notes_of_applied (hnotes ▸ List.mem_append_right _ List.mem_cons_self)
    rcases Note.installed_of_slot hq with ⟨p', hp', hread⟩ | ⟨old, hold⟩
    · obtain rfl := Option.some.inj (hp.symm.trans hp')
      exact absurd (hread.symm.trans hpr) hne
    · have := hone ▸ hnew hold
      simp at this

theorem Typed.reads_step (h : t.Typed) {e : Party} (he : t.parties[i]? = some e) {j : Nat}
    {d : Delivery} (hd : (t.act (.step i interrupted)).parties[j]? = some (.delivery d)) :
    d.reads.Nodup ∧ ∀ r k, .applied j r k ∈ (t.act (.step i interrupted)).log →
      r ∉ d.reads ∧ k = d.key := by
  rw [parties_step he] at hd
  rw [log_step he]
  by_cases hj : i = j
  · subst hj
    rw [List.getElem?_set_self (List.getElem?_eq_some_iff.1 he).1] at hd
    obtain ⟨d', rfl, hkey, hsub⟩ := sublist_reads (Option.some.inj hd)
    obtain ⟨hnodup, hreads⟩ := h.reads i d' he
    refine ⟨hnodup.sublist hsub, fun r k hmem => ?_⟩
    rcases List.mem_append.1 hmem with hmem | hmem
    · obtain ⟨hr, hk⟩ := hreads r k hmem
      exact ⟨fun hr' => hr (hsub.mem hr'), hk.trans hkey.symm⟩
    · obtain ⟨-, -, -, reads, heq⟩ := notes_of_applied hmem
      cases heq
      cases hd
      exact ⟨(List.nodup_cons.1 hnodup).1, rfl⟩
  · rw [List.getElem?_set_ne hj] at hd
    obtain ⟨hnodup, hreads⟩ := h.reads j d hd
    refine ⟨hnodup, fun r k hmem => ?_⟩
    rcases List.mem_append.1 hmem with hmem | hmem
    · exact hreads r k hmem
    · exact absurd (notes_of_applied hmem).1.symm hj

theorem Typed.begun_step (h : t.Typed) {e : Party} (he : t.parties[i]? = some e) {j r : Nat}
    {k : Key} (hmem : .applied j r k ∈ (t.act (.step i interrupted)).log) :
    j < (t.act (.step i interrupted)).parties.length := by
  rw [log_step he, List.mem_append] at hmem
  rw [parties_step he, List.length_set]
  rcases hmem with hmem | hmem
  · exact h.begun j r k hmem
  · rw [(notes_of_applied hmem).1]
    exact (List.getElem?_eq_some_iff.1 he).1

theorem Typed.step (h : t.Typed) {e : Party} (he : t.parties[i]? = some e) :
    (t.act (.step i interrupted)).Typed where
  moved _ _ _ _ _ hsplit _ hq hne := h.moved_step he hsplit hq hne
  reads _ _ hd := h.reads_step he hd
  begun _ _ _ hmem := h.begun_step he hmem

theorem Orderly.nodup_handlers (h : t.Orderly) : t.console.hub.handlers.Nodup := by
  refine List.nodup_iff_count_le_one.2 fun r => ?_
  have hsubs := (h.legal r).subscriptions_length_le_one
  rw [readStatus, Console.readStatus, List.length_map, ← List.countP_eq_length_filter] at hsubs
  rw [Hub.handlers, List.count, List.countP_map]
  exact hsubs

theorem typed_new : new.Typed where
  moved before j r k rest h := by cases before <;> cases h
  reads := nofun
  begun := nofun

theorem Typed.begin (h : t.Typed) {e : Party} {c : Console}
    (hslot : ∀ q, c.slot = some q → t.console.slot = some q)
    (he : ∀ d, e = .delivery d → d.reads.Nodup) : (t.begin e c).Typed where
  moved before j r k rest hlog q hq := h.moved before j r k rest hlog q (hslot q hq)
  reads j d hd := by
    rcases Nat.lt_or_ge j t.parties.length with hj | hj
    · exact h.reads j d (by simpa only [Traffic.begin, List.getElem?_append_left hj] using hd)
    · have hd : [e][j - t.parties.length]? = some (.delivery d) := by
        simpa only [Traffic.begin, List.getElem?_append_right hj] using hd
      refine ⟨he d (List.mem_singleton.1 (List.mem_of_getElem? hd)).symm, fun r k hmem => ?_⟩
      exact absurd (h.begun j r k hmem) (Nat.not_lt.2 hj)
  begun j r k hmem := by
    have := h.begun j r k hmem
    simp only [Traffic.begin, List.length_append]
    omega

theorem Typed.act (h : t.Typed) (ho : t.Orderly) (a : Action) : (t.act a).Typed := by
  cases a with
  | read => exact h.begin (fun _ hq => hq) nofun
  | key key =>
    refine h.begin (fun _ hq => hq) ?_
    rintro _ ⟨⟩
    exact ho.nodup_handlers
  | cancel => exact h.begin nofun nofun
  | step i interrupted =>
    cases he : t.parties[i]? with
    | none => simpa only [Traffic.act, he] using h
    | some e => exact h.step he

theorem run_append (as : List Action) (a : Action) : run (as ++ [a]) = (run as).act a := by
  simp [run]

theorem typed_run (as : List Action) : (run as).Typed := by
  induction as using List.reverseRecOn with
  | nil => exact typed_new
  | append_singleton as a ih =>
    rw [run_append]
    exact ih.act (orderly_run as) a

theorem applied_at {as : List Action} {before after : List Note} {j : Nat}
    (h : (run as).log = before ++ .applied j read key :: after) :
    ∃ first, (run first).log = before ∧ (∃ p, (run first).console.slot = some p ∧ p.read = read) ∧
      ∃ reads, (run first).parties[j]? = some (.delivery ⟨key, read :: reads, [], none⟩) := by
  induction as using List.reverseRecOn generalizing after with
  | nil => cases before <;> cases h
  | append_singleton as a ih =>
    rw [run_append] at h
    rcases (run as).log_act a with heq | ⟨i, interrupted, e, rfl, he, heq⟩
    · exact ih (heq ▸ h)
    · rw [heq] at h
      rcases split_log h with ⟨mid, hmid, -⟩ | ⟨first, hfirst, hnotes⟩
      · exact ih hmid
      · obtain ⟨rfl, hone, hslot, reads, rfl⟩ :=
          notes_of_applied (hnotes ▸ List.mem_append_right _ List.mem_cons_self)
        rw [hone] at hnotes
        cases first with
        | nil => exact ⟨as, by simpa using hfirst.symm, hslot, reads, he⟩
        | cons n first => simp at hnotes

/-- A key is applied to one read at most, and once, unless another read is installed meanwhile: in
a delivery that applies its key again, this is another read, and it was installed in between. -/
theorem applied_once {as : List Action} {before between after : List Note} {j r r' : Nat}
    {k k' : Key} (h : (run as).log =
      before ++ .applied j r k :: (between ++ .applied j r' k' :: after)) :
    k = k' ∧ r ≠ r' ∧ ∃ old, .installed r' old ∈ between := by
  have hsplit : (run as).log =
      (before ++ .applied j r k :: between) ++ .applied j r' k' :: after := by
    rw [h, List.append_assoc, List.cons_append]
  obtain ⟨as', hlog, ⟨p, hp, rfl⟩, reads, he⟩ := applied_at hsplit
  obtain ⟨hnotMem, hkey⟩ := ((typed_run as').reads j _ he).2 r k (by simp [hlog])
  have hne : p.read ≠ r := fun heq => hnotMem (heq ▸ List.mem_cons_self)
  exact ⟨hkey, hne.symm, (typed_run as').moved before j r k between hlog p hp hne⟩

def overtaking : List Action :=
  [.read, .step 0 false, .step 0 false, .step 0 false, .read, .step 1 false, .key .enter,
    .step 2 false, .step 1 false, .step 1 false, .step 2 false, .step 2 false, .step 2 false,
    .step 2 false]

theorem applied_once_overtaking : ∃ before between after,
    (run overtaking).log =
      before ++ .applied 2 1 .enter :: (between ++ .applied 2 2 .enter :: after) ∧
    1 ≠ 2 ∧ ∃ old, .installed 2 old ∈ between := by
  have hlog : (run overtaking).log = [.installed 1 none] ++ .applied 2 1 .enter ::
      ([.installed 2 none, .sent 1 (.line "")] ++ .applied 2 2 .enter :: []) := by
    decide +kernel
  exact ⟨_, _, _, hlog, (applied_once hlog).2⟩

/-- The key that ends a read is applied to the one that is installed behind it. -/
theorem key_typed_twice :
    (run overtaking).log =
      [.installed 1 none, .applied 2 1 .enter, .installed 2 none, .sent 1 (.line ""),
        .applied 2 2 .enter] := by
  decide +kernel

end Stepwise.Traffic
