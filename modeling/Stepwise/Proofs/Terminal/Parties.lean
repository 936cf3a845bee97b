import Stepwise.Proofs.Terminal.ReadStatus

/-! What a step of a party does to a read: one of the changes that keep what becomes of it
legal, or nothing. -/

namespace Stepwise

open ReadStatus

variable {c c' : Console} {read : Nat} {S : List Reader.Stage} {owed : List ReadClosing}
  {sent : List ReadOutcome} {keys : List Key}

namespace Console

def readStatus (c : Console) (read : Nat) (owed : List ReadClosing) (sent : List ReadOutcome)
    (keys : List Key) : ReadStatus :=
  ⟨(c.hub.entries.filter fun e => e.2 = read).map Prod.fst, c.slot.filter fun p => p.read = read,
    owed, (c.mail.filter fun m => m.1 = read).map Prod.snd, c.deserted.contains read, sent, keys⟩

def arrivals (read : Nat) (before after : Console) : List ReadOutcome :=
  (Traffic.Note.sentNotes before after).filterMap (Traffic.Note.sent? read)

theorem arrivals_eq_nil (h : c'.mail.length ≤ c.mail.length) : arrivals read c c' = [] := by
  simp [arrivals, Traffic.Note.sentNotes, List.drop_eq_nil_of_le h]

theorem arrivals_send {r : Nat} {o : ReadOutcome} :
    arrivals read c (c.send r o) = if r = read then [o] else [] := by
  by_cases hr : r = read <;> simp [arrivals, Traffic.Note.sentNotes, send, Traffic.Note.sent?, hr]

theorem readStatus_send {r : Nat} {o : ReadOutcome} :
    (c.send r o).readStatus read owed sent keys =
      { c.readStatus read owed sent keys with
        mail := (c.readStatus read owed sent keys).mail ++ if r = read then [o] else [] } := by
  by_cases hr : r = read <;> simp [readStatus, send, hr]

theorem readStatus_discard {p : Pending} :
    (c.discard p).readStatus read owed sent keys =
      { c.readStatus read owed sent keys with
        subscriptions := (c.readStatus read owed sent keys).subscriptions.filter (· ≠ p.subscription)
        deserted := p.read = read || (c.readStatus read owed sent keys).deserted } := by
  simp [readStatus, discard, unsubscribe, Hub.unsubscribe, List.filter_map, List.filter_filter,
    Function.comp_def, Bool.and_comm, eq_comm]

end Console

theorem ReadClosing.legal_step {f : ReadClosing}
    (h : Legal S (c.readStatus read (ReadClosing.owed read (some f) ++ owed) sent keys)) :
    Legal S ((f.step c).2.readStatus read (ReadClosing.owed read (f.step c).1 ++ owed)
      (sent ++ c.arrivals read (f.step c).2) keys) := by
  cases f with
  | telling p o =>
    simp only [step, Console.arrivals_send, Console.readStatus_send, ReadClosing.owed,
      pending] at h ⊢
    by_cases hp : p.read = read
    · simp only [hp, if_true] at h ⊢
      exact h.tell
    · simpa [hp] using h
  | discarding p =>
    have hnil : c.arrivals read (c.discard p) = [] := Console.arrivals_eq_nil (Nat.le_refl _)
    simp only [step, hnil, Console.readStatus_discard, ReadClosing.owed, pending,
      List.append_nil] at h ⊢
    by_cases hp : p.read = read
    · simp only [hp, if_true, decide_true, Bool.true_or] at h ⊢
      exact h.discard
    · simp only [hp, if_false, decide_false, Bool.false_or] at h ⊢
      exact h.sublist List.filter_sublist

namespace Console

theorem legal_take {p q : Pending} {o : ReadOutcome} {more : List Key} (hslot : c.slot = some p)
    (hread : q.read = p.read) (hsub : q.subscription = p.subscription)
    (hmore : p.read ≠ read → more = [])
    (ho : p.read = read → Legal S (c.readStatus read owed sent keys) → o.Answers (keys ++ more))
    (h : Legal S (c.readStatus read owed sent keys)) :
    Legal S ({ c with slot := none }.readStatus read
      (ReadClosing.owed read (some (.telling q o)) ++ owed)
      sent (keys ++ more)) := by
  by_cases hp : p.read = read
  · have ho := ho hp h
    simp only [readStatus, hslot, ReadClosing.owed, ReadClosing.pending, hread, hp, if_true,
      Option.filter, decide_true] at h ⊢
    exact Legal.take hsub ho h
  · simp only [readStatus, hslot, ReadClosing.owed, ReadClosing.pending, hread, hp, hmore hp,
      if_false,
      Option.filter, decide_false, List.append_nil] at h ⊢
    exact h

theorem legal_press {r : Nat} {key : Key} (h : Legal S (c.readStatus read owed sent keys)) :
    Legal S ((c.press r key).2.2.readStatus read
      (ReadClosing.owed read ((c.press r key).2.1.map fun (p, o) => .telling p o) ++ owed) sent
      (keys ++ if (c.slot.any fun p => p.read = r) ∧ r = read then [key] else [])) := by
  cases hslot : c.slot with
  | none => simpa [press, hslot, ReadClosing.owed] using h
  | some p =>
    by_cases hr : p.read = r
    · subst hr
      simp only [Option.any_some, decide_true, true_and]
      cases ho : (p.editor.apply key).1.ofRead? with
      | some o =>
        simp only [press, hslot, if_true, ho, Option.map_some]
        refine legal_take hslot rfl rfl (fun hp => if_neg hp) (fun hp h => ?_) h
        simp only [readStatus, hslot, Option.filter, hp, decide_true, if_true] at h ⊢
        obtain ⟨-, -, -, he, hkeys, -⟩ := h.of_slot
        exact Editor.answers_apply hkeys (he ▸ ho)
      | none =>
        simp only [press, hslot, if_true, ho, Option.map_none]
        by_cases hp : p.read = read
        · subst hp
          simp only [readStatus, hslot, Option.filter, decide_true, if_true, ReadClosing.owed] at h ⊢
          exact h.type (Editor.ofRead?_apply_eq_none.1 ho)
        · simp only [readStatus, hslot, Option.filter, hp, decide_false, if_false, ReadClosing.owed,
            List.append_nil] at h ⊢
          exact h
    · simpa [press, hslot, ReadClosing.owed, hr] using h

end Console

def Party.presses (read : Nat) (c : Console) (e : Party) : List Key :=
  (Traffic.Note.appliedNotes 0 c e).filterMap (Traffic.Note.applied? read)

theorem Party.filterMap_appliedNotes (i : Nat) (e : Party) :
    (Traffic.Note.appliedNotes i c e).filterMap (Traffic.Note.applied? read) =
      e.presses read c := by
  cases e with
  | read | cancellation => rfl
  | delivery d =>
    simp only [presses, Traffic.Note.appliedNotes]
    cases d.target? c <;> rfl

theorem Party.presses_delivery {key : Key} {r : Nat} {reads : List Nat} :
    (Party.delivery ⟨key, r :: reads, [], none⟩).presses read c =
      if (c.slot.any fun p => p.read = r) ∧ r = read then [key] else [] := by
  simp only [presses, Traffic.Note.appliedNotes, Delivery.target?]
  split <;> by_cases hr : r = read <;> simp_all [Traffic.Note.applied?]

structure Console.Keeps (c c' : Console) : Prop where
  nextRead : c'.nextRead = c.nextRead
  slot : ∀ q, c'.slot = some q → ∃ p, c.slot = some p ∧ p.read = q.read

theorem Console.Keeps.of_slot_eq (hn : c'.nextRead = c.nextRead) (hs : c'.slot = c.slot) :
    Keeps c c' :=
  ⟨hn, fun q hq => ⟨q, hs ▸ hq, rfl⟩⟩

theorem ReadClosing.keeps_step (f : ReadClosing) : Console.Keeps c (f.step c).2 := by
  cases f <;> exact .of_slot_eq rfl rfl

theorem Console.keeps_press (r : Nat) (key : Key) :
    Keeps c (c.press r key).2.2 ∧ (c.press r key).2.2.mail = c.mail := by
  unfold press
  split
  case h_1 => exact ⟨.of_slot_eq rfl rfl, rfl⟩
  case h_2 p hslot =>
    split
    case isTrue =>
      dsimp only
      split
      case h_1 => exact ⟨⟨rfl, nofun⟩, rfl⟩
      case h_2 =>
        refine ⟨⟨rfl, ?_⟩, rfl⟩
        rintro _ ⟨⟩
        exact ⟨p, hslot, rfl⟩
    case isFalse => exact ⟨.of_slot_eq rfl rfl, rfl⟩

theorem Delivery.Steps.keeps {d d' : Delivery} (hd : Steps c d d' c') : Console.Keeps c c' := by
  cases hd with
  | write => exact .of_slot_eq rfl rfl
  | settle key reads f => exact f.keeps_step
  | press key r => exact (Console.keeps_press r key).1

theorem Delivery.Steps.legal {d d' : Delivery} (hd : Steps c d d' c')
    (h : Legal S (c.readStatus read (ReadClosing.owed read d.closing ++ owed) sent keys)) :
    Legal S (c'.readStatus read (ReadClosing.owed read d'.closing ++ owed)
      (sent ++ c.arrivals read c') (keys ++ (Party.delivery d).presses read c)) := by
  cases hd with
  | write key reads e es f =>
    have hnone : (Party.delivery ⟨key, reads, e :: es, f⟩).presses read c = [] := rfl
    have hnil : c.arrivals read (c.write (String.ofList (e :: es))) = [] :=
      Console.arrivals_eq_nil (Nat.le_refl _)
    rw [hnone, hnil, List.append_nil, List.append_nil]
    exact h
  | settle key reads f =>
    have hnone : (Party.delivery ⟨key, reads, [], some f⟩).presses read c = [] := rfl
    rw [hnone, List.append_nil]
    exact f.legal_step h
  | press key r reads =>
    have hnil : c.arrivals read (c.press r key).2.2 = [] :=
      Console.arrivals_eq_nil (Nat.le_of_eq (congrArg _ (Console.keeps_press r key).2))
    rw [Party.presses_delivery, hnil, List.append_nil]
    exact Console.legal_press h

namespace Reader

variable {id : Nat} {st st' : Stage}

theorem Steps.arrivals_eq_nil (hr : Steps c id st st' c') (hst : ∀ f, st ≠ .superseding f) :
    c.arrivals read c' = [] := by
  refine Console.arrivals_eq_nil ?_
  cases hr with
  | settle f | settled f => exact absurd rfl (hst f)
  | receive o before after h => simp [h]
  | _ => exact Nat.le_refl _

theorem Steps.keeps (hr : Steps c id st st' c') (hst : ∀ s, st ≠ .installing s) :
    Console.Keeps c c' := by
  cases hr with
  | install s | supersede s => exact absurd rfl (hst s)
  | settle f | settled f => exact f.keeps_step
  | uninstall => exact ⟨rfl, nofun⟩
  | _ => exact .of_slot_eq rfl rfl

theorem Steps.legal_own (hr : Steps c id st st' c')
    (h : Legal (st :: S) (c.readStatus id (ReadClosing.owed id st.closing? ++ owed) sent keys)) :
    Legal (st' :: S) (c'.readStatus id (ReadClosing.owed id st'.closing? ++ owed)
      (sent ++ c.arrivals id c') keys) := by
  have hsame (hst : ∀ f, st ≠ .superseding f) : sent ++ c.arrivals id c' = sent := by
    rw [hr.arrivals_eq_nil hst, List.append_nil]
  cases hr with
  | subscribe =>
    rw [hsame nofun]
    simp only [Console.readStatus, Hub.subscribe, List.filter_append, List.map_append] at h ⊢
    simpa [ReadClosing.owed, Stage.closing?] using h.subscribe
  | «show» s =>
    rw [hsame nofun]
    exact h.go fun h => h
  | install s hslot =>
    rw [hsame nofun]
    simp only [Console.readStatus, hslot, Option.filter, decide_true, if_true] at h ⊢
    exact h.install fun _ hi hw => ⟨hi, hw⟩
  | supersede s p hslot =>
    have hp : p.read ≠ id := by simpa [Console.readStatus, hslot] using h.head.1.slot
    rw [hsame nofun]
    simp only [Console.readStatus, hslot, Option.filter, decide_true, if_true, hp, ReadClosing.owed,
      Stage.closing?, ReadClosing.pending, if_false, decide_false] at h ⊢
    exact h.install fun _ hi hw => ⟨hi, hw⟩
  | settle f f' hf =>
    have h := f.legal_step h
    rw [hf] at h
    exact h.go fun h => h
  | settled f hf =>
    have h := f.legal_step h
    rw [hf] at h
    exact h.go fun h => h
  | receive o before after hmail hbefore =>
    have hnil : before.filter (fun m => m.1 = id) = [] := by
      simpa [List.filter_eq_nil_iff] using hbefore
    rw [hsame nofun]
    simp only [Console.readStatus, hmail, List.filter_append, hnil, List.nil_append, List.filter_cons,
      decide_true, if_true, List.map_cons] at h ⊢
    exact h.receive
  | despair hmail hd =>
    have hnil : c.mail.filter (fun m => m.1 = id) = [] := by
      simpa [List.filter_eq_nil_iff] using hmail
    simp only [Console.readStatus, hnil, List.map_nil, hd] at h
    cases h.not_deserted
  | look =>
    rw [hsame nofun]
    exact h.go fun h => h
  | interrupt =>
    rw [hsame nofun]
    exact h.go fun h => ⟨h.1, .inl rfl⟩
  | wait =>
    rw [hsame nofun]
    exact h.go fun h => h
  | uninstall p idle o hslot hp =>
    rw [hsame nofun]
    simp only [Console.readStatus, hslot, Option.filter, hp, decide_true, if_true, ReadClosing.owed,
      Stage.closing?, ReadClosing.pending] at h ⊢
    exact h.uninstall
  | absent idle o hslot =>
    have hnone : c.slot.filter (fun p => p.read = id) = none := by
      simpa [Option.filter_eq_none_iff] using hslot
    rw [hsame nofun]
    exact h.go fun h => ⟨h.1, hnone, h.2⟩
  | discard p idle o =>
    have hstep := (ReadClosing.discarding p).legal_step h
    cases idle <;> exact hstep.go fun h => h
  | leave idle o =>
    rw [hsame nofun]
    cases idle <;> exact h.go fun h => h
  | hide o =>
    rw [hsame nofun]
    exact h.go fun h => h
  | rest o =>
    rw [hsame nofun]
    exact h

theorem Steps.legal_other (hr : Steps c id st st' c') (hid : id ≠ read)
    (h : Legal S (c.readStatus read (ReadClosing.owed read st.closing? ++ owed) sent keys)) :
    Legal S (c'.readStatus read (ReadClosing.owed read st'.closing? ++ owed)
      (sent ++ c.arrivals read c') keys) := by
  have hsame (hst : ∀ f, st ≠ .superseding f) : sent ++ c.arrivals read c' = sent := by
    rw [hr.arrivals_eq_nil hst, List.append_nil]
  cases hr with
  | subscribe =>
    rw [hsame nofun]
    simpa [Console.readStatus, Hub.subscribe, hid, ReadClosing.owed, Stage.closing?] using h
  | «show» s | look | interrupt | wait | hide | rest =>
    rw [hsame nofun]
    exact h
  | install s hslot =>
    rw [hsame nofun]
    simpa [Console.readStatus, hslot, hid, ReadClosing.owed, Stage.closing?, Option.filter] using h
  | supersede s p hslot =>
    rw [hsame nofun]
    have htake : Legal S ({ c with slot := none }.readStatus read
        (ReadClosing.owed read (some (.telling p .cancelled)) ++ owed) sent (keys ++ [])) :=
      Console.legal_take hslot rfl rfl (fun _ => rfl) (fun _ _ => trivial) h
    simpa [Console.readStatus, hid, Option.filter, Stage.closing?] using htake
  | settle f f' hf =>
    have h := f.legal_step h
    rwa [hf] at h
  | settled f hf =>
    have h := f.legal_step h
    rwa [hf] at h
  | receive o before after hmail hbefore =>
    rw [hsame nofun]
    simpa [Console.readStatus, hmail, hid, ReadClosing.owed, Stage.closing?] using h
  | despair hmail hd =>
    rw [hsame nofun]
    exact h
  | uninstall p idle o hslot hp =>
    rw [hsame nofun]
    simpa [Console.readStatus, hslot, hp, hid, ReadClosing.owed, Stage.closing?, Option.filter]
      using h
  | absent idle o hslot =>
    rw [hsame nofun]
    exact h
  | discard p idle o =>
    have hstep := (ReadClosing.discarding p).legal_step h
    cases idle <;> exact hstep
  | leave idle o =>
    rw [hsame nofun]
    cases idle <;> exact h

end Reader

namespace Party

variable {e : Party} {interrupted : Bool}

theorem legal_step (h : Legal (e.stages read ++ S)
      (c.readStatus read (ReadClosing.owed read e.closing? ++ owed) sent keys)) :
    Legal ((e.step interrupted c).1.stages read ++ S)
      ((e.step interrupted c).2.readStatus read
        (ReadClosing.owed read (e.step interrupted c).1.closing? ++ owed)
        (sent ++ c.arrivals read (e.step interrupted c).2) (keys ++ e.presses read c)) := by
  have hsame : c.arrivals read c = [] := Console.arrivals_eq_nil (Nat.le_refl _)
  cases e with
  | read r =>
    have hr := r.step_steps interrupted c
    have hid := r.id_step interrupted c
    have hnone : (Party.read r).presses read c = [] := rfl
    simp only [step, stages, hid, closing?, hnone, List.append_nil] at h ⊢
    by_cases hown : r.id = read
    · subst hown
      simp only [if_true] at h ⊢
      exact hr.legal_own h
    · simp only [hown, if_false] at h ⊢
      exact hr.legal_other hown h
  | delivery d =>
    cases hd : d.step c with
    | some dc =>
      simp only [step, hd]
      exact (Delivery.step_steps hd).legal h
    | none =>
      have hnone : (Party.delivery d).presses read c = [] := by
        obtain ⟨key, reads, echo, closing⟩ := d
        match echo, closing, reads, hd with
        | [], none, [], _ => rfl
      simp only [step, hd, hsame, hnone, List.append_nil]
      exact h
  | cancellation f =>
    have hnone : (Party.cancellation f).presses read c = [] := rfl
    cases f with
    | none =>
      simp only [step, hsame, hnone, List.append_nil]
      exact h
    | some f =>
      simp only [step, hnone, List.append_nil]
      exact f.legal_step h

theorem legal_step_cons {es : List Party} (interrupted : Bool)
    (h : Legal ((e :: es).flatMap (stages read))
      (c.readStatus read ((e :: es).flatMap fun e => ReadClosing.owed read e.closing?) sent keys)) :
    Legal (((e.step interrupted c).1 :: es).flatMap (stages read))
      ((e.step interrupted c).2.readStatus read
        (((e.step interrupted c).1 :: es).flatMap fun e => ReadClosing.owed read e.closing?)
        (sent ++ c.arrivals read (e.step interrupted c).2) (keys ++ e.presses read c)) := by
  simp only [List.flatMap_cons] at h ⊢
  exact legal_step h

theorem keeps_step (e : Party) (interrupted : Bool) :
    Console.Keeps c (e.step interrupted c).2 ∨ ∃ id s, e = .read ⟨id, .installing s⟩ := by
  cases e with
  | read r =>
    have hr := r.step_steps interrupted c
    obtain ⟨id, st⟩ := r
    cases st with
    | installing s => exact .inr ⟨id, s, rfl⟩
    | _ => exact .inl (hr.keeps nofun)
  | delivery d =>
    refine .inl ?_
    cases hd : d.step c with
    | none => simpa only [step, hd] using .of_slot_eq rfl rfl
    | some dc => simpa only [step, hd] using (Delivery.step_steps hd).keeps
  | cancellation f =>
    cases f with
    | none => exact .inl (.of_slot_eq rfl rfl)
    | some f => exact .inl f.keeps_step

theorem nextRead_step : (e.step interrupted c).2.nextRead = c.nextRead := by
  rcases keeps_step e interrupted with h | ⟨id, s, rfl⟩
  · exact h.nextRead
  · rfl

end Party

end Stepwise
