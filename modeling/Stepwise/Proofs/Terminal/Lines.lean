import Stepwise.Proofs.Terminal.Traffic

/-! Lines that are typed at a console where one read waits at a time. A printable line is decoded
to its characters, and typed into an empty line they spell it; the key that ends it ends the
read. What the steps of a read, and of a key, make of the console is said by the slot, the mail
and the subscriptions. -/

namespace Stepwise

namespace Key

theorem next_printable {c : Char} (hc : Editor.isPrintable c = true) (cs : List Char) :
    next c cs = (char c, cs) := by
  have hc : ' ' ≤ c ∧ c ≠ '\x7f' := by simpa [Editor.isPrintable] using hc
  have hne (d : Char) (hd : d < ' ') : c ≠ d := fun h => absurd (h ▸ hc.1) (Char.not_le.2 hd)
  have hchar : ofChar c = char c := by
    unfold ofChar
    split
    · exact absurd rfl (hne '\n' (by decide))
    · exact absurd rfl (hne '\r' (by decide))
    · exact absurd rfl hc.2
    · exact absurd rfl (hne '\x08' (by decide))
    · exact absurd rfl (hne '\x03' (by decide))
    · exact absurd rfl (hne '\x04' (by decide))
    · exact if_neg (Char.not_lt.2 hc.1)
  unfold next
  split
  · exact absurd rfl (hne '\r' (by decide))
  · exact absurd rfl (hne '\x1b' (by decide))
  · exact absurd rfl (hne '\x1b' (by decide))
  · exact absurd rfl (hne '\x1b' (by decide))
  · rw [hchar]

theorem decode_printable {cs : List Char} (h : ∀ c ∈ cs, Editor.isPrintable c = true) :
    decode cs = cs.map char := by
  induction cs with
  | nil => rw [decode, List.map_nil]
  | cons c cs ih =>
    obtain ⟨hc, hcs⟩ := List.forall_mem_cons.1 h
    rw [decode, next_printable hc, ih hcs, List.map_cons]

end Key

namespace Editor

/-- Typed into this line, the keys end the read with this outcome, the last of them and no other
before it. -/
inductive Spells : Editor → List Key → ReadOutcome → Prop
  | last {e : Editor} {key : Key} {o : ReadOutcome} (h : (e.apply key).1.ofRead? = some o) :
    Spells e [key] o
  | step {e : Editor} {key : Key} {keys : List Key} {o : ReadOutcome}
    (h : (e.apply key).1.ofRead? = none) (hkeys : Spells (e.apply key).2.2 keys o) :
    Spells e (key :: keys) o

theorem Spells.ne_nil {e : Editor} {keys : List Key} {o : ReadOutcome} (h : e.Spells keys o) :
    keys ≠ [] := by
  cases h <;> exact List.cons_ne_nil _ _

theorem apply_char {e : Editor} (he : e.fromEnd = 0) {c : Char} (hc : isPrintable c = true) :
    (e.apply (.char c)).1.ofRead? = none ∧ (e.apply (.char c)).2.2.fromEnd = 0 ∧
      (e.apply (.char c)).2.2.buffer = e.buffer ++ [c] := by
  have hbefore : e.before = e.buffer := by simp [before, cursor, he]
  have hbehind : e.behind = [] := by simp [behind, cursor, he]
  simp [apply, hc, hbefore, hbehind, divided, Outcome.ofRead?]

theorem spells_line {cs : List Char} (h : ∀ c ∈ cs, isPrintable c = true) {e : Editor}
    (he : e.fromEnd = 0) :
    e.Spells (cs.map .char ++ [.enter]) (.line (String.ofList (e.buffer ++ cs))) := by
  induction cs generalizing e with
  | nil => exact .last (by simp [apply, Outcome.ofRead?])
  | cons c cs ih =>
    obtain ⟨hc, hcs⟩ := List.forall_mem_cons.1 h
    obtain ⟨hpending, hend, hbuffer⟩ := apply_char he hc
    have hrest := ih hcs hend
    rw [hbuffer, List.append_assoc, List.singleton_append] at hrest
    exact .step hpending hrest

theorem spells_endOfInput (e : Editor) : e.Spells [.endOfInput] .endOfInput :=
  .last rfl

end Editor

namespace Console

variable {c : Console} {slot : Option Pending} {mail : List (Nat × ReadOutcome)}
  {subs : List (Nat × Nat)}

/-- What of a console concerns reads: who holds the slot, what was sent and not received, and
who is subscribed. Numbers that are still to be given were not given before. -/
structure Stands (c : Console) (slot : Option Pending) (mail : List (Nat × ReadOutcome))
    (subs : List (Nat × Nat)) : Prop where
  slot : c.slot = slot
  mail : c.mail = mail
  entries : c.hub.entries = subs
  bounded : ∀ e ∈ subs, e.1 ≤ c.hub.lastId ∧ e.2 < c.nextRead
  deserted : ∀ read ∈ c.deserted, read < c.nextRead

/-- No read goes on, and none has left anything behind. -/
def AtRest (c : Console) : Prop :=
  c.Stands none [] []

theorem atRest_new : new.AtRest :=
  ⟨rfl, rfl, rfl, nofun, nofun⟩

namespace Stands

theorem display (h : c.Stands slot mail subs) (d : Display) :
    (c.display d).Stands slot mail subs :=
  ⟨h.slot, h.mail, h.entries, h.bounded, h.deserted⟩

theorem begin (h : c.Stands slot mail subs) :
    Stands { c with nextRead := c.nextRead + 1 } slot mail subs where
  slot := h.slot
  mail := h.mail
  entries := h.entries
  bounded e he := ⟨(h.bounded e he).1, Nat.lt_succ_of_lt (h.bounded e he).2⟩
  deserted read hread := Nat.lt_succ_of_lt (h.deserted read hread)

theorem subscribe {read : Nat} (h : c.Stands slot mail subs) (hread : read < c.nextRead) :
    Stands { c with hub := (c.hub.subscribe read).2 } slot mail
      (subs ++ [((c.hub.subscribe read).1, read)]) where
  slot := h.slot
  mail := h.mail
  entries := congrArg (· ++ [(c.hub.lastId + 1, read)]) h.entries
  bounded e he := by
    rcases List.mem_append.1 he with he | he
    · exact ⟨Nat.le_succ_of_le (h.bounded e he).1, (h.bounded e he).2⟩
    · cases List.mem_singleton.1 he
      exact ⟨Nat.le_refl _, hread⟩
  deserted := h.deserted

theorem occupy (h : c.Stands slot mail subs) (p : Option Pending) :
    Stands { c with slot := p } p mail subs :=
  ⟨rfl, h.mail, h.entries, h.bounded, h.deserted⟩

theorem carry (h : c.Stands slot mail subs) (mail' : List (Nat × ReadOutcome)) :
    Stands { c with mail := mail' } slot mail' subs :=
  ⟨h.slot, rfl, h.entries, h.bounded, h.deserted⟩

theorem send (h : c.Stands slot mail subs) (read : Nat) (o : ReadOutcome) :
    (c.send read o).Stands slot (mail ++ [(read, o)]) subs :=
  ⟨h.slot, congrArg (· ++ [(read, o)]) h.mail, h.entries, h.bounded, h.deserted⟩

theorem discard {p : Pending} (h : c.Stands slot mail ((p.subscription, p.read) :: subs))
    (hne : ∀ e ∈ subs, e.1 ≠ p.subscription) : (c.discard p).Stands slot mail subs where
  slot := h.slot
  mail := h.mail
  entries := by
    change c.hub.entries.filter (fun e => e.1 ≠ p.subscription) = subs
    rw [h.entries, List.filter_cons_of_neg (by simp), List.filter_eq_self]
    exact fun e he => decide_eq_true (hne e he)
  bounded e he := h.bounded e (List.mem_cons_of_mem _ he)
  deserted read hread := by
    rcases List.mem_cons.1 hread with rfl | hread
    · exact (h.bounded _ List.mem_cons_self).2
    · exact h.deserted read hread

end Stands

variable {read s : Nat} {e : Editor} {key : Key} {keys : List Key} {o : ReadOutcome}

theorem press_last (h : c.slot = some ⟨read, e, s⟩)
    (hkey : (e.apply key).1.ofRead? = some o) :
    c.press read key = ((e.apply key).2.1, some (⟨read, (e.apply key).2.2, s⟩, o),
      { c with slot := none }) := by
  simp [press, h, hkey]

theorem press_step (h : c.slot = some ⟨read, e, s⟩) (hkey : (e.apply key).1.ofRead? = none) :
    c.press read key = ((e.apply key).2.1, none,
      { c with slot := some ⟨read, (e.apply key).2.2, s⟩ }) := by
  simp [press, h, hkey]

end Console

end Stepwise
