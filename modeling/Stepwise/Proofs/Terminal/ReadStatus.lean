import Stepwise.Proofs.Terminal.Traffic

/-! What becomes of one read, whatever else goes on at the console. Once it is installed it is in
one hand at a time: in the slot, with a party that tells it how it ended and gives it up, or
with nobody any more. -/

namespace Stepwise

/-- Whether the key ends a line, in whatever way. -/
def Key.isEnding : Key → Bool
  | enter | interrupt | endOfInput => true
  | _ => false

theorem Editor.ofRead?_apply_eq_none {e : Editor} {key : Key} :
    (e.apply key).1.ofRead? = none ↔ key.isEnding = false := by
  cases key <;> simp only [Editor.apply, Key.isEnding] <;> (try split) <;>
    simp [Editor.Outcome.ofRead?]

def ReadOutcome.Answers (keys : List Key) : ReadOutcome → Prop
  | line text => ∃ ks, keys = ks ++ [.enter] ∧ (∀ key ∈ ks, key.isEnding = false) ∧
      text = String.ofList (Editor.typed ks).buffer
  | _ => True

theorem Editor.answers_apply {keys : List Key} {key : Key} {o : ReadOutcome}
    (hkeys : ∀ key ∈ keys, key.isEnding = false)
    (ho : ((typed keys).apply key).1.ofRead? = some o) : o.Answers (keys ++ [key]) := by
  cases key with
  | enter =>
    cases ho
    exact ⟨keys, rfl, hkeys, rfl⟩
  | interrupt | endOfInput =>
    cases ho
    trivial
  | backspace | delete | left | right | home | lineEnd | char | control | unknown =>
    rw [ofRead?_apply_eq_none.2 rfl] at ho
    cases ho

def ReadClosing.pending : ReadClosing → Pending
  | telling p _ | discarding p => p

@[simp] theorem ReadClosing.pending_telling (p : Pending) (o : ReadOutcome) :
    (telling p o).pending = p := rfl

@[simp] theorem ReadClosing.pending_discarding (p : Pending) : (discarding p).pending = p := rfl

def Reader.Stage.closing? : Reader.Stage → Option ReadClosing
  | superseding f => some f
  | leaving (some p) _ _ => some (.discarding p)
  | _ => none

/-- What a party still has to do about a read that was taken out of the slot. -/
def Party.closing? : Party → Option ReadClosing
  | read r => r.stage.closing?
  | delivery d => d.closing
  | cancellation f => f

def Party.stages (read : Nat) : Party → List Reader.Stage
  | .read r => if r.id = read then [r.stage] else []
  | _ => []

def ReadClosing.owed (read : Nat) : Option ReadClosing → List ReadClosing
  | some f => if f.pending.read = read then [f] else []
  | none => []

structure ReadStatus where
  subscriptions : List Nat
  slot : Option Pending
  owed : List ReadClosing
  mail : List ReadOutcome
  deserted : Bool
  sent : List ReadOutcome
  keys : List Key

namespace ReadStatus

structure Fresh (f : ReadStatus) : Prop where
  slot : f.slot = none
  owed : f.owed = []
  deserted : f.deserted = false
  mail : f.mail = []
  sent : f.sent = []
  keys : f.keys = []

def Installed (f : ReadStatus) : Prop :=
  f.slot.isSome ∨ f.owed ≠ [] ∨ f.deserted = true

/-- What a read that has not looked at its outcome can rely on: all that was sent is still
there, and while nothing was, somebody is left to send it. -/
structure Waits (f : ReadStatus) : Prop where
  mail : f.mail = f.sent
  awaited : f.sent = [] → f.slot.isSome ∨ ∃ p o, .telling p o ∈ f.owed

def Told (f : ReadStatus) (o : ReadOutcome) : Prop :=
  o = .interrupted ∨ f.sent = [o]

def Stands (f : ReadStatus) : Reader.Stage → Prop
  | .subscribing => f.Fresh ∧ f.subscriptions = []
  | .showing s | .installing s => f.Fresh ∧ f.subscriptions.Sublist [s]
  | .superseding _ | .waiting | .checking => f.Installed ∧ f.Waits
  | .uninstalling o => f.Installed ∧ f.Told o
  | .leaving _ _ o | .hiding o | .ended o => f.Installed ∧ f.slot = none ∧ f.Told o

structure Legal (stages : List Reader.Stage) (f : ReadStatus) : Prop where
  single : stages.length ≤ 1
  stands : ∀ st ∈ stages, f.Stands st
  unborn : stages = [] → f.Fresh ∧ f.subscriptions = []
  held : f.slot.toList.length + f.owed.length + f.deserted.toNat ≤ 1
  slot : ∀ p, f.slot = some p → f.sent = [] ∧ p.editor = Editor.typed f.keys ∧
    (∀ key ∈ f.keys, key.isEnding = false) ∧ f.subscriptions.Sublist [p.subscription]
  telling : ∀ p o, .telling p o ∈ f.owed → f.sent = [] ∧ o.Answers f.keys
  owed : ∀ w ∈ f.owed, f.subscriptions.Sublist [w.pending.subscription]
  deserted : f.deserted = true → f.subscriptions = []
  sent : f.sent.length ≤ 1
  answers : ∀ o ∈ f.sent, o.Answers f.keys

theorem legal_unborn : Legal [] ⟨[], none, [], [], false, [], []⟩ where
  single := Nat.zero_le _
  stands := nofun
  unborn _ := ⟨⟨rfl, rfl, rfl, rfl, rfl, rfl⟩, rfl⟩
  held := Nat.zero_le _
  slot := nofun
  telling := nofun
  owed := nofun
  deserted := nofun
  sent := Nat.zero_le _
  answers := nofun

namespace Legal

variable {S S' : List Reader.Stage} {st st' : Reader.Stage} {f : ReadStatus} {subs subs' : List Nat}
  {slot : Option Pending} {owed owed' : List ReadClosing} {mail sent : List ReadOutcome}
  {deserted : Bool} {keys : List Key} {p : Pending} {o : ReadOutcome} {w : ReadClosing}

theorem eq_nil (h : Legal (st :: S) f) : S = [] :=
  List.eq_nil_of_length_eq_zero (Nat.le_zero.1 (Nat.le_of_succ_le_succ h.single))

theorem head (h : Legal (st :: S) f) : f.Stands st :=
  h.stands st List.mem_cons_self

theorem go (h : Legal (st :: S) f) (hst : f.Stands st → f.Stands st') : Legal (st' :: S) f := by
  obtain rfl := h.eq_nil
  exact { h with
    single := Nat.le_refl 1
    stands := by simpa using hst h.head
    unborn := nofun }

theorem perm (hS : S.Perm S') (ho : owed.Perm owed')
    (h : Legal S ⟨subs, slot, owed, mail, deserted, sent, keys⟩) :
    Legal S' ⟨subs, slot, owed', mail, deserted, sent, keys⟩ := by
  have eq_of_perm {α : Type} {l l' : List α} (hl : l.length ≤ 1) (h : l.Perm l') : l = l' := by
    match l, hl with
    | [], _ => exact (List.perm_nil.1 h.symm).symm
    | [a], _ => exact (List.perm_singleton.1 h.symm).symm
  have hlen : owed.length ≤ 1 := by have := h.held; grind
  rwa [← eq_of_perm h.single hS, ← eq_of_perm hlen ho]

theorem sublist (hs : subs'.Sublist subs)
    (h : Legal S ⟨subs, slot, owed, mail, deserted, sent, keys⟩) :
    Legal S ⟨subs', slot, owed, mail, deserted, sent, keys⟩ := by
  have hnil (h : subs = []) : subs' = [] := List.sublist_nil.1 (h ▸ hs)
  refine { h with
    stands := fun st hst => ?_
    unborn := fun hS => ⟨{ (h.unborn hS).1 with }, hnil (h.unborn hS).2⟩
    slot := fun p hp => ?_
    owed := fun w hw => hs.trans (h.owed w hw)
    deserted := fun hd => hnil (h.deserted hd) }
  · have := h.stands st hst
    cases st with
    | subscribing => exact ⟨{ this.1 with }, hnil this.2⟩
    | showing s | installing s => exact ⟨{ this.1 with }, hs.trans this.2⟩
    | superseding | waiting | checking => exact ⟨this.1, { this.2 with }⟩
    | uninstalling | leaving | «hiding» | ended => exact this
  · obtain ⟨hsent, he, hkeys, hsub⟩ := h.slot p hp
    exact ⟨hsent, he, hkeys, hs.trans hsub⟩

theorem begin (h : Legal [] f) : Legal [.subscribing] f :=
  { h with
    single := Nat.le_refl 1
    stands := by simpa [Stands] using h.unborn rfl
    unborn := nofun }

theorem subscribe {n : Nat}
    (h : Legal (.subscribing :: S) ⟨subs, slot, owed, mail, deserted, sent, keys⟩) :
    Legal (.showing n :: S) ⟨subs ++ [n], slot, owed, mail, deserted, sent, keys⟩ := by
  obtain rfl := h.eq_nil
  obtain ⟨⟨rfl, rfl, rfl, rfl, rfl, rfl⟩, rfl⟩ := h.head
  exact { h with
    single := Nat.le_refl 1
    stands := by simpa [Stands] using ⟨rfl, rfl, rfl, rfl, rfl, rfl⟩
    unborn := nofun
    slot := nofun
    owed := nofun
    deserted := nofun }

theorem install {s : Nat} {r : Nat} (hst : ∀ f : ReadStatus, f.Installed → f.Waits → f.Stands st)
    (h : Legal (.installing s :: S) ⟨subs, slot, owed, mail, deserted, sent, keys⟩) :
    Legal (st :: S) ⟨subs, some ⟨r, .empty, s⟩, owed, mail, deserted, sent, keys⟩ := by
  obtain rfl := h.eq_nil
  obtain ⟨⟨rfl, rfl, rfl, rfl, rfl, rfl⟩, hsubs⟩ := h.head
  exact { h with
    single := Nat.le_refl 1
    stands := by simpa using hst _ (.inl rfl) ⟨rfl, fun _ => .inl rfl⟩
    unborn := nofun
    held := Nat.le_refl 1
    slot := by rintro _ ⟨⟩; exact ⟨rfl, rfl, nofun, hsubs⟩ }

theorem of_slot (h : Legal S ⟨subs, some p, owed, mail, deserted, sent, keys⟩) :
    owed = [] ∧ deserted = false ∧ sent = [] ∧ p.editor = .typed keys ∧
      (∀ key ∈ keys, key.isEnding = false) ∧ subs.Sublist [p.subscription] := by
  have hheld := h.held
  refine ⟨?_, ?_, h.slot p rfl⟩
  · exact List.eq_nil_of_length_eq_zero (by simp at hheld; omega)
  · cases deserted <;> simp at hheld ⊢

theorem of_owed (h : Legal S ⟨subs, slot, w :: owed, mail, deserted, sent, keys⟩) :
    slot = none ∧ owed = [] ∧ deserted = false ∧ subs.Sublist [w.pending.subscription] := by
  have hheld := h.held
  refine ⟨?_, ?_, ?_, h.owed w List.mem_cons_self⟩
  · cases slot with
    | none => rfl
    | some => simp at hheld; omega
  · exact List.eq_nil_of_length_eq_zero (by simp at hheld; omega)
  · cases deserted <;> simp at hheld ⊢

theorem type {key : Key} (hkey : key.isEnding = false)
    (h : Legal S ⟨subs, some p, owed, mail, deserted, sent, keys⟩) :
    Legal S ⟨subs, some { p with editor := (p.editor.apply key).2.2 }, owed, mail, deserted, sent,
      keys ++ [key]⟩ := by
  obtain ⟨rfl, rfl, rfl, he, hkeys, hsubs⟩ := h.of_slot
  refine { h with
    stands := fun st hst => ?_
    unborn := fun hS => nomatch (h.unborn hS).1.slot
    slot := ?_
    telling := nofun
    answers := nofun }
  · have := h.stands st hst
    cases st with
    | subscribing | showing s | installing s => cases this.1.slot
    | superseding | waiting | checking => exact ⟨.inl rfl, this.2.mail, fun _ => .inl rfl⟩
    | uninstalling => exact ⟨.inl rfl, this.2⟩
    | leaving | «hiding» | ended => cases this.2.1
  · rintro _ ⟨⟩
    refine ⟨rfl, by simp [he], fun k hk => ?_, hsubs⟩
    rcases List.mem_append.1 hk with hk | hk
    · exact hkeys k hk
    · rwa [List.mem_singleton.1 hk]

theorem take {q : Pending} {more : List Key} (hq : q.subscription = p.subscription)
    (ho : o.Answers (keys ++ more))
    (h : Legal S ⟨subs, some p, owed, mail, deserted, sent, keys⟩) :
    Legal S ⟨subs, none, .telling q o :: owed, mail, deserted, sent, keys ++ more⟩ := by
  obtain ⟨rfl, rfl, rfl, he, hkeys, hsubs⟩ := h.of_slot
  refine { h with
    stands := fun st hst => ?_
    unborn := fun hS => nomatch (h.unborn hS).1.slot
    slot := nofun
    telling := ?_
    owed := ?_
    answers := nofun }
  · have := h.stands st hst
    cases st with
    | subscribing | showing s | installing s => cases this.1.slot
    | superseding | waiting | checking =>
      exact ⟨.inr (.inl nofun), this.2.mail, fun _ => .inr ⟨q, o, List.mem_cons_self⟩⟩
    | uninstalling => exact ⟨.inr (.inl nofun), this.2⟩
    | leaving | «hiding» | ended => cases this.2.1
  · intro p' o' hmem
    cases List.mem_singleton.1 hmem
    exact ⟨rfl, ho⟩
  · intro w hw
    cases List.mem_singleton.1 hw
    exact hq ▸ hsubs

theorem tell (h : Legal S ⟨subs, slot, .telling p o :: owed, mail, deserted, sent, keys⟩) :
    Legal S ⟨subs, slot, .discarding p :: owed, mail ++ [o], deserted, sent ++ [o], keys⟩ := by
  obtain ⟨rfl, rfl, rfl, hsubs⟩ := h.of_owed
  obtain ⟨rfl, ho⟩ := h.telling p o List.mem_cons_self
  refine { h with
    stands := fun st hst => ?_
    unborn := fun hS => nomatch (h.unborn hS).1.owed
    slot := nofun
    telling := by simp
    owed := by simpa using hsubs
    sent := Nat.le_refl 1
    answers := by simpa using ho }
  have hold : Installed ⟨subs, none, [.discarding p], mail ++ [o], false, [] ++ [o], keys⟩ :=
    .inr (.inl nofun)
  have := h.stands st hst
  cases st with
  | subscribing | showing s | installing s => cases this.1.owed
  | superseding | waiting | checking =>
    exact ⟨hold, congrArg (· ++ [o]) this.2.mail, nofun⟩
  | uninstalling => exact ⟨hold, .inl (this.2.resolve_right nofun)⟩
  | leaving | «hiding» | ended => exact ⟨hold, rfl, .inl (this.2.2.resolve_right nofun)⟩

theorem discard (h : Legal S ⟨subs, slot, .discarding p :: owed, mail, deserted, sent, keys⟩) :
    Legal S ⟨subs.filter (· ≠ p.subscription), slot, owed, mail, true, sent, keys⟩ := by
  obtain ⟨rfl, rfl, rfl, hsubs⟩ := h.of_owed
  refine { h with
    stands := fun st hst => ?_
    unborn := fun hS => nomatch (h.unborn hS).1.owed
    held := Nat.le_refl 1
    slot := nofun
    telling := nofun
    owed := nofun
    deserted := fun _ => ?_ }
  · have := h.stands st hst
    cases st with
    | subscribing | showing s | installing s => cases this.1.owed
    | superseding | waiting | checking =>
      refine ⟨.inr (.inr rfl), this.2.mail, fun hsent => ?_⟩
      rcases this.2.awaited hsent with hslot | ⟨p', o, hmem⟩
      · cases hslot
      · cases List.mem_singleton.1 hmem
    | uninstalling => exact ⟨.inr (.inr rfl), this.2⟩
    | leaving | «hiding» | ended => exact ⟨.inr (.inr rfl), rfl, this.2.2⟩
  · exact List.filter_eq_nil_iff.2 fun s hs => by simpa using List.mem_singleton.1 (hsubs.mem hs)

theorem uninstall {idle : Bool}
    (h : Legal (.uninstalling o :: S) ⟨subs, some p, owed, mail, deserted, sent, keys⟩) :
    Legal (.leaving (some p) idle o :: S)
      ⟨subs, none, .discarding p :: owed, mail, deserted, sent, keys⟩ := by
  obtain rfl := h.eq_nil
  obtain ⟨rfl, rfl, rfl, he, hkeys, hsubs⟩ := h.of_slot
  exact { h with
    single := Nat.le_refl 1
    stands := by simpa using ⟨.inr (.inl nofun), rfl, h.head.2⟩
    unborn := nofun
    slot := nofun
    telling := by simp
    owed := by simpa using hsubs }

theorem receive (h : Legal (.waiting :: S) ⟨subs, slot, owed, o :: mail, deserted, sent, keys⟩) :
    Legal (.uninstalling o :: S) ⟨subs, slot, owed, mail, deserted, sent, keys⟩ := by
  obtain rfl := h.eq_nil
  have hsent : o :: mail = sent := h.head.2.mail
  have hone : sent = [o] := by
    have := h.sent
    subst hsent
    rw [List.eq_nil_of_length_eq_zero (Nat.le_zero.1 (Nat.le_of_succ_le_succ this))]
  exact { h with
    single := Nat.le_refl 1
    stands := by simpa using ⟨h.head.1, .inr hone⟩
    unborn := nofun }

theorem subscriptions_length_le_one (h : Legal S f) : f.subscriptions.length ≤ 1 := by
  have hinstalled (hi : f.Installed) : f.subscriptions.length ≤ 1 := by
    rcases hi with hslot | howed | hd
    · obtain ⟨p, hp⟩ := Option.isSome_iff_exists.1 hslot
      exact (h.slot p hp).2.2.2.length_le
    · obtain ⟨w, ws, hw⟩ := List.exists_cons_of_ne_nil howed
      exact (h.owed w (hw ▸ List.mem_cons_self)).length_le
    · rw [h.deserted hd]
      exact Nat.zero_le 1
  cases S with
  | nil =>
    rw [(h.unborn rfl).2]
    exact Nat.zero_le 1
  | cons st =>
    have hst := h.head
    cases st with
    | subscribing =>
      rw [hst.2]
      exact Nat.zero_le 1
    | showing s | installing s => exact hst.2.length_le
    | _ => exact hinstalled hst.1

theorem not_deserted (h : Legal (.waiting :: S) ⟨subs, slot, owed, [], deserted, sent, keys⟩) :
    deserted = false := by
  rcases h.head.2.awaited h.head.2.mail.symm with hslot | ⟨p, o, hmem⟩
  · obtain ⟨p, rfl⟩ := Option.isSome_iff_exists.1 hslot
    exact h.of_slot.2.1
  · obtain ⟨w, owed, rfl⟩ := List.exists_cons_of_ne_nil (List.ne_nil_of_mem hmem)
    exact h.of_owed.2.2.1

end Legal

end ReadStatus

end Stepwise
