import Stepwise.Debug.Gate
import Mathlib.Data.List.Nodup
import Mathlib.Data.List.Infix

/-! A gate that any number of suspensions share. They move in single steps and in any order, and
answers to pauses come in between: one that is accepted empties the slot of the gate at once and
reaches its suspension later. What lies in the slot is followed together with the suspension that
put it there, and what the steps find out is noted. As long as suspensions that are at the gate at
the same time bear different numbers, the slot is taken only by a suspension that is there, none
touches what another one put into it, and every ending has its reason. -/

namespace Stepwise

/-- What is found out at a gate: an answer to the pause of a suspension was accepted, a suspension
found the slot taken, had nobody to tell of its pause, or found the interrupt cell set. -/
inductive SharedGate.Note
  | accepted (guest : Nat) (d : Decision)
  | met (guest pending : Nat)
  | unheard (guest : Nat)
  | noticed (guest : Nat)
deriving DecidableEq

namespace Suspension

open SharedGate (Note)

/-- Between taking the slot and giving it up. -/
def isInside : Suspension → Bool
  | publishing _ | waiting _ | checking _ | leaving _ => true
  | arriving | left _ => false

inductive Steps (seq : Nat) (listening interrupted : Bool) :
    Gate → Suspension → Suspension → Gate → Prop
  | install : Steps seq listening interrupted none arriving (publishing none) (some seq)
  | meet (pending : Nat) :
    Steps seq listening interrupted (some pending) arriving (left (.error (.gateBusy pending)))
      (some pending)
  | publish (g : Gate) (mail : Option Decision) (hl : listening = true) :
    Steps seq listening interrupted g (publishing mail) (waiting mail) g
  | unheard (g : Gate) (mail : Option Decision) (hl : listening = false) :
    Steps seq listening interrupted g (publishing mail) (leaving (.error .controllerGone)) g
  | receive (g : Gate) (d : Decision) :
    Steps seq listening interrupted g (waiting (some d)) (leaving (.ok (.resumed d))) g
  | look (g : Gate) : Steps seq listening interrupted g (waiting none) (checking none) g
  | notice (g : Gate) (mail : Option Decision) (hi : interrupted = true) :
    Steps seq listening interrupted g (checking mail) (leaving (.ok .cancelled)) g
  | wait (g : Gate) (mail : Option Decision) (hi : interrupted = false) :
    Steps seq listening interrupted g (checking mail) (waiting mail) g
  | leave (g : Gate) (result : Except DebugFault Resumption) :
    Steps seq listening interrupted g (leaving result) (left result) (g.leave seq)
  | rest (g : Gate) (result : Except DebugFault Resumption) :
    Steps seq listening interrupted g (left result) (left result) g

theorem step_steps (s : Suspension) (seq : Nat) (listening interrupted : Bool) (g : Gate) :
    Steps seq listening interrupted g s (s.step seq listening interrupted g).1
      (s.step seq listening interrupted g).2 := by
  cases s with
  | arriving =>
    cases g with
    | none => exact .install
    | some pending => exact .meet pending
  | publishing mail =>
    cases listening with
    | true => exact .publish g mail rfl
    | false => exact .unheard g mail rfl
  | waiting mail =>
    cases mail with
    | none => exact .look g
    | some d => exact .receive g d
  | checking mail =>
    cases interrupted with
    | true => exact .notice g mail rfl
    | false => exact .wait g mail rfl
  | leaving result => exact .leave g result
  | left result => exact .rest g result

def note? (guest : Nat) (listening interrupted : Bool) (g : Gate) : Suspension → Option Note
  | arriving => g.map (.met guest)
  | publishing _ => if listening then none else some (.unheard guest)
  | checking _ => if interrupted then some (.noticed guest) else none
  | _ => none

@[simp] theorem isInside_deliver (s : Suspension) (d : Decision) :
    (s.deliver d).isInside = s.isInside := by
  cases s <;> rfl

end Suspension

namespace SharedGate

/-- What lies in the slot: the number of the pause that waits, and whom an answer goes to. -/
structure Entry where
  seq : Nat
  owner : Nat
deriving DecidableEq

structure Guest where
  seq : Nat
  stage : Suspension

def Guest.clashes (a b : Guest) : Bool :=
  a.stage.isInside && b.stage.isInside && a.seq == b.seq

end SharedGate

/-- A gate, the suspensions that came to it, in this order, and the answers that were accepted and
did not reach their suspensions yet. -/
structure SharedGate where
  entry : Option SharedGate.Entry
  guests : List SharedGate.Guest
  replies : List (Nat × Decision)
  log : List SharedGate.Note

namespace SharedGate

/-- One step of somebody. A suspension begins, or moves and finds a listener or none and the
interrupt cell set or not; an answer takes the slot or is refused; an accepted answer reaches its
suspension. -/
inductive Act where
  | arrive (seq : Nat)
  | step (guest : Nat) (listening interrupted : Bool)
  | resolve (seq : Nat) (d : Decision)
  | send (reply : Nat)

def new : SharedGate :=
  ⟨none, [], [], []⟩

def gate (x : SharedGate) : Gate :=
  x.entry.map Entry.seq

def lodged (x : SharedGate) (guest : Nat) (gate : Gate) : Option Entry :=
  if gate = x.gate then x.entry else gate.map (⟨·, guest⟩)

def act (x : SharedGate) : Act → SharedGate
  | .arrive seq => { x with guests := x.guests ++ [⟨seq, .arriving⟩] }
  | .step i listening interrupted =>
    match x.guests[i]? with
    | none => x
    | some g =>
      let (stage, gate) := g.stage.step g.seq listening interrupted x.gate
      { x with
        entry := x.lodged i gate
        guests := x.guests.set i ⟨g.seq, stage⟩
        log := x.log ++ (g.stage.note? i listening interrupted x.gate).toList }
  | .resolve seq d =>
    match x.gate.resolve seq, x.entry with
    | .ok gate, some e =>
      { x with
        entry := x.lodged e.owner gate
        replies := x.replies ++ [(e.owner, d)]
        log := x.log ++ [.accepted e.owner d] }
    | _, _ => x
  | .send k =>
    match x.replies[k]? with
    | none => x
    | some (i, d) =>
      { x with
        guests := x.guests.modify i fun g => { g with stage := g.stage.deliver d }
        replies := x.replies.eraseIdx k }

def acts (x : SharedGate) (as : List Act) : SharedGate :=
  as.foldl act x

/-- Suspensions that are at the gate at the same time bear different numbers. -/
def Apart (x : SharedGate) : Prop :=
  x.guests.Pairwise fun a b => a.clashes b = false

instance (x : SharedGate) : Decidable x.Apart :=
  inferInstanceAs (Decidable (List.Pairwise _ _))

def answered (log : List Note) : List Nat :=
  log.filterMap fun
    | .accepted i _ => some i
    | _ => none

/-- The reason that a suspension has for its ending. -/
def Ended (log : List Note) (i : Nat) : Except DebugFault Resumption → Prop
  | .ok (.resumed d) => .accepted i d ∈ log
  | .ok .cancelled => .noticed i ∈ log
  | .error .controllerGone => .unheard i ∈ log
  | .error (.gateBusy pending) => .met i pending ∈ log
  | _ => False

/-- An answer can still come to the suspension: from who finds the slot, or from who has taken
the pause from it already. -/
def Reaches (x : SharedGate) (i : Nat) : Prop :=
  (∃ e, x.entry = some e ∧ e.owner = i) ∨ ∃ d, (i, d) ∈ x.replies

/-- What is in the mail of a suspension was an answer to its pause; if there is nothing, an answer
can still come. -/
def Mailed (x : SharedGate) (i : Nat) : Option Decision → Prop
  | some d => .accepted i d ∈ x.log
  | none => x.Reaches i

def Fits (x : SharedGate) (i : Nat) : Suspension → Prop
  | .arriving => i ∉ answered x.log
  | .publishing mail | .waiting mail | .checking mail => x.Mailed i mail
  | .leaving result | .left result => Ended x.log i result

structure Orderly (x : SharedGate) : Prop where
  fits : ∀ i g, x.guests[i]? = some g → x.Fits i g.stage
  entry : ∀ e, x.entry = some e → e.owner ∉ answered x.log ∧
    ∃ g, x.guests[e.owner]? = some g ∧ g.seq = e.seq ∧ g.stage.isInside = true
  replies : ∀ i d, (i, d) ∈ x.replies → .accepted i d ∈ x.log
  nodup : (answered x.log).Nodup
  bounded : ∀ i ∈ answered x.log, i < x.guests.length

variable {x y : SharedGate} {i j : Nat} {g : Guest} {e : Entry}

theorem answered_append (log log' : List Note) :
    answered (log ++ log') = answered log ++ answered log' :=
  List.filterMap_append

@[simp] theorem answered_note? (i : Nat) (listening interrupted : Bool) (gate : Gate)
    (s : Suspension) : answered (s.note? i listening interrupted gate).toList = [] := by
  cases s with
  | arriving => cases gate <;> rfl
  | publishing => cases listening <;> rfl
  | checking => cases interrupted <;> rfl
  | waiting | leaving | left => rfl

theorem gate_eq_some {seq : Nat} (hg : x.gate = some seq) :
    ∃ owner, x.entry = some ⟨seq, owner⟩ := by
  obtain ⟨⟨seq, owner⟩, he, rfl⟩ := Option.map_eq_some_iff.1 hg
  exact ⟨owner, he⟩

theorem Apart.eq (ha : x.Apart) {a b : Guest} (hi : x.guests[i]? = some a)
    (hj : x.guests[j]? = some b) (hai : a.stage.isInside = true) (hbi : b.stage.isInside = true)
    (hseq : a.seq = b.seq) : i = j := by
  obtain ⟨hilt, rfl⟩ := List.getElem?_eq_some_iff.1 hi
  obtain ⟨hjlt, rfl⟩ := List.getElem?_eq_some_iff.1 hj
  have hpair := List.pairwise_iff_getElem.1 ha
  rcases Nat.lt_trichotomy i j with hlt | heq | hlt
  · simpa [Guest.clashes, hai, hbi, hseq] using hpair i j hilt hjlt hlt
  · exact heq
  · simpa [Guest.clashes, hai, hbi, hseq] using hpair j i hjlt hilt hlt

theorem act_step (hg : x.guests[i]? = some g) (listening interrupted : Bool) :
    ∃ stage gate, g.stage.Steps g.seq listening interrupted x.gate stage gate ∧
      x.act (.step i listening interrupted) =
        { x with
          entry := x.lodged i gate
          guests := x.guests.set i ⟨g.seq, stage⟩
          log := x.log ++ (g.stage.note? i listening interrupted x.gate).toList } := by
  refine ⟨_, _, g.stage.step_steps g.seq listening interrupted x.gate, ?_⟩
  simp only [act, hg]

theorem act_resolve {seq : Nat} {gate : Gate} (hr : x.gate.resolve seq = .ok gate) (d : Decision) :
    ∃ owner, x.entry = some ⟨seq, owner⟩ ∧
      x.act (.resolve seq d) =
        { x with
          entry := none
          replies := x.replies ++ [(owner, d)]
          log := x.log ++ [.accepted owner d] } := by
  cases hg : x.gate with
  | none => simp [hg, Gate.resolve] at hr
  | some pending =>
    obtain ⟨owner, he⟩ := gate_eq_some hg
    rw [hg, Gate.resolve] at hr
    split at hr
    · next hseq =>
      cases hseq
      cases hr
      refine ⟨owner, he, ?_⟩
      simp [act, Gate.resolve, lodged, hg, he]
    · cases hr

theorem act_resolve_of_error {seq : Nat} {fault : DebugFault}
    (hr : x.gate.resolve seq = .error fault) (d : Decision) : x.act (.resolve seq d) = x := by
  simp only [act, hr]

theorem act_send {k : Nat} {d : Decision} (hk : x.replies[k]? = some (i, d)) :
    x.act (.send k) =
      { x with
        guests := x.guests.modify i fun g => { g with stage := g.stage.deliver d }
        replies := x.replies.eraseIdx k } := by
  simp only [act, hk]

theorem Ended.mono {log log' : List Note} {result : Except DebugFault Resumption}
    (h : Ended log i result) (hlog : ∀ n ∈ log, n ∈ log') : Ended log' i result := by
  unfold Ended at h ⊢
  split at h <;> first | exact hlog _ h | exact h.elim

theorem Mailed.mono {mail : Option Decision} (h : x.Mailed i mail)
    (hlog : ∀ n ∈ x.log, n ∈ y.log) (hreaches : x.Reaches i → y.Reaches i) : y.Mailed i mail := by
  cases mail with
  | some d => exact hlog _ h
  | none => exact hreaches h

/-- A suspension still fits as long as its history goes on and its answer can still come. -/
theorem Fits.mono {s : Suspension} (h : x.Fits i s) (hlog : ∀ n ∈ x.log, n ∈ y.log)
    (hanswered : s = .arriving → i ∈ answered y.log → i ∈ answered x.log)
    (hreaches : x.Reaches i → y.Reaches i) : y.Fits i s := by
  cases s with
  | arriving => exact fun hi => h (hanswered rfl hi)
  | publishing mail | waiting mail | checking mail => exact Mailed.mono h hlog hreaches
  | leaving result | left result => exact Ended.mono h hlog

inductive Lodges (x : SharedGate) (i : Nat) (g : Guest) (stage : Suspension) :
    Option Entry → Prop
  | keeps (hstage : g.stage.isInside = true → stage.isInside = true ∨
      ∀ e, x.entry = some e → e.owner ≠ i) : Lodges x i g stage x.entry
  | takes (hs : g.stage = .arriving) (hstage : stage = .publishing none) (he : x.entry = none) :
    Lodges x i g stage (some ⟨g.seq, i⟩)
  | gives (e : Entry) (hs : stage.isInside = false) (he : x.entry = some e) (ho : e.owner = i) :
    Lodges x i g stage none

namespace Orderly

theorem owner_eq (h : x.Orderly) (ha : x.Apart) (hg : x.guests[i]? = some g)
    (hin : g.stage.isInside = true) (he : x.entry = some e) (hseq : e.seq = g.seq) :
    e.owner = i := by
  obtain ⟨-, g', hg', hseq', hin'⟩ := h.entry e he
  exact ha.eq hg' hg hin' hin (hseq'.trans hseq)

theorem lodges (h : x.Orderly) (ha : x.Apart) (hg : x.guests[i]? = some g) {stage : Suspension}
    {gate : Gate} {listening interrupted : Bool}
    (hs : g.stage.Steps g.seq listening interrupted x.gate stage gate) :
    x.Lodges i g stage (x.lodged i gate) := by
  have hkeeps (hgate : gate = x.gate) (hstage : g.stage.isInside = true → stage.isInside = true ∨
      ∀ e, x.entry = some e → e.owner ≠ i) : x.Lodges i g stage (x.lodged i gate) := by
    rw [lodged, if_pos hgate]
    exact .keeps hstage
  obtain ⟨seq, s⟩ := g
  generalize hx : x.gate = before at hs
  cases hs with
  | install =>
    have he : x.entry = none := Option.map_eq_none_iff.1 hx
    rw [lodged, if_neg (by simp [hx])]
    exact .takes rfl rfl he
  | meet | publish | unheard | receive | look | notice | wait | rest =>
    exact hkeeps hx.symm (by simp [Suspension.isInside])
  | leave result =>
    by_cases hseq : x.gate = some seq
    · obtain ⟨owner, he⟩ := gate_eq_some hseq
      have ho := h.owner_eq ha hg rfl he rfl
      have hnone : x.lodged i (x.gate.leave seq) = none := by
        rw [Gate.leave, if_pos hseq, lodged, if_neg (by simp [hseq])]
        rfl
      rw [← hx, hnone]
      exact .gives _ rfl he ho
    · refine hkeeps (by rw [← hx, Gate.leave, if_neg hseq]) fun _ => .inr fun e he ho => ?_
      obtain ⟨-, g, hg', hgseq, -⟩ := h.entry e he
      rw [ho, hg] at hg'
      cases hg'
      exact hseq (by rw [gate, he, Option.map_some, ← hgseq])

theorem reaches_of_lodges {stage : Suspension} {entry : Option Entry}
    (hl : x.Lodges i g stage entry) (he : y.entry = entry) (hr : y.replies = x.replies)
    (hj : j ≠ i ∨ stage.isInside = true) (h : x.Reaches j) : y.Reaches j := by
  obtain ⟨e, hx, ho⟩ | hreply := h
  · cases hl with
    | keeps => exact .inl ⟨e, he.trans hx, ho⟩
    | takes _ _ hnone =>
      rw [hnone] at hx
      cases hx
    | gives e' hs hx' ho' =>
      cases hx.symm.trans hx'
      rcases hj with hj | hj
      · exact absurd (ho.symm.trans ho') hj
      · rw [hs] at hj
        cases hj
  · exact .inr (hr ▸ hreply)

theorem fits_steps (h : x.Orderly) (hg : x.guests[i]? = some g) {stage : Suspension}
    {gate : Gate} {listening interrupted : Bool}
    (hs : g.stage.Steps g.seq listening interrupted x.gate stage gate)
    (he : y.entry = x.lodged i gate) (hlodges : x.Lodges i g stage (x.lodged i gate))
    (hr : y.replies = x.replies)
    (hlog : y.log = x.log ++ (g.stage.note? i listening interrupted x.gate).toList) :
    y.Fits i stage := by
  have hfits := h.fits i g hg
  have hsub : ∀ n ∈ x.log, n ∈ y.log := fun n hn => hlog ▸ List.mem_append_left _ hn
  have hreaches (hin : stage.isInside = true) : x.Reaches i → y.Reaches i :=
    reaches_of_lodges hlodges he hr (.inr hin)
  obtain ⟨seq, s⟩ := g
  generalize hx : x.gate = before at hs hlog
  cases hs with
  | install =>
    refine .inl ⟨⟨seq, i⟩, ?_, rfl⟩
    rw [he, lodged, if_neg (by simp [hx])]
    rfl
  | meet pending =>
    simp [Fits, Ended, hlog, Suspension.note?]
  | publish _ mail => exact Mailed.mono hfits hsub (hreaches rfl)
  | unheard _ mail hl =>
    simp [Fits, Ended, hlog, Suspension.note?, hl]
  | receive _ d => exact hsub _ hfits
  | look _ => exact hreaches rfl hfits
  | notice _ mail hi =>
    simp [Fits, Ended, hlog, Suspension.note?, hi]
  | wait _ mail hi => exact Mailed.mono hfits hsub (hreaches rfl)
  | leave result => exact Ended.mono hfits hsub
  | rest result => exact Ended.mono hfits hsub

theorem step (h : x.Orderly) (ha : x.Apart) (i : Nat) (listening interrupted : Bool) :
    (x.act (.step i listening interrupted)).Orderly := by
  cases hg : x.guests[i]? with
  | none =>
    simp only [act, hg]
    exact h
  | some g =>
    obtain ⟨stage, gate, hs, heq⟩ := act_step hg listening interrupted
    rw [heq]
    have hlodges := h.lodges ha hg hs
    have hanswered : answered (x.log ++ (g.stage.note? i listening interrupted x.gate).toList) =
        answered x.log := by
      rw [answered_append, answered_note?, List.append_nil]
    have hlt : i < x.guests.length := (List.getElem?_eq_some_iff.1 hg).1
    have hself : (x.guests.set i ⟨g.seq, stage⟩)[i]? = some ⟨g.seq, stage⟩ :=
      List.getElem?_set_self hlt
    have hother {j : Nat} (hj : i ≠ j) :
        (x.guests.set i ⟨g.seq, stage⟩)[j]? = x.guests[j]? := List.getElem?_set_ne hj
    refine ⟨fun j k hk => ?_, fun e he => ?_, fun j d hd => ?_, ?_, fun j hj => ?_⟩
    · by_cases hj : i = j
      · subst hj
        cases hself.symm.trans hk
        exact h.fits_steps hg hs rfl hlodges rfl rfl
      · refine (h.fits j k ((hother hj).symm.trans hk)).mono
          (fun n hn => List.mem_append_left _ hn) (fun _ hm => hanswered ▸ hm)
          (reaches_of_lodges hlodges rfl rfl (.inl (Ne.symm hj)))
    · simp only at he ⊢
      rw [hanswered]
      generalize x.lodged i gate = entry at he hlodges
      cases hlodges with
      | keeps hstage =>
        obtain ⟨hnot, k, hk, hseq, hin⟩ := h.entry e he
        refine ⟨hnot, ?_⟩
        by_cases hj : i = e.owner
        · rw [← hj] at hk ⊢
          cases hg.symm.trans hk
          exact ⟨_, hself, hseq, (hstage hin).resolve_right fun hne => hne e he hj.symm⟩
        · exact ⟨k, (hother hj).trans hk, hseq, hin⟩
      | takes harriving hstage =>
        cases he
        have hfits := h.fits i g hg
        rw [harriving] at hfits
        exact ⟨hfits, _, hself, rfl, by rw [hstage]; rfl⟩
      | gives => cases he
    · exact List.mem_append_left _ (h.replies j d hd)
    · exact hanswered ▸ h.nodup
    · rw [List.length_set]
      exact h.bounded j (hanswered ▸ hj)

theorem arrive (h : x.Orderly) (seq : Nat) : (x.act (.arrive seq)).Orderly := by
  have hold {j : Nat} {k : Guest} (hk : x.guests[j]? = some k) :
      (x.guests ++ [⟨seq, .arriving⟩])[j]? = some k :=
    (List.getElem?_append_left (List.getElem?_eq_some_iff.1 hk).1).trans hk
  refine ⟨fun j k hk => ?_, fun e he => ?_, h.replies, h.nodup, fun j hj => ?_⟩
  · rcases Nat.lt_or_ge j x.guests.length with hlt | hge
    · change (x.guests ++ [_])[j]? = _ at hk
      rw [List.getElem?_append_left hlt] at hk
      exact (h.fits j k hk).mono (fun _ hn => hn) (fun _ hm => hm) (fun hr => hr)
    · have hnew : k.stage = .arriving := by
        change (x.guests ++ [_])[j]? = _ at hk
        rw [List.getElem?_append_right hge] at hk
        obtain ⟨-, hk⟩ := List.mem_singleton.1 (List.mem_of_getElem? hk)
        rfl
      rw [hnew]
      exact fun hm => Nat.not_lt_of_ge hge (h.bounded j hm)
  · obtain ⟨hnot, k, hk, hin⟩ := h.entry e he
    exact ⟨hnot, k, hold hk, hin⟩
  · change j < (x.guests ++ [_]).length
    rw [List.length_append]
    exact Nat.lt_add_right _ (h.bounded j hj)

theorem resolve (h : x.Orderly) (seq : Nat) (d : Decision) :
    (x.act (.resolve seq d)).Orderly := by
  cases hr : x.gate.resolve seq with
  | error fault =>
    rw [act_resolve_of_error hr]
    exact h
  | ok gate =>
    obtain ⟨owner, he, heq⟩ := act_resolve hr d
    rw [heq]
    obtain ⟨hnot, k, hk, -, hin⟩ := h.entry _ he
    have hanswered : answered (x.log ++ [.accepted owner d]) = answered x.log ++ [owner] :=
      answered_append _ _
    have hmem {j : Nat} (hj : j ∈ answered (x.log ++ [.accepted owner d])) :
        j ∈ answered x.log ∨ j = owner := by
      rwa [hanswered, List.mem_append, List.mem_singleton] at hj
    refine ⟨fun j g hg => ?_, (fun e he => nomatch he), fun j d' hd => ?_, ?_, fun j hj => ?_⟩
    · refine (h.fits j g hg).mono (fun n hn => List.mem_append_left _ hn) (fun hs hm => ?_)
        fun hreach => ?_
      · refine (hmem hm).resolve_right fun hj => ?_
        rw [hj] at hg
        cases hg.symm.trans hk
        rw [hs] at hin
        cases hin
      · obtain ⟨e, hx, rfl⟩ | ⟨d', hd⟩ := hreach
        · cases he.symm.trans hx
          exact .inr ⟨d, List.mem_append_right _ List.mem_cons_self⟩
        · exact .inr ⟨d', List.mem_append_left _ hd⟩
    · rcases List.mem_append.1 hd with hd | hd
      · exact List.mem_append_left _ (h.replies j d' hd)
      · cases List.mem_singleton.1 hd
        exact List.mem_append_right _ List.mem_cons_self
    · change (answered (x.log ++ _)).Nodup
      rw [hanswered]
      exact h.nodup.append (List.nodup_singleton _) (by simpa using hnot)
    · rcases hmem hj with hj | rfl
      · exact h.bounded j hj
      · exact (List.getElem?_eq_some_iff.1 hk).1

theorem send (h : x.Orderly) (k : Nat) : (x.act (.send k)).Orderly := by
  cases hk : x.replies[k]? with
  | none =>
    simp only [act, hk]
    exact h
  | some reply =>
    obtain ⟨i, d⟩ := reply
    rw [act_send hk]
    have haccepted : .accepted i d ∈ x.log := h.replies i d (List.mem_of_getElem? hk)
    have hreaches {j : Nat} (hj : i ≠ j) (hr : x.Reaches j) :
        Reaches { x with
          guests := x.guests.modify i fun g => { g with stage := g.stage.deliver d }
          replies := x.replies.eraseIdx k } j := by
      refine hr.imp_right fun ⟨d', hd⟩ => ⟨d', ?_⟩
      obtain ⟨n, hn⟩ := List.mem_iff_getElem?.1 hd
      refine List.mem_eraseIdx_iff_getElem?.2 ⟨n, fun he => hj ?_, hn⟩
      rw [he, hk] at hn
      cases hn
      rfl
    refine ⟨fun j g hg => ?_, fun e he => ?_, fun j d' hd => ?_, h.nodup, fun j hj => ?_⟩
    · simp only [List.getElem?_modify] at hg
      split at hg
      · next hj =>
        subst hj
        obtain ⟨g', hg', rfl⟩ := Option.map_eq_some_iff.1 hg
        have hfits := h.fits i g' hg'
        revert hfits
        cases g'.stage with
        | publishing | waiting | checking => exact fun _ => haccepted
        | arriving | leaving | left => exact id
      · next hj =>
        exact (h.fits j g (by simpa using hg)).mono (fun _ hn => hn) (fun _ hm => hm) (hreaches hj)
    · obtain ⟨hnot, g, hg, hseq, hin⟩ := h.entry e he
      refine ⟨hnot, ?_⟩
      simp only [List.getElem?_modify, hg]
      split
      · exact ⟨_, rfl, hseq, by simpa using hin⟩
      · exact ⟨g, rfl, hseq, hin⟩
    · exact h.replies j d' (List.mem_of_mem_eraseIdx hd)
    · change j < (x.guests.modify i _).length
      rw [List.length_modify]
      exact h.bounded j hj

theorem act (h : x.Orderly) (ha : x.Apart) (a : Act) : (x.act a).Orderly := by
  cases a with
  | arrive seq => exact h.arrive seq
  | step i listening interrupted => exact h.step ha i listening interrupted
  | resolve seq d => exact h.resolve seq d
  | send k => exact h.send k

end Orderly

theorem orderly_new : new.Orderly where
  fits i g hg := by cases hg
  entry e he := by cases he
  replies i d hd := by cases hd
  nodup := .nil
  bounded i hi := by cases hi

theorem acts_append (x : SharedGate) (as bs : List Act) : x.acts (as ++ bs) = (x.acts as).acts bs :=
  List.foldl_append

theorem orderly_acts {as : List Act} (ha : ∀ before, before <+: as → (new.acts before).Apart) :
    (new.acts as).Orderly := by
  induction as using List.reverseRecOn with
  | nil => exact orderly_new
  | append_singleton as a ih =>
    rw [acts_append]
    have hprefix : as <+: as ++ [a] := List.prefix_append as [a]
    exact (ih fun before hb => ha before (hb.trans hprefix)).act (ha as hprefix) a

/-- What the gate guarantees, whatever is about to happen. A number lies in the slot only while a
suspension that bears it is between taking the slot and giving it up. Who finds the slot taken goes,
and nothing else happens. An answer with the right number empties the slot and goes to who has taken
it, and who waits without an answer can still get one. Giving up the slot takes out what the
suspension has put there, and nothing of others. -/
structure Disciplined (x : SharedGate) : Prop where
  taken : ∀ seq, x.gate = some seq → ∃ i g, x.entry = some ⟨seq, i⟩ ∧ x.guests[i]? = some g ∧
    g.seq = seq ∧ g.stage.isInside = true
  installs : ∀ i seq listening interrupted, x.guests[i]? = some ⟨seq, .arriving⟩ →
    x.entry = none → x.act (.step i listening interrupted) =
      { x with entry := some ⟨seq, i⟩, guests := x.guests.set i ⟨seq, .publishing none⟩ }
  busy : ∀ i seq listening interrupted e, x.guests[i]? = some ⟨seq, .arriving⟩ →
    x.entry = some e → x.act (.step i listening interrupted) =
      { x with
        guests := x.guests.set i ⟨seq, .left (.error (.gateBusy e.seq))⟩
        log := x.log ++ [.met i e.seq] }
  unasked : ∀ seq d, x.entry = none →
    x.gate.resolve seq = .error .noPendingPause ∧ x.act (.resolve seq d) = x
  stale : ∀ seq d e, x.entry = some e → e.seq ≠ seq →
    x.gate.resolve seq = .error (.stalePause seq e.seq) ∧ x.act (.resolve seq d) = x
  accepts : ∀ d e, x.entry = some e → x.gate.resolve e.seq = .ok none ∧
    x.act (.resolve e.seq d) =
      { x with
        entry := none
        replies := x.replies ++ [(e.owner, d)]
        log := x.log ++ [.accepted e.owner d] }
  once : (answered x.log).Nodup
  reached : ∀ i seq, x.guests[i]? = some ⟨seq, .publishing none⟩ ∨
    x.guests[i]? = some ⟨seq, .waiting none⟩ ∨ x.guests[i]? = some ⟨seq, .checking none⟩ →
    x.Reaches i
  ended : ∀ i seq result, x.guests[i]? = some ⟨seq, .leaving result⟩ ∨
    x.guests[i]? = some ⟨seq, .left result⟩ → Ended x.log i result
  leaves : ∀ i seq result listening interrupted, x.guests[i]? = some ⟨seq, .leaving result⟩ →
    x.act (.step i listening interrupted) =
      { x with
        entry := if x.entry.any fun e => e.owner = i then none else x.entry
        guests := x.guests.set i ⟨seq, .left result⟩ }
  gone : ∀ i seq result e, x.guests[i]? = some ⟨seq, .left result⟩ → x.entry = some e →
    e.owner ≠ i

theorem act_install {seq : Nat} (hg : x.guests[i]? = some ⟨seq, .arriving⟩) (he : x.entry = none)
    (listening interrupted : Bool) : x.act (.step i listening interrupted) =
      { x with entry := some ⟨seq, i⟩, guests := x.guests.set i ⟨seq, .publishing none⟩ } := by
  have hx : x.gate = none := by rw [gate, he, Option.map_none]
  simp [SharedGate.act, hg, hx, Suspension.step, Gate.install, Suspension.note?, lodged]

theorem act_meet {seq : Nat} (hg : x.guests[i]? = some ⟨seq, .arriving⟩) (he : x.entry = some e)
    (listening interrupted : Bool) : x.act (.step i listening interrupted) =
      { x with
        guests := x.guests.set i ⟨seq, .left (.error (.gateBusy e.seq))⟩
        log := x.log ++ [.met i e.seq] } := by
  have hx : x.gate = some e.seq := by rw [gate, he, Option.map_some]
  simp [SharedGate.act, hg, hx, Suspension.step, Gate.install, Suspension.note?, lodged]

namespace Orderly

/-- In the slot is the number that a suspension bears exactly if the suspension has put it there,
as long as it has not left. -/
theorem gate_eq_iff (h : x.Orderly) (ha : x.Apart) (hg : x.guests[i]? = some g)
    (hin : g.stage.isInside = true) : x.gate = some g.seq ↔ x.entry = some ⟨g.seq, i⟩ := by
  constructor
  · intro hx
    obtain ⟨owner, he⟩ := gate_eq_some hx
    rw [he, ← h.owner_eq ha hg hin he rfl]
  · intro he
    rw [gate, he, Option.map_some]

theorem act_leave (h : x.Orderly) (ha : x.Apart) {seq : Nat} {result : Except DebugFault Resumption}
    (hg : x.guests[i]? = some ⟨seq, .leaving result⟩) (listening interrupted : Bool) :
    x.act (.step i listening interrupted) =
      { x with
        entry := if x.entry.any fun e => e.owner = i then none else x.entry
        guests := x.guests.set i ⟨seq, .left result⟩ } := by
  have hiff := h.gate_eq_iff ha hg rfl
  have hentry : x.lodged i (x.gate.leave seq) =
      if x.entry.any fun e => e.owner = i then none else x.entry := by
    by_cases hx : x.gate = some seq
    · have he := hiff.1 hx
      rw [Gate.leave, if_pos hx, lodged, if_neg (by simp [hx]), he]
      simp
    · have hnot : (x.entry.any fun e => e.owner = i) = false := by
        rw [Option.any_eq_false]
        intro e he
        refine decide_eq_false fun ho => hx (hiff.2 ?_)
        obtain ⟨-, g, hg', hseq, -⟩ := h.entry e he
        rw [ho, hg] at hg'
        cases hg'
        rw [he, ← ho, hseq]
      rw [Gate.leave, if_neg hx, lodged, if_pos rfl, hnot, if_neg Bool.false_ne_true]
  simp [SharedGate.act, hg, Suspension.step, Suspension.note?, hentry]

theorem disciplined (h : x.Orderly) (ha : x.Apart) : x.Disciplined where
  taken seq hx := by
    obtain ⟨i, he⟩ := gate_eq_some hx
    obtain ⟨-, g, hg, hseq, hin⟩ := h.entry _ he
    exact ⟨i, g, he, hg, hseq, hin⟩
  installs _ _ listening interrupted hg he := act_install hg he listening interrupted
  busy _ _ listening interrupted _ hg he := act_meet hg he listening interrupted
  unasked seq d he := by
    have hr : x.gate.resolve seq = .error .noPendingPause := by
      rw [gate, he, Option.map_none, Gate.resolve]
    exact ⟨hr, act_resolve_of_error hr d⟩
  stale seq d e he hne := by
    have hr : x.gate.resolve seq = .error (.stalePause seq e.seq) := by
      rw [gate, he, Option.map_some, Gate.resolve, if_neg hne]
    exact ⟨hr, act_resolve_of_error hr d⟩
  accepts d := by
    rintro ⟨seq, owner⟩ he
    have hr : x.gate.resolve seq = .ok none := by
      rw [gate, he, Option.map_some, Gate.resolve, if_pos rfl]
    obtain ⟨owner', he', hact⟩ := act_resolve hr d
    cases he.symm.trans he'
    exact ⟨hr, hact⟩
  once := h.nodup
  reached i seq hg := by
    rcases hg with hg | hg | hg <;> exact h.fits i _ hg
  ended i seq result hg := by
    rcases hg with hg | hg <;> exact h.fits i _ hg
  leaves _ _ _ listening interrupted hg := h.act_leave ha hg listening interrupted
  gone i seq result e hg he ho := by
    obtain ⟨-, g, hg', -, hin⟩ := h.entry e he
    rw [ho, hg] at hg'
    cases hg'
    cases hin

end Orderly

/-- However the suspensions at a gate move and answers come in between: as long as no two of them
are at the gate with the same number, they share it in good order. -/
theorem acts_disciplined (as : List Act) (ha : ∀ before ∈ as.inits, (new.acts before).Apart) :
    (new.acts as).Disciplined :=
  have horderly := orderly_acts fun before hb => ha before ((List.mem_inits _ _).2 hb)
  horderly.disciplined (ha as ((List.mem_inits _ _).2 List.prefix_rfl))

/-- A second suspension finds the slot taken. An answer with a wrong number is refused, and the
right one is accepted; before the first suspension has it and leaves, a third one takes the
slot. -/
def handover : List Act :=
  [.arrive 1, .step 0 true false, .step 0 true false, .arrive 2, .step 1 true false,
    .resolve 2 .stopDebugging, .resolve 1 .continueStepping, .arrive 3, .step 2 true false, .send 0,
    .step 0 true false, .step 0 true false]

theorem acts_disciplined_handover :
    let x := new.acts handover
    (∀ before ∈ handover.inits, (new.acts before).Apart) ∧ x.gate = some 3 ∧
      .met 1 1 ∈ x.log ∧ .accepted 0 .continueStepping ∈ x.log ∧ x.Reaches 2 := by
  intro x
  have ha : ∀ before ∈ handover.inits, (new.acts before).Apart := by decide
  have h := acts_disciplined handover ha
  exact ⟨ha, rfl, h.ended 1 2 (.error (.gateBusy 1)) (.inr rfl),
    h.ended 0 1 (.ok (.resumed .continueStepping)) (.inr rfl), h.reached 2 3 (.inl rfl)⟩

end SharedGate

end Stepwise
