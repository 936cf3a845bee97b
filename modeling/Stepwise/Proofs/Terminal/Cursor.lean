import Mathlib.Data.List.Infix
import Stepwise.Proofs.Terminal.Typing

/-! When the cursor is shown. A read shows it before it takes the slot, and hides it after it
has left the slot empty. When all is quiet the cursor is hidden unless a read is pending; and it
is shown while one is pending, unless that read showed the cursor and took the slot while another
one was about to hide it. -/

namespace Stepwise

def Display.cursor? : Display → Option Bool
  | cursor visible => some visible
  | text _ => none

namespace Console

/-- What the terminal was last told about the cursor. -/
def cursor? (c : Console) : Option Bool :=
  c.output.foldl (fun shown d => d.cursor?.or shown) none

variable {c : Console}

@[simp] theorem cursor?_cursor (visible : Bool) :
    (c.display (.cursor visible)).cursor? = some visible := by
  simp [cursor?, display, Display.cursor?]

@[simp] theorem cursor?_write (s : String) : (c.write s).cursor? = c.cursor? := by
  simp [cursor?, write, display, Display.cursor?]

theorem cursor?_of_output_eq {c' : Console} (h : c'.output = c.output) :
    c'.cursor? = c.cursor? := by
  rw [cursor?, h, cursor?]

theorem cursor?_press (read : Nat) (key : Key) :
    (c.press read key).2.2.cursor? = c.cursor? := by
  apply cursor?_of_output_eq
  unfold press
  split
  case h_1 => rfl
  case h_2 =>
    split
    case isTrue =>
      dsimp only
      split <;> rfl
    case isFalse => rfl

end Console

theorem ReadClosing.cursor?_step (f : ReadClosing) (c : Console) :
    (f.step c).2.cursor? = c.cursor? := by
  cases f <;> rfl

theorem Delivery.Steps.cursor? {c c' : Console} {d d' : Delivery} (hd : Steps c d d' c') :
    c'.cursor? = c.cursor? := by
  cases hd with
  | write key reads e es => exact Console.cursor?_write _
  | settle key reads f => exact f.cursor?_step c
  | press key read reads => exact Console.cursor?_press read key

namespace Reader

variable {c c' : Console} {id : Nat} {st st' : Stage}

namespace Stage

def hasShown : Stage → Bool
  | subscribing | showing _ => false
  | _ => true

def installs : Stage → Bool
  | installing _ => true
  | _ => false

/-- The read found the slot empty when it left, and will hide the cursor. -/
def hides : Stage → Bool
  | leaving _ idle _ => idle
  | «hiding» _ => true
  | _ => false

def turns : Stage → Option Bool
  | showing _ => some true
  | «hiding» _ => some false
  | _ => none

def keeps : Stage → Bool
  | subscribing | showing _ | ended _ => false
  | leaving _ idle _ => idle
  | _ => true

end Stage

theorem Steps.cursor? (hr : Steps c id st st' c') : c'.cursor? = st.turns.or c.cursor? := by
  cases hr with
  | «show» | hide => exact Console.cursor?_cursor _
  | settle f | settled f => exact f.cursor?_step c
  | discard p => exact Console.cursor?_of_output_eq rfl
  | _ => rfl

theorem hasShown_step {r : Reader} {interrupted : Bool}
    (h : (r.step interrupted c).1.stage.hasShown = true) :
    r.stage.hasShown = true ∨ ∃ s, r.stage = .showing s := by
  obtain ⟨id, st⟩ := r
  cases st with
  | subscribing => cases h
  | «showing» s => exact .inr ⟨s, rfl⟩
  | _ => exact .inl rfl

theorem slot_of_hides {r : Reader} {interrupted : Bool}
    (h : (r.step interrupted c).1.stage.hides = true) :
    r.stage.hides = true ∨ (r.step interrupted c).2.slot = none := by
  obtain ⟨id, st⟩ := r
  cases st with
  | uninstalling o =>
    refine .inr ?_
    simpa [step, Stage.hides, Console.isPending] using h
  | leaving held idle o =>
    cases idle with
    | true => exact .inl rfl
    | false => cases h
  | «hiding» o => exact .inl rfl
  | installing s => cases hslot : c.slot <;> simp [step, hslot, Stage.hides] at h
  | superseding f => cases hf : (f.step c).1 <;> simp [step, hf, Stage.hides] at h
  | waiting =>
    cases hmail : receive? id c.mail <;> by_cases hd : id ∈ c.deserted <;>
      simp [step, hmail, hd, Stage.hides] at h
  | checking => cases interrupted <;> cases h
  | subscribing | showing | ended => cases h

theorem Steps.showing_of_installs (hr : Steps c id st st' c') (h : st'.installs = true) :
    ∃ s, st = .showing s := by
  cases hr with
  | «show» s => exact ⟨s, rfl⟩
  | discard p idle | leave idle => cases idle <;> cases h
  | _ => cases h

theorem keeps_step {r : Reader} (interrupted : Bool) (h : r.stage.keeps = true)
    (hturns : r.stage.turns = none) :
    (r.step interrupted c).1.stage.keeps = true ∨ ∃ p, c.slot = some p ∧ p.read ≠ r.id := by
  obtain ⟨id, st⟩ := r
  cases st with
  | uninstalling o =>
    cases hslot : c.slot with
    | none => exact .inl (by simp [step, Console.uninstall, Console.isPending, hslot, Stage.keeps])
    | some p =>
      by_cases hp : p.read = id
      · exact .inl (by simp [step, Console.uninstall, Console.isPending, hslot, hp, Stage.keeps])
      · exact .inr ⟨p, rfl, hp⟩
  | leaving held idle o =>
    obtain rfl : idle = true := h
    exact .inl rfl
  | «hiding» o => cases hturns
  | installing s => exact .inl (by cases hslot : c.slot <;> simp [step, hslot, Stage.keeps])
  | superseding f => exact .inl (by cases hf : (f.step c).1 <;> simp [step, hf, Stage.keeps])
  | waiting =>
    refine .inl ?_
    cases hmail : receive? id c.mail <;> by_cases hd : id ∈ c.deserted <;>
      simp [step, hmail, hd, Stage.keeps]
  | checking => exact .inl (by cases interrupted <;> rfl)
  | subscribing | showing | ended => cases h

/-- The read has still to begin, or waits and was sent nothing, or has ended. -/
def isStill (c : Console) (r : Reader) : Bool :=
  match r.stage with
  | .subscribing | .ended _ => true
  | .waiting | .checking => (receive? r.id c.mail).isNone
  | _ => false

end Reader

namespace Party

def isStill (c : Console) : Party → Bool
  | read r => r.isStill c
  | _ => true

/-- This is the read, and it is about to take the slot. -/
def installs (id : Nat) : Party → Bool
  | read r => r.id = id && r.stage.installs
  | _ => false

def hides : Party → Bool
  | read r => r.stage.hides
  | _ => false

/-- This is a read, and it has returned. -/
def hasEnded : Party → Bool
  | read r => r.outcome?.isSome
  | _ => false

def isTelling (e : Party) : Bool :=
  match e.closing? with
  | some (.telling ..) => true
  | _ => false

end Party

namespace Traffic

variable {t : Traffic} {i : Nat} {interrupted : Bool}

/-- The read is between showing the cursor and taking the slot while another one, which found
the slot empty, has still to hide the cursor. -/
def Crossed (t : Traffic) (read : Nat) : Prop :=
  (∃ e ∈ t.parties, e.installs read) ∧ ∃ e ∈ t.parties, e.hides

instance (t : Traffic) (read : Nat) : Decidable (t.Crossed read) :=
  inferInstanceAs (Decidable (_ ∧ _))

/-- Every read has still to begin, or waits and was sent nothing, or has ended. -/
def Still (t : Traffic) : Prop :=
  ∀ e ∈ t.parties, e.isStill t.console

instance (t : Traffic) : Decidable t.Still :=
  inferInstanceAs (Decidable (∀ e ∈ t.parties, _))

/-- Somebody has taken a read out of the slot and has still to tell it how it ended. -/
def IsTelling (t : Traffic) : Prop :=
  ∃ e ∈ t.parties, e.isTelling

instance (t : Traffic) : Decidable t.IsTelling :=
  inferInstanceAs (Decidable (∃ e ∈ t.parties, _))

structure Lit (t : Traffic) : Prop where
  seen : ∀ r, .read r ∈ t.parties → r.stage.hasShown = true → t.console.cursor? ≠ none
  kept : t.console.cursor? = some true → ∃ r, .read r ∈ t.parties ∧ r.stage.keeps = true

structure Steady (t : Traffic) (read : Nat) : Prop where
  pending : ∀ p, t.console.slot = some p → p.read = read → t.console.cursor? = some true ∧
    ∀ r, .read r ∈ t.parties → r.stage.hides = false
  installing : ∀ e ∈ t.parties, e.installs read = true → t.console.cursor? = some true

section Step

variable {e e' : Party} (he : t.parties[i]? = some e)
include he

theorem mem_step (h : e' ∈ (t.act (.step i interrupted)).parties) :
    e' = (e.step interrupted t.console).1 ∨ e' ∈ t.parties := by
  rw [parties_step he] at h
  exact (List.mem_or_eq_of_mem_set h).symm

theorem stepped_mem (interrupted : Bool) :
    (e.step interrupted t.console).1 ∈ (t.act (.step i interrupted)).parties := by
  rw [parties_step he]
  exact List.mem_set (List.getElem?_eq_some_iff.1 he).1 _

theorem mem_step_of_ne (h : e' ∈ t.parties) (hne : e' ≠ e) :
    e' ∈ (t.act (.step i interrupted)).parties := by
  obtain ⟨j, hj⟩ := List.mem_iff_getElem?.1 h
  have hij : i ≠ j := by
    rintro rfl
    exact hne (Option.some.inj (hj.symm.trans he))
  rw [parties_step he]
  exact List.mem_of_getElem? ((List.getElem?_set_ne hij).trans hj)

end Step

end Traffic

namespace Party

variable {c : Console} {e : Party} {interrupted : Bool}

def turns : Party → Option Bool
  | read r => r.stage.turns
  | _ => none

theorem cursor?_step (e : Party) (interrupted : Bool) (c : Console) :
    (e.step interrupted c).2.cursor? = e.turns.or c.cursor? := by
  cases e with
  | read r => exact (r.step_steps interrupted c).cursor?
  | delivery d =>
    cases hd : d.step c with
    | none => simp only [step, hd, turns, Option.none_or]
    | some dc => simpa only [step, hd, turns, Option.none_or] using (Delivery.step_steps hd).cursor?
  | cancellation f =>
    cases f with
    | none => rfl
    | some f => exact f.cursor?_step c

theorem cursor?_step_ne_none (h : c.cursor? ≠ none) :
    (e.step interrupted c).2.cursor? ≠ none := by
  rw [cursor?_step]
  cases e.turns with
  | none => exact h
  | some visible => exact nofun

theorem eq_of_turns_true (h : e.turns = some true) : ∃ id s, e = .read ⟨id, .showing s⟩ := by
  cases e with
  | read r =>
    obtain ⟨id, st⟩ := r
    cases st with
    | «showing» s => exact ⟨id, s, rfl⟩
    | _ => cases h
  | delivery | cancellation => cases h

theorem cursor?_step_eq_true (h : c.cursor? = some true)
    (hhides : ∀ r, e = .read r → r.stage.hides = false) :
    (e.step interrupted c).2.cursor? = some true := by
  rw [cursor?_step, h]
  cases e with
  | read r =>
    have hhides := hhides r rfl
    obtain ⟨id, st⟩ := r
    cases st with
    | «hiding» => cases hhides
    | _ => rfl
  | delivery | cancellation => rfl

theorem showing_of_installs {id : Nat}
    (h : (e.step interrupted c).1.installs id = true) :
    ∃ id s, e = .read ⟨id, .showing s⟩ := by
  cases e with
  | read r =>
    obtain ⟨s, hs⟩ := (r.step_steps interrupted c).showing_of_installs (Bool.and_eq_true_iff.1 h).2
    exact ⟨r.id, s, congrArg (fun st => read ⟨r.id, st⟩) hs⟩
  | delivery d =>
    simp only [step] at h
    split at h <;> cases h
  | cancellation f => cases f <;> cases h

theorem exists_read {r : Reader} (h : (e.step interrupted c).1 = .read r) :
    ∃ r', e = .read r' ∧ (r'.step interrupted c).1 = r := by
  cases e with
  | read r' => exact ⟨r', rfl, Party.read.inj h⟩
  | delivery d =>
    simp only [step] at h
    split at h <;> cases h
  | cancellation f => cases f <;> cases h

end Party

namespace Traffic

variable {t : Traffic} {i : Nat} {interrupted : Bool}

theorem Orderly.keeps_of_slot (h : t.Orderly) {p : Pending} (hp : t.console.slot = some p) :
    ∃ st : Reader.Stage, .read ⟨p.read, st⟩ ∈ t.parties ∧ st.keeps = true := by
  have hlegal := h.legal p.read
  have hslot : (t.readStatus p.read).slot = some p := by simp [readStatus, Console.readStatus, hp]
  cases hst : t.stages p.read with
  | nil => cases hslot.symm.trans (hlegal.unborn hst).1.slot
  | cons st rest =>
    have hmem : st ∈ t.stages p.read := hst ▸ List.mem_cons_self
    have hstands := hlegal.stands st hmem
    refine ⟨st, mem_stages.1 hmem, ?_⟩
    cases st with
    | subscribing | showing s => cases hslot.symm.trans hstands.1.slot
    | leaving held idle o | ended o => cases hslot.symm.trans hstands.2.1
    | _ => rfl

theorem Lit.step (h : t.Lit) (ho : t.Orderly) {e : Party} (he : t.parties[i]? = some e) :
    (t.act (.step i interrupted)).Lit := by
  have hmem : e ∈ t.parties := List.mem_of_getElem? he
  have hstepped := stepped_mem he interrupted
  constructor
  · intro r hr hshown
    rw [console_step he]
    rcases mem_step he hr with heq | hold
    · obtain ⟨r', rfl, rfl⟩ := Party.exists_read heq.symm
      rcases Reader.hasShown_step hshown with hs | ⟨s, hs⟩
      · exact Party.cursor?_step_ne_none (h.seen r' hmem hs)
      · rw [Party.cursor?_step, Party.turns, hs]
        exact nofun
    · exact Party.cursor?_step_ne_none (h.seen r hold hshown)
  · intro hcursor
    rw [console_step he, Party.cursor?_step, Option.or_eq_some_iff] at hcursor
    rcases hcursor with htrue | ⟨hnone, hcursor⟩
    · obtain ⟨id, s, rfl⟩ := Party.eq_of_turns_true htrue
      exact ⟨_, hstepped, rfl⟩
    · obtain ⟨r, hr, hkeeps⟩ := h.kept hcursor
      by_cases hre : Party.read r = e
      · subst hre
        rcases Reader.keeps_step interrupted hkeeps hnone with hkeeps | ⟨p, hp, hne⟩
        · exact ⟨_, hstepped, hkeeps⟩
        · obtain ⟨st, hst, hkeeps⟩ := ho.keeps_of_slot hp
          refine ⟨_, mem_step_of_ne he hst fun heq => hne ?_, hkeeps⟩
          rw [← Party.read.inj heq]
      · exact ⟨r, mem_step_of_ne he hr hre, hkeeps⟩

theorem Steady.step {read : Nat} (h : t.Steady read) (hcross : ¬t.Crossed read) {e : Party}
    (he : t.parties[i]? = some e) : (t.act (.step i interrupted)).Steady read := by
  have hmem : e ∈ t.parties := List.mem_of_getElem? he
  constructor
  · intro q hq hread
    rw [console_step he] at hq ⊢
    have hbefore : t.console.cursor? = some true ∧
        ∀ r, .read r ∈ t.parties → r.stage.hides = false := by
      rcases e.keeps_step (c := t.console) interrupted with hkeeps | ⟨id, s, rfl⟩
      · obtain ⟨p, hp, hpq⟩ := hkeeps.slot q hq
        exact h.pending p hp (hpq.trans hread)
      · obtain rfl := Option.some.inj hq
        have hinstalls : (Party.read ⟨id, .installing s⟩).installs read = true := by
          simpa [Party.installs, Reader.Stage.installs] using hread
        refine ⟨h.installing _ hmem hinstalls, fun r hr => ?_⟩
        exact Bool.eq_false_iff.2 fun hhides =>
          hcross ⟨⟨_, hmem, hinstalls⟩, .read r, hr, hhides⟩
    refine ⟨Party.cursor?_step_eq_true hbefore.1 ?_, fun r hr => ?_⟩
    · rintro r rfl
      exact hbefore.2 r hmem
    · rcases mem_step he hr with heq | hold
      · obtain ⟨r', rfl, rfl⟩ := Party.exists_read heq.symm
        refine Bool.eq_false_iff.2 fun hhides => ?_
        rcases Reader.slot_of_hides hhides with hhides | hnone
        · simp [hbefore.2 r' hmem] at hhides
        · cases hq.symm.trans hnone
      · exact hbefore.2 r hold
  · intro e' he' hinstalls
    rw [console_step he]
    rcases mem_step he he' with rfl | hold
    · obtain ⟨id, s, rfl⟩ := Party.showing_of_installs hinstalls
      exact Party.cursor?_step _ _ _
    · refine Party.cursor?_step_eq_true (h.installing e' hold hinstalls) ?_
      rintro r rfl
      exact Bool.eq_false_iff.2 fun hhides =>
        hcross ⟨⟨e', hold, hinstalls⟩, .read r, hmem, hhides⟩

theorem mem_begin {e e' : Party} {c : Console} (h : e' ∈ (t.begin e c).parties) :
    e' ∈ t.parties ∨ e' = e := by
  simpa [Traffic.begin] using h

theorem Lit.begin (h : t.Lit) {e : Party} {c : Console}
    (hc : c.cursor? = t.console.cursor?) (he : ∀ r, e = .read r → r.stage = .subscribing) :
    (t.begin e c).Lit where
  seen r hr hshown := by
    refine fun hnone => ?_
    rcases mem_begin hr with hr | hr
    · exact h.seen r hr hshown (hc.symm.trans hnone)
    · rw [he r hr.symm] at hshown
      cases hshown
  kept hcursor := by
    obtain ⟨r, hr, hkeeps⟩ := h.kept (hc.symm.trans hcursor)
    exact ⟨r, List.mem_append_left _ hr, hkeeps⟩

theorem Steady.begin {read : Nat} (h : t.Steady read) {e : Party} {c : Console}
    (hc : c.cursor? = t.console.cursor?) (hslot : ∀ p, c.slot = some p → t.console.slot = some p)
    (he : ∀ r, e = .read r → r.stage = .subscribing) : (t.begin e c).Steady read where
  pending p hp hread := by
    obtain ⟨hshown, hhides⟩ := h.pending p (hslot p hp) hread
    refine ⟨hc.trans hshown, fun r hr => ?_⟩
    rcases mem_begin hr with hr | hr
    · exact hhides r hr
    · rw [he r hr.symm]
      rfl
  installing e' he' hinstalls := by
    rcases mem_begin he' with hold | rfl
    · exact hc.trans (h.installing e' hold hinstalls)
    · cases e' with
      | read r => simp [Party.installs, he r rfl, Reader.Stage.installs] at hinstalls
      | delivery | cancellation => cases hinstalls

theorem lit_new : new.Lit := ⟨nofun, nofun⟩

theorem steady_new (read : Nat) : new.Steady read := ⟨nofun, nofun⟩

theorem Lit.act (h : t.Lit) (ho : t.Orderly) (a : Action) : (t.act a).Lit := by
  cases a with
  | read =>
    refine h.begin (Console.cursor?_of_output_eq rfl) ?_
    rintro r ⟨⟩
    rfl
  | key key => exact h.begin rfl nofun
  | cancel => exact h.begin (Console.cursor?_of_output_eq rfl) nofun
  | step i interrupted =>
    cases he : t.parties[i]? with
    | none => simpa only [Traffic.act, he] using h
    | some e => exact h.step ho he

theorem Steady.act {read : Nat} (h : t.Steady read) (hcross : ¬t.Crossed read) (a : Action) :
    (t.act a).Steady read := by
  cases a with
  | read =>
    refine h.begin (Console.cursor?_of_output_eq rfl) (fun _ hp => hp) ?_
    rintro r ⟨⟩
    rfl
  | key key => exact h.begin rfl (fun _ hp => hp) nofun
  | cancel => exact h.begin (Console.cursor?_of_output_eq rfl) nofun nofun
  | step i interrupted =>
    cases he : t.parties[i]? with
    | none => simpa only [Traffic.act, he] using h
    | some e => exact h.step hcross he

theorem lit_run (as : List Action) : (run as).Lit := by
  induction as using List.reverseRecOn with
  | nil => exact lit_new
  | append_singleton as a ih =>
    rw [run_append]
    exact ih.act (orderly_run as) a

theorem steady_run {read : Nat} {as : List Action}
    (hcross : ∀ first, first <+: as → ¬(run first).Crossed read) : (run as).Steady read := by
  induction as using List.reverseRecOn with
  | nil => exact steady_new read
  | append_singleton as a ih =>
    rw [run_append]
    have hprefix : as <+: as ++ [a] := List.prefix_append as [a]
    exact (ih fun first hf => hcross first (hf.trans hprefix)).act (hcross as hprefix) a

/-- A read that waits and was sent nothing is pending, unless somebody is about to tell it. -/
theorem isPending_of_waits {read : Nat} (hwaits : (t.readStatus read).Waits) (htold : ¬t.IsTelling)
    (hmail : (Reader.receive? read t.console.mail).isNone = true) :
    t.console.isPending = true := by
  have hnil : t.console.mail.filter (fun m => m.1 = read) = [] := by
    simpa [List.filter_eq_nil_iff] using
      Reader.receive?_eq_none.1 (Option.isNone_iff_eq_none.1 hmail)
  have hsent : t.sentTo read = [] := by
    have := hwaits.mail
    simpa [readStatus, Console.readStatus, hnil] using this.symm
  rcases hwaits.awaited hsent with hslot | ⟨p, o, howed⟩
  · obtain ⟨p, hp⟩ := Option.isSome_iff_exists.1 hslot
    exact Option.isSome_iff_exists.2 ⟨p, (Option.filter_eq_some_iff.1 hp).1⟩
  · obtain ⟨e, he, hf⟩ := List.mem_flatMap.1 howed
    refine absurd ⟨e, he, ?_⟩ htold
    cases hclosing : e.closing? with
    | none => simp [hclosing, ReadClosing.owed] at hf
    | some f =>
      simp only [hclosing, ReadClosing.owed] at hf
      split at hf
      case isTrue =>
        obtain rfl := List.mem_singleton.1 hf
        simp only [Party.isTelling, hclosing]
      case isFalse => cases hf

/-- In a still moment without a pending read the cursor is hidden, once a read has ended and
unless one is about to be told its end. -/
theorem Still.cursor_hidden {as : List Action} (h : (run as).Still) (htold : ¬(run as).IsTelling)
    (hidle : (run as).console.isPending = false) {r : Reader} (hr : .read r ∈ (run as).parties)
    (hended : r.outcome?.isSome) : (run as).console.cursor? = some false := by
  obtain ⟨o, ho⟩ := Option.isSome_iff_exists.1 hended
  have hseen := (lit_run as).seen r hr (by rw [stage_of_outcome? ho]; rfl)
  cases hcursor : (run as).console.cursor? with
  | none => exact absurd hcursor hseen
  | some visible =>
    cases visible with
    | false => rfl
    | true =>
      obtain ⟨⟨id, st⟩, hr', hkeeps⟩ := (lit_run as).kept hcursor
      have hstill := h _ hr'
      have hstands := (orderly_run as).stands hr'
      cases st with
      | waiting | checking =>
        have hpending := isPending_of_waits hstands.2 htold hstill
        cases hidle.symm.trans hpending
      | subscribing | «showing» | ended => cases hkeeps
      | installing | superseding | uninstalling | leaving | «hiding» => cases hstill

/-- While a read is pending the cursor is shown, unless the read was crossed; and in a still
moment without one it is hidden, once a read has ended and unless one is about to be told. -/
theorem cursor_follows_reads (as : List Action) :
    (∀ p, (run as).console.slot = some p →
      (∀ first, first <+: as → ¬(run first).Crossed p.read) →
      (run as).console.cursor? = some true) ∧
    ((run as).Still → ¬(run as).IsTelling → (run as).console.isPending = false →
      (∃ e ∈ (run as).parties, e.hasEnded) → (run as).console.cursor? = some false) := by
  refine ⟨fun p hp hcross => ?_, fun hstill htold hidle ⟨e, he, hended⟩ => ?_⟩
  · exact ((steady_run hcross).pending p hp rfl).1
  · cases e with
    | read r => exact hstill.cursor_hidden htold hidle he hended
    | delivery | cancellation => cases hended

theorem cursor_follows_reads_twice :
    let first := Action.read :: steps 0 3 ++ Action.key .enter :: steps 1 4 ++ steps 0 4
    let second := first ++ Action.read :: steps 2 3 ++ Action.read :: steps 3 5
    (run first).console.cursor? = some false ∧ (run second).console.cursor? = some true := by
  intro first second
  have hslot : (run second).console.slot = some ⟨3, .empty, 3⟩ := by
    decide +kernel
  have hcross : ∀ before ∈ second.inits, ¬(run before).Crossed 3 := by
    decide +kernel
  refine ⟨(cursor_follows_reads first).2 ?_ ?_ ?_ ?_, ?_⟩
  · decide +kernel
  · decide +kernel
  · decide +kernel
  · decide +kernel
  · exact (cursor_follows_reads second).1 _ hslot fun before hb =>
      hcross before ((List.mem_inits _ _).2 hb)

/-- A key ends the first read, and the second one shows the cursor and takes the slot before the
first one hides the cursor. And when a key has emptied the slot, and its line end is on the
screen, the cursor is still shown for a read that was not told yet. -/
theorem cursor_misleads :
    let t := run (Action.read :: steps 0 3 ++ Action.key .enter :: steps 1 4 ++ steps 0 2 ++
      Action.read :: steps 2 3 ++ steps 0 2)
    let u := run (Action.read :: steps 0 3 ++ Action.key .enter :: steps 1 4 ++ steps 0 4 ++
      Action.read :: steps 2 3 ++ Action.key .enter :: steps 3 2)
    (t.Still ∧ t.console.isPending = true ∧ t.console.cursor? = some false) ∧
    u.Still ∧ u.console.isPending = false ∧ (∃ e ∈ u.parties, e.hasEnded) ∧
      u.console.cursor? = some true ∧ u.console.output =
        #[.cursor true, .text "\r\n", .cursor false, .cursor true, .text "\r\n"] := by
  decide +kernel

end Traffic

end Stepwise
