import Stepwise.Proofs.Evaluator.Agreement
import Stepwise.Proofs.Machine.Observed
import Stepwise.Session.Worker

/-! Sources that run alone: nobody observes or interrupts them, and their console gives lines by
a script, that is, by what they did before. How far such a run gets is determined by the number
of its moves. -/

namespace Stepwise

open Host (Interaction Path)

/-- What a program is given when it asks for a line, by what it did before, latest first. -/
abbrev Script := List Interaction → Except Unwind String

def Script.console (script : Script) : Host.Console (List Interaction) where
  write text done := .wrote text :: done
  clear done := .cleared :: done
  line done := (script done, .asked (script done) :: done)

theorem Script.move_console {script : Script} {r r' : Run} {done done' : List Interaction}
    (h : script.console.quiet.move r done = .inr (r', done')) :
    done' = done ∨ ∃ x, done' = x :: done := by
  unfold Host.move at h
  split at h <;> cases h
  · exact .inl rfl
  · exact .inl rfl
  · exact .inl rfl
  · exact .inr ⟨_, rfl⟩
  · exact .inr ⟨_, rfl⟩
  · exact .inr ⟨_, rfl⟩

theorem Script.suffix_of_path {script : Script} {P : Run → Prop} {k : Nat} {r r' : Run}
    {done done' : List Interaction} (h : Path script.console.quiet P k r done r' done') :
    done <:+ done' := by
  induction h with
  | refl => exact List.suffix_rfl
  | step _ hm _ ih =>
    rcases move_console hm with rfl | ⟨x, rfl⟩
    · exact ih
    · exact (List.suffix_cons x _).trans ih

/-- Runs that are the same but for who observes them. -/
structure Brief.Alike (b b' : Brief) : Prop where
  source : b.job.source = b'.job.source
  name : b.job.name = b'.job.name
  files : b.files = b'.files
  recursionLimit : b.recursionLimit = b'.recursionLimit

variable {script : Script} {b b' : Brief} {k k' : Nat} {r r' : Run} {done done' : List Interaction}

def Alone (script : Script) (b : Brief) (k : Nat) (r : Run) (done : List Interaction) : Prop :=
  ∃ chunk, Code.compile b.job.name b.job.source = .ok chunk ∧
    Path script.console.quiet (fun _ => True) k (.start (.new b.recursionLimit 1) chunk) [] r done

inductive Comes (script : Script) (b : Brief) : Nat → Arena → Outcome → List Interaction → Prop
  | rejected {e : Source.SyntaxError} (h : Code.compile b.job.name b.job.source = .error e) :
    Comes script b 0 (.new .empty) (.failed (.ofSyntaxError e b.job.name b.files)) []
  | ended {k : Nat} {r : Run} {ending : Ending} {done : List Interaction}
    (h : Alone script b k r done) (hp : r.phase = .ended ending) :
    Comes script b k r.machine.arena (.ofEnding b.files ending) done

namespace Alone

theorem congr (hb : b.Alike b') (h : Alone script b k r done) : Alone script b' k r done := by
  obtain ⟨chunk, hc, hpath⟩ := h
  rw [hb.source, hb.name] at hc
  rw [hb.recursionLimit] at hpath
  exact ⟨chunk, hc, hpath⟩

theorem move (h : Alone script b k r done)
    (hm : script.console.quiet.move r done = .inr (r', done')) :
    Alone script b (k + 1) r' done' := by
  obtain ⟨chunk, hc, hpath⟩ := h
  exact ⟨chunk, hc, hpath.trans (.single trivial hm)⟩

theorem sane (h : Alone script b k r done) : script.console.Sane r := by
  obtain ⟨chunk, hc, hpath⟩ := h
  obtain ⟨body, hparse, hchunk⟩ := Code.exists_of_bind_eq_ok hc
  let s : Evaluator.Store (List Interaction) := ⟨none, .empty, 1, []⟩
  have hs : Evaluator.Agrees s (.new b.recursionLimit 1) :=
    Evaluator.agrees_new b.recursionLimit .empty
  exact Evaluator.sane_of_path hchunk (Source.proper_parse hparse) hs hpath

section Moves

theorem advance (h : Alone script b k r.quieted done)
    (hn : r.need = .nothing ∨ ∃ event aux, r.need = .control event aux) :
    Alone script b (k + 1) r.advance.quieted done := by
  refine h.move ?_
  rw [Host.move, Run.need_quieted hn, Run.advance_quieted]

theorem polled (h : Alone script b k r.quieted done) (hn : r.need = .cell) :
    Alone script b (k + 1) (r.polled false).quieted done := by
  refine h.move ?_
  rw [Host.move, Run.need_quieted_of_cell hn, ← Run.polled_quieted]
  rfl

theorem wrote {text : String} (h : Alone script b k r.quieted done) (hn : r.need = .write text) :
    Alone script b (k + 1) r.shown.quieted (.wrote text :: done) := by
  refine h.move ?_
  rw [Host.move, Run.need_quieted_of_write hn, ← Run.shown_quieted]
  rfl

theorem cleared (h : Alone script b k r.quieted done) (hn : r.need = .clear) :
    Alone script b (k + 1) r.shown.quieted (.cleared :: done) := by
  refine h.move ?_
  rw [Host.move, Run.need_quieted_of_clear hn, ← Run.shown_quieted]
  rfl

theorem asked (h : Alone script b k r.quieted done) (hp : r.phase = .read) :
    Alone script b (k + 1) (r.received (script done)).quieted (.asked (script done) :: done) := by
  refine h.move ?_
  have hquieted : r.quieted.phase = .read := hp
  rw [Host.move_read script.console hquieted, ← Run.received_quieted]
  rfl

end Moves

theorem path (h : Alone script b k r done) (h' : Alone script b k' r' done') (hk : k ≤ k') :
    Path script.console.quiet (fun _ => True) (k' - k) r done r' done' := by
  obtain ⟨chunk, hc, hpath⟩ := h
  obtain ⟨chunk', hc', hpath'⟩ := h'
  rw [hc] at hc'
  cases hc'
  exact hpath'.rest hpath hk

theorem le_of_ended {ending : Ending} (h : Alone script b k r done) (hp : r.phase = .ended ending)
    (h' : Alone script b k' r' done') : k' ≤ k := by
  by_contra hlt
  have hpath := h.path h' (by omega)
  obtain ⟨n, hn⟩ : ∃ n, k' - k = n + 1 := ⟨k' - k - 1, by omega⟩
  rw [hn] at hpath
  cases hpath with
  | step _ hm _ =>
    rw [Host.move_ended script.console hp] at hm
    cases hm

end Alone

namespace Comes

variable {arena arena' : Arena} {o o' : Outcome}

theorem congr (hb : b.Alike b') (h : Comes script b k arena o done) :
    Comes script b' k arena o done := by
  cases h with
  | @rejected e he =>
    rw [hb.source, hb.name] at he
    rw [hb.name, hb.files]
    exact .rejected he
  | ended h hp =>
    rw [hb.files]
    exact .ended (h.congr hb) hp

theorem of_alone (h : Comes script b k arena o done) (h' : Alone script b k' r' done') :
    k' ≤ k ∧ done' <:+ done := by
  cases h with
  | rejected he =>
    obtain ⟨chunk, hc, -⟩ := h'
    rw [he] at hc
    cases hc
  | ended h hp =>
    have hle := h.le_of_ended hp h'
    exact ⟨hle, Script.suffix_of_path (h'.path h hle)⟩

theorem unique (h : Comes script b k arena o done) (h' : Comes script b k' arena' o' done') :
    k = k' ∧ arena = arena' ∧ o = o' ∧ done = done' := by
  cases h with
  | rejected he =>
    cases h' with
    | rejected he' =>
      rw [he] at he'
      cases he'
      exact ⟨rfl, rfl, rfl, rfl⟩
    | ended h' _ =>
      obtain ⟨chunk, hc, -⟩ := h'
      rw [he] at hc
      cases hc
  | @ended _ r ending _ h hp =>
    cases h' with
    | rejected he =>
      obtain ⟨chunk, hc, -⟩ := h
      rw [he] at hc
      cases hc
    | @ended _ r' ending' _ h' hp' =>
      obtain rfl : k = k' := Nat.le_antisymm (h'.le_of_ended hp' h) (h.le_of_ended hp h')
      have hpath := h.path h' (Nat.le_refl k)
      rw [Nat.sub_self] at hpath
      cases hpath
      rw [hp] at hp'
      cases hp'
      exact ⟨rfl, rfl, rfl, rfl⟩

end Comes

end Stepwise
