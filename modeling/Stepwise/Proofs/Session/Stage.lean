import Mathlib.Data.List.Range
import Stepwise.Proofs.Session.System

/-! The order in which the notes of a run may come. A stage counts the pauses that were told and
knows what became of the last one; a note leads from one stage to the next. What is in order
follows from that for all notes of a run at once: how pauses are numbered, what each of them
lived through, and what is last. -/

namespace Stepwise

namespace Note

def published? : Note → Option Nat
  | published k => some k
  | _ => none

def isAbout (k : Nat) : Note → Bool
  | published j | accepted j _ | consumed j _ | withdrawn j => j = k
  | _ => false

/-- What the program does with its console. -/
def did? : Note → Option Host.Interaction
  | did x => some x
  | _ => none

end Note

/-- The next pause may be told; the last one is told and not answered; an answer to it was accepted;
no more pauses come, and an answer to the last one may still be accepted if that is `late`; the run
has ended. -/
inductive Stage.Stand
  | free
  | told
  | answered (d : Decision)
  | shut (late : Bool)
  | finished

structure Stage where
  count : Nat
  stand : Stage.Stand

namespace Stage

def first : Stage := ⟨0, .free⟩

def afterAnswer : Decision → Stand
  | .continueStepping => .free
  | .stopDebugging => .shut false

inductive Leads : Stage → Note → Stage → Prop
  | published (k : Nat) : Leads ⟨k, .free⟩ (.published (k + 1)) ⟨k + 1, .told⟩
  | accepted (k : Nat) (d : Decision) : Leads ⟨k, .told⟩ (.accepted k d) ⟨k, .answered d⟩
  | late (k : Nat) (d : Decision) : Leads ⟨k, .shut true⟩ (.accepted k d) ⟨k, .shut false⟩
  | consumed (k : Nat) (d : Decision) :
    Leads ⟨k, .answered d⟩ (.consumed k d) ⟨k, afterAnswer d⟩
  | withdrawn (k : Nat) : Leads ⟨k, .told⟩ (.withdrawn k) ⟨k, .shut true⟩
  | outweighed (k : Nat) (d : Decision) :
    Leads ⟨k, .answered d⟩ (.withdrawn k) ⟨k, .shut false⟩
  | ended (k : Nat) (o : Outcome) : Leads ⟨k, .free⟩ (.terminated o) ⟨k, .finished⟩
  | shutDown (k : Nat) (late : Bool) (o : Outcome) :
    Leads ⟨k, .shut late⟩ (.terminated o) ⟨k, .finished⟩
  | refused (st : Stage) : Leads st (.refused .noPendingPause) st
  | did (st : Stage) (x : Host.Interaction) : Leads st (.did x) st
  | executed (st : Stage) (i : Code.Instr) (depth : Nat) : Leads st (.executed i depth) st
  | raised (st : Stage) (cause : Exception.Cause) : Leads st (.raised cause) st
  | interrupted (st : Stage) : Leads st .interrupted st

inductive Runs : Stage → List Note → Stage → Prop
  | nil (st : Stage) : Runs st [] st
  | cons {st st' st'' : Stage} {n : Note} {log : List Note} (hn : Leads st n st')
    (h : Runs st' log st'') : Runs st (n :: log) st''

theorem Runs.single {st st' : Stage} {n : Note} (h : Leads st n st') : Runs st [n] st' :=
  .cons h (.nil st')

theorem Runs.append {st st' st'' : Stage} {k l : List Note} (hk : Runs st k st')
    (hl : Runs st' l st'') : Runs st (k ++ l) st'' := by
  induction hk with
  | nil => exact hl
  | cons hn _ ih => exact .cons hn (ih hl)

theorem Runs.split {st st'' : Stage} {k l : List Note} (h : Runs st (k ++ l) st'') :
    ∃ st', Runs st k st' ∧ Runs st' l st'' := by
  induction k generalizing st with
  | nil => exact ⟨st, .nil st, h⟩
  | cons n k ih =>
    cases h with
    | cons hn h =>
      obtain ⟨st', hk, hl⟩ := ih h
      exact ⟨st', .cons hn hk, hl⟩

def Closed (st : Stage) : Prop :=
  (∃ late, st.stand = .shut late) ∨ st.stand = .finished

theorem Leads.closed {st st' : Stage} {n : Note} (h : Leads st n st') (hst : st.Closed) :
    st'.Closed ∧ n.published? = none := by
  rcases hst with ⟨late, hst⟩ | hst <;> cases h <;> simp_all [Closed, Note.published?]

theorem Runs.closed {st st' : Stage} {log : List Note} (h : Runs st log st') (hst : st.Closed) :
    ∀ k, .published k ∉ log := by
  induction h with
  | nil => simp
  | cons hn _ ih =>
    obtain ⟨hclosed, hnone⟩ := hn.closed hst
    intro k hk
    rcases List.mem_cons.1 hk with rfl | hk
    · cases hnone
    · exact ih hclosed k hk

theorem Leads.finished {st st' : Stage} {n : Note} (h : Leads st n st')
    (hst : st.stand = .finished) :
    st'.stand = .finished ∧ ∀ o, n ≠ .terminated o := by
  cases h <;> simp_all

theorem Runs.finished {st st' : Stage} {log : List Note} (h : Runs st log st')
    (hst : st.stand = .finished) : st'.stand = .finished ∧ ∀ o, .terminated o ∉ log := by
  induction h with
  | nil => exact ⟨hst, by simp⟩
  | cons hn _ ih =>
    obtain ⟨hfinished, hne⟩ := hn.finished hst
    refine ⟨(ih hfinished).1, fun o ho => ?_⟩
    rcases List.mem_cons.1 ho with rfl | ho
    · exact hne o rfl
    · exact (ih hfinished).2 o ho

/-- All that can be noted of a pause that has ended. -/
inductive Ended (k : Nat) : List Note → Prop
  | consumed (d : Decision) : Ended k [.published k, .accepted k d, .consumed k d]
  | withdrawn : Ended k [.published k, .withdrawn k]
  | late (d : Decision) : Ended k [.published k, .withdrawn k, .accepted k d]
  | outweighed (d : Decision) : Ended k [.published k, .accepted k d, .withdrawn k]

theorem Ended.of_accepted {k : Nat} {l : List Note} {d : Decision}
    (h : Ended k l) (hd : .accepted k d ∈ l) :
    .consumed k d ∈ l ∨ .withdrawn k ∈ l := by
  cases h <;> simp_all

def stepped (k : Nat) : List Note :=
  [.published k, .accepted k .continueStepping, .consumed k .continueStepping]

inductive Story (st : Stage) (k : Nat) : List Note → Prop
  | none (h : k = 0 ∨ st.count < k) : Story st k []
  | past (h : 0 < k) (hk : k < st.count) : Story st k (stepped k)
  | free (h : 0 < k) (hk : k = st.count) (hst : st.stand = .free) : Story st k (stepped k)
  | told (h : 0 < k) (hk : k = st.count) (hst : st.stand = .told) : Story st k [.published k]
  | answered (h : 0 < k) (hk : k = st.count) {d : Decision} (hst : st.stand = .answered d) :
    Story st k [.published k, .accepted k d]
  | open (h : 0 < k) (hk : k = st.count) (hst : st.stand = .shut true) :
    Story st k [.published k, .withdrawn k]
  | ended (h : 0 < k) (hk : k = st.count) {l : List Note} (hst : st.stand = .shut false)
    (hl : Ended k l) : Story st k l
  | finished (h : 0 < k) (hk : k = st.count) {l : List Note} (hst : st.stand = .finished)
    (hl : Ended k l) : Story st k l

namespace Story

variable {st st' : Stage} {k : Nat} {l : List Note}

theorem of_ne (h : Story st k l) (hk : k ≠ st.count) (hc : st'.count = st.count) :
    Story st' k l := by
  cases h with
  | none h => exact .none (hc ▸ h)
  | past h hk' => exact .past h (hc ▸ hk')
  | free _ h | told _ h | answered _ h | «open» _ h | ended _ h | finished _ h => exact absurd h hk

theorem eq_nil (h : Story st k l) (hk : st.count < k) : l = [] := by
  cases h <;> first | rfl | omega

theorem toTold {c : Nat} (h : Story ⟨c, .free⟩ k l) (hk : k ≠ c + 1) :
    Story ⟨c + 1, .told⟩ k l := by
  cases h with
  | none h => exact .none (h.imp_right fun h => Nat.lt_of_le_of_ne h hk.symm)
  | past h hk => exact .past h (Nat.lt_succ_of_lt hk)
  | free h hk => exact .past h (Nat.lt_succ_of_le (Nat.le_of_eq hk))
  | told _ _ h | answered _ _ h | «open» _ _ h | ended _ _ h | finished _ _ h => cases h

theorem eq_told (h : Story st st.count l) (hst : st.stand = .told) (hpos : 0 < st.count) :
    l = [.published st.count] := by
  cases h <;> first | rfl | omega | simp_all

theorem eq_answered {d : Decision} (h : Story st st.count l) (hst : st.stand = .answered d)
    (hpos : 0 < st.count) : l = [.published st.count, .accepted st.count d] := by
  cases h <;> first | rfl | omega | simp_all

theorem eq_open (h : Story st st.count l) (hst : st.stand = .shut true) (hpos : 0 < st.count) :
    l = [.published st.count, .withdrawn st.count] := by
  cases h <;> first | rfl | omega | simp_all

theorem ended_of_finished (h : Story st k l) (hst : st.stand = .finished) (hpos : 0 < k)
    (hk : k ≤ st.count) : Ended k l := by
  cases h with
  | none h => omega
  | past => exact .consumed .continueStepping
  | free _ _ h | told _ _ h | answered _ _ h | «open» _ _ h | ended _ _ h =>
    rw [hst] at h
    cases h
  | finished _ _ _ hl => exact hl

/-- An accepted answer that is neither consumed nor outweighed is the one to the last pause. -/
theorem of_accepted {d : Decision} (h : Story st k l) (hd : .accepted k d ∈ l) :
    (.consumed k d ∈ l ∨ .withdrawn k ∈ l) ∨ k = st.count ∧ st.stand = .answered d := by
  cases h with
  | none | told | «open» => simp at hd
  | past | free => simp_all [stepped]
  | answered _ hk hst =>
    obtain rfl : d = _ := by simpa using hd
    exact .inr ⟨hk, hst⟩
  | ended _ _ _ hl | finished _ _ _ hl => exact .inl (hl.of_accepted hd)

theorem toFinished {c : Nat} {stand : Stand} (h : Story ⟨c, stand⟩ k l)
    (hst : stand = .free ∨ ∃ late, stand = .shut late) : Story ⟨c, .finished⟩ k l := by
  cases h with
  | none h => exact .none h
  | past h hk => exact .past h hk
  | free h hk => exact .finished h (show k = c from hk) rfl (.consumed .continueStepping)
  | «open» h hk => exact .finished h (show k = c from hk) rfl .withdrawn
  | ended h hk _ hl => exact .finished h (show k = c from hk) rfl hl
  | told _ _ h | answered _ _ h | finished _ _ h => simp_all

end Story

structure Account (log : List Note) (st : Stage) : Prop where
  count_pos : st.stand = .free ∨ st.stand = .finished ∨ 0 < st.count
  numbered : log.filterMap Note.published? = List.range' 1 st.count
  story : ∀ k, Story st k (log.filter (Note.isAbout k))

namespace Account

variable {log : List Note} {st st' : Stage} {n : Note}

theorem nil : Account [] first where
  count_pos := .inl rfl
  numbered := rfl
  story k := .none (Nat.eq_zero_or_pos k)

theorem concat_side (h : Account log st)
    (hpos : st'.stand = .free ∨ st'.stand = .finished ∨ 0 < st'.count)
    (hn : n.published? = none) (hk : ∀ k, n.isAbout k = false) (hc : st'.count = st.count)
    (hstory : ∀ k l, Story st k l → Story st' k l) : Account (log ++ [n]) st' where
  count_pos := hpos
  numbered := by simp [h.numbered, hn, hc]
  story k := by simpa [hk k] using hstory k _ (h.story k)

theorem concat_last (h : Account log st) (hpos : 0 < st'.count) (hn : n.published? = none)
    (hk : ∀ k, n.isAbout k = decide (st.count = k)) (hc : st'.count = st.count)
    (hstory : ∀ l, Story st st.count l → Story st' st.count (l ++ [n])) :
    Account (log ++ [n]) st' where
  count_pos := .inr (.inr hpos)
  numbered := by simp [h.numbered, hn, hc]
  story k := by
    rw [List.filter_append]
    by_cases he : st.count = k
    · subst he
      simpa [hk] using hstory _ (h.story st.count)
    · simpa [hk, he] using (h.story k).of_ne (Ne.symm he) hc

theorem concat (h : Account log st) (hn : Leads st n st') : Account (log ++ [n]) st' := by
  cases hn with
  | published k =>
    refine ⟨.inr (.inr k.succ_pos), ?_, fun j => ?_⟩
    · simp [h.numbered, Note.published?, List.range'_1_concat, Nat.add_comm 1 k]
    · rw [List.filter_append]
      by_cases he : k + 1 = j
      · subst he
        have htold : Story ⟨k + 1, .told⟩ (k + 1) [.published (k + 1)] := .told k.succ_pos rfl rfl
        rw [(h.story (k + 1)).eq_nil k.lt_succ_self]
        simpa [Note.isAbout] using htold
      · simpa [Note.isAbout, he] using (h.story j).toTold (Ne.symm he)
  | accepted k d =>
    have hpos : 0 < k := by simpa using h.count_pos
    refine h.concat_last hpos rfl (fun _ => rfl) rfl fun l hl => ?_
    rw [hl.eq_told rfl hpos]
    exact .answered hpos rfl rfl
  | late k d =>
    have hpos : 0 < k := by simpa using h.count_pos
    refine h.concat_last hpos rfl (fun _ => rfl) rfl fun l hl => ?_
    rw [hl.eq_open rfl hpos]
    exact .ended hpos rfl rfl (.late d)
  | consumed k d =>
    have hpos : 0 < k := by simpa using h.count_pos
    refine h.concat_last hpos rfl (fun _ => rfl) rfl fun l hl => ?_
    rw [hl.eq_answered rfl hpos]
    cases d with
    | continueStepping => exact .free hpos rfl rfl
    | stopDebugging => exact .ended hpos rfl rfl (.consumed .stopDebugging)
  | withdrawn k =>
    have hpos : 0 < k := by simpa using h.count_pos
    refine h.concat_last hpos rfl (fun _ => rfl) rfl fun l hl => ?_
    rw [hl.eq_told rfl hpos]
    exact .open hpos rfl rfl
  | outweighed k d =>
    have hpos : 0 < k := by simpa using h.count_pos
    refine h.concat_last hpos rfl (fun _ => rfl) rfl fun l hl => ?_
    rw [hl.eq_answered rfl hpos]
    exact .ended hpos rfl rfl (.outweighed d)
  | ended k o =>
    exact h.concat_side (.inr (.inl rfl)) rfl (fun _ => rfl) rfl
      fun _ _ hl => hl.toFinished (.inl rfl)
  | shutDown k late o =>
    exact h.concat_side (.inr (.inl rfl)) rfl (fun _ => rfl) rfl fun _ _ hl =>
      hl.toFinished (.inr ⟨late, rfl⟩)
  | refused | did | executed | raised | interrupted =>
    exact h.concat_side h.count_pos rfl (fun _ => rfl) rfl fun _ _ hl => hl

end Account

theorem Runs.account {log : List Note} {st : Stage} (h : Runs first log st) : Account log st := by
  -- a note comes last, while a run of stages begins with its first one
  induction log using List.reverseRecOn generalizing st with
  | nil =>
    cases h
    exact .nil
  | append_singleton log n ih =>
    obtain ⟨st', hlog, hn⟩ := h.split
    cases hn with
    | cons hn hnil =>
      cases hnil
      exact (ih hlog).concat hn

theorem Runs.of_accepted {log : List Note} {st : Stage} {k : Nat} {d : Decision}
    (h : Runs first log st) (hd : .accepted k d ∈ log) :
    (.consumed k d ∈ log ∨ .withdrawn k ∈ log) ∨ k = st.count ∧ st.stand = .answered d := by
  have hstory := (h.account.story k).of_accepted (List.mem_filter.2 ⟨hd, by simp [Note.isAbout]⟩)
  exact hstory.imp_left (Or.imp List.mem_of_mem_filter List.mem_of_mem_filter)

theorem Runs.exists_of_append_cons {st st' : Stage} {pre post : List Note} {n : Note}
    (h : Runs st (pre ++ n :: post) st') :
    ∃ st₁ st₂, Runs st pre st₁ ∧ Leads st₁ n st₂ ∧ Runs st₂ post st' := by
  obtain ⟨st₁, hpre, h⟩ := h.split
  cases h with
  | cons hn hpost => exact ⟨st₁, _, hpre, hn, hpost⟩

theorem Runs.exists_of_mem {st st' : Stage} {log : List Note} {n : Note} (h : Runs st log st')
    (hn : n ∈ log) : ∃ st₁ st₂, Leads st₁ n st₂ := by
  obtain ⟨pre, post, rfl⟩ := List.append_of_mem hn
  obtain ⟨st₁, st₂, -, hn, -⟩ := h.exists_of_append_cons
  exact ⟨st₁, st₂, hn⟩

theorem Runs.stand_of_mem_terminated {st st' : Stage} {log : List Note} {o : Outcome}
    (h : Runs st log st') (ho : .terminated o ∈ log) : st'.stand = .finished := by
  obtain ⟨pre, post, rfl⟩ := List.append_of_mem ho
  obtain ⟨st₁, st₂, -, hn, hpost⟩ := h.exists_of_append_cons
  have hfinished : st₂.stand = .finished := by
    cases hn <;> rfl
  exact (hpost.finished hfinished).1

theorem Runs.terminated_mem {st st' : Stage} {log : List Note} (h : Runs st log st')
    (hst : st.stand ≠ .finished) (hfinished : st'.stand = .finished) :
    ∃ o, .terminated o ∈ log := by
  induction h with
  | nil => exact (hst hfinished).elim
  | @cons st st₁ st' n log hn _ ih =>
    by_cases h₁ : st₁.stand = .finished
    · cases hn with
      | ended _ o | shutDown _ _ o => exact ⟨o, List.mem_cons_self⟩
      | refused | did | executed | raised | interrupted => exact (hst h₁).elim
      | published | accepted | late | withdrawn | outweighed => cases h₁
      | consumed k d => cases d <;> cases h₁
    · obtain ⟨o, ho⟩ := ih h₁ hfinished
      exact ⟨o, List.mem_cons_of_mem _ ho⟩

/-- All that can be noted of a pause, up to any moment. -/
inductive Life (k : Nat) : List Note → Prop
  | none : Life k []
  | told : Life k [.published k]
  | answered (d : Decision) : Life k [.published k, .accepted k d]
  | ended {l : List Note} (h : Ended k l) : Life k l

theorem Story.life {st : Stage} {k : Nat} {l : List Note} (h : Story st k l) : Life k l := by
  cases h with
  | none => exact .none
  | told => exact .told
  | answered => exact .answered _
  | past | free => exact .ended (.consumed .continueStepping)
  | «open» => exact .ended .withdrawn
  | ended _ _ _ hl | finished _ _ _ hl => exact .ended hl

/-- What is true of the notes of a run, whether it has ended or not. Pauses are numbered from one,
in order, and before a further pause the one before it was answered and the run stepped on. An
answer is accepted once, and consumed by the pause that it was given to unless that ends as
cancelled. No pause is left when the run ends, none comes after one that ended the stepping, and
nothing is told after the end. The gate is free for every pause, and an answer is refused only if
its pause has ended. -/
structure Protocol (log : List Note) : Prop where
  numbered : ∃ n, log.filterMap Note.published? = List.range' 1 n
  steppedOn : ∀ pre k post, log = pre ++ .published (k + 1) :: post → 0 < k →
    pre.filter (Note.isAbout k) = stepped k
  life : ∀ k, Life k (log.filter (Note.isAbout k))
  settled : ∀ o, .terminated o ∈ log → ∀ k, .published k ∈ log →
    Ended k (log.filter (Note.isAbout k))
  stopped : ∀ pre k post, log = pre ++ .consumed k .stopDebugging :: post →
    ∀ j, .published j ∉ post
  last : ∀ pre o post, log = pre ++ .terminated o :: post →
    (∀ j, .published j ∉ post) ∧ ∀ o', .terminated o' ∉ post
  unbroken : ∀ e, .broken e ∉ log
  refused : ∀ e, .refused e ∈ log → e = .noPendingPause

theorem Protocol.terminated_unique {log : List Note} (h : Protocol log) {o o' : Outcome}
    (ho : .terminated o ∈ log) (ho' : .terminated o' ∈ log) : o = o' := by
  obtain ⟨pre, post, rfl⟩ := List.append_of_mem ho
  rcases List.mem_append.1 ho' with hpre | hpost
  · obtain ⟨pre', post', rfl⟩ := List.append_of_mem hpre
    refine ((h.last pre' o' (post' ++ .terminated o :: post) ?_).2 o (by simp)).elim
    simp
  · rcases List.mem_cons.1 hpost with he | hpost
    · cases he
      rfl
    · exact ((h.last pre o post rfl).2 o' hpost).elim

theorem Runs.protocol {log : List Note} {st : Stage} (h : Runs first log st) : Protocol log where
  numbered := ⟨st.count, h.account.numbered⟩
  steppedOn := by
    rintro pre k post rfl hk
    obtain ⟨st₁, st₂, hpre, hn, -⟩ := h.exists_of_append_cons
    cases hn
    have hstory := hpre.account.story k
    generalize pre.filter (Note.isAbout k) = l at hstory
    cases hstory with
    | none h => exact absurd h (by simp; omega)
    | past => rfl
    | free => rfl
    | told _ _ h | answered _ _ h | «open» _ _ h | ended _ _ h | finished _ _ h => cases h
  life k := (h.account.story k).life
  settled := by
    intro o ho k hk
    have haccount := h.account
    have hcount : k ∈ List.range' 1 st.count :=
      haccount.numbered ▸ List.mem_filterMap.2 ⟨_, hk, rfl⟩
    obtain ⟨hpos, hle⟩ := List.mem_range'_1.1 hcount
    exact (haccount.story k).ended_of_finished (h.stand_of_mem_terminated ho) hpos (by omega)
  stopped := by
    rintro pre k post rfl
    obtain ⟨st₁, st₂, -, hn, hpost⟩ := h.exists_of_append_cons
    cases hn
    exact hpost.closed (.inl ⟨false, rfl⟩)
  last := by
    rintro pre o post rfl
    obtain ⟨st₁, st₂, -, hn, hpost⟩ := h.exists_of_append_cons
    have hfinished : st₂.stand = .finished := by
      cases hn <;> rfl
    exact ⟨hpost.closed (.inr hfinished), (hpost.finished hfinished).2⟩
  unbroken e he := by
    obtain ⟨st₁, st₂, hn⟩ := h.exists_of_mem he
    cases hn
  refused e he := by
    obtain ⟨st₁, st₂, hn⟩ := h.exists_of_mem he
    cases hn
    rfl

end Stage

end Stepwise
