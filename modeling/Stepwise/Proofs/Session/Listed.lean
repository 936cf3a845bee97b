import Stepwise.Proofs.Session.Transparent

/-! A console that reads a list of lines. What a source comes to on it, run by a machine alone,
is what a run in a session comes to whose reads get these lines in their order, and the end of the
input after them. -/

namespace Stepwise

open Host (Interaction Path)

/-- What the read of this number gives, counted from zero. -/
def lineAt (lines : List String) (k : Nat) : Except Unwind String :=
  match lines[k]? with
  | some line => .ok line
  | none => .error (.raise .endOfInput)

namespace Host

def Interaction.answer? : Interaction → Option (Except Unwind String)
  | asked answer => some answer
  | _ => none

def Console.listed : Console (List String) where
  write _ lines := lines
  clear lines := lines
  line
    | [] => (.error (.raise .endOfInput), [])
    | line :: lines => (.ok line, lines)

theorem listed_line (lines : List String) (k : Nat) :
    Console.listed.line (lines.drop k) = (lineAt lines k, lines.drop (k + 1)) := by
  rw [← List.tail_drop, lineAt, ← List.head?_drop]
  cases lines.drop k with
  | nil => rfl
  | cons line rest => rfl

section Map

variable {σ τ : Type} {h : Host σ} {g : Host τ} {f : σ → τ}

/-- Hosts that answer alike, where one sees of the outside what `f` makes of it, finish alike. -/
theorem finish_map
    (hmove : ∀ r w, g.move r (f w) = (h.move r w).map id fun (r, w) => (r, f w)) (fuel : Nat)
    (r : Run) (w : σ) :
    g.finish fuel r (f w) =
      ((h.finish fuel r w).1, (h.finish fuel r w).2.1, f (h.finish fuel r w).2.2) := by
  induction fuel generalizing r w with
  | zero => rfl
  | succ fuel ih =>
    rw [finish, finish, hmove]
    cases h.move r w with
    | inl ending => rfl
    | inr next => exact ih next.1 next.2

end Map

end Host

def Script.listed (lines : List String) : Script := fun done =>
  lineAt lines (done.filterMap Interaction.answer?).length

/-- What a source comes to when a machine runs it alone on a console that reads these lines, and
all that it does there, if so much fuel is enough. -/
def Brief.listed (b : Brief) (lines : List String) (fuel : Nat) :
    Option (Outcome × List Interaction) :=
  match Code.compile b.job.name b.job.source with
  | .error e => some (.failed (.ofSyntaxError e b.job.name b.files), [])
  | .ok chunk =>
    match Host.Console.listed.recorded.quiet.finish fuel (.start (.new b.recursionLimit 1) chunk)
        (lines, []) with
    | (some ending, _, _, done) => some (.ofEnding b.files ending, done.reverse)
    | (none, _) => none

variable {lines : List String} {b : Brief}

theorem move_listed (lines : List String) (r : Run) (done : List Interaction) :
    Host.Console.listed.recorded.quiet.move r
        (lines.drop (done.filterMap Interaction.answer?).length, done) =
      ((Script.listed lines).console.quiet.move r done).map id fun (r, done) =>
        (r, lines.drop (done.filterMap Interaction.answer?).length, done) := by
  unfold Host.move
  split
  · rfl
  · rfl
  · rfl
  · rfl
  · rfl
  · simp only [Host.Console.quiet, Host.Console.recorded, Host.listed_line, Script.console,
      Script.listed]
    rfl
  · rfl

theorem finish_listed (lines : List String) (fuel : Nat) (r : Run) :
    Host.Console.listed.recorded.quiet.finish fuel r (lines, []) =
      let (ending, m, done) := (Script.listed lines).console.quiet.finish fuel r []
      (ending, m, lines.drop (done.filterMap Interaction.answer?).length, done) :=
  Host.finish_map (f := fun done => (lines.drop (done.filterMap Interaction.answer?).length, done))
    (move_listed lines) fuel r []

theorem Comes.exists_listed {k : Nat} {arena : Arena} {o : Outcome} {done : List Interaction}
    (h : Comes (Script.listed lines) b k arena o done) :
    b.listed lines (k + 1) = some (o, done.reverse) := by
  cases h with
  | rejected he => simp only [Brief.listed, he, List.reverse_nil]
  | @ended _ r ending _ h hp =>
    obtain ⟨chunk, hc, hpath⟩ := h
    have hmove := Host.move_ended (Script.listed lines).console (w := done) hp
    have hfinish : (Script.listed lines).console.quiet.finish (k + 1)
        (.start (.new b.recursionLimit 1) chunk) [] = (some ending, r.machine, done) := by
      rw [hpath.finish_add, Host.finish_of_move_inl hmove]
    simp only [Brief.listed, hc, finish_listed, hfinish]

theorem Brief.exists_comes {fuel : Nat} {o : Outcome} {done : List Interaction}
    (h : b.listed lines fuel = some (o, done)) :
    ∃ k arena, Comes (Script.listed lines) b k arena o done.reverse := by
  unfold Brief.listed at h
  split at h
  · next e he =>
    cases h
    exact ⟨0, _, .rejected he⟩
  · next chunk hc =>
    rw [finish_listed] at h
    generalize hf : (Script.listed lines).console.quiet.finish fuel
      (.start (.new b.recursionLimit 1) chunk) [] = x at h
    obtain ⟨_ | ending, m, done'⟩ := x
    · cases h
    · cases h
      obtain ⟨k, r, hpath, hend⟩ := Host.exists_path_of_finish hf
      rw [List.reverse_reverse]
      exact ⟨k, _, .ended ⟨chunk, hc, hpath⟩ (Host.move_eq_inl hend)⟩

open Note (interactions)

/-- What was given to the program according to the notes. -/
def Note.given (log : List Note) : List (Except Unwind String) :=
  (log.filterMap Note.did?).filterMap Interaction.answer?

theorem Note.given_append (log notes : List Note) :
    given (log ++ notes) = given log ++ given notes := by
  simp [given]

theorem Note.length_given (log : List Note) :
    ((interactions log).filterMap Interaction.answer?).length = (given log).length := by
  rw [interactions, List.filterMap_reverse, List.length_reverse]
  rfl

theorem Script.answers_listed {log : List Note}
    (h : ∀ k a, (Note.given log)[k]? = some a → a = lineAt lines k) :
    (Script.listed lines).Answers log := by
  rintro pre a post rfl -
  have hgiven : Note.given (pre ++ .did (.asked a) :: post) =
      Note.given pre ++ a :: Note.given post := Note.given_append ..
  rw [Script.listed, Note.length_given]
  exact h _ a (by rw [hgiven, List.getElem?_append_right (Nat.le_refl _), Nat.sub_self]; rfl)

end Stepwise
