import Stepwise.Proofs.Evaluator.Calls

/-! A compiled program does on the machine what the evaluator says of its tree: it comes to an
end if and only if the evaluator does, and then with the same result, the same global names and
the same console. -/

namespace Stepwise.Evaluator

open Source
open Host (Path)
open Code (exists_of_bind_eq_ok)

variable {σ : Type} {c : Host.Console σ} {s : Store σ} {m : Machine}

theorem agrees_new {scope : Scope} (limit : Nat) (h : NamesMatch scope s.globals) :
    Agrees s { Machine.new limit s.nextIdent with
      arena := { Arena.new builtinScope with globals := scope } } where
  sound := ⟨(Arena.sound_new builtinScope).mem_free, (Arena.sound_new builtinScope).nodup⟩
  globals := h
  builtins := rfl
  nextIdent := rfl
  untraced := rfl

/-- What the evaluator and the machine come to is the same: the result up to what function
objects hold, or the exception up to where it came from, the global names and the console. -/
inductive Same : Outcome σ Object → Ending → Machine → σ → Prop
  | value {o : Object} {s : Store σ} {v : Value} {m : Machine} (hv : Matches v o)
    (h : Agrees s m) : Same (.value o s) (.ok v) m s.console
  | stopped {s : Store σ} {u : Unwind} {m : Machine} (h : Agrees s m) :
    Same (.stopped (.ofUnwind u) s) (.error u) m s.console

theorem Agrees.path_start (h : Agrees s m) {chunk : Chunk} (hmodule : chunk.isModule = true) :
    ∃ q, Path c.quiet c.Sane 1 (Run.start m chunk) s.console q s.console ∧
      Ready (.entered m h.sound (.new chunk none .empty) []) 0 [] (s.withLocals none) q := by
  have hl : LocalsMatch (.new chunk none .empty) none := hmodule
  have hdepth : 1 = ([] : List Activation).length + 1 := rfl
  have hheld := h.enter hl hdepth
  have hm := Host.move_call c (r := Run.start m chunk) (w := s.console) h.untraced rfl
  have hsane : c.Sane (Run.start m chunk) := .of_idle rfl
  exact ⟨_, .single hsane hm, ⟨⟨rfl, rfl, rfl, hheld⟩, rfl, rfl⟩, rfl⟩

theorem exists_of_ofModule {file : String} {body : List Stmt} {chunk : Chunk}
    (hk : Code.ofModule file body = .ok chunk) :
    ∃ inner, Code.stmts file false body 0 .empty = .ok inner ∧
      chunk = Code.assemble file Code.moduleName 1 []
        (inner.1 ++ (Code.close body inner.2).1) (Code.close body inner.2).2 ∧
      chunk.isModule = true := by
  obtain ⟨inner, hinner, hk⟩ := exists_of_bind_eq_ok hk
  cases hk
  exact ⟨inner, hinner, rfl, beq_self_eq_true Code.moduleName⟩

theorem follows_program {file : String} {body : List Stmt} {chunk : Chunk}
    (hk : Code.ofModule file body = .ok chunk) (hp : Stmt.AllProper body) (h : Agrees s m)
    (fuel : Nat) :
    Follows c fuel (Run.start m chunk) s.console
      (fun done s r => Leaving (.entered m h.sound (.new chunk none .empty) []) done.object s r)
      (Failing c (.entered m h.sound (.new chunk none .empty) []))
      (stmts (call c m.recursionLimit fuel 1) fuel body (s.withLocals none)) := by
  obtain ⟨inner, hinner, hchunk, hmodule⟩ := exists_of_ofModule hk
  obtain ⟨q, hstart, hready⟩ := h.path_start (c := c) hmodule
  have hcalls := calls_follow c m.recursionLimit fuel 1
  exact ((follows_body hcalls hinner hp hchunk hready).after hstart).mono (Nat.le_add_left fuel 1)

theorem Stays.path_ended {f : Frame} {s' : Store σ} {r : Run} {ending : Ending} (h : Agrees s m)
    (h' : Stays (.entered m h.sound f []) s' r) (hphase : r.phase = .leave ending)
    (hsane : c.Sane r) :
    ∃ r', Path c.quiet c.Sane 1 r s'.console r' s'.console ∧
      r'.phase = .ended (ending.mapError (Run.noteLeaving r.current)) ∧
      Agrees (s'.withLocals none) r'.machine := by
  have hm := Host.move_leave c (w := s'.console) h'.held.untraced hphase
  have hcallers : r.callers = [] := h'.callers
  simp only [Run.leave, Run.withArena, hcallers] at hm
  refine ⟨_, .single hsane hm, rfl, ?_⟩
  have hr := h'.held.agrees_release none
  rw [← h'.frame] at hr
  exact ⟨hr.sound, hr.globals, hr.builtins, hr.nextIdent, rfl⟩

/-- The way of a compiled body through the machine, for every amount of fuel that the evaluator
is given. -/
theorem path_program {file : String} {body : List Stmt} {chunk : Chunk}
    (hk : Code.ofModule file body = .ok chunk) (hp : Stmt.AllProper body) (h : Agrees s m)
    (fuel : Nat) :
    ∃ k r w, Path c.quiet c.Sane k (Run.start m chunk) s.console r w ∧
      if (program c m.recursionLimit fuel body s).isFinished then
        ∃ ending, r.phase = .ended ending ∧ (∀ u, ending = .error u → c.Fails u) ∧
          Same (program c m.recursionLimit fuel body s) ending r.machine w
      else fuel ≤ k := by
  have hf := follows_program (c := c) hk hp h fuel
  unfold program
  generalize stmts (call c m.recursionLimit fuel 1) fuel body (s.withLocals none) = o at hf
  cases o with
  | value done s' =>
    obtain ⟨k, r, hpath, hr⟩ := hf
    obtain ⟨v, hv, hphase⟩ := hr.phase
    have hsane : c.Sane r := .of_idle (by rw [hphase]; rfl)
    obtain ⟨r', hlast, hend, hagree⟩ := hr.toStays.path_ended h hphase hsane
    refine ⟨k + 1, r', _, hpath.trans hlast, _, hend, fun u hu => ?_, .value hv hagree⟩
    cases hu
  | stopped u s' =>
    obtain ⟨k, r, hpath, hr⟩ := hf
    obtain ⟨e, rfl, he, hphase⟩ := hr.phase
    obtain ⟨r', hlast, hend, hagree⟩ :=
      hr.toStays.path_ended h hphase (.of_failure hphase he)
    have hu : Stop.ofUnwind e = .ofUnwind (Run.noteLeaving r.current e) := by
      cases e <;> rfl
    refine ⟨k + 1, r', _, hpath.trans hlast, _, hend, ?_, ?_⟩
    · rintro v ⟨rfl⟩
      exact Host.Console.fails_noteLeaving he _
    · rw [hu]
      exact .stopped hagree
  | unfinished =>
    obtain ⟨k, r, w, hk, hpath⟩ := hf
    exact ⟨k, r, w, hpath, hk⟩

theorem finish_program {file : String} {body : List Stmt} {chunk : Chunk}
    (hk : Code.ofModule file body = .ok chunk) (hp : Stmt.AllProper body) (h : Agrees s m)
    (fuel : Nat) :
    if (program c m.recursionLimit fuel body s).isFinished then
      ∃ k ending m' w,
        c.quiet.finish k (Run.start m chunk) s.console = (some ending, m', w) ∧
          Same (program c m.recursionLimit fuel body s) ending m' w
    else (c.quiet.finish fuel (Run.start m chunk) s.console).1 = none := by
  obtain ⟨k, r, w, hpath, hrest⟩ := path_program (c := c) hk hp h fuel
  by_cases hfin : (program c m.recursionLimit fuel body s).isFinished = true
  · rw [if_pos hfin] at hrest ⊢
    obtain ⟨ending, hphase, -, hsame⟩ := hrest
    have hend := Host.finish_of_move_inl (Host.move_ended c (w := w) hphase) 0
    exact ⟨k + 1, ending, r.machine, w, (hpath.finish_add 1).trans hend, hsame⟩
  · rw [if_neg hfin] at hrest ⊢
    exact hpath.finish_eq_none hrest

theorem sane_of_path {file : String} {body : List Stmt} {chunk : Chunk}
    (hk : Code.ofModule file body = .ok chunk) (hp : Stmt.AllProper body) (h : Agrees s m)
    {P : Run → Prop} {k : Nat} {r : Run} {w : σ}
    (hpath : Path c.quiet P k (Run.start m chunk) s.console r w) : c.Sane r := by
  -- more fuel than the moves that were made: the way of the program passes `r` or ends there
  obtain ⟨n, q, x, hway, hrest⟩ := path_program (c := c) hk hp h (k + 1)
  by_cases hkn : k < n
  · exact hway.holds hpath hkn
  · by_cases hfin : (program c m.recursionLimit (k + 1) body s).isFinished = true
    · rw [if_pos hfin] at hrest
      obtain ⟨ending, hphase, hfails, -⟩ := hrest
      have hlast := hpath.rest hway (Nat.le_of_not_lt hkn)
      generalize k - n = j at hlast
      cases hlast with
      | refl =>
        refine ⟨by simp [hphase], by simp [hphase], ?_⟩
        rintro u (hu | hu) <;> rw [hphase] at hu <;> cases hu
        exact hfails u rfl
      | step _ hm _ =>
        rw [Host.move_ended c hphase] at hm
        cases hm
    · rw [if_neg hfin] at hrest
      omega

/-- A text that compiles is one that can be read, and what its code does on the machine is what
the evaluator says of its tree: the one comes to an end if and only if the other does, and all
that they come to is the same. -/
theorem compiled_same (c : Host.Console σ) {file text : String} {chunk : Chunk}
    (hk : Code.compile file text = .ok chunk) {m : Machine}
    {s : Store (σ × List Host.Interaction)} (h : Agrees s m) :
    ∃ body, parse text = .ok body ∧
      ((∃ fuel, (program c.recorded m.recursionLimit fuel body s).isFinished = true) ↔
        ∃ steps, (c.recorded.quiet.finish steps (Run.start m chunk) s.console).1.isSome = true) ∧
      ∀ fuel steps ending m' w,
        (program c.recorded m.recursionLimit fuel body s).isFinished = true →
        c.recorded.quiet.finish steps (Run.start m chunk) s.console = (some ending, m', w) →
        Same (program c.recorded m.recursionLimit fuel body s) ending m' w := by
  obtain ⟨body, hparse, hk⟩ := exists_of_bind_eq_ok hk
  have hf := finish_program (c := c.recorded) hk (proper_parse hparse) h
  refine ⟨body, hparse, ⟨?_, ?_⟩, ?_⟩
  · rintro ⟨fuel, hfin⟩
    have hfuel := hf fuel
    rw [if_pos hfin] at hfuel
    obtain ⟨k, ending, m', w, hend, -⟩ := hfuel
    exact ⟨k, by rw [hend]; rfl⟩
  · rintro ⟨steps, hsome⟩
    refine ⟨steps, ?_⟩
    by_contra hfin
    have hfuel := hf steps
    rw [if_neg hfin] at hfuel
    rw [hfuel] at hsome
    cases hsome
  · intro fuel steps ending m' w hfin hend
    have hfuel := hf fuel
    rw [if_pos hfin] at hfuel
    obtain ⟨k, ending', n, x, hend', hsame⟩ := hfuel
    obtain ⟨rfl, rfl, rfl⟩ := Host.finish_unique hend' hend
    exact hsame

def silent : Host.Console Unit where
  write _ w := w
  clear w := w
  line w := (.error (.raise .endOfInput), w)

def doubling : String :=
  "def twice(n):\n    return n * 2\nprint(twice(21))\n"

def Store.initial : Store (Unit × List Host.Interaction) :=
  ⟨none, .empty, 0, (), []⟩

theorem compiled_same_doubling :
    ∃ chunk body steps ending m' w, Code.compile "<doubling>" doubling = .ok chunk ∧
      parse doubling = .ok body ∧
      silent.recorded.quiet.finish steps (Run.start (.new 10 0) chunk) ((), []) =
        (some ending, m', w) ∧
      Same (program silent.recorded 10 3 body .initial) ending m' w := by
  have hcompiles : (Code.compile "<doubling>" doubling).toOption.isSome = true := by
    decide +kernel
  have hfinishes : ((parse doubling).toOption.any fun body =>
      (program silent.recorded 10 3 body .initial).isFinished) = true := by
    decide +kernel
  cases hk : Code.compile "<doubling>" doubling with
  | error e =>
    rw [hk] at hcompiles
    cases hcompiles
  | ok chunk =>
    have h : Agrees Store.initial (.new 10 0) := agrees_new 10 .empty
    obtain ⟨body, hparse, hiff, hsame⟩ := compiled_same silent hk h
    rw [hparse] at hfinishes
    obtain ⟨steps, hsteps⟩ := hiff.1 ⟨3, hfinishes⟩
    obtain ⟨ending, hending⟩ := Option.isSome_iff_exists.1 hsteps
    exact ⟨chunk, body, steps, ending, _, _, rfl, hparse, Prod.ext hending rfl,
      hsame 3 steps ending _ _ hfinishes (Prod.ext hending rfl)⟩

end Stepwise.Evaluator
