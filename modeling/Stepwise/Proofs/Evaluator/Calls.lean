import Stepwise.Proofs.Evaluator.Statements

/-! Calls: built-in functions ask the console, and function objects enter an activation of their
own. That calls on both sides agree is an induction on how deep they may go. -/

namespace Stepwise.Evaluator

open Source
open Host (Path)
open Code (Tables Stands stands_append stands_cons stands_singleton exists_of_bind_eq_ok)

variable {σ : Type} {c : Host.Console σ} {n : Nat} {p : Place} {pc : Nat} {stack : List Value}
  {s : Store σ} {r : Run}

section Builtins

theorem Poised.follows_read (h : Poised p pc stack s r) :
    Follows c n (r.withPhase .read) s.console (Arrived p pc stack) (Failing c p) (answer c s) := by
  have hm := Host.move_read c (r := r.withPhase .read) (w := s.console) rfl
  have hsane : c.Sane (r.withPhase .read) := .of_idle rfl
  unfold answer
  rcases hl : c.line s.console with ⟨u | text, w⟩
  · rw [hl] at hm
    refine ⟨1, _, .single hsane hm, ?_⟩
    exact ((h.withPhase .read).withConsole w).toStays.fail (.inr ⟨s.console, by rw [hl]⟩)
  · rw [hl] at hm
    refine ⟨1, _, .single hsane hm, .str text, .plain trivial, ?_⟩
    exact ((h.withPhase .read).withConsole w).push (.str text)

theorem Poised.follows_builtin (h : Poised p pc stack s r) (b : Builtin) {vs : List Value}
    {os : List Object} (hvs : List.Forall₂ Matches vs os) :
    Follows c n (r.callValue (.builtin b) vs) s.console (Arrived p pc stack) (Failing c p)
      (builtin c b os s) := by
  rw [Run.callValue, builtin, ← Builtin.call_eq b (alike_views hvs)]
  cases hb : b.call vs with
  | error cause => exact .failed (h.raise cause)
  | ok effect =>
    cases effect with
    | give v => exact h.follows_value (.plain (Builtin.isPlain_of_give hb))
    | write text =>
      have hm := Host.move_write c (r := r.withPhase (.write text false)) (w := s.console) rfl
      refine ⟨1, _, .single (.of_idle rfl) hm, .none, .plain trivial, ?_⟩
      exact ((h.withPhase _).withConsole _).push .none
    | clear =>
      have hm := Host.move_clear c (r := r.withPhase .clear) (w := s.console) rfl
      refine ⟨1, _, .single (.of_idle rfl) hm, .none, .plain trivial, ?_⟩
      exact ((h.withPhase _).withConsole _).push .none
    | ask prompt =>
      cases prompt with
      | none => exact h.follows_read
      | some text =>
        have hm := Host.move_write c (r := r.withPhase (.write text true)) (w := s.console) rfl
        have hsane : c.Sane (r.withPhase (.write text true)) := .of_idle rfl
        have hp := Path.single hsane hm
        exact ((h.withConsole (c.write text s.console)).follows_read.after hp).mono
          (Nat.le_add_left n 1)

end Builtins

theorem follows_body {call : Caller σ} (hc : CallsFollow c n p.limit (p.callers.length + 1) call)
    {file : String} {inFunction : Bool} {body : List Stmt} {inner : List Code.Line × Tables}
    (hk : Code.stmts file inFunction body 0 .empty = .ok inner) (hp : Stmt.AllProper body)
    {name : String} {first : Nat} {params : List String}
    (hchunk : p.chunk = Code.assemble file name first params
      (inner.1 ++ (Code.close body inner.2).1) (Code.close body inner.2).2)
    (hr : Ready p 0 [] s r) :
    Follows c n r s.console (fun done => Leaving p done.object) (Failing c p)
      (stmts call n body s) := by
  have hs := Code.stands_assemble file name first params
    (inner.1 ++ (Code.close body inner.2).1) (Code.close body inner.2).2
  rw [← hchunk, stands_append] at hs
  have hg := Code.grows_stmts hp hk
  have hle : (Code.close body inner.2).2.Le (.ofChunk p.chunk) := by
    rw [hchunk]
    exact .refl _
  refine (follows_stmts hc body hk hp ⟨.empty, hs.1, (Tables.le_constant _ _).trans hle⟩
    hr).onward ?_
  rintro (- | o) s r h
  · obtain ⟨hload, hret⟩ := stands_cons.1 hs.2
    have hnone := hle.constants _ _
      (Tables.getElem?_constant (hg.proper .empty) (.literal (l := .none) trivial))
    refine (Ready.follows h hload fun r' h => ?_).mono (Nat.le_succ n)
    have hret := stands_singleton.1 hret
    refine ((h.ready_loadConst hnone).follows hret fun r' h => ?_).mono (Nat.le_succ n)
    exact .arrived (h.leaving_returnValue (.plain trivial))
  · exact .arrived h

section Activations

variable {f : Frame} {s' : Store σ} {r' : Run}

theorem Poised.back (h : Poised p pc stack s r)
    (h' : Stays (.entered r.machine h.held.sound f (r.current :: r.callers)) s' r') :
    Poised p pc stack (s'.withLocals s.locals)
      { machine :=
          { r'.machine with
            arena := r'.machine.arena.release r'.current.frame
            depth := r'.machine.depth - 1 }
        current := r.current
        callers := r.callers
        phase := r'.phase } where
  frame := h.frame
  chunk := h.chunk
  callers := h.callers
  held := by
    rw [h'.frame]
    exact h.held.leave (by rw [← h.callers]; rfl) h'.held
  pc := h.pc
  stack := h.stack

theorem Leaving.follows {o : Object} (h : Poised p pc stack s r)
    (h' : Leaving (.entered r.machine h.held.sound f (r.current :: r.callers)) o s' r') :
    Follows c n r' s'.console (Arrived p pc stack) (Failing c p)
      (.value o (s'.withLocals s.locals)) := by
  obtain ⟨v, hv, hphase⟩ := h'.phase
  have hm := Host.move_leave c (w := s'.console) h'.held.untraced hphase
  have hcallers : r'.callers = r.current :: r.callers := h'.callers
  simp only [Run.leave, Run.withArena, hcallers] at hm
  have hsane : c.Sane r' := .of_idle (by rw [hphase]; rfl)
  exact ⟨1, _, .single hsane hm, v, hv, (h.back h'.toStays).push v⟩

theorem Failing.follows {u : Stop} (h : Poised p pc stack s r)
    (h' : Failing c (.entered r.machine h.held.sound f (r.current :: r.callers)) u s' r') :
    Follows c n r' s'.console (Arrived p pc stack) (Failing c p)
      (.stopped u (s'.withLocals s.locals)) := by
  obtain ⟨e, rfl, he, hphase⟩ := h'.phase
  have hm := Host.move_leave c (w := s'.console) h'.held.untraced hphase
  have hcallers : r'.callers = r.current :: r.callers := h'.callers
  simp only [Run.leave, Run.withArena, hcallers] at hm
  have hu : Stop.ofUnwind (Run.noteLeaving r'.current e) = .ofUnwind e := by
    cases e <;> rfl
  refine ⟨1, _, .single (.of_failure hphase he) hm, ?_⟩
  rw [← hu]
  exact (h.back h'.toStays).toStays.fail (Host.Console.fails_noteLeaving he _)

theorem Follows.leave {q : Run} {w : σ} {o : Outcome σ Completion} (h : Poised p pc stack s r)
    (ho : Follows c n q w
      (fun done => Leaving (.entered r.machine h.held.sound f (r.current :: r.callers)) done.object)
      (Failing c (.entered r.machine h.held.sound f (r.current :: r.callers))) o) :
    Follows c n q w (Arrived p pc stack) (Failing c p) (o.leave s.locals) := by
  cases o with
  | value done s' =>
    obtain ⟨k, q', hp, hq⟩ := ho
    exact ((hq.follows h).after hp).mono (Nat.le_add_left n k)
  | stopped u s' =>
    obtain ⟨k, q', hp, hq⟩ := ho
    exact ((hq.follows h).after hp).mono (Nat.le_add_left n k)
  | unfinished => exact ho

end Activations

theorem arityFault?_eq {chunk : Chunk} {d : Definition} (hname : chunk.name = d.name)
    (hparams : chunk.params = d.params) (given : Nat) :
    Run.arityFault? chunk given = d.arityFault? given := by
  rw [Run.arityFault?, Definition.arityFault?, hname, hparams]

/-- The activation of a function starts above the one that calls it, at its first instruction. -/
theorem Poised.path_enter (h : Poised p pc stack s r) {chunk : Chunk} {d : Definition}
    (hname : chunk.name = d.name) (hparams : chunk.params = d.params) (hd : d.IsRead)
    {vs : List Value} {os : List Object} (hvs : List.Forall₂ Matches vs os) :
    ∃ q, Path c.quiet c.Sane 1 (r.enter chunk vs) s.console q s.console ∧
      Ready (.entered r.machine h.held.sound
        (.new chunk (some r.current.frame) (.ofList (chunk.params.zip vs)))
          (r.current :: r.callers)) 0 [] (s.withLocals (some (.ofList (d.params.zip os)))) q := by
  have hl : LocalsMatch (.new chunk (some r.current.frame) (.ofList (chunk.params.zip vs)))
      (some (.ofList (d.params.zip os))) := by
    refine ⟨?_, hparams ▸ .ofList d.params hvs⟩
    simpa [Frame.new, Code.ChunkOf.isModule, hname] using hd.name
  have hdepth : r.machine.depth + 1 = (r.current :: r.callers).length + 1 := by
    rw [h.held.depth, ← h.callers]
    rfl
  have hheld := h.held.enter hl hdepth
  have hm := Host.move_call c (r := r.enter chunk vs) (w := s.console) h.held.untraced rfl
  have hsane : c.Sane (r.enter chunk vs) := .of_idle rfl
  exact ⟨_, .single hsane hm, ⟨⟨rfl, rfl, rfl, hheld⟩, rfl, rfl⟩, rfl⟩

theorem calls_follow (c : Host.Console σ) (limit : Nat) :
    ∀ fuel depth : Nat, CallsFollow c fuel limit depth (call c limit fuel depth)
  | 0, depth => by
    intro p pc stack s r f o vs os _ _ h _ _
    exact ⟨0, _, _, Nat.le_refl 0, .refl _ _⟩
  | fuel + 1, depth => by
    intro p pc stack s r f o vs os hlimit hdepth h hf hvs
    cases hf with
    | plain hplain =>
      cases f with
      | builtin b => exact h.follows_builtin b hvs
      | function n chunk => exact hplain.elim
      | code n chunk => exact hplain.elim
      | none | bool | int | float | str => exact .failed (h.raise _)
    | @function ident chunk d file hd hk =>
      obtain ⟨hname, hparams⟩ := name_ofFunction hk
      obtain ⟨inner, hinner, hk⟩ := exists_of_bind_eq_ok hk
      rw [Run.callValue, arityFault?_eq hname hparams, hvs.length_eq, call]
      cases hfault : d.arityFault? os.length with
      | some cause => exact .failed (h.raise cause)
      | none =>
        have hmost : r.machine.recursionLimit = limit := h.held.limit.trans hlimit
        have hdeep : r.machine.recursionLimit ≤ r.machine.depth ↔ limit ≤ depth := by
          rw [hmost, h.held.depth, hdepth]
        simp only [hdeep]
        by_cases hle : limit ≤ depth
        · rw [if_pos hle, if_pos hle]
          exact .failed (h.raise .recursionLimit)
        · rw [if_neg hle, if_neg hle]
          obtain ⟨q, hp, hready⟩ := h.path_enter (c := c) hname hparams hd hvs
          have hcalls : CallsFollow c fuel r.machine.recursionLimit (r.callers.length + 1 + 1)
              (call c limit fuel (depth + 1)) := by
            rw [hmost, h.callers, hdepth]
            exact calls_follow c limit fuel (depth + 1)
          have hchunk : chunk = Code.assemble file d.name d.header.line d.params
              (inner.1 ++ (Code.close d.body inner.2).1) (Code.close d.body inner.2).2 :=
            (Except.ok.inj hk).symm
          have hbody := follows_body hcalls hinner hd.body hchunk hready
          exact ((hbody.leave h).after hp).mono (Nat.le_of_eq (Nat.add_comm fuel 1))

end Stepwise.Evaluator
