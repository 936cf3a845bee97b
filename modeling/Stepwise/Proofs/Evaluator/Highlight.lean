import Stepwise.Debug.Report
import Stepwise.Proofs.Evaluator.Agreement
import Stepwise.Proofs.Evaluator.Blame

/-! What the report of an exception highlights: the place at which the evaluator fails, in the
innermost function. That calls fail there is an induction on how deep they may go. -/

namespace Stepwise.Evaluator

open Source
open Host (Path)
open Code (Tables Laid laid_append exists_of_bind_eq_ok)

variable {σ : Type} {c : Host.Console σ} {n : Nat} {p : Place} {pc : Nat} {stack : List Value}
  {s : Store σ} {r : Run} {span : Span}

section Builtins

theorem Poised.blames_read (h : Poised p pc stack s r) (hspan : r.current.origin.Shows span) :
    Blames c p (r.withPhase .read) s.console (answer c s) (some span) := by
  have hm := Host.move_read c (r := r.withPhase .read) (w := s.console) rfl
  have hsane : c.Sane (r.withPhase .read) := .of_idle rfl
  unfold answer
  rcases hl : c.line s.console with ⟨u | text, w⟩
  · rw [hl] at hm
    intro cause s' ho
    cases u with
    | exception e =>
      cases ho
      refine ⟨1, _, .single hsane hm, ?_⟩
      have hstays := ((h.withPhase .read).withConsole w).toStays
      exact hstays.failed hspan fun origin ho => ⟨s.console, e, congrArg Prod.fst hl, ho⟩
    | cancelled | fault reason => cases ho
  · exact .of_value _ _

theorem Poised.blames_builtin (h : Poised p pc stack s r) (hspan : r.current.origin.Shows span)
    (b : Builtin) {vs : List Value} {os : List Object} (hvs : List.Forall₂ Matches vs os) :
    Blames c p (r.callValue (.builtin b) vs) s.console (builtin c b os s) (some span) := by
  rw [Run.callValue, builtin, ← Builtin.call_eq b (alike_views hvs)]
  cases hb : b.call vs with
  | error cause => exact h.blames_raise hspan cause
  | ok effect =>
    cases effect with
    | give v => exact .of_value _ s
    | write text => exact .of_value _ _
    | clear => exact .of_value _ _
    | ask prompt =>
      cases prompt with
      | none => exact h.blames_read hspan
      | some text =>
        have hm := Host.move_write c (r := r.withPhase (.write text true)) (w := s.console) rfl
        have hsane : c.Sane (r.withPhase (.write text true)) := .of_idle rfl
        exact ((h.withConsole (c.write text s.console)).blames_read hspan).after (.single hsane hm)

end Builtins

theorem blames_body {call : Caller σ} {inside : Inside σ}
    (hc : CallsFollow c n p.limit (p.callers.length + 1) call)
    (hb : CallsBlame c p.limit (p.callers.length + 1) call inside) {file : String}
    {inFunction : Bool} {body : List Stmt} {inner : List Code.Line × Tables}
    (hk : Code.stmts file inFunction body 0 .empty = .ok inner) (hp : Stmt.AllProper body)
    {name : String} {first : Nat} {params : List String}
    (hchunk : p.chunk = Code.assemble file name first params
      (inner.1 ++ (Code.close body inner.2).1) (Code.close body inner.2).2)
    (hr : Ready p 0 [] s r) :
    Blames c p r s.console (stmts call n body s) (stmtsSite call inside n body s) := by
  have hs := Code.laid_assemble file name first params
    (inner.1 ++ (Code.close body inner.2).1) (Code.close body inner.2).2
  rw [← hchunk, laid_append] at hs
  have hle : (Code.close body inner.2).2.Le (.ofChunk p.chunk) := by
    rw [hchunk]
    exact .refl _
  exact blames_stmts hc hb body hk hp .empty hs.1 ((Tables.le_constant _ _).trans hle) hr

theorem Failed.leave {f : Frame} {site : Option Span} {s' : Store σ} {r' : Run}
    (h : Poised p pc stack s r)
    (h' : Failed c (.entered r.machine h.held.sound f (r.current :: r.callers)) site s' r') :
    ∃ q, Path c.quiet c.Sane 1 r' s'.console q s'.console ∧
      Failed c p site (s'.withLocals s.locals) q := by
  obtain ⟨e, span, origin, hphase, hsite, horigin, hshows⟩ := h'.phase
  have hm := Host.move_leave c (w := s'.console) h'.held.untraced hphase
  have hcallers : r'.callers = r.current :: r.callers := h'.callers
  simp only [Run.leave, Run.withArena, hcallers] at hm
  refine ⟨_, .single (.of_failure hphase (.inl ⟨e, rfl⟩)) hm, ?_⟩
  have hback := (h.back h'.toStays).toStays
  refine ⟨⟨hback.frame, hback.chunk, hback.callers, hback.held⟩, _, span, origin, rfl, hsite, ?_,
    hshows⟩
  have hnoted : (e.origin.or (some r'.current.origin)).or (some r.current.origin) = some origin := by
    rw [horigin]
    rfl
  exact hnoted

theorem Blames.leave {f : Frame} {q : Run} {w : σ} {o : Outcome σ Completion} {site : Option Span}
    (h : Poised p pc stack s r)
    (ho : Blames c (.entered r.machine h.held.sound f (r.current :: r.callers)) q w o site) :
    Blames c p q w (o.leave s.locals) site := by
  cases o with
  | value done s' => exact .of_value _ _
  | unfinished => exact fun _ _ ho => nomatch ho
  | stopped u s' =>
    intro cause s'' he
    cases he
    obtain ⟨k, r', hp, hfailed⟩ := ho cause s' rfl
    obtain ⟨q', hlast, hback⟩ := hfailed.leave h
    exact ⟨k + 1, q', hp.trans hlast, hback⟩

theorem calls_blame (c : Host.Console σ) (limit : Nat) :
    ∀ fuel depth : Nat,
      CallsBlame c limit depth (call c limit fuel depth) (callSite c limit fuel depth)
  | 0, depth => by
    intro p pc stack s r f o vs os span _ _ _ _ _ _ cause s' ho
    cases ho
  | fuel + 1, depth => by
    intro p pc stack s r f o vs os span hlimit hdepth h hspan hf hvs
    cases hf with
    | plain hplain =>
      cases f with
      | builtin b => exact h.blames_builtin hspan b hvs
      | function n chunk => exact hplain.elim
      | code n chunk => exact hplain.elim
      | none | bool | int | float | str => exact h.blames_raise hspan _
    | @function ident chunk d file hd hk =>
      obtain ⟨hname, hparams⟩ := name_ofFunction hk
      obtain ⟨inner, hinner, hk⟩ := exists_of_bind_eq_ok hk
      rw [Run.callValue, arityFault?_eq hname hparams, hvs.length_eq, call, callSite]
      cases hfault : d.arityFault? os.length with
      | some cause => exact h.blames_raise hspan cause
      | none =>
        have hmost : r.machine.recursionLimit = limit := h.held.limit.trans hlimit
        have hdeep : r.machine.recursionLimit ≤ r.machine.depth ↔ limit ≤ depth := by
          rw [hmost, h.held.depth, hdepth]
        simp only [hdeep]
        by_cases hle : limit ≤ depth
        · rw [if_pos hle, if_pos hle, if_pos hle]
          exact h.blames_raise hspan .recursionLimit
        · rw [if_neg hle, if_neg hle, if_neg hle]
          obtain ⟨q, hp, hready⟩ := h.path_enter (c := c) hname hparams hd hvs
          have hfollow : CallsFollow c fuel r.machine.recursionLimit (r.callers.length + 1 + 1)
              (call c limit fuel (depth + 1)) := by
            rw [hmost, h.callers, hdepth]
            exact calls_follow c limit fuel (depth + 1)
          have hblame : CallsBlame c r.machine.recursionLimit (r.callers.length + 1 + 1)
              (call c limit fuel (depth + 1)) (callSite c limit fuel (depth + 1)) := by
            rw [hmost, h.callers, hdepth]
            exact calls_blame c limit fuel (depth + 1)
          have hchunk : chunk = Code.assemble file d.name d.header.line d.params
              (inner.1 ++ (Code.close d.body inner.2).1) (Code.close d.body inner.2).2 :=
            (Except.ok.inj hk).symm
          have hbody := blames_body hfollow hblame hinner hd.body hchunk hready
          exact ((hbody.leave h).after hp).orElse (some span)

section Programs

variable {m : Machine} {file : String} {body : List Stmt} {chunk : Chunk}

theorem blames_program (hk : Code.ofModule file body = .ok chunk) (hp : Stmt.AllProper body)
    (h : Agrees s m) (fuel : Nat) :
    Blames c (.entered m h.sound (.new chunk none .empty) []) (Run.start m chunk) s.console
      (stmts (call c m.recursionLimit fuel 1) fuel body (s.withLocals none))
      (programSite c m.recursionLimit fuel body s) := by
  obtain ⟨inner, hinner, hchunk, hmodule⟩ := exists_of_ofModule hk
  obtain ⟨q, hstart, hready⟩ := h.path_start (c := c) hmodule
  have hfollow := calls_follow c m.recursionLimit fuel 1
  have hblame := calls_blame c m.recursionLimit fuel 1
  exact (blames_body hfollow hblame hinner hp hchunk hready).after hstart

/-- Where the evaluator stops with an exception, the run ends in one that shows the site. -/
theorem finish_site (hk : Code.ofModule file body = .ok chunk) (hp : Stmt.AllProper body)
    (h : Agrees s m) {fuel : Nat} {cause : Exception.Cause} {s' : Store σ}
    (ho : program c m.recursionLimit fuel body s = .stopped (.exception cause) s') :
    ∃ k m' w e span origin,
      c.quiet.finish k (Run.start m chunk) s.console = (some (.error (.exception e)), m', w) ∧
      programSite c m.recursionLimit fuel body s = some span ∧ e.origin = some origin ∧
        (origin.Shows span ∨ c.quiet.Gives origin) := by
  have hblames := blames_program (c := c) hk hp h fuel
  unfold program at ho
  generalize stmts (call c m.recursionLimit fuel 1) fuel body (s.withLocals none) = o at ho hblames
  cases o with
  | value done s'' => cases ho
  | unfinished => cases ho
  | stopped u s'' =>
    cases ho
    obtain ⟨k, r, hpath, hfailed⟩ := hblames cause s'' rfl
    obtain ⟨e, span, origin, hphase, hsite, horigin, hshows⟩ := hfailed.phase
    obtain ⟨r', hlast, hend, -⟩ :=
      hfailed.toStays.path_ended (c := c) h hphase (.of_failure hphase (.inl ⟨e, rfl⟩))
    obtain ⟨e', hnoted, horigin'⟩ : ∃ e', Run.noteLeaving r.current (.exception e) = .exception e' ∧
        e'.origin = some origin := ⟨_, rfl, horigin⟩
    simp only [Except.mapError, hnoted] at hend
    have hfinish := Host.finish_of_move_inl (Host.move_ended c (w := s''.console) hend) 0
    have hpath := hpath.trans hlast
    exact ⟨k + 1 + 1, r'.machine, s''.console, e', span, origin,
      (hpath.finish_add 1).trans hfinish, hsite, horigin', hshows⟩

end Programs

theorem highlightOf_of_shows {e : Exception} {origin : Exception.Origin}
    (ho : e.origin = some origin) (hs : origin.Shows span) :
    Report.highlightOf e = .ofSpan span := by
  have hrange : Range.at? origin.chunk origin.offset origin.line = some (.ofSpan span) := hs
  simp only [Report.highlightOf, ho, Option.bind_some, hrange]

section Finished

variable {file text : String} {chunk : Chunk} {m : Machine} {steps : Nat} {e : Exception}
  {m' : Machine} {w : σ}

/-- The place that the exception of a finished run bears shows the site, or the console gave it. -/
theorem origin_of_finish (c : Host.Console σ) (hk : Code.compile file text = .ok chunk)
    (h : Agrees s m) (hf : c.quiet.finish steps (Run.start m chunk) s.console =
      (some (.error (.exception e)), m', w)) :
    ∃ body, parse text = .ok body ∧
      (∃ fuel, (program c m.recursionLimit fuel body s).isFinished = true) ∧
      ∀ fuel, (program c m.recursionLimit fuel body s).isFinished = true → ∃ s' span origin,
        program c m.recursionLimit fuel body s = .stopped (.exception e.cause) s' ∧
        programSite c m.recursionLimit fuel body s = some span ∧ e.origin = some origin ∧
          (origin.Shows span ∨ c.quiet.Gives origin) := by
  obtain ⟨body, hparse, hk⟩ := exists_of_bind_eq_ok hk
  have hproper := proper_parse hparse
  have hsame := finish_program (c := c) hk hproper h
  refine ⟨body, hparse, ⟨steps, ?_⟩, fun fuel hfin => ?_⟩
  · by_contra hfin
    have hnone := hsame steps
    rw [if_neg hfin, hf] at hnone
    cases hnone
  · have hsame := hsame fuel
    rw [if_pos hfin] at hsame
    obtain ⟨k, ending, n, x, hend, hsame⟩ := hsame
    obtain ⟨rfl, rfl, rfl⟩ := Host.finish_unique hend hf
    generalize ho : program c m.recursionLimit fuel body s = o at hsame
    cases hsame with
    | @stopped s' _ _ _ =>
      obtain ⟨l, m', w, e', span, origin, hend', hsite, horigin, hshows⟩ :=
        finish_site hk hproper h ho
      obtain ⟨he, -, -⟩ := Host.finish_unique hend hend'
      cases he
      exact ⟨s', span, origin, rfl, hsite, horigin, hshows⟩

/-- If the run of a program ends in an exception, then the evaluator comes to an end, it stops
with an exception of the same cause, and what the report highlights is the place where it fails:
the operation that raises, or the statement in which a name stands for nothing, in the innermost
function. Only an exception that the console gave with a place of its own may show that one. -/
theorem highlight_eq_site (c : Host.Console σ) (hk : Code.compile file text = .ok chunk)
    (h : Agrees s m) (hf : c.quiet.finish steps (Run.start m chunk) s.console =
      (some (.error (.exception e)), m', w)) (files : Files) :
    ∃ body, parse text = .ok body ∧
      (∃ fuel, (program c m.recursionLimit fuel body s).isFinished = true) ∧
      ∀ fuel, (program c m.recursionLimit fuel body s).isFinished = true → ∃ s' span,
        program c m.recursionLimit fuel body s = .stopped (.exception e.cause) s' ∧
        programSite c m.recursionLimit fuel body s = some span ∧
        ((Report.ofException e files).highlight = .ofSpan span ∨
          ∃ origin, e.origin = some origin ∧ c.quiet.Gives origin) := by
  obtain ⟨body, hparse, hfinishes, hstops⟩ := origin_of_finish c hk h hf
  refine ⟨body, hparse, hfinishes, fun fuel hfin => ?_⟩
  obtain ⟨s', span, origin, ho, hsite, horigin, hshows⟩ := hstops fuel hfin
  exact ⟨s', span, ho, hsite,
    hshows.imp (highlightOf_of_shows horigin) fun hgives => ⟨origin, horigin, hgives⟩⟩

/-- On a console whose exceptions come without a place the report always highlights the site. -/
theorem highlight_eq_site_of_placeless (c : Host.Console σ)
    (hline : ∀ w e, (c.line w).1 = .error (.exception e) → e.origin = none)
    (hk : Code.compile file text = .ok chunk) (h : Agrees s m)
    (hf : c.quiet.finish steps (Run.start m chunk) s.console =
      (some (.error (.exception e)), m', w)) (files : Files) :
    ∃ body, parse text = .ok body ∧
      (∃ fuel, (program c m.recursionLimit fuel body s).isFinished = true) ∧
      ∀ fuel, (program c m.recursionLimit fuel body s).isFinished = true → ∃ s' span,
        program c m.recursionLimit fuel body s = .stopped (.exception e.cause) s' ∧
        programSite c m.recursionLimit fuel body s = some span ∧
        (Report.ofException e files).highlight = .ofSpan span := by
  obtain ⟨body, hparse, hfinishes, hstops⟩ := origin_of_finish c hk h hf
  refine ⟨body, hparse, hfinishes, fun fuel hfin => ?_⟩
  obtain ⟨s', span, origin, ho, hsite, horigin, hshows⟩ := hstops fuel hfin
  refine ⟨s', span, ho, hsite, highlightOf_of_shows horigin (hshows.resolve_right ?_)⟩
  rintro ⟨w', e', hl, hgiven⟩
  rw [hline w' e' hl] at hgiven
  cases hgiven

end Finished

def quotient : String :=
  "def ratio(n):\n    return 1 + 6 // n\nprint(ratio(0))\n"

theorem highlight_eq_site_quotient :
    ∃ chunk body e m' s' span, Code.compile "<quotient>" quotient = .ok chunk ∧
      parse quotient = .ok body ∧
      silent.quiet.finish 200 (Run.start (.new 10 0) chunk) () =
        (some (.error (.exception e)), m', ()) ∧
      program silent 10 5 body ⟨none, .empty, 0, ()⟩ = .stopped (.exception e.cause) s' ∧
      programSite silent 10 5 body ⟨none, .empty, 0, ()⟩ = some span ∧
      (Report.ofException e .empty).highlight = .ofSpan span ∧
      Range.ofSpan span = .columns 2 16 2 22 := by
  have hruns : (Code.compile "<quotient>" quotient).toOption.any (fun chunk =>
      (silent.quiet.exception? 200 (Run.start (.new 10 0) chunk) ()).isSome) = true := by
    decide +kernel
  have hfails : ((parse quotient).toOption.any fun body =>
      (program silent 10 5 body ⟨none, .empty, 0, ()⟩).isFinished &&
        decide ((programSite silent 10 5 body ⟨none, .empty, 0, ()⟩).map Range.ofSpan =
          some (.columns 2 16 2 22))) = true := by
    decide +kernel
  obtain ⟨chunk, hk, hruns⟩ := Code.exists_of_any_toOption hruns
  obtain ⟨e, he⟩ := Option.isSome_iff_exists.1 hruns
  obtain ⟨m, x, hf⟩ := Host.finish_of_exception? he
  have h : Agrees ⟨none, .empty, 0, ()⟩ (.new 10 0) := agrees_new 10 .empty
  obtain ⟨body, hparse, -, hsite⟩ := highlight_eq_site silent hk h hf .empty
  rw [hparse] at hfails
  obtain ⟨hfinished, hcolumns⟩ := Bool.and_eq_true_iff.1 hfails
  obtain ⟨s', span, ho, hspan, hhighlight⟩ := hsite 5 hfinished
  have hrange : some (Range.ofSpan span) = some (.columns 2 16 2 22) :=
    (congrArg (Option.map Range.ofSpan) hspan).symm.trans (of_decide_eq_true hcolumns)
  refine ⟨chunk, body, e, m, s', span, hk, hparse, hf, ho, hspan, ?_, Option.some.inj hrange⟩
  exact hhighlight.resolve_right fun ⟨_, horigin, _, _, hl, hgiven⟩ => by
    cases hl
    cases hgiven

end Stepwise.Evaluator
