import Stepwise.Proofs.Source.Shape
import Stepwise.Proofs.Source.Spelling

/-! How printed lines are scanned. The words of a line give the tokens they were printed for; the
margins of the lines open and close the blocks. -/

namespace Stepwise.Source.Lexer

open Printer

namespace State

variable {s t u : State} {c : Char} {cs more : List Char} {k : Token.Kind}

theorem takePiece_token (h : pieceAt c cs = (.token k, more)) (hopen : k ≠ .mark .openParen)
    (hclose : k ≠ .mark .closeParen) : s.takePiece c cs = .ok
      ((s.skip (c :: more)).push k (.between s.place (s.skip (c :: more)).place)) := by
  unfold State.takePiece
  rw [h]
  dsimp only
  split
  · next he => cases he
  · next he => cases he
  · next he => cases he
  · next he => exact absurd (Piece.token.inj he) hopen
  · next he => exact absurd (Piece.token.inj he) hclose
  · next he => cases he; rfl

structure Moves (s t : State) (ks : List Token.Kind) : Prop where
  run : s.run = t.run
  inLine : t.lineStart = false
  indents : t.indents = s.indents
  parens : t.parens = s.parens
  tokens : t.tokens.map Token.kind = ks.reverse ++ s.tokens.map Token.kind
  plain : ∀ k ∈ ks, k.isShape = false

theorem Moves.refl (h : s.lineStart = false) : s.Moves s [] :=
  ⟨rfl, h, rfl, rfl, rfl, nofun⟩

theorem Moves.trans {ks ls : List Token.Kind} (h : s.Moves t ks) (ht : t.Moves u ls) :
    s.Moves u (ks ++ ls) where
  run := h.run.trans ht.run
  inLine := ht.inLine
  indents := ht.indents.trans h.indents
  parens := ht.parens.trans h.parens
  tokens := by rw [ht.tokens, h.tokens, List.reverse_append, List.append_assoc]
  plain := List.forall_mem_append.2 ⟨h.plain, ht.plain⟩

theorem exists_moves_token (hs : s.lineStart = false) (hrest : s.rest = c :: cs)
    (h : pieceAt c cs = (.token k, more)) (hopen : k ≠ .mark .openParen)
    (hclose : k ≠ .mark .closeParen) : ∃ t, s.Moves t [k] ∧ t.rest = cs.drop more.length :=
  ⟨_, ⟨run_takePiece hs hrest (takePiece_token h hopen hclose), hs, rfl, rfl, rfl,
    List.forall_mem_singleton.2 (isShape_of_pieceAt h)⟩, by simp [hrest]⟩

theorem moves_blank (hs : s.lineStart = false) (hrest : s.rest = ' ' :: cs) :
    s.Moves (s.skip [' ']) [] :=
  ⟨run_takePiece hs hrest rfl, hs, rfl, rfl, rfl, nofun⟩

def opened (s : State) : State :=
  { s.skip ['('] with parens := .between s.place (s.skip ['(']).place :: s.parens }.push
    (.mark .openParen) (.between s.place (s.skip ['(']).place)

theorem run_opened (hs : s.lineStart = false) (hrest : s.rest = '(' :: cs) :
    s.run = s.opened.run :=
  run_takePiece hs hrest rfl

def closed (s : State) : State :=
  { s.skip [')'] with parens := s.parens.tail }.push (.mark .closeParen)
    (.between s.place (s.skip [')']).place)

theorem run_closed (hs : s.lineStart = false) (hrest : s.rest = ')' :: cs)
    (hparens : s.parens ≠ []) : s.run = s.closed.run := by
  refine run_takePiece hs hrest ?_
  have hpiece : pieceAt ')' cs = (.token (.mark .closeParen), []) := rfl
  rw [takePiece, hpiece, closed]
  dsimp only
  cases hp : s.parens with
  | nil => exact absurd hp hparens
  | cons span outer => rfl

end State

def Rescans (ws : List Word) : Prop :=
  ∀ (s : State) rest, s.lineStart = false → s.rest = text ws ++ rest → Stops rest →
    ∃ t, s.Moves t (kinds ws) ∧ t.rest = rest

section Rescans

variable {ts us : List Word} {k : Token.Kind}

theorem rescans_nil : Rescans [] := fun s _ hs hrest _ => ⟨s, .refl hs, hrest⟩

theorem stops_text (hus : ∃ c cs, text us = c :: cs ∧ c ∈ stops) (rest : List Char) :
    Stops (text us ++ rest) := by
  obtain ⟨c, cs, hus, hc⟩ := hus
  exact ⟨c, cs ++ rest, by rw [hus]; rfl, hc⟩

theorem Rescans.append (h : Rescans ts) (hs : Rescans us)
    (hus : ∃ c cs, text us = c :: cs ∧ c ∈ stops) : Rescans (ts ++ us) := by
  intro s rest hline hrest hstops
  obtain ⟨t, ht, htrest⟩ := h s (text us ++ rest) hline (by simpa using hrest)
    (stops_text hus rest)
  obtain ⟨u, hu, hurest⟩ := hs t rest ht.inLine htrest hstops
  exact ⟨u, by simpa using ht.trans hu, hurest⟩

theorem Rescans.blank (h : Rescans ts) : Rescans (.blank :: ts) := by
  intro s rest hline hrest hstops
  have hrest : s.rest = ' ' :: (text ts ++ rest) := hrest
  have hblank := State.moves_blank hline hrest
  obtain ⟨t, ht, htrest⟩ := h (s.skip [' ']) rest hblank.inLine
    (by rw [State.skip_rest, hrest]; rfl) hstops
  exact ⟨t, hblank.trans ht, htrest⟩

theorem rescans_token (h : Reads k) (hopen : k ≠ .mark .openParen)
    (hclose : k ≠ .mark .closeParen) : Rescans [.token k] := by
  intro s rest hline hrest hstops
  obtain ⟨c, cs, hk, hread⟩ := h
  have hrest : s.rest = c :: (cs ++ rest) := by simpa [text, Word.chars, hk] using hrest
  obtain ⟨t, ht, htrest⟩ :=
    State.exists_moves_token hline hrest (hread rest hstops) hopen hclose
  exact ⟨t, ht, by rw [htrest, List.drop_left]⟩

theorem Rescans.minus (h : Rescans ts) : Rescans (.token (.mark .minus) :: ts) := by
  intro s rest hline hrest hstops
  have hrest : s.rest = '-' :: (text ts ++ rest) := hrest
  obtain ⟨t, ht, htrest⟩ :=
    State.exists_moves_token hline hrest (pieceAt_minus _) nofun nofun
  obtain ⟨u, hu, hurest⟩ := h t rest ht.inLine htrest hstops
  exact ⟨u, ht.trans hu, hurest⟩

theorem Rescans.enclosed (h : Rescans ts) :
    Rescans (.token (.mark .openParen) :: (ts ++ [.token (.mark .closeParen)])) := by
  intro s rest hline hrest hstops
  have hrest : s.rest = '(' :: (text ts ++ ')' :: rest) := by
    simpa [text, Word.chars, Token.Kind.chars, Mark.spelling] using hrest
  have hopen := State.run_opened hline hrest
  obtain ⟨t, ht, htrest⟩ := h s.opened (')' :: rest) hline (by simp [State.opened, hrest])
    ⟨')', rest, rfl, by decide⟩
  have hparens : t.parens = _ :: s.parens := ht.parens
  have hclose := State.run_closed ht.inLine htrest (by rw [hparens]; exact List.cons_ne_nil _ _)
  refine ⟨t.closed, ⟨(hopen.trans ht.run).trans hclose, ht.inLine, ht.indents, ?_, ?_, ?_⟩, ?_⟩
  · exact congrArg List.tail hparens
  · have htokens := ht.tokens
    simp only [State.opened, State.closed, State.push, State.skip, List.map_cons] at htokens ⊢
    rw [htokens]
    simp
  · rw [kinds_token, kinds_append]
    exact List.forall_mem_cons.2 ⟨rfl, List.forall_mem_append.2
      ⟨ht.plain, List.forall_mem_singleton.2 rfl⟩⟩
  · simp [State.closed, htrest]

theorem Rescans.append_blank (h : Rescans ts) (hs : Rescans us) : Rescans (ts ++ .blank :: us) :=
  h.append hs.blank ⟨' ', _, rfl, by decide⟩

theorem Rescans.append_enclosed (h : Rescans ts) (hs : Rescans us) :
    Rescans (ts ++ .token (.mark .openParen) :: (us ++ [.token (.mark .closeParen)])) :=
  h.append hs.enclosed ⟨'(', _, rfl, by decide⟩

theorem rescans_mark {m : Mark} (hopen : m ≠ .openParen) (hclose : m ≠ .closeParen) :
    Rescans [.token (.mark m)] :=
  rescans_token (reads_mark m) (fun h => hopen (Token.Kind.mark.inj h))
    (fun h => hclose (Token.Kind.mark.inj h))

theorem rescans_keyword (w : Keyword) : Rescans [.token (.keyword w)] :=
  rescans_token (reads_keyword w) nofun nofun

theorem rescans_name {w : String} (h : isIdentifier w = true) : Rescans [.token (.name w)] :=
  rescans_token (reads_name h) nofun nofun

theorem rescans_literal {v : Literal} (h : v.isPrintable = true) : Rescans [.token v.kind] := by
  have hmark (m : Mark) : v.kind ≠ .mark m := by
    obtain _ | (_ | _) | _ | _ | _ := v <;> exact nofun
  exact rescans_token (reads_literal h) (hmark _) (hmark _)

theorem rescans_operator (op : BinaryOp) : Rescans [.token op.kind] := by
  obtain op | op | op := op <;> cases op <;>
    first | exact rescans_keyword _ | exact rescans_mark nofun nofun

theorem Rescans.within (h : Rescans ts) (e : Expr) (r : Rank) : Rescans (e.within r ts) := by
  unfold Expr.within
  split
  · exact h.enclosed
  · exact h

mutual

theorem rescans_expr : ∀ e : Expr, e.isPrintable = true → Rescans e.words
  | .literal _ _, h => rescans_literal h
  | .name _ _, h => rescans_name h
  | .unary .neg e _, h => ((rescans_expr e h).within e _).minus
  | .unary .not e _, h => (rescans_keyword .not).append_blank ((rescans_expr e h).within e _)
  | .binary op l r _, h => by
    obtain ⟨hl, hr⟩ := Bool.and_eq_true_iff.1 h
    have hright := (rescans_operator op).append_blank ((rescans_expr r hr).within r op.rank.next)
    exact ((rescans_expr l hl).within l op.rank).append_blank hright
  | .call f args _, h => by
    obtain ⟨hf, hargs⟩ := Bool.and_eq_true_iff.1 h
    exact ((rescans_expr f hf).within f _).append_enclosed (rescans_list args hargs)

theorem rescans_list : ∀ es : List Expr, Expr.allPrintable es = true → Rescans (Expr.listWords es)
  | [], _ => rescans_nil
  | e :: es, h => by
    obtain ⟨he, hes⟩ := Bool.and_eq_true_iff.1 h
    exact rescans_more es hes (rescans_expr e he)

theorem rescans_more : ∀ es : List Expr, Expr.allPrintable es = true → ∀ {ts}, Rescans ts →
    Rescans (ts ++ Expr.moreWords es)
  | [], _, _, hts => by rwa [Expr.moreWords, List.append_nil]
  | e :: es, h, _, hts => by
    obtain ⟨he, hes⟩ := Bool.and_eq_true_iff.1 h
    have hcomma : Rescans [.token (.mark .comma)] := rescans_mark nofun nofun
    exact hts.append (hcomma.append_blank (rescans_more es hes (rescans_expr e he)))
      ⟨',', _, rfl, by decide⟩

end

theorem rescans_names : ∀ {ps : List String}, ps.all isIdentifier = true →
    Rescans (names ps)
  | [], _ => rescans_nil
  | [p], h => rescans_name (by simpa using h)
  | p :: q :: ps, h => by
    obtain ⟨hp, hps⟩ := Bool.and_eq_true_iff.1 (List.all_cons.symm.trans h)
    have hcomma : Rescans [.token (.mark .comma)] := rescans_mark nofun nofun
    exact (rescans_name hp).append (hcomma.append_blank (rescans_names hps))
      ⟨',', _, rfl, by decide⟩

theorem Rescans.append_colon (h : Rescans ts) : Rescans (ts ++ [.token (.mark .colon)]) :=
  h.append (rescans_mark nofun nofun) ⟨':', _, rfl, by decide⟩

theorem rescans_header (w : Keyword) {test : Expr} (h : test.isPrintable = true) :
    Rescans (header w test) :=
  (rescans_keyword w).append_blank (rescans_expr test h).append_colon

theorem rescans_signature {name : String} {params : List String} (hname : isIdentifier name = true)
    (hparams : params.all isIdentifier = true) : Rescans (signature name params) := by
  have hlist := (rescans_name hname).append_enclosed (rescans_names hparams)
  have := (rescans_keyword .define).append_blank hlist.append_colon
  simpa [signature] using this

theorem rescans_assigned {w : String} {e : Expr} (hw : isIdentifier w = true)
    (he : e.isPrintable = true) : Rescans (assigned w e) := by
  have hassign : Rescans [.token (.mark .assign)] := rescans_mark nofun nofun
  exact (rescans_name hw).append_blank (hassign.append_blank (rescans_expr e he))

theorem rescans_answer {e : Option Expr} (h : e.all Expr.isPrintable = true) :
    Rescans (answer e) := by
  cases e with
  | none => exact rescans_keyword .return
  | some e => exact (rescans_keyword .return).append_blank (rescans_expr e h)

end Rescans

def margins : Nat → List Nat
  | 0 => []
  | d + 1 => 4 * (d + 1) :: margins d

def BeginsCode (c : Char) : Prop :=
  isIndentation c = false ∧ (c == '\n' || c == '\r' || c == '#') = false

def BeginsAt (depth : Nat) (text : List Char) : Prop :=
  ∃ c more, text = List.replicate (4 * depth) ' ' ++ c :: more ∧ BeginsCode c

structure State.Before (depth : Nat) (text : List Char) (s : State) : Prop where
  lineStart : s.lineStart = true
  rest : s.rest = text
  indents : s.indents = margins depth
  parens : s.parens = []
  ended : ∀ t ∈ s.tokens.head?, t.kind.isLayout = true

def Lexes (depth : Nat) (text : List Char) (ks : List Token.Kind) : Prop :=
  ∀ s : State, s.Before depth text → ∃ ts, s.run = .ok ts ∧
    ts.map Token.kind = (s.tokens.map Token.kind).reverse ++ ks

section Lines

variable {d e : Nat} {s t : State} {cs more : List Char} {ks : List Token.Kind}

theorem headD_margins (d : Nat) : (margins d).headD 0 = 4 * d := by
  cases d <;> rfl

theorem length_margins (d : Nat) : (margins d).length = d := by
  induction d with
  | zero => rfl
  | succ d ih => rw [margins, List.length_cons, ih]

theorem indentWidth_replicate (n : Nat) : indentWidth (List.replicate n ' ') = n := by
  have hfold (w : Nat) : (List.replicate n ' ').foldl (fun w c =>
      if c = '\t' then w + (8 - w % 8) else if c = '\x0c' then 0 else w + 1) w = w + n := by
    induction n generalizing w with
    | zero => rfl
    | succ n ih =>
      rw [List.replicate_succ, List.foldl_cons, ih]
      change w + 1 + n = w + (n + 1)
      omega
  exact (hfold 0).trans (Nat.zero_add n)

theorem openLine_code (hrest : s.rest = cs) (h : BeginsAt e cs) :
    s.openLine = (s.skip (List.replicate (4 * e) ' ')).indentTo (4 * e) := by
  obtain ⟨c, more, rfl, hindent, hcode⟩ := h
  have hmargin : s.rest.takeWhile isIndentation = List.replicate (4 * e) ' ' := by
    rw [hrest, List.takeWhile_append_of_pos, List.takeWhile_cons_of_neg (by rw [hindent]; decide),
      List.append_nil]
    intro c hc
    rw [List.eq_of_mem_replicate hc]
    rfl
  have hcons : (s.skip (s.rest.takeWhile isIndentation)).rest = c :: more := by
    rw [hmargin, State.skip_rest, hrest, List.length_replicate]
    simp
  rw [State.openLine_cons hcons, hmargin, hcode, indentWidth_replicate]
  rfl

theorem run_congr (hs : s.lineStart = true) (ht : t.lineStart = true)
    (h : s.openLine = t.openLine) : s.run = t.run := by
  cases hopen : t.openLine with
  | ok u => exact (State.run_openLine hs (h.trans hopen)).trans (State.run_openLine ht hopen).symm
  | error e =>
    have hfails {s : State} (hs : s.lineStart = true) (he : s.openLine = .error e) :
        s.run = .error e := by
      rw [State.run, dif_pos hs]
      split
      · next hf => cases hf.symm.trans he; rfl
      · next hf => cases hf.symm.trans he
    rw [hfails hs (h.trans hopen), hfails ht hopen]

theorem indentTo_margins (h : s.indents = margins d) :
    s.indentTo (4 * d) = .ok { s with lineStart := false } := by
  have hkept : (margins d).dropWhile (4 * d < ·) = margins d := by
    cases d with
    | zero => rfl
    | succ d => exact List.dropWhile_cons_of_neg (by simp)
  obtain ⟨rest, place, indents, parens, tokens, lineStart⟩ := s
  obtain rfl : indents = margins d := h
  rw [State.indentTo, headD_margins, if_neg (lt_irrefl _)]
  simp only [hkept, headD_margins, Nat.sub_self, List.replicate_zero, List.nil_append, if_true]

theorem Lexes.indent (h : Lexes (d + 1) cs ks) (hcs : BeginsAt (d + 1) cs) :
    Lexes d cs (.indent :: ks) := by
  intro s hs
  let t : State := { s with
    indents := margins (d + 1)
    tokens := ⟨.indent, .point (s.skip (List.replicate (4 * (d + 1)) ' ')).place⟩ :: s.tokens }
  have ht : t.Before (d + 1) cs :=
    ⟨hs.lineStart, hs.rest, rfl, hs.parens, by rintro t ⟨⟩; rfl⟩
  have hopens : s.openLine = t.openLine := by
    have hindents : (s.skip (List.replicate (4 * (d + 1)) ' ')).indents = margins d := hs.indents
    rw [openLine_code hs.rest hcs, openLine_code ht.rest hcs,
      indentTo_margins (s := t.skip _) (d := d + 1) rfl, State.indentTo, hindents, headD_margins,
      if_pos (by omega)]
    rfl
  obtain ⟨ts, hrun, hts⟩ := h t ht
  refine ⟨ts, (run_congr hs.lineStart ht.lineStart hopens).trans hrun, hts.trans ?_⟩
  simp [t]

theorem run_end (hs : s.Before d []) : s.run = .ok (s.tokens.reverse ++
    List.replicate d ⟨.dedent, .point s.place⟩ ++ [⟨.eof, .point s.place⟩]) := by
  have hnewline : (s.tokens.head?.any fun t => !t.kind.isLayout) = false := by
    cases htokens : s.tokens.head? with
    | none => rfl
    | some t => simp [hs.ended t htokens]
  obtain ⟨rest, place, indents, parens, tokens, lineStart⟩ := s
  obtain ⟨rfl, rfl, rfl, rfl, -⟩ := hs
  rw [State.run_openLine rfl (State.openLine_nil rfl), State.run_finish rfl rfl, State.finish]
  dsimp only [State.skip] at hnewline ⊢
  rw [State.newline, if_neg (by rw [hnewline]; decide), length_margins]
  rfl

theorem indentTo_dedent (hindents : s.indents = margins (d + 1)) (he : e ≤ d) :
    s.indentTo (4 * e) = State.indentTo
      { s with
        indents := margins d
        tokens := ⟨.dedent, .point s.place⟩ :: s.tokens } (4 * e) := by
  have hlen := (List.dropWhile_sublist (l := margins d) (4 * e < ·)).length_le
  rw [length_margins] at hlen
  have hkept : (margins (d + 1)).dropWhile (4 * e < ·) = (margins d).dropWhile (4 * e < ·) :=
    List.dropWhile_cons_of_pos (decide_eq_true (by omega))
  obtain ⟨rest, place, indents, parens, tokens, lineStart⟩ := s
  obtain rfl : indents = margins (d + 1) := hindents
  have houter : ¬ 4 * (d + 1) < 4 * e := by omega
  have hinner : ¬ 4 * d < 4 * e := by omega
  simp only [State.indentTo, headD_margins, houter, hinner, if_false, hkept, length_margins,
    Nat.succ_sub hlen, List.replicate_succ', List.append_assoc, List.singleton_append]

theorem Lexes.dedent (h : Lexes d cs ks) (hcs : cs = [] ∨ ∃ e, e ≤ d ∧ BeginsAt e cs) :
    Lexes (d + 1) cs (.dedent :: ks) := by
  intro s hs
  let after (place : Point) : State := { s with
    indents := margins d
    tokens := ⟨.dedent, .point place⟩ :: s.tokens }
  have hafter (place : Point) : (after place).Before d cs :=
    ⟨hs.lineStart, hs.rest, rfl, hs.parens, by rintro t ⟨⟩; rfl⟩
  have hsame : ∃ place, s.run = (after place).run := by
    obtain rfl | ⟨e, he, hcs⟩ := hcs
    · refine ⟨s.place, ?_⟩
      rw [run_end hs, run_end (hafter s.place), List.replicate_succ]
      simp [after]
    · refine ⟨(s.skip (List.replicate (4 * e) ' ')).place, run_congr hs.lineStart hs.lineStart ?_⟩
      rw [openLine_code hs.rest hcs, openLine_code (hafter _).rest hcs]
      exact indentTo_dedent hs.indents he
  obtain ⟨place, hsame⟩ := hsame
  obtain ⟨ts, hrun, hts⟩ := h (after place) (hafter place)
  exact ⟨ts, hsame.trans hrun, hts.trans (by simp [after])⟩

def BeginsWord (ws : List Word) : Prop :=
  ∃ k us, ws = .token k :: us ∧ Reads k

theorem beginsCode_of_pieceAt {c : Char} {cs more : List Char} {k : Token.Kind}
    (h : pieceAt c cs = (.token k, more)) : BeginsCode c := by
  have hne (d : Char) (hd : ∀ cs, (pieceAt d cs).1 ≠ .token k) : c ≠ d := by
    rintro rfl
    exact hd cs (congrArg Prod.fst h)
  have hspace := hne ' ' (fun _ => nofun)
  have htab := hne '\t' (fun _ => nofun)
  have hfeed := hne '\x0c' (fun _ => nofun)
  have hline := hne '\n' (fun _ => nofun)
  have hreturn := hne '\r' (fun _ => nofun)
  have hcomment := hne '#' (fun _ => nofun)
  constructor
  · simp [isIndentation, hspace, htab, hfeed]
  · simp [hline, hreturn, hcomment]

theorem beginsAt_line {ws : List Word} (h : BeginsWord ws) (d : Nat) (rest : List Char) :
    BeginsAt d (line d ws ++ rest) := by
  obtain ⟨k, us, rfl, c, cs, hk, hread⟩ := h
  have hpiece := hread ['\n'] ⟨'\n', [], rfl, by decide⟩
  refine ⟨c, cs ++ (text us ++ ('\n' :: rest)), ?_, beginsCode_of_pieceAt hpiece⟩
  simp [line, text, Word.chars, hk]

theorem exists_before_of_moves (hs : s.Moves t ks) (hks : ks ≠ [])
    (hindents : s.indents = margins d) (hparens : s.parens = []) (hrest : t.rest = '\n' :: cs) :
    ∃ u : State, s.run = u.run ∧ u.Before d cs ∧
      u.tokens.map Token.kind = .newline :: t.tokens.map Token.kind := by
  obtain ⟨first, last, rfl⟩ : ∃ first last, ks = first ++ [last] :=
    ⟨_, _, (List.dropLast_append_getLast hks).symm⟩
  have hlast : last.isLayout = false := by
    have hplain := hs.plain last (List.mem_append_right first List.mem_cons_self)
    cases hlayout : last.isLayout
    · rfl
    · rw [isShape_of_isLayout hlayout] at hplain
      cases hplain
  have htokens := hs.tokens
  rw [List.reverse_append, List.reverse_singleton, List.singleton_append,
    List.cons_append] at htokens
  obtain ⟨u, us, hus, hu, -⟩ := List.map_eq_cons_iff.1 htokens
  have hopen : ((t.skip ['\n']).tokens.head?.any fun t => !t.kind.isLayout) = true := by
    rw [show (t.skip ['\n']).tokens = u :: us from hus, List.head?_cons, Option.any_some, hu, hlast]
    rfl
  have htake := State.takePiece_newline t cs
  rw [if_pos (by rw [hs.parens, hparens]; rfl), State.newline, if_pos hopen] at htake
  refine ⟨_, hs.run.trans (State.run_takePiece hs.inLine hrest htake), ⟨rfl, ?_, ?_, ?_, ?_⟩, rfl⟩
  · simp [hrest]
  · exact hs.indents.trans hindents
  · exact hs.parens.trans hparens
  · rintro v ⟨⟩
    rfl

theorem Lexes.line {ws : List Word} (hws : Rescans ws) (hbegins : BeginsWord ws)
    (h : Lexes d cs ks) : Lexes d (line d ws ++ cs) (kinds ws ++ .newline :: ks) := by
  intro s hs
  have hopens := openLine_code hs.rest (beginsAt_line hbegins d cs)
  rw [indentTo_margins (s := s.skip _) (d := d) hs.indents] at hopens
  have hrest : (s.skip (List.replicate (4 * d) ' ')).rest = text ws ++ '\n' :: cs := by
    rw [State.skip_rest, hs.rest, Printer.line, List.length_replicate]
    simp
  obtain ⟨t, ht, htrest⟩ := hws { s.skip (List.replicate (4 * d) ' ') with lineStart := false }
    ('\n' :: cs) rfl hrest ⟨'\n', cs, rfl, by decide⟩
  have hkinds : kinds ws ≠ [] := by
    obtain ⟨k, us, rfl, -⟩ := hbegins
    exact List.cons_ne_nil k _
  obtain ⟨u, hu, hbefore, htokens⟩ := exists_before_of_moves ht hkinds hs.indents hs.parens htrest
  obtain ⟨ts, hrun, hts⟩ := h u hbefore
  refine ⟨ts, ((State.run_openLine hs.lineStart hopens).trans hu).trans hrun, ?_⟩
  rw [hts, htokens, ht.tokens]
  simp [State.skip]

end Lines

end Stepwise.Source.Lexer
