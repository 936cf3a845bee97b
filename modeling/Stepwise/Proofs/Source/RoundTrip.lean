import Stepwise.Proofs.Source.Complete
import Stepwise.Proofs.Source.Printed

/-! Printing and parsing. A printed program is scanned as the tokens of its statements, each block
between an indentation and its end; these tokens derive the program that was printed, so parsing
gives it back up to its spans. -/

namespace Stepwise.Source

open Printer

namespace Printer

def inBlock (ks : List Token.Kind) : List Token.Kind :=
  .newline :: .indent :: (ks ++ [.dedent])

end Printer

mutual

def Stmt.kinds : Stmt → List Token.Kind
  | .assign w e _ => Printer.kinds (assigned w e) ++ [.newline]
  | .expr e => Printer.kinds e.words ++ [.newline]
  | .choose test _ body rest =>
    Printer.kinds (header .if test) ++ (inBlock (Stmt.allKinds body) ++ rest.kinds)
  | .loop test _ body => Printer.kinds (header .while test) ++ inBlock (Stmt.allKinds body)
  | .define name params _ body =>
    Printer.kinds (signature name params) ++ inBlock (Stmt.allKinds body)
  | .ret e _ => Printer.kinds (answer e) ++ [.newline]
  | .pass _ => [.keyword .pass, .newline]

def Choice.kinds : Choice → List Token.Kind
  | .branch test _ body rest =>
    Printer.kinds (header .elif test) ++ (inBlock (Stmt.allKinds body) ++ rest.kinds)
  | .otherwise body =>
    if body.isEmpty then [] else .keyword .else :: .mark .colon :: inBlock (Stmt.allKinds body)

def Stmt.allKinds : List Stmt → List Token.Kind
  | [] => []
  | st :: sts => st.kinds ++ Stmt.allKinds sts

end

namespace Lexer

def Returns (depth : Nat) (text : List Char) : Prop :=
  text = [] ∨ ∃ e, e ≤ depth ∧ BeginsAt e text

theorem Returns.deeper {depth : Nat} {text : List Char} (h : Returns depth text) :
    Returns (depth + 1) text :=
  h.imp_right fun ⟨e, he, hat⟩ => ⟨e, Nat.le_succ_of_le he, hat⟩

theorem beginsWord_mark (m : Mark) (ws : List Word) : BeginsWord (.token (.mark m) :: ws) :=
  ⟨_, ws, rfl, reads_mark m⟩

theorem beginsWord_keyword (w : Keyword) (ws : List Word) :
    BeginsWord (.token (.keyword w) :: ws) :=
  ⟨_, ws, rfl, reads_keyword w⟩

theorem BeginsWord.append {ws : List Word} (h : BeginsWord ws) (us : List Word) :
    BeginsWord (ws ++ us) := by
  obtain ⟨k, vs, rfl, hk⟩ := h
  exact ⟨k, vs ++ us, rfl, hk⟩

theorem BeginsWord.within {ws : List Word} (h : BeginsWord ws) (e : Expr) (r : Rank) :
    BeginsWord (e.within r ws) := by
  unfold Expr.within
  split
  · exact beginsWord_mark _ _
  · exact h

theorem beginsWord_expr : ∀ e : Expr, e.isPrintable = true → BeginsWord e.words
  | .name _ _, h => ⟨_, [], rfl, reads_name h⟩
  | .literal _ _, h => ⟨_, [], rfl, reads_literal h⟩
  | .call f _ _, h => ((beginsWord_expr f (Bool.and_eq_true_iff.1 h).1).within f _).append _
  | .unary .neg _ _, _ => beginsWord_mark _ _
  | .unary .not _ _, _ => beginsWord_keyword _ _
  | .binary _ l _ _, h =>
    ((beginsWord_expr l (Bool.and_eq_true_iff.1 h).1).within l _).append _

section Lines

variable {d : Nat} {more : List Char} {ls : List Token.Kind}

theorem lexes_block {ws : List Word} {body : List Stmt} (hws : Rescans ws)
    (hbegins : BeginsWord ws) (hmore : Returns d more) (h : Lexes d more ls)
    (hdeeper : BeginsAt (d + 1) (Stmt.allText (d + 1) body ++ more))
    (hbody : Lexes (d + 1) more (.dedent :: ls) →
      Lexes (d + 1) (Stmt.allText (d + 1) body ++ more) (Stmt.allKinds body ++ .dedent :: ls)) :
    Lexes d (line d ws ++ (Stmt.allText (d + 1) body ++ more))
      (Printer.kinds ws ++ (inBlock (Stmt.allKinds body) ++ ls)) := by
  have hinside := (hbody (h.dedent hmore)).indent hdeeper
  simpa [inBlock] using hinside.line hws hbegins

theorem beginsAt_stmt : ∀ {st : Stmt}, st.isPrintable = true → ∀ (d : Nat) (more : List Char),
    BeginsAt d (st.text d ++ more)
  | .assign _ _ _, h, d, more =>
    beginsAt_line ⟨_, _, rfl, reads_name (Bool.and_eq_true_iff.1 h).1⟩ d more
  | .expr e, h, d, more => beginsAt_line (beginsWord_expr e h) d more
  | .choose .., _, d, more | .loop .., _, d, more | .define .., _, d, more => by
    simp only [Stmt.text, List.append_assoc]
    exact beginsAt_line (beginsWord_keyword _ _) d _
  | .ret e _, _, d, more => by
    cases e <;> exact beginsAt_line (beginsWord_keyword _ _) d more
  | .pass _, _, d, more => beginsAt_line (beginsWord_keyword _ _) d more

theorem beginsAt_all {sts : List Stmt} (h : Stmt.allPrintable sts = true)
    (hne : sts.isEmpty = false) (d : Nat) (more : List Char) : BeginsAt d (Stmt.allText d sts ++ more) := by
  cases sts with
  | nil => cases hne
  | cons st sts =>
    rw [Stmt.allText, List.append_assoc]
    exact beginsAt_stmt (Bool.and_eq_true_iff.1 h).1 d _

theorem returns_all {sts : List Stmt} (h : Stmt.allPrintable sts = true) (hmore : Returns d more) :
    Returns d (Stmt.allText d sts ++ more) := by
  cases hne : sts.isEmpty with
  | false => exact .inr ⟨d, le_refl d, beginsAt_all h hne d more⟩
  | true =>
    rw [List.isEmpty_iff.1 hne]
    exact hmore

theorem returns_choice (rest : Choice) (hmore : Returns d more) :
    Returns d (rest.text d ++ more) := by
  cases rest with
  | branch test _ body rest =>
    refine .inr ⟨d, le_refl d, ?_⟩
    simp only [Choice.text, List.append_assoc]
    exact beginsAt_line (beginsWord_keyword _ _) d _
  | otherwise body =>
    unfold Choice.text
    split
    · exact hmore
    · refine .inr ⟨d, le_refl d, ?_⟩
      rw [List.append_assoc]
      exact beginsAt_line (beginsWord_keyword _ _) d _

mutual

theorem lexes_stmt : ∀ st : Stmt, st.isPrintable = true → ∀ {d more ls}, Returns d more →
    Lexes d more ls → Lexes d (st.text d ++ more) (st.kinds ++ ls)
  | .assign w e _, hp, _, _, _, _, h => by
    obtain ⟨hw, he⟩ := Bool.and_eq_true_iff.1 hp
    have hline := h.line (rescans_assigned hw he) ⟨_, _, rfl, reads_name hw⟩
    simpa [Stmt.text, Stmt.kinds] using hline
  | .expr e, hp, _, _, _, _, h => by
    have hline := h.line (rescans_expr e hp) (beginsWord_expr e hp)
    simpa [Stmt.text, Stmt.kinds] using hline
  | .choose test _ body rest, hp, _, _, _, hmore, h => by
    simp only [Stmt.isPrintable, Bool.and_eq_true, Bool.not_eq_true'] at hp
    obtain ⟨⟨⟨htest, hne⟩, hbody⟩, hrest⟩ := hp
    have hothers := returns_choice rest hmore
    have hlines := lexes_block (rescans_header .if htest) (beginsWord_keyword _ _) hothers
      (lexes_choice rest hrest hmore h) (beginsAt_all hbody hne _ _)
      (lexes_all body hbody hothers.deeper)
    simpa [Stmt.text, Stmt.kinds] using hlines
  | .loop test _ body, hp, _, _, _, hmore, h => by
    simp only [Stmt.isPrintable, Bool.and_eq_true, Bool.not_eq_true'] at hp
    obtain ⟨⟨htest, hne⟩, hbody⟩ := hp
    have hlines := lexes_block (rescans_header .while htest) (beginsWord_keyword _ _) hmore h
      (beginsAt_all hbody hne _ _) (lexes_all body hbody hmore.deeper)
    simpa [Stmt.text, Stmt.kinds] using hlines
  | .define name params _ body, hp, _, _, _, hmore, h => by
    simp only [Stmt.isPrintable, Bool.and_eq_true, Bool.not_eq_true'] at hp
    obtain ⟨⟨⟨⟨hname, hparams⟩, -⟩, hne⟩, hbody⟩ := hp
    have hlines := lexes_block (rescans_signature hname hparams) (beginsWord_keyword _ _) hmore h
      (beginsAt_all hbody hne _ _) (lexes_all body hbody hmore.deeper)
    simpa [Stmt.text, Stmt.kinds] using hlines
  | .ret e _, hp, _, _, _, _, h => by
    have hline := h.line (rescans_answer hp) (by cases e <;> exact beginsWord_keyword _ _)
    simpa [Stmt.text, Stmt.kinds] using hline
  | .pass _, _, _, _, _, _, h => h.line (rescans_keyword .pass) (beginsWord_keyword _ _)

theorem lexes_choice : ∀ rest : Choice, rest.isPrintable = true → ∀ {d more ls}, Returns d more →
    Lexes d more ls → Lexes d (rest.text d ++ more) (rest.kinds ++ ls)
  | .branch test _ body rest, hp, _, _, _, hmore, h => by
    simp only [Choice.isPrintable, Bool.and_eq_true, Bool.not_eq_true'] at hp
    obtain ⟨⟨⟨htest, hne⟩, hbody⟩, hrest⟩ := hp
    have hothers := returns_choice rest hmore
    have hlines := lexes_block (rescans_header .elif htest) (beginsWord_keyword _ _) hothers
      (lexes_choice rest hrest hmore h) (beginsAt_all hbody hne _ _)
      (lexes_all body hbody hothers.deeper)
    simpa [Choice.text, Choice.kinds] using hlines
  | .otherwise body, hp, _, _, _, hmore, h => by
    cases hne : body.isEmpty with
    | true =>
      rw [Choice.text, Choice.kinds, hne]
      exact h
    | false =>
      have helse : Rescans [.token (.keyword .else), .token (.mark .colon)] :=
        (rescans_keyword .else).append_colon
      have hlines := lexes_block helse (beginsWord_keyword _ _) hmore h
        (beginsAt_all hp hne _ _) (lexes_all body hp hmore.deeper)
      rw [Choice.text, Choice.kinds, hne]
      simpa using hlines

theorem lexes_all : ∀ sts : List Stmt, Stmt.allPrintable sts = true → ∀ {d more ls},
    Returns d more → Lexes d more ls →
      Lexes d (Stmt.allText d sts ++ more) (Stmt.allKinds sts ++ ls)
  | [], _, _, _, _, _, h => h
  | st :: sts, hp, d, more, ls, hmore, h => by
    obtain ⟨hst, hsts⟩ := Bool.and_eq_true_iff.1 hp
    have := lexes_stmt st hst (returns_all hsts hmore) (lexes_all sts hsts hmore h)
    simpa [Stmt.allText, Stmt.allKinds] using this

end

end Lines

theorem tokenize_render {body : List Stmt} (h : Stmt.allPrintable body = true) :
    ∃ ts, tokenize (render body) = .ok ts ∧
      ts.map Token.kind = Stmt.allKinds body ++ [.eof] := by
  have hend : Lexes 0 [] [.eof] := fun s hs => ⟨_, run_end hs, by simp⟩
  have hlines := lexes_all body h (.inl rfl) hend
  rw [List.append_nil] at hlines
  have hstart : (State.start (render body).toList).Before 0 (Stmt.allText 0 body) :=
    ⟨rfl, String.toList_ofList, rfl, rfl, nofun⟩
  exact hlines _ hstart

end Lexer

namespace Grammar

section Derived

variable {ts us : List Token} {ws : List Word} {k : Token.Kind}

def Derives (r : Rank) (ts : List Token) (e : Expr) : Prop :=
  ∃ e', Expression r ts e' ∧ e'.bare = e.bare

theorem derives_within {e : Expr} (h : ∀ ts : List Token,
    ts.map Token.kind = Printer.kinds e.words → Derives e.rank ts e) {r : Rank}
    (hts : ts.map Token.kind = Printer.kinds (e.within r e.words)) : Derives r ts e := by
  unfold Expr.within at hts
  split at hts
  · have hts : ts.map Token.kind = .mark .openParen ::
        (Printer.kinds e.words ++ [.mark .closeParen]) := by
      simpa using hts
    obtain ⟨o, rest, rfl, ho, hrest⟩ := List.map_eq_cons_iff.1 hts
    obtain ⟨us, cs, rfl, hus, hcs⟩ := List.map_eq_append_iff.1 hrest
    obtain ⟨c, cs, rfl, hc, hcs⟩ := List.map_eq_cons_iff.1 hcs
    obtain rfl := List.map_eq_nil_iff.1 hcs
    obtain ⟨e', he, hbare⟩ := h us hus
    refine ⟨_, (Expression.enclosed ho he.loosest hc).loosen r.depth_le.2, ?_⟩
    rw [Expr.bare_withSpan, hbare]
  · next hle =>
    obtain ⟨e', he, hbare⟩ := h ts hts
    exact ⟨e', he.loosen (Nat.le_of_not_lt hle), hbare⟩

mutual

theorem derives_expr : ∀ (e : Expr) (ts : List Token),
    ts.map Token.kind = Printer.kinds e.words → Derives e.rank ts e
  | .literal v _, ts, h => by
    obtain ⟨t, us, rfl, ht, hus⟩ := List.map_eq_cons_iff.1 h
    obtain rfl := List.map_eq_nil_iff.1 hus
    exact ⟨_, .literal ht, rfl⟩
  | .name w _, ts, h => by
    obtain ⟨t, us, rfl, ht, hus⟩ := List.map_eq_cons_iff.1 h
    obtain rfl := List.map_eq_nil_iff.1 hus
    exact ⟨_, .name ht, rfl⟩
  | .unary .neg e _, ts, h => by
    obtain ⟨o, us, rfl, ho, hus⟩ := List.map_eq_cons_iff.1 h
    obtain ⟨e', he, hbare⟩ := derives_within (derives_expr e) hus
    exact ⟨_, .neg ho he, by rw [Expr.bare, Expr.bare, hbare]⟩
  | .unary .not e _, ts, h => by
    obtain ⟨o, us, rfl, ho, hus⟩ := List.map_eq_cons_iff.1 h
    obtain ⟨e', he, hbare⟩ := derives_within (derives_expr e) hus
    exact ⟨_, .not ho he, by rw [Expr.bare, Expr.bare, hbare]⟩
  | .binary op l r _, ts, h => by
    have h : ts.map Token.kind = Printer.kinds (l.within op.rank l.words) ++
        op.kind :: Printer.kinds (r.within op.rank.next r.words) := by
      simpa [Expr.words] using h
    obtain ⟨ts, us, rfl, hts, hus⟩ := List.map_eq_append_iff.1 h
    obtain ⟨o, us, rfl, ho, hus⟩ := List.map_eq_cons_iff.1 hus
    obtain ⟨l', hl, hleft⟩ := derives_within (derives_expr l) hts
    obtain ⟨r', hr, hright⟩ := derives_within (derives_expr r) hus
    exact ⟨_, .joined rfl hl ho hr, by rw [Expr.joined, Expr.bare, Expr.bare, hleft, hright]⟩
  | .call f args _, ts, h => by
    have h : ts.map Token.kind = Printer.kinds (f.within .application f.words) ++
        .mark .openParen :: (Printer.kinds (Expr.listWords args) ++ [.mark .closeParen]) := by
      simpa [Expr.words] using h
    obtain ⟨ts, tail, rfl, hts, htail⟩ := List.map_eq_append_iff.1 h
    obtain ⟨o, rest, rfl, ho, hrest⟩ := List.map_eq_cons_iff.1 htail
    obtain ⟨us, cs, rfl, hus, hcs⟩ := List.map_eq_append_iff.1 hrest
    obtain ⟨c, cs, rfl, hc, hcs⟩ := List.map_eq_cons_iff.1 hcs
    obtain rfl := List.map_eq_nil_iff.1 hcs
    obtain ⟨f', hf, hcallee⟩ := derives_within (derives_expr f) hts
    obtain ⟨args', hargs, hlist⟩ := derives_list args us hus
    exact ⟨_, .call hf ho hargs hc, by rw [Expr.bare, Expr.bare, hcallee, hlist]⟩

theorem derives_list : ∀ (es : List Expr) (ts : List Token),
    ts.map Token.kind = Printer.kinds (Expr.listWords es) →
      ∃ es', Arguments ts es' ∧ Expr.allBare es' = Expr.allBare es
  | [], ts, h => by
    obtain rfl := List.map_eq_nil_iff.1 h
    exact ⟨[], .none, rfl⟩
  | e :: es, ts, h => by
    rw [Expr.listWords, kinds_append] at h
    obtain ⟨ts, us, rfl, hts, hus⟩ := List.map_eq_append_iff.1 h
    obtain ⟨e', he, hbare⟩ := derives_expr e ts hts
    obtain ⟨es', hes, hlist⟩ := derives_more es us hus he.loosest
    exact ⟨e' :: es', hes, by rw [Expr.allBare, Expr.allBare, hbare, hlist]⟩

theorem derives_more : ∀ (es : List Expr) (us : List Token),
    us.map Token.kind = Printer.kinds (Expr.moreWords es) → ∀ {ts e}, Expression .disjunction ts e →
      ∃ es', Arguments (ts ++ us) (e :: es') ∧ Expr.allBare es' = Expr.allBare es
  | [], us, h, ts, e, he => by
    obtain rfl := List.map_eq_nil_iff.1 h
    exact ⟨[], by rw [List.append_nil]; exact .last he, rfl⟩
  | f :: es, us, h, ts, e, he => by
    have h : us.map Token.kind = .mark .comma ::
        (Printer.kinds f.words ++ Printer.kinds (Expr.moreWords es)) := by
      simpa [Expr.moreWords] using h
    obtain ⟨c, rest, rfl, hc, hrest⟩ := List.map_eq_cons_iff.1 h
    obtain ⟨us, vs, rfl, hus, hvs⟩ := List.map_eq_append_iff.1 hrest
    obtain ⟨f', hf, hbare⟩ := derives_expr f us hus
    obtain ⟨es', hes, hlist⟩ := derives_more es vs hvs hf.loosest
    exact ⟨f' :: es', .cons he hc hes, by rw [Expr.allBare, Expr.allBare, hbare, hlist]⟩

end

theorem derives_alone {e : Expr} (h : ts.map Token.kind = Printer.kinds e.words) :
    Derives .disjunction ts e := by
  obtain ⟨e', he, hbare⟩ := derives_expr e ts h
  exact ⟨e', he.loosest, hbare⟩

theorem derives_names : ∀ (ps : List String) (ts : List Token),
    ts.map Token.kind = Printer.kinds (Printer.names ps) → Parameters ts ps
  | [], ts, h => by
    obtain rfl := List.map_eq_nil_iff.1 h
    exact .none
  | [p], ts, h => by
    obtain ⟨t, us, rfl, ht, hus⟩ := List.map_eq_cons_iff.1 h
    obtain rfl := List.map_eq_nil_iff.1 hus
    exact .last ht
  | p :: q :: ps, ts, h => by
    obtain ⟨t, rest, rfl, ht, hrest⟩ := List.map_eq_cons_iff.1 h
    obtain ⟨c, us, rfl, hc, hus⟩ := List.map_eq_cons_iff.1 hrest
    exact .cons ht hc (derives_names (q :: ps) us hus)

def DerivesAll (ts : List Token) (sts : List Stmt) : Prop :=
  ∃ sts', Statements ts sts' ∧ Stmt.allBare sts' = Stmt.allBare sts

theorem derives_block {body : List Stmt} (hne : body.isEmpty = false)
    (hbody : ∀ ts : List Token, ts.map Token.kind = Stmt.allKinds body → DerivesAll ts body)
    {c : Token} (hc : c.kind = .mark .colon)
    (h : ts.map Token.kind = Printer.inBlock (Stmt.allKinds body)) :
    ∃ body', Block (c :: ts) body' ∧ Stmt.allBare body' = Stmt.allBare body := by
  obtain ⟨n, rest, rfl, hn, hrest⟩ := List.map_eq_cons_iff.1 h
  obtain ⟨i, rest, rfl, hi, hrest⟩ := List.map_eq_cons_iff.1 hrest
  obtain ⟨us, ds, rfl, hus, hds⟩ := List.map_eq_append_iff.1 hrest
  obtain ⟨d, ds, rfl, hd, hds⟩ := List.map_eq_cons_iff.1 hds
  obtain rfl := List.map_eq_nil_iff.1 hds
  obtain ⟨body', hderived, hbare⟩ := hbody us hus
  refine ⟨body', .indented hc hn hi hderived ?_ hd, hbare⟩
  rintro rfl
  cases body with
  | nil => cases hne
  | cons st sts => cases hbare

theorem derives_header {w : Keyword} {test : Expr} {body : List Stmt} (hne : body.isEmpty = false)
    (hbody : ∀ ts : List Token, ts.map Token.kind = Stmt.allKinds body → DerivesAll ts body)
    (hts : ts.map Token.kind = Printer.kinds (header w test))
    (hus : us.map Token.kind = Printer.inBlock (Stmt.allKinds body)) :
    ∃ t es bs test' body', ts ++ us = t :: (es ++ bs) ∧ t.kind = .keyword w ∧
      Expression .disjunction es test' ∧ test'.bare = test.bare ∧ Block bs body' ∧
        Stmt.allBare body' = Stmt.allBare body := by
  have hts : ts.map Token.kind = .keyword w :: (Printer.kinds test.words ++ [.mark .colon]) := by
    simpa [header] using hts
  obtain ⟨t, rest, rfl, ht, hrest⟩ := List.map_eq_cons_iff.1 hts
  obtain ⟨es, cs, rfl, hes, hcs⟩ := List.map_eq_append_iff.1 hrest
  obtain ⟨c, cs, rfl, hc, hcs⟩ := List.map_eq_cons_iff.1 hcs
  obtain rfl := List.map_eq_nil_iff.1 hcs
  obtain ⟨test', htest, hbare⟩ := derives_alone hes
  obtain ⟨body', hblock, hall⟩ := derives_block hne hbody hc hus
  exact ⟨t, es, c :: us, test', body', by simp, ht, htest, hbare, hblock, hall⟩

theorem derives_line (ws : List Word) {st : Stmt}
    (hsimple : ∀ ts : List Token, ts.map Token.kind = Printer.kinds ws →
      ∃ st', Simple ts st' ∧ st'.bare = st.bare)
    (h : ts.map Token.kind = Printer.kinds ws ++ [.newline]) :
    ∃ st', Statement ts st' ∧ st'.bare = st.bare := by
  obtain ⟨ts, ns, rfl, hts, hns⟩ := List.map_eq_append_iff.1 h
  obtain ⟨n, ns, rfl, hn, hns⟩ := List.map_eq_cons_iff.1 hns
  obtain rfl := List.map_eq_nil_iff.1 hns
  obtain ⟨st', hst, hbare⟩ := hsimple ts hts
  exact ⟨st', .simple hst hn, hbare⟩

theorem derives_assigned {w : String} {e : Expr} {span : Span}
    (h : ts.map Token.kind = Printer.kinds (assigned w e)) :
    ∃ st', Simple ts st' ∧ st'.bare = (Stmt.assign w e span).bare := by
  obtain ⟨t, rest, rfl, ht, hrest⟩ := List.map_eq_cons_iff.1 h
  obtain ⟨a, us, rfl, ha, hus⟩ := List.map_eq_cons_iff.1 hrest
  obtain ⟨e', he, hbare⟩ := derives_alone hus
  exact ⟨_, .assign (.name ht) ha he, by rw [Stmt.bare, Stmt.bare, hbare]⟩

theorem derives_answer {e : Option Expr} {span : Span}
    (h : ts.map Token.kind = Printer.kinds (answer e)) :
    ∃ st', Simple ts st' ∧ st'.bare = (Stmt.ret e span).bare := by
  cases e with
  | none =>
    obtain ⟨t, us, rfl, ht, hus⟩ := List.map_eq_cons_iff.1 h
    obtain rfl := List.map_eq_nil_iff.1 hus
    exact ⟨_, .ret ht, rfl⟩
  | some e =>
    obtain ⟨t, us, rfl, ht, hus⟩ := List.map_eq_cons_iff.1 h
    obtain ⟨e', he, hbare⟩ := derives_alone hus
    exact ⟨_, .retValue ht he, by simp [Stmt.bare, hbare]⟩

mutual

theorem derives_stmt : ∀ st : Stmt, st.isPrintable = true → ∀ ts : List Token,
    ts.map Token.kind = st.kinds → ∃ st', Statement ts st' ∧ st'.bare = st.bare
  | .assign w e _, _, ts, h => derives_line _ (fun _ => derives_assigned) h
  | .expr e, _, ts, h => by
    refine derives_line _ (fun ts hts => ?_) h
    obtain ⟨e', he, hbare⟩ := derives_alone hts
    exact ⟨.expr e', .expr he, by rw [Stmt.bare, Stmt.bare, hbare]⟩
  | .choose test _ body rest, hp, ts, h => by
    simp only [Stmt.isPrintable, Bool.and_eq_true, Bool.not_eq_true'] at hp
    obtain ⟨⟨⟨-, hne⟩, hbody⟩, hrest⟩ := hp
    obtain ⟨hs, tail, rfl, hhs, htail⟩ := List.map_eq_append_iff.1 h
    obtain ⟨bs, os, rfl, hbs, hos⟩ := List.map_eq_append_iff.1 htail
    obtain ⟨t, es, bs, test', body', hsplit, ht, htest, hbare, hblock, hall⟩ :=
      derives_header hne (derives_all body hbody) hhs hbs
    obtain ⟨rest', hothers, hchoice⟩ := derives_choice rest hrest os hos
    refine ⟨.choose test' (t.span.to test'.span) body' rest', ?_, ?_⟩
    · rw [← List.append_assoc, hsplit, List.cons_append, List.append_assoc]
      exact .choose ht htest hblock hothers
    · simp only [Stmt.bare, hbare, hall, hchoice]
  | .loop test _ body, hp, ts, h => by
    simp only [Stmt.isPrintable, Bool.and_eq_true, Bool.not_eq_true'] at hp
    obtain ⟨⟨-, hne⟩, hbody⟩ := hp
    obtain ⟨hs, bs, rfl, hhs, hbs⟩ := List.map_eq_append_iff.1 h
    obtain ⟨t, es, bs, test', body', hsplit, ht, htest, hbare, hblock, hall⟩ :=
      derives_header hne (derives_all body hbody) hhs hbs
    refine ⟨.loop test' (t.span.to test'.span) body', ?_, ?_⟩
    · rw [hsplit]
      exact .loop ht htest hblock
    · simp only [Stmt.bare, hbare, hall]
  | .define name params _ body, hp, ts, h => by
    simp only [Stmt.isPrintable, Bool.and_eq_true, Bool.not_eq_true', decide_eq_true_eq] at hp
    obtain ⟨⟨⟨-, hdistinct⟩, hne⟩, hbody⟩ := hp
    obtain ⟨hs, bs, rfl, hhs, hbs⟩ := List.map_eq_append_iff.1 h
    have hhs : hs.map Token.kind = .keyword .define :: .name name :: .mark .openParen ::
        (Printer.kinds (Printer.names params) ++ [.mark .closeParen, .mark .colon]) := by
      simpa [Printer.signature] using hhs
    obtain ⟨t, rest, rfl, ht, hrest⟩ := List.map_eq_cons_iff.1 hhs
    obtain ⟨m, rest, rfl, hm, hrest⟩ := List.map_eq_cons_iff.1 hrest
    obtain ⟨o, rest, rfl, ho, hrest⟩ := List.map_eq_cons_iff.1 hrest
    obtain ⟨ps, cs, rfl, hps, hcs⟩ := List.map_eq_append_iff.1 hrest
    obtain ⟨c, cs, rfl, hc, hcs⟩ := List.map_eq_cons_iff.1 hcs
    obtain ⟨colon, cs, rfl, hcolon, hcs⟩ := List.map_eq_cons_iff.1 hcs
    obtain rfl := List.map_eq_nil_iff.1 hcs
    obtain ⟨body', hblock, hall⟩ := derives_block hne (derives_all body hbody) hcolon hbs
    refine ⟨.define name params (t.span.to c.span) body', ?_, ?_⟩
    · simpa using Statement.define ht hm ho (derives_names params ps hps) hdistinct hc hblock
    · simp only [Stmt.bare, hall]
  | .ret e _, _, ts, h => derives_line _ (fun _ => derives_answer) h
  | .pass _, _, ts, h => by
    refine derives_line [.token (.keyword .pass)] (fun ts hts => ?_) h
    obtain ⟨t, us, rfl, ht, hus⟩ := List.map_eq_cons_iff.1 hts
    obtain rfl := List.map_eq_nil_iff.1 hus
    exact ⟨_, .pass ht, rfl⟩

theorem derives_choice : ∀ rest : Choice, rest.isPrintable = true → ∀ ts : List Token,
    ts.map Token.kind = rest.kinds → ∃ rest', Others ts rest' ∧ rest'.bare = rest.bare
  | .branch test _ body rest, hp, ts, h => by
    simp only [Choice.isPrintable, Bool.and_eq_true, Bool.not_eq_true'] at hp
    obtain ⟨⟨⟨-, hne⟩, hbody⟩, hrest⟩ := hp
    obtain ⟨hs, tail, rfl, hhs, htail⟩ := List.map_eq_append_iff.1 h
    obtain ⟨bs, os, rfl, hbs, hos⟩ := List.map_eq_append_iff.1 htail
    obtain ⟨t, es, bs, test', body', hsplit, ht, htest, hbare, hblock, hall⟩ :=
      derives_header hne (derives_all body hbody) hhs hbs
    obtain ⟨rest', hothers, hchoice⟩ := derives_choice rest hrest os hos
    refine ⟨.branch test' (t.span.to test'.span) body' rest', ?_, ?_⟩
    · rw [← List.append_assoc, hsplit, List.cons_append, List.append_assoc]
      exact .branch ht htest hblock hothers
    · simp only [Choice.bare, hbare, hall, hchoice]
  | .otherwise body, hp, ts, h => by
    cases hne : body.isEmpty with
    | true =>
      rw [Choice.kinds, hne] at h
      obtain rfl := List.map_eq_nil_iff.1 h
      rw [List.isEmpty_iff.1 hne]
      exact ⟨_, .none, rfl⟩
    | false =>
      rw [Choice.kinds, hne] at h
      obtain ⟨t, rest, rfl, ht, hrest⟩ := List.map_eq_cons_iff.1 h
      obtain ⟨c, us, rfl, hc, hus⟩ := List.map_eq_cons_iff.1 hrest
      obtain ⟨body', hblock, hall⟩ := derives_block hne (derives_all body hp) hc hus
      exact ⟨_, .otherwise ht hblock, by rw [Choice.bare, Choice.bare, hall]⟩

theorem derives_all : ∀ sts : List Stmt, Stmt.allPrintable sts = true → ∀ ts : List Token,
    ts.map Token.kind = Stmt.allKinds sts → DerivesAll ts sts
  | [], _, ts, h => by
    obtain rfl := List.map_eq_nil_iff.1 h
    exact ⟨[], .nil, rfl⟩
  | st :: sts, hp, ts, h => by
    obtain ⟨hst, hsts⟩ := Bool.and_eq_true_iff.1 hp
    obtain ⟨ts, us, rfl, hts, hus⟩ := List.map_eq_append_iff.1 h
    obtain ⟨st', hderived, hbare⟩ := derives_stmt st hst ts hts
    obtain ⟨sts', hall, hbares⟩ := derives_all sts hsts us hus
    exact ⟨st' :: sts', .cons hderived hall, by rw [Stmt.allBare, Stmt.allBare, hbare, hbares]⟩

end

end Derived

end Grammar

/-- Parsing a printed program gives it back, up to its spans. -/
theorem parse_render {body : List Stmt} (h : Stmt.allPrintable body = true) :
    ∃ again, parse (render body) = .ok again ∧ Stmt.allBare again = Stmt.allBare body := by
  obtain ⟨ts, hts, hkinds⟩ := Lexer.tokenize_render h
  obtain ⟨us, es, rfl, hus, hes⟩ := List.map_eq_append_iff.1 hkinds
  obtain ⟨t, es, rfl, ht, hes⟩ := List.map_eq_cons_iff.1 hes
  obtain rfl := List.map_eq_nil_iff.1 hes
  obtain ⟨again, hbody, hbare⟩ := Grammar.derives_all body h us hus
  exact ⟨again, parse_of_program hts (.intro hbody ht), hbare⟩

def drained : List Stmt :=
  [.define "drained" ["x", "y"] default
    [.loop (.unary .not (.name "x" default) default) default
      [.ret (some (.binary (.arith .sub) (.name "y" default)
        (.binary (.arith .sub) (.literal (.int 1) default) (.literal (.str "it's\n") default)
          default) default)) default]]]

theorem parse_render_drained :
    Stmt.allPrintable drained = true ∧
    ∃ again, parse (render drained) = .ok again ∧ Stmt.allBare again = Stmt.allBare drained :=
  ⟨by decide +kernel, parse_render (by decide +kernel)⟩

end Stepwise.Source
