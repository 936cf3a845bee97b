import Mathlib.Data.List.Chain
import Mathlib.Logic.Relation
import Stepwise.Proofs.Source.Shape

/-! How blocks and parentheses nest. The tokens of a text are lines, groups in parentheses, and
blocks of these; inside parentheses there are no lines and no blocks. While the scanner is on its
way, it has read the beginning of such a text, in which the blocks and the parentheses that it
remembers are open. -/

namespace Stepwise.Source

/-- A token that stands in a line, and is no parenthesis. -/
def Token.Kind.isWord : Token.Kind → Bool
  | .mark .openParen | .mark .closeParen => false
  | k => !k.isShape

/-- What stands between parentheses: further groups, but no lines and no blocks. -/
inductive Enclosed : List Token → Prop
  | nil : Enclosed []
  | word {t : Token} {ts : List Token} (ht : t.kind.isWord) (h : Enclosed ts) : Enclosed (t :: ts)
  | group {o c : Token} {ts us : List Token} (ho : o.kind = .mark .openParen) (h : Enclosed ts)
      (hc : c.kind = .mark .closeParen) (hs : Enclosed us) : Enclosed (o :: ts ++ c :: us)

/-- Lines with their groups, and blocks of them. -/
inductive Blocks : List Token → Prop
  | nil : Blocks []
  | word {t : Token} {ts : List Token} (ht : t.kind.isWord) (h : Blocks ts) : Blocks (t :: ts)
  | lineEnd {t : Token} {ts : List Token} (ht : t.kind = .newline) (h : Blocks ts) :
      Blocks (t :: ts)
  | group {o c : Token} {ts us : List Token} (ho : o.kind = .mark .openParen) (h : Enclosed ts)
      (hc : c.kind = .mark .closeParen) (hs : Blocks us) : Blocks (o :: ts ++ c :: us)
  | block {o c : Token} {ts us : List Token} (ho : o.kind = .indent) (h : Blocks ts)
      (hc : c.kind = .dedent) (hs : Blocks us) : Blocks (o :: ts ++ c :: us)

variable {ts us : List Token} {t o c : Token}

theorem Enclosed.append (h : Enclosed ts) (hs : Enclosed us) : Enclosed (ts ++ us) := by
  induction h with
  | nil => exact hs
  | word ht _ ih => exact .word ht ih
  | group ho h hc _ _ ih =>
    rw [List.append_assoc, List.cons_append]
    exact .group ho h hc ih

theorem Blocks.append (h : Blocks ts) (hs : Blocks us) : Blocks (ts ++ us) := by
  induction h with
  | nil => exact hs
  | word ht _ ih => exact .word ht ih
  | lineEnd ht _ ih => exact .lineEnd ht ih
  | group ho h hc _ ih =>
    rw [List.append_assoc, List.cons_append]
    exact .group ho h hc ih
  | block ho h hc _ _ ih =>
    rw [List.append_assoc, List.cons_append]
    exact .block ho h hc ih

theorem Enclosed.blocks (h : Enclosed ts) : Blocks ts := by
  induction h with
  | nil => exact .nil
  | word ht _ ih => exact .word ht ih
  | group ho h hc _ _ ih => exact .group ho h hc ih

namespace Lexer

/-- The beginning of a text in which blocks of these widths are open, the innermost first, and so
many parentheses in the line at its end. -/
inductive Opened : List Token → List Nat → Nat → Prop
  | blocks {ts : List Token} (h : Blocks ts) : Opened ts [] 0
  | indent {ts us : List Token} {o : Token} {widths : List Nat} {width : Nat}
      (h : Opened ts widths 0) (hw : widths.headD 0 < width) (ho : o.kind = .indent)
      (hs : Blocks us) : Opened (ts ++ o :: us) (width :: widths) 0
  | paren {ts us : List Token} {o : Token} {widths : List Nat} {depth : Nat}
      (h : Opened ts widths depth) (ho : o.kind = .mark .openParen) (hs : Enclosed us) :
      Opened (ts ++ o :: us) widths (depth + 1)

namespace Opened

variable {widths : List Nat} {width depth : Nat}

theorem append (h : Opened ts widths 0) (hs : Blocks us) : Opened (ts ++ us) widths 0 := by
  cases h with
  | blocks h => exact .blocks (h.append hs)
  | indent h hw ho h' =>
    rw [List.append_assoc]
    exact .indent h hw ho (h'.append hs)

theorem appendEnclosed (h : Opened ts widths depth) (hs : Enclosed us) :
    Opened (ts ++ us) widths depth := by
  cases h with
  | blocks h => exact .blocks (h.append hs.blocks)
  | indent h hw ho h' =>
    rw [List.append_assoc]
    exact .indent h hw ho (h'.append hs.blocks)
  | paren h ho h' =>
    rw [List.append_assoc]
    exact .paren h ho (h'.append hs)

theorem close (h : Opened ts widths (depth + 1)) (hc : c.kind = .mark .closeParen) :
    Opened (ts ++ [c]) widths depth := by
  cases h with
  | paren h ho h' =>
    rw [List.append_assoc]
    exact h.appendEnclosed (.group ho h' hc .nil)

theorem dedent (h : Opened ts (width :: widths) 0) (hc : c.kind = .dedent) :
    Opened (ts ++ [c]) widths 0 := by
  cases h with
  | indent h hw ho h' =>
    rw [List.append_assoc]
    exact h.append (.block ho h' hc .nil)

theorem dedents {closed : List Nat} (h : Opened ts (closed ++ widths) 0) (hc : c.kind = .dedent) :
    Opened (ts ++ List.replicate closed.length c) widths 0 := by
  induction closed generalizing ts with
  | nil => simpa using h
  | cons w ws ih =>
    rw [List.length_cons, List.replicate_succ, List.append_cons]
    exact ih (h.dedent hc)

theorem all (h : Opened ts [] 0) : Blocks ts := by
  cases h with
  | blocks h => exact h

theorem increasing (h : Opened ts widths depth) : (0 :: widths.reverse).Pairwise (· < ·) := by
  induction h with
  | blocks => exact List.pairwise_singleton _ _
  | @indent _ _ _ widths width _ hw _ _ ih =>
    rw [List.reverse_cons, ← List.cons_append]
    refine List.pairwise_append.2 ⟨ih, List.pairwise_singleton _ _, fun v hv w hwidth => ?_⟩
    rw [List.mem_singleton.1 hwidth]
    cases widths with
    | nil => simpa [List.mem_singleton.1 hv] using hw
    | cons u us =>
      rw [List.reverse_cons, ← List.cons_append] at ih hv
      have hlast := (List.pairwise_append.1 ih).2.2
      rcases List.mem_append.1 hv with hv | hv
      · exact (hlast v hv u (List.mem_singleton_self u)).trans hw
      · exact List.mem_singleton.1 hv ▸ hw
  | paren _ _ _ ih => exact ih

end Opened

/-! The scanner on its way. -/

/-- One step of the scanner, at the start of a line or inside one. -/
inductive State.Step (s t : State) : Prop
  | line (hs : s.lineStart = true) (h : s.openLine = .ok t)
  | piece {c : Char} {cs : List Char} (hs : s.lineStart = false) (hr : s.rest = c :: cs)
      (h : s.takePiece c cs = .ok t)

def State.Leads : State → State → Prop :=
  Relation.ReflTransGen State.Step

theorem State.leads_run {s : State} {ts : List Token} (h : s.run = .ok ts) :
    ∃ t, s.Leads t ∧ t.rest = [] ∧ t.finish = .ok ts := by
  refine State.finish_of_run (P := s.Leads) ?_ ?_ .refl h
  · exact fun _ _ hs ht hleads => hleads.tail (.line hs ht)
  · exact fun _ _ _ _ hs hr ht hleads => hleads.tail (.piece hs hr ht)

def State.width (s : State) : Nat :=
  indentWidth (s.rest.takeWhile isIndentation)

/-- What the start of a line does to the open blocks. A line that holds nothing does nothing. Any
other opens a block if it is wider than the innermost one, and otherwise goes back to a block that
is as wide as it is, or out of all blocks. -/
inductive State.Settles (s t : State) : Prop
  | skips (h : t.indents = s.indents) (ht : t.tokens = s.tokens)
  | opens (hw : s.indents.headD 0 < s.width) (h : t.indents = s.width :: s.indents) {o : Token}
      (ho : o.kind = .indent) (ht : t.tokens = o :: s.tokens)
  | returns {closed : List Nat} (hclosed : ∀ w ∈ closed, s.width < w)
      (h : s.indents = closed ++ t.indents) (hw : t.indents.headD 0 = s.width) {c : Token}
      (hc : c.kind = .dedent) (ht : t.tokens = List.replicate closed.length c ++ s.tokens)

inductive State.Takes (s t : State) : Prop
  | skips (ht : t.tokens = s.tokens) (h : t.parens = s.parens)
  | word {u : Token} (hu : u.kind.isWord) (ht : t.tokens = u :: s.tokens) (h : t.parens = s.parens)
  | lineEnd {u : Token} (hu : u.kind = .newline) (ht : t.tokens = u :: s.tokens)
      (hs : s.parens = []) (h : t.parens = [])
  | opens {o : Token} (ho : o.kind = .mark .openParen) (ht : t.tokens = o :: s.tokens)
      (h : t.parens.length = s.parens.length + 1)
  | closes {c : Token} (hc : c.kind = .mark .closeParen) (ht : t.tokens = c :: s.tokens)
      (h : s.parens.length = t.parens.length + 1)

/-- Lines start outside parentheses, and the tokens so far open the blocks and the parentheses that
the scanner remembers. -/
structure State.Inside (s : State) : Prop where
  opened : Opened s.tokens.reverse s.indents s.parens.length
  outside : s.lineStart = true → s.parens = []

section Line

variable {s t : State}

theorem State.indentTo_settles {width : Nat} (h : s.indentTo width = .ok t) :
    t.parens = s.parens ∧
      ((s.indents.headD 0 < width ∧ t.indents = width :: s.indents ∧
          ∃ o : Token, o.kind = .indent ∧ t.tokens = o :: s.tokens) ∨
        ∃ closed, (∀ w ∈ closed, width < w) ∧ s.indents = closed ++ t.indents ∧
          t.indents.headD 0 = width ∧ ∃ c : Token, c.kind = .dedent ∧
            t.tokens = List.replicate closed.length c ++ s.tokens) := by
  unfold State.indentTo at h
  split at h
  · next hw =>
    cases h
    exact ⟨rfl, .inl ⟨hw, rfl, _, rfl, rfl⟩⟩
  · dsimp only at h
    split at h
    · next hw =>
      cases h
      have hsplit := (List.takeWhile_append_dropWhile (p := fun w => decide (width < w))
        (l := s.indents)).symm
      have hlength := congrArg List.length hsplit
      rw [List.length_append] at hlength
      refine ⟨rfl, .inr ⟨_, fun w hw => ?_, hsplit, hw, ⟨.dedent, .point s.place⟩, rfl, ?_⟩⟩
      · exact of_decide_eq_true (List.mem_takeWhile_imp (p := fun w => decide (width < w)) hw)
      · rw [hlength, Nat.add_sub_cancel]
    · cases h

theorem State.openLine_settles (h : s.openLine = .ok t) : t.parens = s.parens ∧ s.Settles t := by
  unfold State.openLine at h
  dsimp only at h
  split at h
  · cases h
    exact ⟨rfl, .skips rfl rfl⟩
  · split at h
    · cases h
      exact ⟨rfl, .skips rfl rfl⟩
    · obtain ⟨hparens, hcases⟩ := State.indentTo_settles h
      refine ⟨hparens, ?_⟩
      obtain ⟨hw, hindents, o, ho, ht⟩ | ⟨closed, hclosed, hindents, hw, c, hc, ht⟩ := hcases
      · exact .opens hw hindents ho ht
      · exact .returns hclosed hindents hw hc ht

theorem State.Inside.openLine (h : s.Inside) (hs : s.lineStart = true) (ht : s.openLine = .ok t) :
    t.Inside := by
  obtain ⟨hparens, hsettles⟩ := State.openLine_settles ht
  have hout := h.outside hs
  have hopened := h.opened
  refine ⟨?_, fun _ => hparens.trans hout⟩
  rw [hparens]
  rw [hout] at hopened ⊢
  cases hsettles with
  | skips hindents ht =>
    rw [hindents, ht]
    exact hopened
  | opens hw hindents ho ht =>
    rw [hindents, ht, List.reverse_cons]
    exact .indent hopened hw ho .nil
  | returns _ hindents _ hc ht =>
    rw [ht, List.reverse_append, List.reverse_replicate]
    exact (hindents ▸ hopened).dedents hc

theorem State.takePiece_takes {c : Char} {cs : List Char} (hs : s.lineStart = false)
    (h : s.takePiece c cs = .ok t) :
    t.indents = s.indents ∧ (t.lineStart = true → t.parens = []) ∧ s.Takes t := by
  have hinside (u : State) (hu : u.lineStart = s.lineStart) :
      u.lineStart = true → u.parens = [] :=
    fun hl => absurd ((hu.trans hs).symm.trans hl) (by decide)
  unfold State.takePiece at h
  dsimp only at h
  split at h
  · cases h
    exact ⟨rfl, hinside _ rfl, .skips rfl rfl⟩
  · split at h
    · next hparens =>
      cases h
      have hout : s.parens = [] := List.isEmpty_iff.1 hparens
      unfold State.newline
      split
      · exact ⟨rfl, fun _ => hout, .lineEnd (u := ⟨.newline, .point s.place⟩) rfl rfl hout hout⟩
      · exact ⟨rfl, fun _ => hout, .skips rfl rfl⟩
    · cases h
      exact ⟨rfl, hinside _ rfl, .skips rfl rfl⟩
  · cases h
  · cases h
    exact ⟨rfl, hinside _ rfl, .opens (o := ⟨.mark .openParen, _⟩) rfl rfl rfl⟩
  · split at h <;> cases h
    next hparens =>
    exact ⟨rfl, hinside _ rfl, .closes (c := ⟨.mark .closeParen, _⟩) rfl rfl (by rw [hparens]; rfl)⟩
  · next kind hopen hclose hk =>
    cases h
    have hshape := isShape_of_pieceAt (Prod.ext hk rfl)
    have hword : kind.isWord := by
      cases kind with
      | mark m => cases m <;> first | rfl | contradiction
      | _ => first | rfl | cases hshape
    exact ⟨rfl, hinside _ rfl, .word (u := ⟨kind, _⟩) hword rfl rfl⟩

theorem State.Takes.no_blocks (h : s.Takes t) :
    ∃ new, t.tokens = new ++ s.tokens ∧ ∀ u ∈ new, u.kind ≠ .indent ∧ u.kind ≠ .dedent := by
  cases h with
  | skips ht => exact ⟨[], ht, nofun⟩
  | @word u hu ht =>
    refine ⟨[u], ht, fun v hv => ?_⟩
    rw [List.mem_singleton.1 hv]
    exact ⟨fun hk => by simp [hk, Token.Kind.isWord, Token.Kind.isShape] at hu,
      fun hk => by simp [hk, Token.Kind.isWord, Token.Kind.isShape] at hu⟩
  | @lineEnd u hu ht | @opens u hu ht | @closes u hu ht =>
    refine ⟨[u], ht, fun v hv => ?_⟩
    rw [List.mem_singleton.1 hv, hu]
    exact ⟨nofun, nofun⟩

theorem State.Inside.takePiece {c : Char} {cs : List Char} (h : s.Inside)
    (hs : s.lineStart = false) (ht : s.takePiece c cs = .ok t) : t.Inside := by
  obtain ⟨hindents, hstart, htakes⟩ := State.takePiece_takes hs ht
  refine ⟨?_, hstart⟩
  have hopened := h.opened
  rw [hindents]
  cases htakes with
  | skips ht hparens =>
    rw [ht, hparens]
    exact hopened
  | word hu ht hparens =>
    rw [ht, hparens, List.reverse_cons]
    exact hopened.appendEnclosed (.word hu .nil)
  | lineEnd hu ht hout hparens =>
    rw [hout] at hopened
    rw [ht, hparens, List.reverse_cons]
    exact hopened.append (.lineEnd hu .nil)
  | opens ho ht hparens =>
    rw [ht, hparens, List.reverse_cons]
    exact .paren hopened ho .nil
  | closes hc ht hparens =>
    rw [hparens] at hopened
    rw [ht, List.reverse_cons]
    exact hopened.close hc

end Line

theorem State.Inside.start (text : List Char) : (State.start text).Inside :=
  ⟨.blocks .nil, fun _ => rfl⟩

theorem State.Inside.leads {s t : State} (h : s.Inside) (hst : s.Leads t) : t.Inside := by
  induction hst with
  | refl => exact h
  | tail _ hstep ih =>
    cases hstep with
    | line hs ht => exact ih.openLine hs ht
    | piece hs _ ht => exact ih.takePiece hs ht

theorem State.Inside.finish {s : State} {ts : List Token} (h : s.Inside) (ht : s.finish = .ok ts) :
    ∃ us last, ts = us ++ [last] ∧ Blocks us := by
  unfold State.finish at ht
  split at ht <;> cases ht
  next hparens =>
  have hopened := h.opened
  rw [hparens] at hopened
  have hline : Opened (s.newline (.point s.place)).tokens.reverse
      (s.newline (.point s.place)).indents 0 := by
    unfold State.newline
    split
    · change Opened (_ :: s.tokens).reverse s.indents 0
      rw [List.reverse_cons]
      exact hopened.append (.lineEnd rfl .nil)
    · exact hopened
  rw [← List.append_nil (s.newline _).indents] at hline
  exact ⟨_, _, rfl, (hline.dedents (c := ⟨.dedent, .point s.place⟩) rfl).all⟩

/-- The tokens of a text are lines, groups in parentheses and blocks, nested in each other, and the
end of the text behind them. A line ends only behind a token of its own. Wherever the scanner is in
the text, the blocks that are open widen inwards, and only the start of a line opens or closes
any. -/
theorem tokenize_blocks {text : String} {ts : List Token} (h : tokenize text = .ok ts) :
    (∃ us last, ts = us ++ [last] ∧ Blocks us ∧ last.kind = .eof ∧ ∀ t ∈ us, t.kind ≠ .eof) ∧
      (∀ t ∈ ts.head?, t.kind ≠ .newline) ∧
      ts.IsChain (fun t u => u.kind = .newline → t.kind.isLayout = false) ∧
      (∃ s, (State.start text.toList).Leads s ∧ s.rest = [] ∧ s.finish = .ok ts) ∧
      ∀ s, (State.start text.toList).Leads s →
        Opened s.tokens.reverse s.indents s.parens.length ∧
          (0 :: s.indents.reverse).Pairwise (· < ·) ∧
          ∀ t, s.Step t →
            (s.lineStart = true ∧ s.Settles t) ∨
              t.indents = s.indents ∧ ∃ new, t.tokens = new ++ s.tokens ∧
                ∀ u ∈ new, u.kind ≠ .indent ∧ u.kind ≠ .dedent := by
  have hinside := State.Inside.start text.toList
  obtain ⟨us, last, hts, hshaped⟩ := shaped_tokenize h
  obtain ⟨first, hfirst, hchain⟩ := hshaped.starts
  obtain ⟨s, hleads, hrest, hfinish⟩ := State.leads_run h
  obtain ⟨us', last', hts', hblocks⟩ := (hinside.leads hleads).finish hfinish
  obtain ⟨rfl, -⟩ := List.append_inj' (hts.symm.trans hts') rfl
  rw [← hts] at hchain
  refine ⟨⟨us, last, hts, hblocks, hshaped.last, hshaped.inner⟩, fun t ht hk => ?_,
    ?_, ⟨s, hleads, hrest, hfinish⟩, fun s hs => ?_⟩
  · have := ((List.isChain_cons.1 hchain).1 t ht).newline hk
    exact absurd (hfirst.symm.trans this) (by decide)
  · exact (List.isChain_cons.1 hchain).2.imp fun t u htu => htu.newline
  · have hopened := (hinside.leads hs).opened
    refine ⟨hopened, hopened.increasing, fun t hst => ?_⟩
    cases hst with
    | line hs ht => exact .inl ⟨hs, (State.openLine_settles ht).2⟩
    | piece hs _ ht =>
      obtain ⟨hindents, -, htakes⟩ := State.takePiece_takes hs ht
      exact .inr ⟨hindents, htakes.no_blocks⟩

theorem tokenize_blocks_call :
    ∃ ts, tokenize "if x:\n  f(1,\n2)\n" = .ok ts ∧
      ts.map (fun t => t.kind.isLayout) =
        [false, false, false, true, true, false, false, false, false, false, false, true, true,
          false] ∧
      (∃ us last, ts = us ++ [last] ∧ Blocks us ∧ last.kind = .eof ∧ ∀ t ∈ us, t.kind ≠ .eof) ∧
      ts.IsChain (fun t u => u.kind = .newline → t.kind.isLayout = false) := by
  have hlayout : (tokenize "if x:\n  f(1,\n2)\n").toOption.map
      (·.map fun t => t.kind.isLayout) =
        some [false, false, false, true, true, false, false, false, false, false, false, true, true,
          false] := by
    decide +kernel
  cases hts : tokenize "if x:\n  f(1,\n2)\n" with
  | error e =>
    rw [hts] at hlayout
    cases hlayout
  | ok ts =>
    rw [hts] at hlayout
    obtain ⟨hnested, -, hlines, -⟩ := tokenize_blocks hts
    exact ⟨ts, rfl, Option.some.inj hlayout, hnested, hlines⟩

end Lexer

end Stepwise.Source
