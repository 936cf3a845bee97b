import Mathlib.Data.List.Chain
import Stepwise.Proofs.Source.Derivation

/-! How the tokens of a text shape lines and blocks. A line ends behind a token of its own, the
text ends behind the end of a line, and every block that begins ends before the text does. -/

namespace Stepwise.Source

theorem isShape_of_isLayout {k : Token.Kind} (h : k.isLayout = true) : k.isShape = true := by
  cases k <;> first | rfl | cases h

/-- What stands between two tokens of a text: a line ends only where it holds a token, and the
text only where no line is left open. -/
structure Token.Meets (t u : Token) : Prop where
  newline : u.kind = .newline → t.kind.isLayout = false
  eof : u.kind = .eof → t.kind.isLayout = true

def StartsLine (ts : List Token) : Prop :=
  ∃ t, t.kind.isLayout = true ∧ (t :: ts).IsChain Token.Meets

namespace Lexer

structure Shapes (taken : List Token) (depth : Nat) : Prop where
  meets : ∃ t, t.kind.isLayout = true ∧ (taken ++ [t]).IsChain fun u t : Token => t.Meets u
  inner : ∀ t ∈ taken, t.kind ≠ .eof
  blocks : taken.countP (·.kind.isIndent) = taken.countP (·.kind.isDedent) + depth

namespace Shapes

variable {taken : List Token} {depth : Nat}

theorem nil : Shapes [] 0 :=
  ⟨⟨⟨.newline, default⟩, rfl, List.isChain_singleton _⟩, nofun, rfl⟩

theorem cons (h : Shapes taken depth) {t : Token} {deeper : Nat} (hline : t.kind ≠ .newline)
    (hend : t.kind ≠ .eof)
    (hblocks : t.kind.isIndent.toNat + depth = t.kind.isDedent.toNat + deeper) :
    Shapes (t :: taken) deeper := by
  obtain ⟨first, hfirst, hchain⟩ := h.meets
  refine ⟨⟨first, hfirst, ?_⟩, List.forall_mem_cons.2 ⟨hend, h.inner⟩, ?_⟩
  · exact List.isChain_cons.2
      ⟨fun _ _ => ⟨fun he => absurd he hline, fun he => absurd he hend⟩, hchain⟩
  · have := h.blocks
    cases hi : t.kind.isIndent <;> cases hd : t.kind.isDedent <;>
      simp only [List.countP_cons, hi, hd, Bool.toNat_true, Bool.toNat_false] at hblocks ⊢ <;>
      simp <;> omega

theorem inLine (h : Shapes taken depth) {kind : Token.Kind} (hk : kind.isShape = false)
    (span : Span) : Shapes (⟨kind, span⟩ :: taken) depth := by
  have hplain : kind ≠ .newline ∧ kind ≠ .eof ∧ kind.isIndent = false ∧ kind.isDedent = false := by
    cases kind <;> first | (cases hk; done) | exact ⟨nofun, nofun, rfl, rfl⟩
  obtain ⟨hline, hend, hindent, hdedent⟩ := hplain
  exact h.cons hline hend (by rw [hindent, hdedent])

theorem newline (h : Shapes taken depth)
    (hlast : (taken.head?.any fun t => !t.kind.isLayout) = true) (span : Span) :
    Shapes (⟨.newline, span⟩ :: taken) depth := by
  obtain ⟨first, hfirst, hchain⟩ := h.meets
  obtain _ | ⟨t, ts⟩ := taken
  · cases hlast
  have ht : t.kind.isLayout = false := by simpa using hlast
  refine ⟨⟨first, hfirst, ?_⟩, List.forall_mem_cons.2 ⟨nofun, h.inner⟩, ?_⟩
  · exact List.isChain_cons_cons.2 ⟨⟨fun _ => ht, nofun⟩, hchain⟩
  · simpa [List.countP_cons, Token.Kind.isIndent, Token.Kind.isDedent] using h.blocks

theorem indent (h : Shapes taken depth) (span : Span) :
    Shapes (⟨.indent, span⟩ :: taken) (depth + 1) :=
  h.cons nofun nofun (by simp [Token.Kind.isIndent, Token.Kind.isDedent]; omega)

theorem dedents {n : Nat} (h : Shapes taken (depth + n)) (span : Span) :
    Shapes (List.replicate n ⟨.dedent, span⟩ ++ taken) depth := by
  induction n generalizing taken with
  | zero => exact h
  | succ n ih =>
    rw [List.replicate_succ', List.append_assoc]
    refine ih (h.cons nofun nofun ?_)
    simp only [Token.Kind.isIndent, Token.Kind.isDedent, Bool.toNat_false, Bool.toNat_true]
    omega

end Shapes

theorem isShape_of_pieceAt {c : Char} {cs : List Char} {kind : Token.Kind} {more : List Char}
    (h : pieceAt c cs = (.token kind, more)) : kind.isShape = false := by
  have hspells := pieceAt_spells c cs
  rw [h] at hspells
  have hspelled : kind.SpelledBy (c :: more) := hspells
  cases kind <;> first | rfl | exact absurd hspelled (List.cons_ne_nil _ _)

def State.Shapes (s : State) : Prop :=
  Lexer.Shapes s.tokens s.indents.length

namespace State.Shapes

variable {s t : State}

theorem newline (h : s.Shapes) (span : Span) : (s.newline span).Shapes := by
  unfold State.newline
  split
  · next hlast => exact Lexer.Shapes.newline h hlast span
  · exact h

theorem indentTo {width : Nat} (h : s.Shapes) (ht : s.indentTo width = .ok t) : t.Shapes := by
  unfold State.indentTo at ht
  split at ht
  · cases ht
    exact Lexer.Shapes.indent h _
  · dsimp only at ht
    split at ht
    · cases ht
      refine Lexer.Shapes.dedents (n := s.indents.length - (s.indents.dropWhile (width < ·)).length)
        ?_ _
      have hle := (List.dropWhile_sublist (l := s.indents) (width < ·)).length_le
      rw [Nat.add_sub_cancel' hle]
      exact h
    · cases ht

theorem openLine (h : s.Shapes) (ht : s.openLine = .ok t) : t.Shapes := by
  unfold State.openLine at ht
  dsimp only at ht
  split at ht
  · cases ht
    exact h
  · split at ht
    · cases ht
      exact h
    · exact State.Shapes.indentTo (s := s.skip _) h ht

theorem takePiece {c : Char} {cs : List Char} (h : s.Shapes) (ht : s.takePiece c cs = .ok t) :
    t.Shapes := by
  unfold State.takePiece at ht
  dsimp only at ht
  split at ht
  · cases ht
    exact h
  · split at ht <;> cases ht
    · exact State.Shapes.newline (s := s.skip _) h _
    · exact h
  · cases ht
  · cases ht
    exact Lexer.Shapes.inLine h rfl _
  · split at ht <;> cases ht
    exact Lexer.Shapes.inLine h rfl _
  · next hk =>
    cases ht
    exact Lexer.Shapes.inLine h (isShape_of_pieceAt (Prod.ext hk rfl)) _

end State.Shapes

/-- All tokens of a text and the end behind them: a line starts at the first of them, and no
block is left open. -/
structure Shaped (us : List Token) (last : Token) : Prop where
  starts : StartsLine (us ++ [last])
  inner : ∀ t ∈ us, t.kind ≠ .eof
  last : last.kind = .eof
  balanced : Grammar.Balanced us

theorem Shapes.finish {taken : List Token} (h : Shapes taken 0)
    (hlast : ∀ t ∈ taken.head?, t.kind.isLayout = true) (span : Span) :
    Shaped taken.reverse ⟨.eof, span⟩ := by
  obtain ⟨first, hfirst, hchain⟩ := h.meets
  refine ⟨⟨first, hfirst, ?_⟩, fun t ht => h.inner t (List.mem_reverse.1 ht), rfl, ?_⟩
  · have hmeets : (⟨.eof, span⟩ :: (taken ++ [first])).IsChain fun u t => t.Meets u := by
      refine List.isChain_cons.2 ⟨fun t ht => ⟨nofun, fun _ => ?_⟩, hchain⟩
      cases taken with
      | nil => cases ht; exact hfirst
      | cons u us => exact hlast t ht
    simpa using List.isChain_reverse.2 hmeets
  · unfold Grammar.Balanced
    rw [List.countP_reverse, List.countP_reverse, h.blocks, Nat.add_zero]

theorem State.isLayout_newline (s : State) (span : Span) :
    ∀ t ∈ (s.newline span).tokens.head?, t.kind.isLayout = true := by
  intro t ht
  unfold State.newline at ht
  split at ht
  · cases ht
    rfl
  · next hlast =>
    rw [Option.mem_def] at ht
    simpa [ht] using hlast

theorem State.Shapes.finish {s : State} {ts : List Token} (h : s.Shapes)
    (ht : s.finish = .ok ts) : ∃ us last, ts = us ++ [last] ∧ Shaped us last := by
  unfold State.finish at ht
  split at ht <;> cases ht
  have hlast := s.isLayout_newline (.point s.place)
  have hclosed := @Lexer.Shapes.dedents _ 0 _
    (by rw [Nat.zero_add]; exact h.newline (.point s.place)) (.point s.place)
  have hshaped := hclosed.finish (fun t ht => ?_) (.point s.place)
  · exact ⟨_, _, rfl, by simpa using hshaped⟩
  · cases hn : (s.newline (.point s.place)).indents.length with
    | zero =>
      rw [hn] at ht
      exact hlast t ht
    | succ n =>
      rw [hn] at ht
      cases ht
      rfl

theorem State.Shapes.run {s : State} {ts : List Token} (h : s.Shapes) (ht : s.run = .ok ts) :
    ∃ us last, ts = us ++ [last] ∧ Shaped us last := by
  obtain ⟨t, hshapes, -, hend⟩ := State.finish_of_run (fun _ _ _ ht h => h.openLine ht)
    (fun _ _ _ _ _ _ ht h => h.takePiece ht) h ht
  exact hshapes.finish hend

theorem shaped_tokenize {text : String} {ts : List Token} (h : tokenize text = .ok ts) :
    ∃ us last, ts = us ++ [last] ∧ Shaped us last :=
  State.Shapes.run (s := State.start text.toList) Lexer.Shapes.nil h

end Lexer

end Stepwise.Source
