import Stepwise.Proofs.Source.Complete

/-! The texts that are accepted. The grammar never puts a plus sign into a target and never leaves
a block empty; apart from texts that do, the parser accepts what the tokens derive and gives the
tree that they derive. -/

namespace Stepwise.Source

/-- Tokens without a plus sign in a target and without an empty block. -/
structure Clean (ts : List Token) : Prop where
  unsigned : signsTarget false ts = false
  filled : ts.IsChain Token.Fills

instance (t u : Token) : Decidable (t.Fills u) :=
  inferInstanceAs (Decidable (_ = true → _ = false))

instance (ts : List Token) : Decidable (Clean ts) :=
  decidable_of_iff (signsTarget false ts = false ∧ ts.IsChain Token.Fills)
    ⟨fun h => ⟨h.1, h.2⟩, fun h => ⟨h.1, h.2⟩⟩

theorem clean_nil : Clean [] :=
  ⟨rfl, List.isChain_nil⟩

theorem eq_of_isPlus {k : Token.Kind} (h : k.isPlus = true) : k = .mark .plus := by
  unfold Token.Kind.isPlus at h
  split at h
  · rfl
  · cases h

theorem eq_of_isAssign {k : Token.Kind} (h : k.isAssign = true) : k = .mark .assign := by
  unfold Token.Kind.isAssign at h
  split at h
  · rfl
  · cases h

section Clean

variable {ts us : List Token} {t n : Token} {k : Token.Kind}

theorem isChain_cons_of_not_isIndent (ht : t.kind.isIndent = false)
    (h : ts.IsChain Token.Fills) : (t :: ts).IsChain Token.Fills :=
  List.isChain_cons.2 ⟨fun _ _ hi => Bool.noConfusion (ht.symm.trans hi), h⟩

theorem Clean.cons (ht : t.kind = k) (hindent : k.isIndent = false) (hplus : k.isPlus = false)
    (h : Clean ts) : Clean (t :: ts) where
  unsigned := by simp [signsTarget, ht, hplus, h.unsigned]
  filled := isChain_cons_of_not_isIndent (ht ▸ hindent) h.filled

theorem Clean.indent (ht : t.kind = .indent) (h : Clean ts)
    (hhead : ∀ u ∈ ts.head?, u.kind.isDedent = false) : Clean (t :: ts) where
  unsigned := by simp [signsTarget, ht, Token.Kind.isPlus, h.unsigned]
  filled := List.isChain_cons.2 ⟨fun u hu _ => hhead u hu, h.filled⟩

theorem signsTarget_inner (h : Grammar.Inner ts) (hn : n.kind.isTargetPart = false)
    (hassign : n.kind.isAssign = false) (seen : Bool) :
    signsTarget seen (ts ++ n :: us) = signsTarget false us := by
  have hplus : n.kind.isPlus = false :=
    Bool.eq_false_iff.2 fun hk => by rw [eq_of_isPlus hk] at hn; cases hn
  induction ts generalizing seen with
  | nil => simp [signsTarget, hn, hassign, hplus]
  | cons t ts ih =>
    obtain ⟨ht, hts⟩ := List.forall_mem_cons.1 h
    have hinner : t.kind.isAssign = false :=
      Bool.eq_false_iff.2 fun hk => by rw [eq_of_isAssign hk] at ht; cases ht
    simp only [List.cons_append, signsTarget, hinner, Bool.and_false, Bool.false_or]
    exact ih hts _

theorem isChain_inner (h : Grammar.Inner ts) (hus : us.IsChain Token.Fills) :
    (ts ++ us).IsChain Token.Fills := by
  induction ts with
  | nil => exact hus
  | cons t ts ih =>
    obtain ⟨ht, hts⟩ := List.forall_mem_cons.1 h
    refine isChain_cons_of_not_isIndent ?_ (ih hts)
    cases hk : t.kind <;> first | rfl | (rw [hk] at ht; cases ht)

theorem Clean.inner (h : Grammar.Inner ts) (hn : n.kind = k) (hpart : k.isTargetPart = false)
    (hassign : k.isAssign = false) (hindent : k.isIndent = false) (hus : Clean us) :
    Clean (ts ++ n :: us) where
  unsigned := (signsTarget_inner h (hn ▸ hpart) (hn ▸ hassign) false).trans hus.unsigned
  filled := isChain_inner h (isChain_cons_of_not_isIndent (hn ▸ hindent) hus.filled)

end Clean

namespace Grammar

def Keeps (ts : List Token) : Prop :=
  ∀ us, Clean us → Clean (ts ++ us)

theorem Target.keeps {ts : List Token} {w : String} {s : Span} (h : Target ts w s) : Keeps ts := by
  induction h with
  | name h => exact fun us hus => hus.cons h rfl rfl
  | enclosed ho _ hc ih =>
    intro us hus
    have := (ih _ (hus.cons hc rfl rfl)).cons ho rfl rfl
    simpa using this

theorem Parameters.keeps {ts : List Token} {ps : List String} (h : Parameters ts ps) :
    Keeps ts := by
  induction h with
  | none => exact fun _ hus => hus
  | last h => exact fun us hus => hus.cons h rfl rfl
  | cons h hc _ ih => exact fun us hus => ((ih us hus).cons hc rfl rfl).cons h rfl rfl

theorem Simple.keeps {ts : List Token} {st : Stmt} (h : Simple ts st) {n : Token}
    (hn : n.kind = .newline) : Keeps (ts ++ [n]) := by
  have hexpr {ts : List Token} {e : Expr} (h : Expression .disjunction ts e) :
      Keeps (ts ++ [n]) := fun us hus => by
    rw [List.append_assoc]
    exact .inner h.inner hn rfl rfl rfl hus
  intro us hus
  cases h with
  | assign ht ha hv =>
    have := ht.keeps _ ((hexpr hv us hus).cons ha rfl rfl)
    simpa using this
  | expr h => exact hexpr h us hus
  | ret ht | pass ht => exact (hus.cons hn rfl rfl).cons ht rfl rfl
  | retValue ht h => exact (hexpr h us hus).cons ht rfl rfl

def KeepsBehind (bs : List Token) : Prop :=
  ∀ ts, Inner ts → Keeps (ts ++ bs)

theorem KeepsBehind.keeps {bs : List Token} (h : KeepsBehind bs) : Keeps bs :=
  h [] inner_nil

theorem keeps_indented {i d : Token} {ts : List Token} (hi : i.kind = .indent) (hne : Opens ts)
    (h : Keeps ts) (hd : d.kind = .dedent) : Keeps (i :: (ts ++ [d])) := by
  intro us hus
  obtain ⟨t, vs, rfl, ht⟩ := hne
  have hinside := h _ (hus.cons hd rfl rfl)
  rw [List.cons_append, List.append_assoc]
  refine hinside.indent hi fun u hu => ?_
  cases hu
  cases hk : t.kind <;> first | rfl | (rw [hk] at ht; cases ht)

theorem keepsBehind_colon {c : Token} {bs : List Token} (hc : c.kind = .mark .colon)
    (h : Keeps bs) : KeepsBehind (c :: bs) := fun ts hts us hus => by
  rw [List.append_assoc]
  exact .inner hts hc rfl rfl rfl (h us hus)

mutual

theorem Statement.keeps : ∀ {ts st}, Statement ts st → Keeps ts
  | _, _, .simple h hn => h.keeps hn
  | _, _, .choose ht he hb ho => fun us hus => by
    have := (hb.keeps _ he.inner _ (ho.keeps us hus)).cons ht rfl rfl
    simpa using this
  | _, _, .loop ht he hb => fun us hus => (hb.keeps _ he.inner us hus).cons ht rfl rfl
  | _, _, .define ht hm ho hp _ hc hb => fun us hus => by
    have := (((hp.keeps _ ((hb.keeps.keeps us hus).cons hc rfl rfl)).cons ho rfl rfl).cons hm
      rfl rfl).cons ht rfl rfl
    simpa using this

theorem Others.keeps : ∀ {ts rest}, Others ts rest → Keeps ts
  | _, _, .branch ht he hb ho => fun us hus => by
    have := (hb.keeps _ he.inner _ (ho.keeps us hus)).cons ht rfl rfl
    simpa using this
  | _, _, .otherwise ht hb => fun us hus => (hb.keeps.keeps us hus).cons ht rfl rfl
  | _, _, .none => fun _ hus => hus

theorem Block.keeps : ∀ {ts body}, Block ts body → KeepsBehind ts
  | _, _, .line hc h hn => keepsBehind_colon hc (h.keeps hn)
  | _, _, .indented hc hn hi h hne hd => keepsBehind_colon hc fun us hus =>
    (keeps_indented hi (h.opens hne) h.keeps hd us hus).cons hn rfl rfl

theorem Statements.keeps : ∀ {ts sts}, Statements ts sts → Keeps ts
  | _, _, .nil => fun _ hus => hus
  | _, _, .cons h hs => fun us hus => by
    rw [List.append_assoc]
    exact h.keeps _ (hs.keeps us hus)

end

theorem Program.clean {ts : List Token} {body : List Stmt} (h : Program ts body) : Clean ts := by
  obtain ⟨hbody, ht⟩ := h
  exact hbody.keeps _ (clean_nil.cons ht rfl rfl)

theorem Program.unique {ts : List Token} {body other : List Stmt} (h : Program ts body)
    (ho : Program ts other) : body = other := by
  have hread {body : List Stmt} (h : Program ts body) :
      program (depthBound (.ofList ts)) (.ofList ts) =
        .ok (body, ⟨[], (Tokens.ofList ts).final⟩) := by
    obtain @⟨us, _, t, hbody, ht⟩ := h
    rw [Tokens.ofList_concat]
    exact hbody.reads_program ht _ (le_refl _)
  have hsame := (hread h).symm.trans (hread ho)
  injection hsame with hsame
  exact (Prod.mk.inj hsame).1

end Grammar

/-- The tokens of a text derive the tree that the parser gives, and no other; the parser takes a
text beyond that only if a plus sign stands in a target or a block is empty. -/
theorem program_iff {text : String} {ts : List Token} {body : List Stmt}
    (hts : Lexer.tokenize text = .ok ts) :
    Grammar.Program ts body ↔ parse text = .ok body ∧ Clean ts :=
  ⟨fun h => ⟨parse_of_program hts h, h.clean⟩,
    fun ⟨h, hclean⟩ => program_of_parse hts hclean.unsigned hclean.filled h⟩

theorem exists_of_accepted (text : String) {p : List Token → Bool} {b : Bool}
    (hts : (Lexer.tokenize text).toOption.map p = some b)
    (h : (parse text).toOption.isSome = true) :
    ∃ ts body, Lexer.tokenize text = .ok ts ∧ p ts = b ∧ parse text = .ok body := by
  cases htokens : Lexer.tokenize text with
  | error e =>
    rw [htokens] at hts
    cases hts
  | ok ts =>
    cases hparsed : parse text with
    | error e =>
      rw [hparsed] at h
      cases h
    | ok body =>
      rw [htokens] at hts
      exact ⟨ts, body, rfl, Option.some.inj hts, rfl⟩

theorem program_iff_choice :
    ∃ ts body,
      Lexer.tokenize
          "def f(a, b):\n  return -a + b * 2\nif not x: pass\nelse:\n  (y) = f(1, 2) < 3\n" =
        .ok ts ∧ Grammar.Program ts body := by
  obtain ⟨ts, body, hts, hclean, hbody⟩ := exists_of_accepted
    "def f(a, b):\n  return -a + b * 2\nif not x: pass\nelse:\n  (y) = f(1, 2) < 3\n"
    (p := fun ts => decide (Clean ts)) (b := true) (by decide +kernel) (by decide +kernel)
  exact ⟨ts, body, hts, (program_iff hts).2 ⟨hbody, of_decide_eq_true hclean⟩⟩

def Underived (text : String) : Prop :=
  ∃ ts body, Lexer.tokenize text = .ok ts ∧ parse text = .ok body ∧ ¬ Grammar.Program ts body

theorem underived_of_not_clean {text : String}
    (hts : (Lexer.tokenize text).toOption.map (decide <| Clean ·) = some false)
    (h : (parse text).toOption.isSome = true) : Underived text := by
  obtain ⟨ts, body, hts, hclean, hbody⟩ := exists_of_accepted text hts h
  exact ⟨ts, body, hts, hbody, fun hp => of_decide_eq_false hclean hp.clean⟩

/-- A plus sign before a name that is assigned to, and a block of a line that is joined to
nothing. -/
theorem accepted_without_derivation :
    Underived "+x = 1\n" ∧ Underived "if x:\n    \\\n" :=
  ⟨underived_of_not_clean (by decide +kernel) (by decide +kernel),
    underived_of_not_clean (by decide +kernel) (by decide +kernel)⟩

end Stepwise.Source
