import Mathlib.Logic.Relation
import Stepwise.Proofs.Source.Pieces
import Stepwise.Proofs.Source.Places

/-! What becomes of each character of a text. The scanner goes through the text from its start, and
each step takes up the characters directly ahead: a token, a gap, or a line that it skips because
that begins with a carriage return. -/

namespace Stepwise.Source

theorem append_eq_append_cons {α : Type} {xs ys a b : List α} {c : α} (h : xs ++ ys = a ++ c :: b) :
    (∃ b', xs = a ++ c :: b' ∧ b = b' ++ ys) ∨ ∃ a', a = xs ++ a' ∧ ys = a' ++ c :: b := by
  rcases List.append_eq_append_iff.1 h with ⟨a', ha, hys⟩ | ⟨b', hxs, hb⟩
  · exact .inr ⟨a', ha, hys⟩
  · cases b' with
    | nil => exact .inr ⟨[], by simpa using hxs.symm, hb.symm⟩
    | cons d b' =>
      obtain ⟨rfl, rfl⟩ := List.cons.inj hb
      exact .inl ⟨b', hxs, rfl⟩

/-- The token stands in the text, and its part of the text spells it. -/
def Token.PartOf (text : List Char) (t : Token) : Prop :=
  ∃ before cs after, text = before ++ (cs ++ after) ∧
    t.span = .between (Point.first.past before) (Point.first.past (before ++ cs)) ∧
    t.kind.SpelledBy cs

theorem Token.PartOf.append {text : List Char} {t : Token} (h : t.PartOf text) (more : List Char) :
    t.PartOf (text ++ more) := by
  obtain ⟨before, cs, after, rfl, h⟩ := h
  exact ⟨before, cs, after ++ more, by simp only [List.append_assoc], h⟩

namespace Lexer

theorem isSpace_of_isIndentation {c : Char} (h : isIndentation c = true) : isSpace c = true := by
  simp only [isIndentation, isSpace, Bool.or_eq_true] at h ⊢
  grind

structure Scan where
  gone : List Char
  ahead : List Char
  tokens : List Token

inductive Scan.Step : Scan → Scan → Prop
  | token {gone cs rest : List Char} {ts : List Token} {kind : Token.Kind}
      (hs : kind.SpelledBy cs) :
      Step ⟨gone, cs ++ rest, ts⟩
        ⟨gone ++ cs, rest,
          ⟨kind, .between (Point.first.past gone) (Point.first.past (gone ++ cs))⟩ :: ts⟩
  | gap {gone cs rest : List Char} {ts : List Token} (hg : Gap cs rest) :
      Step ⟨gone, cs ++ rest, ts⟩ ⟨gone ++ cs, rest, ts⟩
  | hidden {gone margin cs rest : List Char} {ts : List Token}
      (hgone : (Point.first.past gone).col = 0) (hmargin : ∀ c ∈ margin, isIndentation c = true)
      (hcs : '\n' ∉ cs) (hend : AtLineEnd rest) :
      Step ⟨gone, margin ++ '\r' :: cs ++ rest, ts⟩ ⟨gone ++ (margin ++ '\r' :: cs), rest, ts⟩

namespace Scan

def Leads : Scan → Scan → Prop :=
  Relation.ReflTransGen Step

def start (text : List Char) : Scan :=
  ⟨[], text, []⟩

end Scan

def Covered (ts : List Token) (p : Point) : Prop :=
  ∃ t ∈ ts, t.span.Covers p

/-- The character behind `pre` is on a line that is a comment from a `#` on. -/
inductive Commented (ts : List Token) (pre : List Char) (c : Char) : Prop
  | intro {before line : List Char} (h : pre ++ [c] = before ++ '#' :: line) (hline : '\n' ∉ line)
      (hout : ¬Covered ts (Point.first.past before))

/-- The character `c` between `pre` and `post` is a blank, is in a comment, or joins two lines. -/
inductive Idle (ts : List Token) (pre : List Char) (c : Char) (post : List Char) : Prop
  | space (h : isSpace c = true)
  | comment (h : Commented ts pre c)
  | joined {more : List Char} (hc : c = '\\') (h : post = '\n' :: more)

/-- What stands behind `pre` is on a line that begins with a carriage return, which belongs to no
token, and it is behind that. -/
inductive BehindReturn (ts : List Token) (pre : List Char) : Prop
  | intro {before margin line : List Char} (h : pre = before ++ (margin ++ '\r' :: line))
      (hbefore : (Point.first.past before).col = 0)
      (hmargin : ∀ c ∈ margin, isIndentation c = true) (hline : '\n' ∉ line)
      (hout : ¬Covered ts (Point.first.past (before ++ margin)))

/-- A token, a gap or a skipped line takes up the character `c` between `pre` and `post`. -/
def Accounted (ts : List Token) (pre : List Char) (c : Char) (post : List Char) : Prop :=
  Covered ts (Point.first.past pre) ∨ Idle ts pre c post ∨ BehindReturn ts pre

section Accounted

variable {ts : List Token} {t : Token} {pre post : List Char} {c : Char} {p : Point}

theorem Covered.cons (h : Covered ts p) (t : Token) : Covered (t :: ts) p := by
  obtain ⟨u, hu, hp⟩ := h
  exact ⟨u, List.mem_cons_of_mem t hu, hp⟩

theorem not_covered_cons (h : ¬Covered ts p) (ht : p < t.span.start) : ¬Covered (t :: ts) p := by
  rintro ⟨u, hu, hp⟩
  rcases List.mem_cons.1 hu with rfl | hu
  · exact (hp.1.trans_lt ht).false
  · exact h ⟨u, hu, hp⟩

theorem not_covered_of_stop_le (h : ∀ t ∈ ts, t.span.stop ≤ p) : ¬Covered ts p :=
  fun ⟨t, ht, hp⟩ => (hp.2.trans_le (h t ht)).false

theorem Accounted.append (h : Accounted ts pre c post) (more : List Char) :
    Accounted ts pre c (post ++ more) := by
  rcases h with h | (h | h | ⟨hc, h⟩) | h
  · exact .inl h
  · exact .inr (.inl (.space h))
  · exact .inr (.inl (.comment h))
  · exact .inr (.inl (.joined hc (by rw [h]; rfl)))
  · exact .inr (.inr h)

theorem Accounted.cons (h : Accounted ts pre c post)
    (ht : Point.first.past (pre ++ [c]) ≤ t.span.start) : Accounted (t :: ts) pre c post := by
  rcases h with h | (h | ⟨h, hline, hout⟩ | ⟨hc, h⟩) | ⟨h, hbefore, hmargin, hline, hout⟩
  · exact .inl (h.cons t)
  · exact .inr (.inl (.space h))
  · refine .inr (.inl (.comment (.intro h hline (not_covered_cons hout ?_))))
    rw [h, Point.past_append] at ht
    exact (Point.lt_past_cons _ _ _).trans_le ht
  · exact .inr (.inl (.joined hc h))
  · refine .inr (.inr (.intro h hbefore hmargin hline (not_covered_cons hout ?_)))
    rw [h, ← List.append_assoc, List.append_assoc, Point.past_append] at ht
    exact (Point.lt_past_cons _ _ _).trans_le ht

end Accounted

namespace Scan

variable {k l : Scan} {text : List Char}

theorem Step.eq_append (h : k.Step l) :
    ∃ cs, l.gone = k.gone ++ cs ∧ k.ahead = cs ++ l.ahead := by
  cases h with
  | token | gap | hidden => exact ⟨_, rfl, rfl⟩

theorem Step.past_le (h : k.Step l) : Point.first.past k.gone ≤ Point.first.past l.gone := by
  obtain ⟨cs, hcs, -⟩ := h.eq_append
  exact hcs ▸ Point.past_le_past_append _ _ _

theorem Step.tokens_eq (h : k.Step l) : l.tokens = k.tokens ∨
    ∃ t, l.tokens = t :: k.tokens ∧ Point.first.past k.gone ≤ t.span.start := by
  cases h with
  | token hs => exact .inr ⟨_, rfl, le_refl _⟩
  | gap | hidden => exact .inl rfl

theorem Leads.tokens_eq (h : k.Leads l) :
    ∃ new, l.tokens = new ++ k.tokens ∧ ∀ t ∈ new, Point.first.past k.gone ≤ t.span.start := by
  induction h using Relation.ReflTransGen.head_induction_on with
  | refl => exact ⟨[], rfl, fun t ht => absurd ht List.not_mem_nil⟩
  | head hstep hrest ih =>
    obtain ⟨new, hnew, hstart⟩ := ih
    have hold : ∀ t ∈ new, Point.first.past _ ≤ t.span.start :=
      fun t ht => hstep.past_le.trans (hstart t ht)
    rcases hstep.tokens_eq with he | ⟨t, he, ht⟩
    · exact ⟨new, he ▸ hnew, hold⟩
    · refine ⟨new ++ [t], by rw [hnew, he, List.append_assoc]; rfl, fun u hu => ?_⟩
      rcases List.mem_append.1 hu with hu | hu
      · exact hold u hu
      · exact List.mem_singleton.1 hu ▸ ht

theorem stop_le (h : (start text).Leads k) :
    ∀ t ∈ k.tokens, t.span.stop ≤ Point.first.past k.gone := by
  induction h with
  | refl => exact fun t ht => absurd ht List.not_mem_nil
  | tail h hstep ih =>
    cases hstep with
    | token hs =>
      intro t ht
      rcases List.mem_cons.1 ht with rfl | ht
      · exact le_refl _
      · exact (ih t ht).trans (Point.past_le_past_append _ _ _)
    | gap | hidden => exact fun t ht => (ih t ht).trans (Point.past_le_past_append _ _ _)

theorem inOrder (h : (start text).Leads k) :
    k.tokens.Pairwise fun t u => u.span.stop ≤ t.span.start := by
  induction h with
  | refl => exact .nil
  | tail h hstep ih =>
    cases hstep with
    | token hs => exact .cons (stop_le h) ih
    | gap | hidden => exact ih

theorem partOf (h : (start text).Leads k) : ∀ t ∈ k.tokens, t.PartOf k.gone := by
  induction h with
  | refl => exact fun t ht => absurd ht List.not_mem_nil
  | tail h hstep ih =>
    cases hstep with
    | @token gone cs _ _ _ hs =>
      intro t ht
      rcases List.mem_cons.1 ht with rfl | ht
      · exact ⟨gone, cs, [], by rw [List.append_nil], rfl, hs⟩
      · exact (ih t ht).append cs
    | gap | hidden => exact fun t ht => (ih t ht).append _

theorem idle {pre cs rest a b : List Char} {ts : List Token} {c : Char}
    (h : ∀ t ∈ ts, t.span.stop ≤ Point.first.past pre) (hg : Gap cs rest) (hc : cs = a ++ c :: b) :
    Idle ts (pre ++ a) c b := by
  have hout := not_covered_of_stop_le h
  cases hg with
  | spaces hg => exact .space (hg c (by simp [hc]))
  | @comment line _ hline =>
    cases a with
    | nil =>
      obtain ⟨rfl, rfl⟩ := List.cons.inj hc
      exact .comment (.intro (by rw [List.append_nil]) List.not_mem_nil hout)
    | cons d a =>
      obtain ⟨rfl, rfl⟩ := List.cons.inj hc
      have hpre : pre ++ '#' :: a ++ [c] = pre ++ '#' :: (a ++ [c]) := by simp
      refine .comment (.intro hpre (fun hmem => hline ?_) hout)
      change '\n' ∈ a ++ c :: b
      rw [List.append_cons]
      exact List.mem_append_left b hmem
  | joined =>
    cases a with
    | nil =>
      obtain ⟨rfl, rfl⟩ := List.cons.inj hc
      exact .joined rfl rfl
    | cons d a =>
      have hc := (List.cons.inj hc).2
      cases a with
      | nil =>
        obtain ⟨rfl, rfl⟩ := List.cons.inj hc
        exact .space rfl
      | cons d a => exact absurd (List.cons.inj hc).2 (by simp)

theorem accounted (h : (start text).Leads k) :
    ∀ a c b, k.gone = a ++ c :: b → Accounted k.tokens a c b := by
  induction h with
  | refl => exact fun a c b he => absurd he (by simp [start])
  | tail h hstep ih =>
    cases hstep with
    | @token gone cs _ ts kind hs =>
      intro a c b he
      rcases append_eq_append_cons he with ⟨b', hgone, rfl⟩ | ⟨a', rfl, rfl⟩
      · refine ((ih a c b' hgone).append cs).cons ?_
        rw [Span.start_between, show gone = a ++ [c] ++ b' by rw [← List.append_cons]; exact hgone]
        exact Point.past_le_past_append _ _ _
      · refine .inl ⟨_, List.mem_cons_self, Point.past_le_past_append _ _ _, ?_⟩
        rw [Span.stop_between, ← List.append_assoc, Point.past_append _ (gone ++ a')]
        exact Point.lt_past_cons _ _ _
    | @gap gone cs _ ts hg =>
      intro a c b he
      rcases append_eq_append_cons he with ⟨b', hgone, rfl⟩ | ⟨a', rfl, hcs⟩
      · exact (ih a c b' hgone).append cs
      · exact .inr (.inl (idle (stop_le h) hg hcs))
    | @hidden gone margin cs _ ts hgone hmargin hcs hend =>
      intro a c b he
      rcases append_eq_append_cons he with ⟨b', hpre, rfl⟩ | ⟨a', rfl, hline⟩
      · exact (ih a c b' hpre).append _
      rcases append_eq_append_cons hline with ⟨b', rfl, rfl⟩ | ⟨a'', rfl, hreturn⟩
      · exact .inr (.inl (.space (isSpace_of_isIndentation (hmargin c (by simp)))))
      cases a'' with
      | nil =>
        obtain ⟨rfl, rfl⟩ := List.cons.inj hreturn
        exact .inr (.inl (.space rfl))
      | cons d line =>
        obtain ⟨rfl, rfl⟩ := List.cons.inj hreturn
        refine .inr (.inr (.intro rfl hgone hmargin ?_ ?_))
        · exact fun hmem => hcs (List.mem_append_left _ hmem)
        · exact not_covered_of_stop_le fun t ht =>
            (stop_le h t ht).trans (Point.past_le_past_append _ _ _)

end Scan

structure State.Through (text : List Char) (k : Scan) (s : State) : Prop where
  scanned : ∃ gone, text = gone ++ s.rest ∧ s.place = Point.first.past gone ∧
    k.Leads ⟨gone, s.rest, s.tokens⟩
  parens : ∀ span ∈ s.parens, span.Lies text

namespace State.Through

variable {text cs : List Char} {k : Scan} {s : State}

theorem place_inside (h : s.Through text k) : s.place.Inside text := by
  obtain ⟨gone, htext, hplace, -⟩ := h.scanned
  rw [htext, hplace]
  exact Point.inside_past gone s.rest

theorem lies (h : s.Through text k) (hcs : cs <+: s.rest) :
    (Span.between s.place (s.place.past cs)).Lies text := by
  obtain ⟨gone, htext, hplace, -⟩ := h.scanned
  obtain ⟨post, hpost⟩ := hcs
  rw [htext, hplace, ← hpost, ← Point.past_append]
  exact Span.lies_between gone cs post

theorem step (h : s.Through text k) (hcs : cs <+: s.rest) {ts : List Token}
    (hstep : ∀ gone, s.place = Point.first.past gone →
      Scan.Step ⟨gone, cs ++ s.rest.drop cs.length, s.tokens⟩
        ⟨gone ++ cs, s.rest.drop cs.length, ts⟩) :
    ({ s.skip cs with tokens := ts } : State).Through text k := by
  obtain ⟨gone, htext, hplace, hleads⟩ := h.scanned
  have hrest : cs ++ s.rest.drop cs.length = s.rest := List.prefix_iff_eq_append.1 hcs
  refine ⟨⟨gone ++ cs, ?_, ?_, ?_⟩, h.parens⟩
  · rw [htext, List.append_assoc]
    exact congrArg (gone ++ ·) hrest.symm
  · rw [Point.past_append, ← hplace]
    rfl
  · exact hleads.tail (hrest ▸ hstep gone hplace)

theorem gap (h : s.Through text k) (hcs : cs <+: s.rest) (hg : Gap cs (s.rest.drop cs.length)) :
    (s.skip cs).Through text k :=
  h.step hcs fun _ _ => .gap hg

theorem token (h : s.Through text k) (hcs : cs <+: s.rest) {kind : Token.Kind}
    (hk : kind.SpelledBy cs) :
    ((s.skip cs).push kind (.between s.place (s.skip cs).place)).Through text k := by
  refine h.step hcs fun gone hplace => ?_
  have hnext : (s.skip cs).place = Point.first.past (gone ++ cs) := by
    rw [Point.past_append, ← hplace]
    rfl
  rw [hnext, hplace]
  exact .token hk

theorem push (h : s.Through text k) {kind : Token.Kind} (hk : kind.SpelledBy []) :
    (s.push kind (.point s.place)).Through text k :=
  h.token List.nil_prefix hk

theorem newline (h : s.Through text k) : (s.newline (.point s.place)).Through text k := by
  unfold State.newline
  split
  · exact h.push rfl
  · exact h

theorem dedents (h : s.Through text k) (n : Nat) :
    ({ s with tokens := List.replicate n ⟨.dedent, .point s.place⟩ ++ s.tokens } : State).Through
      text k := by
  induction n with
  | zero => exact h
  | succ n ih => exact ih.push rfl

theorem hidden (h : s.Through text k) (hcol : s.place.col = 0) {margin line : List Char}
    (hcs : margin ++ '\r' :: line <+: s.rest) (hmargin : ∀ c ∈ margin, isIndentation c = true)
    (hline : '\n' ∉ line) (hend : AtLineEnd (s.rest.drop (margin ++ '\r' :: line).length)) :
    (s.skip (margin ++ '\r' :: line)).Through text k :=
  h.step hcs fun _ hplace => .hidden (hplace ▸ hcol) hmargin hline hend

end State.Through

theorem State.skip_append (s : State) (cs ds : List Char) :
    s.skip (cs ++ ds) = (s.skip cs).skip ds := by
  simp only [skip, List.length_append, List.drop_drop, Point.past_append]

theorem State.newline_skip (s : State) (cs : List Char) (span : Span) :
    (s.skip cs).newline span = (s.newline span).skip cs := by
  unfold State.newline
  rw [apply_ite (State.skip · cs)]
  rfl

theorem State.newline_place (s : State) (span : Span) : (s.newline span).place = s.place := by
  unfold State.newline
  split <;> rfl

/-- The state between two steps. At the start of a line that holds a character, the column is
zero. -/
structure State.Agrees (text : List Char) (k : Scan) (s : State) : Prop
    extends s.Through text k where
  fresh : s.lineStart = true → s.rest = [] ∨ s.place.col = 0

def Keeps (text : List Char) (k : Scan) : Except SyntaxError State → Prop
  | .ok s => s.Agrees text k
  | .error e => e.Lies text

namespace State

variable {text : List Char} {k : Scan} {s : State}

theorem Through.agrees (h : s.Through text k) (hs : s.lineStart = false) : s.Agrees text k :=
  ⟨h, fun ht => absurd (hs.symm.trans ht) Bool.false_ne_true⟩

theorem Agrees.start (text : List Char) : (State.start text).Agrees text (.start text) where
  scanned := ⟨[], rfl, rfl, .refl⟩
  parens := fun _ h => absurd h List.not_mem_nil
  fresh := fun _ => .inr rfl

theorem Through.indentTo (h : s.Through text k) (width : Nat) :
    Keeps text k (s.indentTo width) := by
  unfold State.indentTo
  split
  · have hs : State.Through text k { s with indents := width :: s.indents, lineStart := false } :=
      ⟨h.scanned, h.parens⟩
    have hk : Token.Kind.indent.SpelledBy [] := rfl
    exact (hs.push hk).agrees rfl
  · dsimp only
    split
    · have hs := h.dedents (s.indents.length - (s.indents.dropWhile (width < ·)).length)
      exact Through.agrees ⟨hs.scanned, hs.parens⟩ rfl
    · exact .onLine h.place_inside rfl

/-- A line that begins with a line end, a carriage return or a comment is gone through up to its
line feed. -/
theorem Through.line (h : s.Through text k) (hcol : s.place.col = 0) {margin : List Char}
    (hmargin : ∀ c ∈ margin, isIndentation c = true) {c : Char} {cs : List Char}
    (hrest : s.rest = margin ++ c :: cs) (hc : c = '\n' ∨ c = '\r' ∨ c = '#') :
    ((s.skip margin).skip ((c :: cs).takeWhile (· != '\n'))).Through text k := by
  have hm : (s.skip margin).Through text k :=
    h.gap (hrest ▸ List.prefix_append margin _)
      (.spaces fun d hd => isSpace_of_isIndentation (hmargin d hd))
  have hahead : (s.skip margin).rest = c :: cs := by rw [skip_rest, hrest, List.drop_left]
  have hprefix : (c :: cs).takeWhile (· != '\n') <+: (s.skip margin).rest :=
    hahead ▸ List.takeWhile_prefix _
  have hend : AtLineEnd ((s.skip margin).rest.drop ((c :: cs).takeWhile (· != '\n')).length) := by
    rw [hahead, drop_length_takeWhile]
    exact atLineEnd_dropWhile (c :: cs)
  rcases hc with rfl | rfl | rfl
  · exact hm
  · rw [← skip_append]
    have hwhole : margin ++ '\r' :: cs.takeWhile (· != '\n') <+: s.rest :=
      hrest ▸ (List.prefix_append_right_inj margin).2
        ((List.prefix_cons_inj '\r').2 (List.takeWhile_prefix _))
    refine h.hidden hcol hwhole hmargin (notMem_takeWhile_ne '\n' cs) ?_
    rw [List.length_append, ← List.drop_drop]
    exact hend
  · exact hm.gap hprefix (.comment (notMem_takeWhile_ne '\n' cs) hend)

theorem Through.lineEnd (h : s.Through text k) (hrest : AtLineEnd s.rest) :
    (s.skip (s.rest.take 1)).Agrees text k := by
  rcases hrest with hrest | hrest
  · rw [hrest]
    exact ⟨h, fun _ => .inl hrest⟩
  · obtain ⟨cs, hcs⟩ := List.head?_eq_some_iff.1 hrest
    have htake : s.rest.take 1 = ['\n'] := by rw [hcs]; rfl
    rw [htake]
    refine ⟨h.gap ⟨cs, hcs.symm⟩ (.spaces fun c hc => ?_), fun _ => .inr rfl⟩
    rw [List.mem_singleton.1 hc]
    rfl

theorem Agrees.openLine (h : s.Agrees text k) (hs : s.lineStart = true) :
    Keeps text k s.openLine := by
  have hmargin : ∀ c ∈ s.rest.takeWhile isIndentation, isIndentation c = true :=
    fun c hc => List.mem_takeWhile_imp hc
  have hbehind : (s.skip (s.rest.takeWhile isIndentation)).Through text k :=
    h.gap (List.takeWhile_prefix _) (.spaces fun c hc => isSpace_of_isIndentation (hmargin c hc))
  unfold State.openLine
  dsimp only
  split
  · exact Through.agrees ⟨hbehind.scanned, hbehind.parens⟩ rfl
  · next c cs hahead =>
    have hrest : s.rest = s.rest.takeWhile isIndentation ++ c :: cs := by
      rw [← hahead]
      exact (List.prefix_iff_eq_append.1 (List.takeWhile_prefix _)).symm
    split
    · next hc =>
      have hcol : s.place.col = 0 := (h.fresh hs).resolve_left fun hnil => by
        rw [hnil] at hrest
        exact absurd hrest (by simp)
      have hline := h.line hcol hmargin hrest (by simpa [or_assoc] using hc)
      rw [hahead, throughLineEnd, skip_append]
      have hend : ((s.skip (s.rest.takeWhile isIndentation)).skip
          ((c :: cs).takeWhile (· != '\n'))).rest = (c :: cs).dropWhile (· != '\n') := by
        rw [skip_rest, hahead]
        exact drop_length_takeWhile _ _
      exact hend ▸ hline.lineEnd (hend ▸ atLineEnd_dropWhile _)
    · exact hbehind.indentTo _

theorem Agrees.takePiece (h : s.Agrees text k) (hs : s.lineStart = false) {c : Char}
    {cs : List Char} (hr : s.rest = c :: cs) : Keeps text k (s.takePiece c cs) := by
  have hspells := pieceAt_spells c cs
  have hprefix : c :: (pieceAt c cs).2 <+: s.rest :=
    hr ▸ (List.prefix_cons_inj c).2 (prefix_pieceAt c cs)
  unfold State.takePiece
  dsimp only
  split
  · next hp =>
    rw [hp] at hspells
    exact (h.gap hprefix (hr ▸ hspells)).agrees hs
  · next hp =>
    rw [hp] at hspells
    have hfeed : c :: (pieceAt c cs).2 = ['\n'] := hspells
    have hspace : ∀ d ∈ ['\n'], isSpace d = true := List.forall_mem_singleton.2 rfl
    rw [hfeed] at hprefix ⊢
    split
    · rw [newline_skip]
      have hnext := h.newline.gap ((newline_rest s _).symm ▸ hprefix) (.spaces hspace)
      exact ⟨⟨hnext.scanned, hnext.parens⟩, fun _ => .inr rfl⟩
    · exact (h.gap hprefix (.spaces hspace)).agrees hs
  · exact .spanning (h.lies hprefix) rfl
  · next hp =>
    rw [hp] at hspells
    have hk : (Token.Kind.mark .openParen).SpelledBy (c :: (pieceAt c cs).2) := hspells
    have hnext := h.token hprefix hk
    refine Through.agrees ⟨hnext.scanned, fun span hspan => ?_⟩ hs
    rcases List.mem_cons.1 hspan with rfl | hspan
    · exact h.lies hprefix
    · exact h.parens span hspan
  · next hp =>
    rw [hp] at hspells
    split
    · exact .spanning (h.lies hprefix) rfl
    · next hparens =>
      have hk : (Token.Kind.mark .closeParen).SpelledBy (c :: (pieceAt c cs).2) := hspells
      have hnext := h.token hprefix hk
      refine Through.agrees ⟨hnext.scanned, fun span hspan => h.parens span ?_⟩ hs
      exact hparens ▸ List.mem_cons_of_mem _ hspan
  · next hp =>
    rw [hp] at hspells
    exact (h.token hprefix hspells).agrees hs

def Scans (text : List Char) (k : Scan) : Except SyntaxError (List Token) → Prop
  | .ok ts => k.Leads ⟨text, [], ts.reverse⟩
  | .error e => e.Lies text

theorem Agrees.finish (h : s.Agrees text k) (hr : s.rest = []) : Scans text k s.finish := by
  unfold State.finish
  split
  · next hparens => exact SyntaxError.Lies.spanning (h.parens _ (hparens ▸ List.mem_cons_self)) rfl
  · have hk : Token.Kind.eof.SpelledBy [] := rfl
    have hend := (h.newline.dedents (s.newline (.point s.place)).indents.length).push hk
    obtain ⟨pre, htext, -, hscanned⟩ := hend.scanned
    have hnil : text = pre := by
      rw [htext, push_rest, newline_rest, hr, List.append_nil]
    simpa [Scans, hnil, hr, push, newline_place] using hscanned

theorem Agrees.run (h : s.Agrees text k) : Scans text k s.run := by
  fun_induction State.run s with
  | case1 s hs e he =>
    have hstep := h.openLine hs
    rw [he] at hstep
    exact hstep
  | case2 s hs t ht ih =>
    have hstep := h.openLine hs
    rw [ht] at hstep
    exact ih hstep
  | case3 s hs hr => exact h.finish hr
  | case4 s hs c cs hr e he =>
    have hstep := h.takePiece (by simpa using hs) hr
    rw [he] at hstep
    exact hstep
  | case5 s hs c cs hr t ht ih =>
    have hstep := h.takePiece (by simpa using hs) hr
    rw [ht] at hstep
    exact ih hstep

theorem scans_tokenize (text : String) : Scans text.toList (.start text.toList) (tokenize text) :=
  (Agrees.start text.toList).run

end State

theorem covered_reverse {ts : List Token} {p : Point} : Covered ts.reverse p ↔ Covered ts p := by
  simp only [Covered, List.mem_reverse]

theorem Accounted.of_reverse {ts : List Token} {pre post : List Char} {c : Char}
    (h : Accounted ts.reverse pre c post) : Accounted ts pre c post := by
  rcases h with h | (h | ⟨h, hline, hout⟩ | ⟨hc, h⟩) | ⟨h, hbefore, hmargin, hline, hout⟩
  · exact .inl (covered_reverse.1 h)
  · exact .inr (.inl (.space h))
  · exact .inr (.inl (.comment (.intro h hline fun hcov => hout (covered_reverse.2 hcov))))
  · exact .inr (.inl (.joined hc h))
  · exact .inr (.inr (.intro h hbefore hmargin hline fun hcov => hout (covered_reverse.2 hcov)))

/-- The tokens of a text stand in order and apart, each is spelled by its part of the text, and
every other character is a blank, in a comment, joins two lines, or is behind a carriage return
that begins its line. -/
theorem tokenize_accounts {text : String} {ts : List Token} (h : tokenize text = .ok ts) :
    ts.Pairwise (fun t u => t.span.stop ≤ u.span.start) ∧ (∀ t ∈ ts, t.PartOf text.toList) ∧
      ∀ pre c post, text.toList = pre ++ c :: post → Accounted ts pre c post := by
  have hscanned := State.scans_tokenize text
  rw [h] at hscanned
  refine ⟨List.pairwise_reverse.1 (Scan.inOrder hscanned), fun t ht => ?_, fun pre c post hc => ?_⟩
  · exact Scan.partOf hscanned t (List.mem_reverse.2 ht)
  · exact (Scan.accounted hscanned pre c post hc).of_reverse

theorem exists_of_spans {text : String} {spans : List Span}
    (h : (tokenize text).toOption.map (·.map Token.span) = some spans) :
    ∃ ts, tokenize text = .ok ts ∧ ts.map Token.span = spans := by
  cases hts : tokenize text with
  | error e =>
    rw [hts] at h
    cases h
  | ok ts =>
    rw [hts] at h
    exact ⟨ts, rfl, Option.some.inj h⟩

theorem tokenize_accounts_sum :
    ∃ ts, tokenize "x = \\\n1 # one\n" = .ok ts ∧
      ts.map Token.span = [⟨1, 0, 1, 1⟩, ⟨1, 2, 1, 3⟩, ⟨2, 0, 2, 1⟩, ⟨2, 7, 2, 7⟩, ⟨3, 0, 3, 0⟩] ∧
      ts.Pairwise (fun t u => t.span.stop ≤ u.span.start) ∧
      (∀ t ∈ ts, t.PartOf "x = \\\n1 # one\n".toList) ∧
      ∀ pre c post, "x = \\\n1 # one\n".toList = pre ++ c :: post → Accounted ts pre c post := by
  have hspans : (tokenize "x = \\\n1 # one\n").toOption.map (·.map Token.span) =
      some [⟨1, 0, 1, 1⟩, ⟨1, 2, 1, 3⟩, ⟨2, 0, 2, 1⟩, ⟨2, 7, 2, 7⟩, ⟨3, 0, 3, 0⟩] := by
    decide +kernel
  obtain ⟨ts, hts, hspans⟩ := exists_of_spans hspans
  exact ⟨ts, hts, hspans, tokenize_accounts hts⟩

/-- Behind a carriage return that begins its line, code is lost. -/
theorem tokenize_loses_code :
    ∃ ts, tokenize "\rx = 1\n" = .ok ts ∧ "\rx = 1\n".toList = ['\r'] ++ 'x' :: " = 1\n".toList ∧
      ¬Covered ts (Point.first.past ['\r']) ∧ ¬Idle ts ['\r'] 'x' " = 1\n".toList := by
  have hspans : (tokenize "\rx = 1\n").toOption.map (·.map Token.span) = some [⟨2, 0, 2, 0⟩] := by
    decide +kernel
  obtain ⟨ts, hts, hspans⟩ := exists_of_spans hspans
  refine ⟨ts, hts, rfl, ?_, ?_⟩
  · rintro ⟨t, ht, hcovers⟩
    have hspan := List.mem_map_of_mem (f := Token.span) ht
    rw [hspans, List.mem_singleton] at hspan
    rw [hspan] at hcovers
    exact absurd hcovers.1 (by decide)
  · rintro (h | ⟨h, -, -⟩ | ⟨h, -⟩)
    · exact absurd h (by decide)
    · have hmem : '#' ∈ ['\r'] ++ ['x'] := h ▸ List.mem_append_right _ List.mem_cons_self
      exact absurd hmem (by decide)
    · exact absurd h (by decide)

end Lexer

end Stepwise.Source
