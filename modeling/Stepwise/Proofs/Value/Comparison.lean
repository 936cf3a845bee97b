import Mathlib
import Stepwise.Value.Arithmetic
import Stepwise.Proofs.Number.Order

/-! The comparison of integers, truth values among them. Equality is exact. The order is that of
the nearest floating-point numbers, so it agrees with the order of the integers as far as these
numbers tell the two apart, and puts different integers in one place where they do not. -/

namespace Stepwise

/-- What a relation says of two integers. -/
def Source.Relation.holds : Source.Relation → Int → Int → Bool
  | .equal, m, n => m = n
  | .unequal, m, n => m ≠ n
  | .less, m, n => m < n
  | .lessEqual, m, n => m ≤ n
  | .greater, m, n => m > n
  | .greaterEqual, m, n => m ≥ n

namespace Source.Relation

def IsOrdering (op : Relation) : Prop :=
  op ≠ .equal ∧ op ≠ .unequal

theorem holds_eq_lessThan (op : Relation) (m n : Int) :
    op.holds m n = Value.lessThan op (m < n) (m = n) (n < m) := by
  rw [Bool.eq_iff_iff]
  cases op <;> simp only [holds, Value.lessThan, Bool.or_eq_true, Bool.not_eq_true',
    decide_eq_true_iff, decide_eq_false_iff_not] <;> omega

theorem holds_congr {m n i j : Int} (hlt : m < n ↔ i < j) (hgt : n < m ↔ j < i) (op : Relation) :
    op.holds m n = op.holds i j := by
  rw [Bool.eq_iff_iff]
  cases op <;> simp only [holds, decide_eq_true_iff] <;> omega

end Source.Relation

namespace Value
open Source Number

section Words

variable {v w : Value} {x y : Int64} (hv : v.asInt? = some x) (hw : w.asInt? = some y)
include hv hw

theorem equal_words : v.equal w = decide (x.toInt = y.toInt) := by
  have h : v.equal w = (x == y) := by
    cases v <;> cases w <;> simp_all [asInt?, equal]
  rw [h, Bool.eq_iff_iff, beq_iff_eq, decide_eq_true_iff, Int64.toInt_inj]

theorem compare_equality {op : Relation} (hop : ¬op.IsOrdering) :
    Value.compare op v w = .ok (bool (op.holds x.toInt y.toInt)) := by
  cases op
  case equal => rw [Value.compare, equal_words hv hw, Relation.holds]
  case unequal => rw [Value.compare, equal_words hv hw, Relation.holds, decide_not]
  all_goals exact absurd (by simp [Relation.IsOrdering]) hop

theorem compare_numbers {op : Relation} (hop : op.IsOrdering) :
    Value.compare op v w =
      .ok (bool (lessThan op (Number.ofInt x.toInt < Number.ofInt y.toInt)
        (Number.ofInt x.toInt == Number.ofInt y.toInt)
        (Number.ofInt y.toInt < Number.ofInt x.toInt))) := by
  have hfloat {u : Value} {z : Int64} (hu : u.asInt? = some z) :
      u.asFloat? = some (Number.ofInt z.toInt) := by
    cases u <;> simp_all [asInt?, asFloat?]
  have hstr {u : Value} {z : Int64} (hu : u.asInt? = some z) (s : String) : u ≠ str s := by
    rintro rfl
    simp [asInt?] at hu
  obtain ⟨hequal, hunequal⟩ := hop
  unfold Value.compare
  split
  · contradiction
  · contradiction
  · split
    · exact absurd rfl (hstr hv _)
    · rw [hfloat hv, hfloat hw]

theorem compare_ordering {op : Relation} (hop : op.IsOrdering) :
    Value.compare op v w = .ok (bool (op.holds (rank x.toInt) (rank y.toInt))) := by
  have hx := isWord_toInt x
  have hy := isWord_toInt y
  have hbeq : (Number.ofInt x.toInt == Number.ofInt y.toInt) =
      decide (rank x.toInt = rank y.toInt) := by
    rw [Bool.eq_iff_iff, ofInt_beq_iff hx hy, decide_eq_true_iff]
  rw [compare_numbers hv hw hop, Relation.holds_eq_lessThan, hbeq]
  simp only [ofInt_lt_iff hx hy, ofInt_lt_iff hy hx]

theorem compare_of_apart (h : rank x.toInt ≠ rank y.toInt) (op : Relation) :
    Value.compare op v w = .ok (bool (op.holds x.toInt y.toInt)) := by
  by_cases hop : op.IsOrdering
  · have hlt {m n : Int} (hne : rank m ≠ rank n) : rank m < rank n ↔ m < n := by
      refine ⟨fun hr => ?_, fun hmn => (rank_mono hmn.le).lt_of_ne hne⟩
      by_contra hmn
      exact absurd (rank_mono (Int.not_lt.1 hmn)) (Int.not_le.2 hr)
    rw [compare_ordering hv hw hop, Relation.holds_congr (hlt h) (hlt h.symm)]
  · exact compare_equality hv hw hop

theorem compare_of_merged (h : rank x.toInt = rank y.toInt) {op : Relation} (hop : op.IsOrdering) :
    Value.compare op v w = .ok (bool (op.holds 0 0)) := by
  rw [compare_ordering hv hw hop, h, Relation.holds_congr (i := 0) (j := 0)] <;> omega

/-- Integers compare as they are, as far as floating-point numbers tell them apart: all those do
that have at most 53 bits. Of two that have the same number none comes before the other, although
they are told to be different. -/
theorem compares_integers :
    ((∀ op, Value.compare op v w = .ok (bool (op.holds x.toInt y.toInt))) ↔
        x = y ∨ Number.ofInt x.toInt ≠ Number.ofInt y.toInt) ∧
      (∀ op, ¬Relation.IsOrdering op →
        Value.compare op v w = .ok (bool (op.holds x.toInt y.toInt))) ∧
      (Number.ofInt x.toInt = Number.ofInt y.toInt →
        ∀ op, Relation.IsOrdering op → Value.compare op v w = .ok (bool (op.holds 0 0))) ∧
      (x.toInt.natAbs ≤ exactBound → y.toInt.natAbs ≤ exactBound →
        x = y ∨ Number.ofInt x.toInt ≠ Number.ofInt y.toInt) := by
  have hsame := ofInt_eq_iff (isWord_toInt x) (isWord_toInt y)
  refine ⟨⟨fun h => ?_, ?_⟩, fun op hop => compare_equality hv hw hop,
    fun h op hop => compare_of_merged hv hw (hsame.1 h) hop, fun hx hy => ?_⟩
  · by_contra hne
    obtain ⟨hne, hmerged⟩ := not_or.1 hne
    have hranks := hsame.1 (not_not.1 hmerged)
    have hle : Value.compare .lessEqual v w = .ok (bool true) :=
      compare_of_merged hv hw hranks (by simp [Relation.IsOrdering])
    have hge : Value.compare .greaterEqual v w = .ok (bool true) :=
      compare_of_merged hv hw hranks (by simp [Relation.IsOrdering])
    simp only [h, Except.ok.injEq, bool.injEq, Relation.holds, decide_eq_true_iff] at hle hge
    exact hne (Int64.toInt_inj.1 (le_antisymm hle hge))
  · rintro (rfl | hne) op
    · by_cases hop : op.IsOrdering
      · rw [compare_of_merged hv hw rfl hop,
          Relation.holds_congr (i := x.toInt) (j := x.toInt)] <;> omega
      · exact compare_equality hv hw hop
    · exact compare_of_apart hv hw (fun h => hne (hsame.2 h)) op
  · by_cases h : rank x.toInt = rank y.toInt
    · exact .inl (Int64.toInt_inj.1 (eq_of_rank_eq hx hy h))
    · exact .inr fun he => h (hsame.1 he)

end Words

theorem rank_neighbours :
    rank (9007199254740992 : Int64).toInt = rank (9007199254740993 : Int64).toInt := by
  have hbits : nearestBits 9007199254740992 1 = nearestBits 9007199254740993 1 := by decide
  rw [show (9007199254740992 : Int64).toInt = 9007199254740992 by decide,
    show (9007199254740993 : Int64).toInt = 9007199254740993 by decide]
  exact congrArg (standing false) hbits

theorem compares_integers_neighbours :
    (int 9007199254740992).asInt? = some 9007199254740992 ∧
      (int 9007199254740993).asInt? = some 9007199254740993 ∧
        ∀ op, Relation.IsOrdering op →
          Value.compare op (int 9007199254740992) (int 9007199254740993) =
            .ok (bool (op.holds 0 0)) :=
  ⟨rfl, rfl, (compares_integers rfl rfl).2.2.1
    ((ofInt_eq_iff (isWord_toInt _) (isWord_toInt _)).2 rank_neighbours)⟩

/-- Of two different integers none comes before the other. -/
theorem neighbours_unordered :
    (9007199254740992 : Int64).toInt < (9007199254740993 : Int64).toInt ∧
      Value.compare .less (int 9007199254740992) (int 9007199254740993) = .ok (bool false) ∧
        Value.compare .equal (int 9007199254740992) (int 9007199254740993) = .ok (bool false) ∧
          Value.compare .greater (int 9007199254740992) (int 9007199254740993) =
            .ok (bool false) :=
  ⟨by decide, compare_of_merged rfl rfl rank_neighbours (by simp [Relation.IsOrdering]), rfl,
    compare_of_merged rfl rfl rank_neighbours (by simp [Relation.IsOrdering])⟩

end Value

end Stepwise
