import Mathlib
import Stepwise.Value.Arithmetic

/-! The arithmetic of integers, truth values among them. What an operator computes is the exact
integer where that is a word, and a refusal where it is not. A division that cuts off at the point
is brought to round toward minus infinity by a step of one, for which there is always room. The one
quotient that is no word is refused, and so is the remainder beside it, although that would be
one. -/

namespace Stepwise.Value
open Source Number

/-- The integer as a value if it is a word, and a refusal if it is not. -/
def Computes (res : Result) (n : Int) : Prop :=
  (leastInt ≤ n ∧ n ≤ greatestInt → ∃ w : Int64, w.toInt = n ∧ res = .ok (int w)) ∧
    (¬(leastInt ≤ n ∧ n ≤ greatestInt) → res = .error .integerOverflow)

theorem computes_of_word {w : Int64} {n : Int} (h : w.toInt = n) : Computes (.ok (int w)) n := by
  refine ⟨fun _ => ⟨w, h, rfl⟩, fun hn => absurd ?_ hn⟩
  have := w.le_toInt
  have := w.toInt_lt
  simp only [leastInt, greatestInt]
  omega

theorem word?_eq_none {n : Int} : word? n = Option.none ↔ ¬(leastInt ≤ n ∧ n ≤ greatestInt) := by
  unfold word?
  split
  · exact iff_of_false (by simp) (not_not.2 ‹_›)
  · exact iff_of_true rfl ‹_›

theorem computes_ofInt (n : Int) : Computes (ofInt n) n := by
  unfold ofInt
  cases hw : word? n with
  | some w => exact computes_of_word (toInt_of_word? hw)
  | none => exact ⟨fun hn => absurd hn (word?_eq_none.1 hw), fun _ => rfl⟩

/-! Division. -/

/-- Whether the quotient that is cut off at the point is one too great. -/
def Overshoots (x y : Int) : Prop :=
  x.tmod y ≠ 0 ∧ ¬(x < 0 ↔ y < 0)

def IsRemainder (r y : Int) : Prop :=
  0 ≤ r ∧ r < y ∨ y < r ∧ r ≤ 0

/-- The remainder that is cut off with the point is smaller than the divisor and has the sign of
the dividend. -/
theorem tmod_bounds (x : Int) {y : Int} (hy : y ≠ 0) :
    (x.tmod y).natAbs < y.natAbs ∧ (0 ≤ x → 0 ≤ x.tmod y) ∧ (x < 0 → x.tmod y ≤ 0) := by
  refine ⟨?_, Int.tmod_nonneg y, fun hx => ?_⟩
  · rw [Int.natAbs_tmod]
    exact Nat.mod_lt _ (Int.natAbs_pos.2 hy)
  · have := Int.tmod_nonneg y (Int.neg_nonneg_of_nonpos hx.le)
    rw [Int.neg_tmod] at this
    omega

theorem division_cases (x : Int) {y : Int} (hy : y ≠ 0) :
    Overshoots x y ∧ x = y * (x.tdiv y - 1) + (x.tmod y + y) ∧ IsRemainder (x.tmod y + y) y ∨
      ¬Overshoots x y ∧ x = y * x.tdiv y + x.tmod y ∧ IsRemainder (x.tmod y) y := by
  obtain ⟨hlt, hpos, hneg⟩ := tmod_bounds x hy
  have hxy := Int.mul_tdiv_add_tmod x y
  unfold IsRemainder
  by_cases h : Overshoots x y
  · obtain ⟨hne, hsign⟩ := id h
    refine .inl ⟨h, ?_, by omega⟩
    rw [mul_sub, mul_one]
    omega
  · have hsign : x.tmod y = 0 ∨ (x < 0 ↔ y < 0) := by
      unfold Overshoots at h
      tauto
    exact .inr ⟨h, hxy.symm, by omega⟩

section Floor

variable {x y q r : Int} (hxy : x = y * q + r) (hr : IsRemainder r y)

include hr in
/-- What is left behind the quotient that rounds down is smaller than the divisor and has its
sign. -/
theorem rest_bounds : |r| < |y| ∧ (r = 0 ∨ r.sign = y.sign) := by
  unfold IsRemainder at hr
  refine ⟨by rw [Int.abs_eq_natAbs, Int.abs_eq_natAbs]; omega, ?_⟩
  rcases lt_trichotomy r 0 with h | h | h
  · exact .inr (by rw [Int.sign_eq_neg_one_of_neg h, Int.sign_eq_neg_one_of_neg (by omega)])
  · exact .inl h
  · exact .inr (by rw [Int.sign_eq_one_of_pos h, Int.sign_eq_one_of_pos (by omega)])

include hxy hr

/-- A division whose remainder lies between zero and the divisor is the one that rounds down. -/
theorem floor_of_division : ⌊(x : ℚ) / y⌋ = q := by
  have hy : (y : ℚ) ≠ 0 := by
    have : y ≠ 0 := by
      unfold IsRemainder at hr
      omega
    exact_mod_cast this
  have hquot : (x : ℚ) / y = q + r / y := by
    rw [hxy]
    push_cast
    field_simp
  rw [hquot, Int.floor_eq_iff]
  suffices h : 0 ≤ (r : ℚ) / y ∧ (r : ℚ) / y < 1 from ⟨by linarith [h.1], by linarith [h.2]⟩
  rcases hr with ⟨hnonneg, hlt⟩ | ⟨hlt, hnonpos⟩
  · have hpos : (0 : ℚ) < y := by exact_mod_cast hnonneg.trans_lt hlt
    exact ⟨div_nonneg (by exact_mod_cast hnonneg) hpos.le,
      (div_lt_one hpos).2 (by exact_mod_cast hlt)⟩
  · have hneg : (y : ℚ) < 0 := by exact_mod_cast hlt.trans_le hnonpos
    exact ⟨div_nonneg_of_nonpos (by exact_mod_cast hnonpos) hneg.le,
      (div_lt_one_of_neg hneg).2 (by exact_mod_cast hlt)⟩

theorem rest_of_division : x - y * ⌊(x : ℚ) / y⌋ = r := by
  rw [floor_of_division hxy hr]
  omega

end Floor

/-! Division of words. -/

section Words

variable {x y : Int64} (hy : y.toInt ≠ 0)
include hy

/-- A quotient is no greater than the dividend, and half as great if there is a remainder. -/
theorem natAbs_tdiv_le :
    (x.toInt.tdiv y.toInt).natAbs ≤ x.toInt.natAbs ∧
      (y.toInt.natAbs ≠ 1 → (x.toInt.tdiv y.toInt).natAbs ≤ x.toInt.natAbs / 2) := by
  rw [Int.natAbs_tdiv]
  exact ⟨Nat.div_le_self _ _, fun h => Nat.div_le_div_left (by omega) (by decide)⟩

theorem quotient?_eq_none : quotient? x y = Option.none ↔ x.toInt = leastInt ∧ y.toInt = -1 := by
  have hle := x.le_toInt
  have hlt := x.toInt_lt
  obtain ⟨hself, hhalf⟩ := natAbs_tdiv_le (x := x) hy
  rw [quotient?, word?_eq_none]
  unfold leastInt greatestInt
  refine ⟨fun h => ?_, fun ⟨hx, hy⟩ => by rw [hx, hy]; decide⟩
  by_cases hone : y.toInt = 1
  · rw [hone, Int.tdiv_one] at h
    omega
  · by_cases hneg : y.toInt = -1
    · rw [hneg, Int.tdiv_neg, Int.tdiv_one] at h
      omega
    · have := hhalf (by omega)
      omega

/-- There is room for the step down, since a quotient with a remainder is not among the last. -/
theorem toInt_step {q : Int64} (hq : quotient? x y = some q) (h : Overshoots x.toInt y.toInt) :
    (q - 1).toInt = q.toInt - 1 := by
  have hle := x.le_toInt
  have hlt := x.toInt_lt
  have hone : y.toInt.natAbs ≠ 1 := by
    intro hone
    have := (tmod_bounds x.toInt hy).1
    obtain ⟨hne, -⟩ := h
    omega
  have := (natAbs_tdiv_le (x := x) hy).2 hone
  rw [Int64.toInt_sub, toInt_of_word? hq, show (1 : Int64).toInt = 1 by decide]
  exact Int.bmod_eq_of_le (by omega) (by omega)

/-- There is room for the step up, since it goes towards zero and beyond by less than it is. -/
theorem toInt_rest (h : Overshoots x.toInt y.toInt) :
    (x % y + y).toInt = x.toInt.tmod y.toInt + y.toInt := by
  have hle := y.le_toInt
  have hlt := y.toInt_lt
  obtain ⟨hsmall, hpos, hneg⟩ := tmod_bounds x.toInt hy
  obtain ⟨hne, hsign⟩ := h
  rw [Int64.toInt_add, Int64.toInt_mod]
  exact Int.bmod_eq_of_le (by omega) (by omega)

theorem overshoots_iff :
    ((x % y != 0 && (x < 0) != (y < 0)) = true ↔ Overshoots x.toInt y.toInt) ∧
      ((x % y != 0 && (x % y < 0) != (y < 0)) = true ↔ Overshoots x.toInt y.toInt) := by
  obtain ⟨-, hpos, hneg⟩ := tmod_bounds x.toInt hy
  have hrest : x % y = 0 ↔ x.toInt.tmod y.toInt = 0 := by
    rw [← Int64.toInt_inj, Int64.toInt_mod]
    rfl
  have hsign (z : Int64) : z < 0 ↔ z.toInt < 0 := Int64.lt_iff_toInt_lt
  simp only [Overshoots, Bool.and_eq_true, bne_iff_ne, ne_eq, decide_eq_decide, hrest]
  rw [hsign, hsign, hsign, Int64.toInt_mod]
  refine ⟨Iff.rfl, and_congr_right fun hne => not_congr (iff_congr ?_ Iff.rfl)⟩
  omega

theorem floorDiv_eq {q : Int64} (hq : quotient? x y = some q) :
    ∃ w, intArith .floorDiv x y = .ok (int w) ∧ w.toInt = ⌊(x.toInt : ℚ) / y.toInt⌋ := by
  have hy0 : y ≠ 0 := fun h => hy (by rw [h]; rfl)
  refine ⟨_, by rw [intArith, if_neg hy0, hq], ?_⟩
  rcases division_cases x.toInt hy with ⟨h, hxy, hr⟩ | ⟨h, hxy, hr⟩
  · rw [if_pos ((overshoots_iff hy).1.2 h), toInt_step hy hq h, toInt_of_word? hq,
      floor_of_division hxy hr]
  · rw [if_neg (mt (overshoots_iff hy).1.1 h), toInt_of_word? hq, floor_of_division hxy hr]

theorem mod_eq {q : Int64} (hq : quotient? x y = some q) :
    ∃ w, intArith .mod x y = .ok (int w) ∧
      w.toInt = x.toInt - y.toInt * ⌊(x.toInt : ℚ) / y.toInt⌋ := by
  have hy0 : y ≠ 0 := fun h => hy (by rw [h]; rfl)
  refine ⟨_, by rw [intArith, if_neg hy0, remainder?, hq]; rfl, ?_⟩
  rcases division_cases x.toInt hy with ⟨h, hxy, hr⟩ | ⟨h, hxy, hr⟩
  · rw [if_pos ((overshoots_iff hy).2.2 h), toInt_rest hy h, rest_of_division hxy hr]
  · rw [if_neg (mt (overshoots_iff hy).2.1 h), Int64.toInt_mod, rest_of_division hxy hr]

end Words

/-- The one quotient that is no word. -/
def Exceeds (x y : Int) : Prop :=
  x = leastInt ∧ y = -1

theorem floor_of_exceeds {x y : Int} (h : Exceeds x y) : ⌊(x : ℚ) / y⌋ = greatestInt + 1 := by
  obtain ⟨rfl, rfl⟩ := h
  exact floor_of_division (r := 0) (by decide) (.inr (by decide))

section Operators

variable {v w : Value} {x y : Int64} (hv : v.asInt? = some x) (hw : w.asInt? = some y)
include hv

theorem unary_neg_words : unary .neg v = ofInt (-x.toInt) := by
  cases v <;> simp_all [asInt?, unary]

include hw

theorem arith_words (op : Arith) : arith op v w = intArith op x y := by
  rw [arith, hv, hw]

/-- Sums, differences, products, negations and quotients that round toward minus infinity are
computed exactly or refused, and so are remainders but for the one beside the quotient that is no
word, which is refused although it is zero. The steps that correct a division stay among the
words. -/
theorem computes_integers :
    Computes (arith .add v w) (x.toInt + y.toInt) ∧
      Computes (arith .sub v w) (x.toInt - y.toInt) ∧
      Computes (arith .mul v w) (x.toInt * y.toInt) ∧
      Computes (unary .neg v) (-x.toInt) ∧
      (y.toInt = 0 → arith .floorDiv v w = .error .integerDivisionByZero ∧
        arith .mod v w = .error .integerDivisionByZero) ∧
      (y.toInt ≠ 0 →
        let q := ⌊(x.toInt : ℚ) / y.toInt⌋
        let r := x.toInt - y.toInt * q
        Computes (arith .floorDiv v w) q ∧
          (¬Exceeds x.toInt y.toInt → Computes (arith .mod v w) r) ∧
          (Exceeds x.toInt y.toInt → arith .mod v w = .error .integerOverflow ∧ r = 0) ∧
          x.toInt = q * y.toInt + r ∧ |r| < |y.toInt| ∧ (r = 0 ∨ r.sign = y.toInt.sign) ∧
          (Overshoots x.toInt y.toInt → ∀ t, quotient? x y = some t →
            (t - 1).toInt = t.toInt - 1 ∧ (x % y + y).toInt = (x % y).toInt + y.toInt)) := by
  simp only [arith_words hv hw, unary_neg_words hv]
  refine ⟨computes_ofInt _, computes_ofInt _, computes_ofInt _, computes_ofInt _, fun hy => ?_,
    fun hy => ?_⟩
  · have hy0 : y = 0 := Int64.toInt_inj.1 hy
    exact ⟨if_pos hy0, if_pos hy0⟩
  · have hy0 : y ≠ 0 := fun h => hy (by rw [h]; rfl)
    have hbounds : |x.toInt - y.toInt * ⌊(x.toInt : ℚ) / y.toInt⌋| < |y.toInt| ∧
        (x.toInt - y.toInt * ⌊(x.toInt : ℚ) / y.toInt⌋ = 0 ∨
          (x.toInt - y.toInt * ⌊(x.toInt : ℚ) / y.toInt⌋).sign = y.toInt.sign) := by
      rcases division_cases x.toInt hy with ⟨-, hxy, hr⟩ | ⟨-, hxy, hr⟩ <;>
        exact rest_of_division hxy hr ▸ rest_bounds hr
    refine ⟨?_, fun h => ?_, fun h => ⟨?_, ?_⟩, by ring, hbounds.1, hbounds.2, fun h t ht =>
      ⟨toInt_step hy ht h, by rw [toInt_rest hy h, Int64.toInt_mod]⟩⟩
    · cases hq : quotient? x y with
      | some q =>
        obtain ⟨u, hu, hfloor⟩ := floorDiv_eq hy hq
        exact hu ▸ computes_of_word hfloor
      | none =>
        rw [floor_of_exceeds ((quotient?_eq_none hy).1 hq), intArith, if_neg hy0, hq]
        exact ⟨fun h => absurd h (by decide), fun _ => rfl⟩
    · obtain ⟨q, hq⟩ := Option.ne_none_iff_exists'.1 (mt (quotient?_eq_none hy).1 h)
      obtain ⟨u, hu, hrest⟩ := mod_eq hy hq
      exact hu ▸ computes_of_word hrest
    · rw [intArith, if_neg hy0, remainder?, (quotient?_eq_none hy).2 h]
      rfl
    · rw [floor_of_exceeds h, h.1, h.2]
      rfl

end Operators

theorem computes_integers_least :
    (int Int64.minValue).asInt? = some Int64.minValue ∧ (bool true).asInt? = some 1 ∧
      Computes (arith .sub (int Int64.minValue) (bool true))
        (Int64.minValue.toInt - (1 : Int64).toInt) :=
  ⟨rfl, rfl, (computes_integers rfl rfl).2.1⟩

/-- Nothing is left of the least word behind a division by minus one, but it is refused. -/
theorem remainder_refused :
    Int64.minValue.toInt - (-1 : Int64).toInt *
        ⌊(Int64.minValue.toInt : ℚ) / (-1 : Int64).toInt⌋ = 0 ∧
      arith .mod (int Int64.minValue) (int (-1)) = .error .integerOverflow := by
  have h : Exceeds Int64.minValue.toInt (-1 : Int64).toInt := ⟨by decide, by decide⟩
  refine ⟨by rw [floor_of_exceeds h, h.1, h.2]; rfl, ?_⟩
  rw [arith_words rfl rfl, intArith, if_neg (by decide), remainder?,
    (quotient?_eq_none (by decide)).2 h]
  rfl

end Stepwise.Value
