import Mathlib
import Stepwise.Number.Double

/-! The floating-point numbers nearest to integers. Without their signs, numbers are ordered as
their bits are, and the bits grow with the integer: where its leading bit stays, since rounding
does, and where that moves up, since a number fills its binade. They grow strictly as long as an
integer has a number of its own, which is up to `2 ^ 53`. -/

namespace Stepwise.Number
open Float.Model Float.Model.UnpackedFloat

/-! Rounding. -/

theorem le_roundHalfEven (num den : Nat) : num / den ≤ roundHalfEven num den := by
  unfold roundHalfEven
  dsimp only
  split_ifs <;> omega

theorem roundHalfEven_le (num den : Nat) : roundHalfEven num den ≤ num / den + 1 := by
  unfold roundHalfEven
  dsimp only
  split_ifs <;> omega

theorem roundHalfEven_mono (den : Nat) {m n : Nat} (h : m ≤ n) :
    roundHalfEven m den ≤ roundHalfEven n den := by
  rcases (Nat.div_le_div_right h : m / den ≤ n / den).lt_or_eq with hlt | heq
  · have := roundHalfEven_le m den
    have := le_roundHalfEven n den
    omega
  · have hm := Nat.div_add_mod m den
    have hn := Nat.div_add_mod n den
    rw [heq] at hm
    have hrem : m % den ≤ n % den := by omega
    unfold roundHalfEven
    dsimp only
    rw [heq]
    split_ifs <;> omega

/-! The bits of an integer. -/

def spread (place n : Nat) : Nat :=
  if place ≤ 52 then n <<< (52 - place) else roundHalfEven n (1 <<< (place - 52))

theorem exponentOf_one {n : Nat} (hn : n ≠ 0) : exponentOf n 1 = n.log2 - 52 := by
  have hle := Nat.log2_self_le hn
  have hone : Nat.log2 1 = 0 := by decide
  unfold exponentOf
  simp only [hone, Nat.shiftLeft_eq, one_mul, Nat.cast_zero, sub_zero]
  split_ifs with hplace hbelow hbelow
  · have heq : ((n.log2 : Int) - 53).toNat + 53 = n.log2 := by omega
    rw [← pow_add, heq] at hbelow
    omega
  · omega
  · have heq : n.log2 + (-((n.log2 : Int) - 53)).toNat = 53 := by omega
    have := Nat.mul_le_mul_right (2 ^ (-((n.log2 : Int) - 53)).toNat) hle
    rw [← pow_add, heq] at this
    omega
  · omega

theorem nearestBits_one {n : Nat} (hn : n ≠ 0) :
    nearestBits n 1 = min infinityBits ((n.log2 + 1022) * leadingBit + spread n.log2 n) := by
  have hscaled : scaled n 1 ((n.log2 : Int) - 52) = spread n.log2 n := by
    unfold scaled spread
    by_cases hplace : n.log2 ≤ 52
    · rw [if_pos hplace]
      by_cases heq : n.log2 = 52
      · simp [heq, roundHalfEven, Nat.mod_one]
      · rw [if_neg (by omega), show (-((n.log2 : Int) - 52)).toNat = 52 - n.log2 by omega]
        simp [roundHalfEven, Nat.mod_one]
    · rw [if_neg hplace, if_pos (by omega), show ((n.log2 : Int) - 52).toNat = n.log2 - 52 by omega]
  unfold nearestBits
  rw [if_neg hn]
  dsimp only
  rw [exponentOf_one hn, hscaled, show ((n.log2 : Int) - 52 + 1074).toNat = n.log2 + 1022 by omega]

theorem le_spread {n : Nat} (hn : n ≠ 0) : leadingBit ≤ spread n.log2 n := by
  have hle := Nat.log2_self_le hn
  unfold spread
  split_ifs with hplace
  · rw [Nat.shiftLeft_eq]
    have := Nat.mul_le_mul_right (2 ^ (52 - n.log2)) hle
    rwa [← pow_add, Nat.add_sub_cancel' hplace] at this
  · refine le_trans ?_ (le_roundHalfEven _ _)
    rw [Nat.shiftLeft_eq, one_mul, Nat.le_div_iff_mul_le (Nat.two_pow_pos _)]
    rw [show leadingBit = 2 ^ 52 from rfl, ← pow_add]
    rwa [Nat.add_sub_cancel' (by omega)]

theorem spread_le (n : Nat) : spread n.log2 n ≤ 2 * leadingBit := by
  have hlt := @Nat.lt_log2_self n
  unfold spread
  split_ifs with hplace
  · rw [Nat.shiftLeft_eq]
    have := Nat.mul_le_mul_right (2 ^ (52 - n.log2)) hlt.le
    rw [← pow_add, show n.log2 + 1 + (52 - n.log2) = 53 by omega] at this
    exact this
  · refine (roundHalfEven_le _ _).trans (Nat.succ_le_of_lt ?_)
    rw [Nat.shiftLeft_eq, one_mul, Nat.div_lt_iff_lt_mul (Nat.two_pow_pos _)]
    rw [show 2 * leadingBit = 2 ^ 53 from rfl, ← pow_add]
    rwa [show 53 + (n.log2 - 52) = n.log2 + 1 by omega]

theorem spread_mono (place : Nat) {m n : Nat} (h : m ≤ n) : spread place m ≤ spread place n := by
  unfold spread
  split_ifs
  · rw [Nat.shiftLeft_eq, Nat.shiftLeft_eq]
    exact Nat.mul_le_mul_right _ h
  · exact roundHalfEven_mono _ h

theorem spread_lt {place m n : Nat} (hplace : place ≤ 52) (h : m < n) :
    spread place m < spread place n := by
  unfold spread
  rw [if_pos hplace, if_pos hplace, Nat.shiftLeft_eq, Nat.shiftLeft_eq]
  exact Nat.mul_lt_mul_of_pos_right h (Nat.two_pow_pos _)

theorem spread_lt_of_place {n : Nat} (hplace : n.log2 ≤ 52) : spread n.log2 n < 2 * leadingBit := by
  unfold spread
  rw [if_pos hplace, Nat.shiftLeft_eq]
  have := Nat.mul_lt_mul_of_pos_right (@Nat.lt_log2_self n) (Nat.two_pow_pos (52 - n.log2))
  rw [← pow_add, show n.log2 + 1 + (52 - n.log2) = 53 by omega] at this
  exact this

theorem nearestBits_zero : nearestBits 0 1 = 0 := rfl

theorem nearestBits_pos {n : Nat} (hn : n ≠ 0) : 0 < nearestBits n 1 := by
  have := le_spread hn
  rw [nearestBits_one hn]
  simp only [infinityBits, leadingBit] at *
  omega

theorem log2_mono {m n : Nat} (hm : m ≠ 0) (h : m ≤ n) : m.log2 ≤ n.log2 :=
  (Nat.le_log2 (by omega)).2 ((Nat.log2_self_le hm).trans h)

theorem nearestBits_mono {m n : Nat} (h : m ≤ n) : nearestBits m 1 ≤ nearestBits n 1 := by
  by_cases hm : m = 0
  · rw [hm, nearestBits_zero]
    exact Nat.zero_le _
  have hn : n ≠ 0 := by omega
  rw [nearestBits_one hm, nearestBits_one hn]
  refine min_le_min_left _ ?_
  rcases (log2_mono hm h).lt_or_eq with hlt | heq
  · have := spread_le m
    have := le_spread hn
    simp only [leadingBit] at *
    omega
  · rw [heq]
    exact Nat.add_le_add_left (spread_mono _ h) _

/-- The integers up to which each has a number of its own. -/
def exactBound : Nat := 0x20000000000000

theorem nearestBits_lt_of_lt {m n : Nat} (h : m < n) (hn : n ≤ exactBound) :
    nearestBits m 1 < nearestBits n 1 := by
  by_cases hm : m = 0
  · rw [hm, nearestBits_zero]
    exact nearestBits_pos (by omega)
  have hn0 : n ≠ 0 := by omega
  have hplace : m.log2 ≤ 52 := by
    have := (Nat.log2_lt hm).2 (show m < 2 ^ 53 by simp only [exactBound] at hn; omega)
    omega
  have hplace' : n.log2 ≤ 53 := by
    have := (Nat.log2_lt hn0).2 (show n < 2 ^ 54 by simp only [exactBound] at hn; omega)
    omega
  rw [nearestBits_one hm, nearestBits_one hn0]
  have hfilled := spread_lt_of_place hplace
  have hbound := spread_le n
  have hleading := le_spread hn0
  rcases (log2_mono hm h.le).lt_or_eq with hlt | heq
  · simp only [infinityBits, leadingBit] at *
    omega
  · rw [← heq] at hbound hleading ⊢
    have := spread_lt hplace h
    simp only [infinityBits, leadingBit] at *
    omega

theorem nearestBits_lt_infinity {n : Nat} (hn : n ≤ 2 ^ 63) : nearestBits n 1 < infinityBits := by
  by_cases h0 : n = 0
  · rw [h0]
    decide
  have hplace : n.log2 ≤ 63 := by
    have := (Nat.log2_lt h0).2 (show n < 2 ^ 64 by omega)
    omega
  rw [nearestBits_one h0]
  have := spread_le n
  simp only [infinityBits, leadingBit] at *
  omega

end Stepwise.Number
