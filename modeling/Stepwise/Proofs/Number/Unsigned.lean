import Mathlib
import Stepwise.Number.Double

/-! Numbers without a sign. The equality of floating-point numbers identifies the two zeros and
nothing else, so numbers whose sign bit is clear are equal only if they are the same number.
Every number that is read from text is of this kind. -/

namespace Stepwise.Number
open Float.Model Float.Model.UnpackedFloat

theorem isNegative_eq_false {x : Float} : isNegative x = false ↔ x.toBits.toNat < signBit := by
  simp [isNegative, signBit, UInt64.lt_iff_toNat_lt]

theorem toNat_packedNaN_lt : (packedNaN .binary64).toNat < signBit := by decide

/-- Bits are read back as they are, those of no number excepted, and none of these has a sign. -/
theorem isNegative_ofBits {n : Nat} (h : n < signBit) :
    isNegative (Float.ofBits n.toUInt64) = false := by
  have hn : n.toUInt64.toBitVec.toNat = n := by
    simp only [signBit] at h
    simp only [Nat.toUInt64, UInt64.toBitVec_ofNat', BitVec.toNat_ofNat]
    omega
  have hbits : (Float.ofBits n.toUInt64).toBits.toBitVec =
      (unpack .binary64 n.toUInt64.toBitVec).pack .binary64 := rfl
  rw [isNegative_eq_false, ← UInt64.toNat_toBitVec, hbits, pack_unpack]
  split
  · exact toNat_packedNaN_lt
  · exact hn.symm ▸ h

theorem eq_of_beq_of_unsigned {x y : Float} (hx : isNegative x = false) (hy : isNegative y = false)
    (h : (x == y) = true) : x = y := by
  have hzero : isNegative (-0) = true := by decide
  obtain ⟨-, -, heq | ⟨-, rfl⟩ | ⟨rfl, -⟩⟩ := Float.beq_iff_ne_nan_and_eq.1 h
  · exact heq
  · rw [hzero] at hy
    cases hy
  · rw [hzero] at hx
    cases hx

theorem nearestBits_lt (num den : Nat) : nearestBits num den < signBit := by
  unfold nearestBits
  split
  · simp [signBit]
  · exact Nat.lt_of_le_of_lt (Nat.min_le_left _ _) (by simp [infinityBits, signBit])

theorem isNegative_zero : isNegative 0.0 = false := by decide

theorem isNegative_toFloat (digits : Nat) (exponent : Int) :
    isNegative (toFloat digits exponent) = false := by
  unfold toFloat
  dsimp only
  split
  · exact isNegative_zero
  split
  · exact isNegative_ofBits (by simp [infinityBits, signBit])
  split
  · exact isNegative_zero
  split
  · exact isNegative_ofBits (nearestBits_lt _ _)
  · exact isNegative_ofBits (nearestBits_lt _ _)

theorem isNegative_of_readUnsigned {cs : List Char} {x : Float} (h : readUnsigned? cs = some x) :
    isNegative x = false := by
  unfold readUnsigned? at h
  dsimp only at h
  repeat' split at h
  all_goals first
    | cases h; exact isNegative_toFloat _ _
    | cases h

end Stepwise.Number
