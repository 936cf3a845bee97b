import Mathlib
import Stepwise.Proofs.Number.Nearest

/-! The order of floating-point numbers. Those without a sign are ordered as their bits are, since
the exponent stands before the mantissa; a sign turns the order round. So the numbers nearest to
integers are ordered as the integers are, as far as they differ. -/

namespace Stepwise.Number
open Float.Model Float.Model.UnpackedFloat

def signOf (negative : Bool) : Sign :=
  if negative then .negative else .positive

def parts (bits : Nat) : Magnitude :=
  if bits < leadingBit then ⟨bits, -1074⟩
  else ⟨bits % leadingBit + leadingBit, (bits / leadingBit : Nat) - 1075⟩

theorem parts_small {bits : Nat} (h : bits < leadingBit) : parts bits = ⟨bits, -1074⟩ :=
  if_pos h

theorem parts_large {bits : Nat} (h : leadingBit ≤ bits) :
    parts bits = ⟨bits % leadingBit + leadingBit, (bits / leadingBit : Nat) - 1075⟩ :=
  if_neg (Nat.not_lt.2 h)

theorem compare_parts (p q : Nat) :
    (compare (parts p).exponent (parts q).exponent).then
      (compare (parts p).mantissa (parts q).mantissa) = compare p q := by
  have hlt {p q : Nat} (h : p < q) :
      (parts p).exponent < (parts q).exponent ∨
        (parts p).exponent = (parts q).exponent ∧ (parts p).mantissa < (parts q).mantissa := by
    rcases lt_or_ge p leadingBit with hp | hp <;> rcases lt_or_ge q leadingBit with hq | hq
    · exact .inr ⟨by rw [parts_small hp, parts_small hq], by rwa [parts_small hp, parts_small hq]⟩
    · rw [parts_small hp, parts_large hq]
      simp only [leadingBit] at *
      omega
    · omega
    · rw [parts_large hp, parts_large hq]
      simp only [leadingBit] at *
      omega
  rcases lt_trichotomy p q with h | rfl | h
  · rw [compare_lt_iff_lt.2 h]
    rcases hlt h with he | ⟨he, hm⟩
    · rw [compare_lt_iff_lt.2 he]
      rfl
    · rw [compare_eq_iff_eq.2 he, compare_lt_iff_lt.2 hm]
      rfl
  · rw [compare_eq_iff_eq.2 rfl, compare_eq_iff_eq.2 rfl, compare_eq_iff_eq.2 rfl]
    rfl
  · rw [compare_gt_iff_gt.2 h]
    rcases hlt h with he | ⟨he, hm⟩
    · rw [compare_gt_iff_gt.2 he]
      rfl
    · rw [compare_eq_iff_eq.2 he.symm, compare_gt_iff_gt.2 hm]
      rfl

section Unpack

variable (negative : Bool) {p : Nat} (hp : p < infinityBits)
include hp

theorem fields_withSign :
    let v := (if negative then p + signBit else p).toUInt64.toBitVec
    @unpackExponent .binary64 v = BitVec.ofNat 11 (p / leadingBit) ∧
      @unpackMantissa .binary64 v = BitVec.ofNat 52 (p % leadingBit) ∧
        Sign.ofBitVec (@unpackSign .binary64 v) = signOf negative := by
  intro v
  have hv : v.toNat = if negative then p + signBit else p := by
    simp only [v, UInt64.toBitVec_ofNat', BitVec.toNat_ofNat]
    refine Nat.mod_eq_of_lt ?_
    cases negative <;> simp [signBit, infinityBits] at * <;> omega
  have hsign : BitVec.extractLsb' 63 1 v = if negative then 1#1 else 0#1 := by
    refine BitVec.eq_of_toNat_eq ?_
    rw [BitVec.extractLsb'_toNat, hv]
    cases negative <;> simp [signBit, infinityBits, Nat.shiftRight_eq_div_pow] at * <;> omega
  rw [unpackExponent_def, unpackMantissa_def, unpackSign_def]
  refine ⟨BitVec.eq_of_toNat_eq ?_, BitVec.eq_of_toNat_eq ?_, ?_⟩
  · rw [BitVec.extractLsb'_toNat, hv, BitVec.toNat_ofNat]
    cases negative <;>
      simp [signBit, infinityBits, leadingBit, Nat.shiftRight_eq_div_pow] at *
    omega
  · rw [BitVec.extractLsb'_toNat, hv, BitVec.toNat_ofNat]
    cases negative <;> simp [signBit, infinityBits, leadingBit] at *
    omega
  · change Sign.ofBitVec (BitVec.extractLsb' 63 1 v) = _
    rw [hsign]
    cases negative <;> rfl

theorem unpack_withSign :
    (p = 0 → (withSign negative p).toModel.unpack = .zero (signOf negative)) ∧
      (p ≠ 0 → ∃ hpos, (withSign negative p).toModel.unpack =
        .finite (signOf negative) (parts p).mantissa (parts p).exponent hpos) := by
  obtain ⟨hexponent, hmantissa, hsign⟩ := fields_withSign negative hp
  have hfield : p / leadingBit < 2047 := (Nat.div_lt_iff_lt_mul (by decide)).2 hp
  have hfinite : BitVec.ofNat 11 (p / leadingBit) ≠ -1#11 := by
    intro he
    have he := congrArg BitVec.toNat he
    rw [BitVec.toNat_ofNat, Nat.mod_eq_of_lt (by omega)] at he
    exact hfield.ne he
  have hmod : p % leadingBit < 2 ^ 52 := Nat.mod_lt _ (by decide)
  have hzero {n k : Nat} (hn : n < 2 ^ k) : BitVec.ofNat k n = 0#k ↔ n = 0 := by
    rw [← BitVec.toNat_inj, BitVec.toNat_ofNat, BitVec.toNat_ofNat, Nat.mod_eq_of_lt hn,
      Nat.zero_mod]
  have hnan : @isNaNBits .binary64
      (if negative then p + signBit else p).toUInt64.toBitVec = false := by
    simp only [isNaNBits, hexponent, decide_eq_false_iff_not, not_and]
    exact fun h => absurd h hfinite
  have hunpack : (withSign negative p).toModel.unpack =
      UnpackedFloat.unpack .binary64 (if negative then p + signBit else p).toUInt64.toBitVec := by
    change UnpackedFloat.unpack .binary64 (UnpackedFloat.pack .binary64 _) = _
    rw [pack_unpack, hnan]
    rfl
  rw [hunpack, UnpackedFloat.unpack]
  simp only [hexponent, hmantissa, hsign]
  rw [if_neg hfinite]
  refine ⟨fun hp0 => ?_, fun hp0 => ?_⟩
  · rw [if_pos (by rw [hp0]; rfl), dif_pos (by rw [hp0]; rfl)]
  · by_cases hsmall : p < leadingBit
    · have hmantissa : p % leadingBit = p := Nat.mod_eq_of_lt hsmall
      have hexponent : p / leadingBit = 0 := Nat.div_eq_of_lt hsmall
      refine ⟨by rw [parts_small hsmall]; exact Nat.pos_of_ne_zero hp0, ?_⟩
      rw [if_pos (by rw [hexponent]), dif_neg (by rw [hzero hmod, hmantissa]; exact hp0)]
      congr 1
      · rw [BitVec.toNat_ofNat, Nat.mod_eq_of_lt hmod, hmantissa, parts_small hsmall]
      · rw [hexponent, parts_small hsmall]
        rfl
    · have hlarge : leadingBit ≤ p := Nat.not_lt.1 hsmall
      have hexponent : p / leadingBit ≠ 0 := (Nat.div_pos hlarge (by decide)).ne'
      refine ⟨by rw [parts_large hlarge]; exact Nat.lt_add_left _ (by decide), ?_⟩
      rw [if_neg (by rw [hzero (by omega)]; exact hexponent)]
      congr 1
      · have hmantissa : (BitVec.ofNat 52 (p % leadingBit)).toNat = p % leadingBit := by
          rw [BitVec.toNat_ofNat, Nat.mod_eq_of_lt hmod]
        rw [parts_large hlarge, BitVec.toNat_append, ← Nat.shiftLeft_add_eq_or_of_lt (BitVec.isLt _),
          hmantissa]
        exact Nat.add_comm _ _
      · rw [parts_large hlarge, BitVec.toNat_ofNat, Nat.mod_eq_of_lt (by omega)]
        rfl

end Unpack

def standing (negative : Bool) (bits : Nat) : Int :=
  if negative then -bits else bits

theorem compare_standing_of_pos (p q : Nat) :
    compare (standing false p) (standing false q) = compare p q := by
  simp only [standing, Bool.false_eq_true, if_false]
  rcases lt_trichotomy p q with h | rfl | h
  · rw [compare_lt_iff_lt.2 h, compare_lt_iff_lt.2 (by omega)]
  · rw [compare_eq_iff_eq.2 rfl, compare_eq_iff_eq.2 rfl]
  · rw [compare_gt_iff_gt.2 h, compare_gt_iff_gt.2 (by omega)]

theorem compare_standing_of_neg (p q : Nat) :
    compare (standing true p) (standing true q) = (compare p q).swap := by
  simp only [standing, if_true]
  rcases lt_trichotomy p q with h | rfl | h
  · rw [compare_lt_iff_lt.2 h, compare_gt_iff_gt.2 (by omega)]
    rfl
  · rw [compare_eq_iff_eq.2 rfl, compare_eq_iff_eq.2 rfl]
    rfl
  · rw [compare_gt_iff_gt.2 h, compare_lt_iff_lt.2 (by omega)]
    rfl

theorem compare_withSign (a b : Bool) {p q : Nat} (hp : p < infinityBits) (hq : q < infinityBits) :
    (withSign a p).toModel.unpack.compare (withSign b q).toModel.unpack =
      some (compare (standing a p) (standing b q)) := by
  by_cases hp0 : p = 0 <;> by_cases hq0 : q = 0
  · rw [(unpack_withSign a hp).1 hp0, (unpack_withSign b hq).1 hq0, hp0, hq0]
    cases a <;> cases b <;> rfl
  · obtain ⟨hpos, hy⟩ := (unpack_withSign b hq).2 hq0
    rw [(unpack_withSign a hp).1 hp0, hy]
    cases b
    · rw [compare_lt_iff_lt.2 (by cases a <;> simp [standing] <;> omega)]
      rfl
    · rw [compare_gt_iff_gt.2 (by cases a <;> simp [standing] <;> omega)]
      rfl
  · obtain ⟨hpos, hx⟩ := (unpack_withSign a hp).2 hp0
    rw [(unpack_withSign b hq).1 hq0, hx]
    cases a
    · rw [compare_gt_iff_gt.2 (by cases b <;> simp [standing] <;> omega)]
      rfl
    · rw [compare_lt_iff_lt.2 (by cases b <;> simp [standing] <;> omega)]
      rfl
  · obtain ⟨hposx, hx⟩ := (unpack_withSign a hp).2 hp0
    obtain ⟨hposy, hy⟩ := (unpack_withSign b hq).2 hq0
    rw [hx, hy]
    cases a <;> cases b
    · rw [compare_standing_of_pos, ← compare_parts]
      rfl
    · rw [compare_gt_iff_gt.2 (by simp [standing]; omega)]
      rfl
    · rw [compare_lt_iff_lt.2 (by simp [standing]; omega)]
      rfl
    · rw [compare_standing_of_neg, ← compare_parts]
      rfl

/-! Integers as numbers. -/

def rank (n : Int) : Int :=
  standing (n < 0) (nearestBits n.natAbs 1)

def IsWord (n : Int) : Prop :=
  n.natAbs ≤ 2 ^ 63

theorem isWord_toInt (w : Int64) : IsWord w.toInt := by
  have := w.le_toInt
  have := w.toInt_lt
  unfold IsWord
  omega

section ofInt

variable {m n : Int} (hm : IsWord m) (hn : IsWord n)
include hm hn

theorem compare_ofInt :
    (ofInt m).toModel.unpack.compare (ofInt n).toModel.unpack = some (compare (rank m) (rank n)) :=
  compare_withSign _ _ (nearestBits_lt_infinity hm) (nearestBits_lt_infinity hn)

theorem ofInt_lt_iff : ofInt m < ofInt n ↔ rank m < rank n := by
  have h : ofInt m < ofInt n ↔
      (ofInt m).toModel.unpack.compare (ofInt n).toModel.unpack = some .lt := by
    change decide (_ = true) = true ↔ _
    rw [decide_eq_true_iff]
    exact beq_iff_eq
  rw [h, compare_ofInt hm hn, Option.some.injEq, compare_lt_iff_lt]

theorem ofInt_beq_iff : (ofInt m == ofInt n) = true ↔ rank m = rank n := by
  have h : (ofInt m == ofInt n) = true ↔
      (ofInt m).toModel.unpack.compare (ofInt n).toModel.unpack = some .eq := by
    change (_ == some Ordering.eq) = true ↔ _
    exact beq_iff_eq
  rw [h, compare_ofInt hm hn, Option.some.injEq, compare_eq_iff_eq]

theorem ofInt_eq_iff : ofInt m = ofInt n ↔ rank m = rank n := by
  refine ⟨fun h => ?_, fun h => ?_⟩
  · have hself : (ofInt n == ofInt n) = true := (ofInt_beq_iff hn hn).2 rfl
    rw [← ofInt_beq_iff hm hn, h]
    exact hself
  · have hsign : decide (m < 0) = decide (n < 0) := by
      have hpos {k : Int} (hk : k < 0) := nearestBits_pos (show k.natAbs ≠ 0 by omega)
      unfold rank standing at h
      simp only [decide_eq_true_eq] at h
      rw [decide_eq_decide]
      split_ifs at h with hm0 hn0 hn0
      · exact iff_of_true hm0 hn0
      · have := hpos hm0
        omega
      · have := hpos hn0
        omega
      · exact iff_of_false hm0 hn0
    have hbits : nearestBits m.natAbs 1 = nearestBits n.natAbs 1 := by
      unfold rank standing at h
      rw [hsign] at h
      split_ifs at h <;> omega
    unfold ofInt
    rw [hsign, hbits]

end ofInt

theorem rank_mono {m n : Int} (h : m ≤ n) : rank m ≤ rank n := by
  unfold rank standing
  simp only [decide_eq_true_eq]
  split_ifs with hm hn hn
  · have := nearestBits_mono (show n.natAbs ≤ m.natAbs by omega)
    omega
  · omega
  · omega
  · have := nearestBits_mono (show m.natAbs ≤ n.natAbs by omega)
    omega

theorem rank_lt_of_lt {m n : Int} (hm : m.natAbs ≤ exactBound) (hn : n.natAbs ≤ exactBound)
    (h : m < n) : rank m < rank n := by
  unfold rank standing
  simp only [decide_eq_true_eq]
  split_ifs with hm0 hn0 hn0
  · have := nearestBits_lt_of_lt (show n.natAbs < m.natAbs by omega) hm
    omega
  · have := nearestBits_pos (show m.natAbs ≠ 0 by omega)
    omega
  · omega
  · have := nearestBits_lt_of_lt (show m.natAbs < n.natAbs by omega) hn
    omega

theorem eq_of_rank_eq {m n : Int} (hm : m.natAbs ≤ exactBound) (hn : n.natAbs ≤ exactBound)
    (h : rank m = rank n) : m = n := by
  rcases lt_trichotomy m n with hlt | heq | hlt
  · exact absurd h (rank_lt_of_lt hm hn hlt).ne
  · exact heq
  · exact absurd h (rank_lt_of_lt hn hm hlt).ne'

end Stepwise.Number
