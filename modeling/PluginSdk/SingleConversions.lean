import PluginSdk.SinglePrecision
import Mathlib.Tactic.Linarith
import Mathlib.Algebra.Order.Round

namespace SinglePrecision

open BinaryFloat
open Float.Model
open Float.Model.UnpackedFloat

/-! Conversions to and from the integers. -/

def toInt32 (a : Float32) : Int32 := a.toModel.toInt32

def ofInt32 (n : Int32) : Float32 := .ofModel (.ofInt32 n)

def ofUInt32 (n : UInt32) : Float32 := .ofModel (.ofUInt32 n)

/-- The literal `m * 10 ^ e`. -/
def ofDecimal (m : Nat) (e : Int) : Float32 := .ofModel (.ofScientific m e)

theorem value_ofInt32 {n : Int32} (h : |n.toInt| ≤ 2 ^ 24) :
    value (ofInt32 n) = some (n.toInt : ℚ) := by
  show packedValue (UnpackedFloat.normalize Format.binary32 n.toInt 0 .positive) = _
  have hnormal : n.toInt = 0 ∨ Normal ((n.toInt : ℚ) * 2 ^ (0 : Int)) := by
    by_cases hzero : n.toInt = 0
    · exact .inl hzero
    · right
      rw [zpow_zero, mul_one]
      have hone : (1 : ℚ) ≤ |(n.toInt : ℚ)| := by exact_mod_cast Int.one_le_abs hzero
      have hmost : |(n.toInt : ℚ)| ≤ 2 ^ 24 := by exact_mod_cast h
      refine .of_lt (le_trans ?_ hone) (lt_of_le_of_lt hmost ?_) <;> norm_num
  rw [packedValue_normalize hnormal, nearest_intCast_mul_zpow (by norm_num) h, zpow_zero, mul_one]

theorem value_ofUInt32 (n : UInt32) : value (ofUInt32 n) = some (nearest 24 n.toNat) := by
  show packedValue (UnpackedFloat.normalize Format.binary32 (n.toNat : Int) 0 .positive) = _
  have hmost : (n.toNat : ℚ) < 2 ^ 127 := by
    have hword : ((n.toNat : Nat) : ℚ) < (2 ^ 32 : Nat) := by exact_mod_cast n.toNat_lt
    exact hword.trans (by norm_num)
  have hnormal : (n.toNat : Int) = 0 ∨ Normal (((n.toNat : Int) : ℚ) * 2 ^ (0 : Int)) := by
    rw [zpow_zero, mul_one, Int.cast_natCast]
    rcases Nat.eq_zero_or_pos n.toNat with hzero | hpos
    · exact .inl (by exact_mod_cast hzero)
    · have hone : (1 : ℚ) ≤ n.toNat := by exact_mod_cast hpos
      right
      exact .of_pos_lt (le_trans (by norm_num) hone) hmost
  rw [packedValue_normalize hnormal, zpow_zero, mul_one, Int.cast_natCast]

theorem floor_eq_div (m k : Nat) : ⌊(m : ℚ) / 2 ^ k⌋ = (m / 2 ^ k : Nat) := by
  have hh := Rat.floor_intCast_div_natCast m (2 ^ k)
  push_cast at hh
  exact_mod_cast hh

section

variable {a : Float32} {x : ℚ}

/-- From 1 on the mantissa is full, up to `2 ^ 24` no bit of it is above the ones. -/
theorem unpack_of_one_le (h : value a = some x) (hlow : 1 ≤ x) (hhigh : x < 2 ^ 24) :
    ∃ m k : Nat, ∃ hm, a.toModel.unpack = .finite .positive m (-(k : Int)) hm ∧
      k ≤ 23 ∧ m < 2 ^ 24 ∧ x = m / 2 ^ k := by
  rcases value_cases h with ⟨s, -, rfl⟩ | ⟨s, m, e, hm, hu, rfl⟩
  · norm_num at hlow
  · cases s with
    | negative =>
      have hneg : ((Sign.negative.apply m : Int) : ℚ) * 2 ^ e ≤ 0 := by
        simp only [Sign.apply, Int.cast_neg, Int.cast_natCast, neg_mul, neg_nonpos]
        positivity
      linarith
    | positive =>
      have hcast : ((Sign.positive.apply m : Int) : ℚ) * 2 ^ e = m * 2 ^ e := rfl
      rw [hcast] at hlow hhigh ⊢
      have hnormal : Normal ((Sign.positive.apply m : Int) * 2 ^ e) := by
        rw [hcast]
        apply Normal.of_lt
        · rw [abs_mul_zpow]
          exact le_trans (by norm_num) hlow
        · rw [abs_mul_zpow]
          exact hhigh.trans (by norm_num)
      obtain ⟨hfull, -⟩ := isNormal_of_normal hu hnormal
      have hleast : (-24 : Int) < e := by
        rw [← zpow_lt_zpow_iff_right₀ (show (1 : ℚ) < 2 by norm_num)]
        have hupper : (m : ℚ) < 2 ^ 24 := by exact_mod_cast hfull.upper
        have hone : (1 : ℚ) < 2 ^ 24 * 2 ^ e :=
          lt_of_le_of_lt hlow (mul_lt_mul_of_pos_right hupper (by positivity))
        rw [zpow_neg, inv_lt_iff_one_lt_mul₀ (by positivity), mul_comm]
        exact_mod_cast hone
      have hmost : e < 1 := by
        rw [← zpow_lt_zpow_iff_right₀ (show (1 : ℚ) < 2 by norm_num)]
        have hlower : (2 : ℚ) ^ 23 ≤ m := by exact_mod_cast hfull.lower
        have hprod : (2 : ℚ) ^ 23 * 2 ^ e < 2 ^ 24 :=
          lt_of_le_of_lt (mul_le_mul_of_nonneg_right hlower (by positivity)) hhigh
        rw [zpow_one]
        linarith
      obtain ⟨k, hk⟩ := Int.eq_ofNat_of_zero_le (show 0 ≤ -e by omega)
      obtain rfl : e = -(k : Int) := by omega
      refine ⟨m, k, hm, hu, by omega, hfull.upper, ?_⟩
      rw [zpow_neg, zpow_natCast, div_eq_mul_inv]

theorem toInt32_eq_floor (h : value a = some x) (hlow : 1 ≤ x) (hhigh : x < 2 ^ 24) :
    (toInt32 a).toInt = ⌊x⌋ := by
  obtain ⟨m, k, hm, hu, -, hupper, rfl⟩ := unpack_of_one_le h hlow hhigh
  have hround : roundToInt .positive m (-(k : Int)) = (m / 2 ^ k : Nat) := by
    have hamount : (-(k : Int) - 0).toNat = 0 := by omega
    have hamount' : (0 - (-(k : Int) - (0 : Nat))).toNat = k := by omega
    simp only [roundToInt, decreaseExponent, shiftToExponent, hamount, hamount',
      Nat.shiftLeft_zero, Sign.apply]
    exact congrArg Int.ofNat (shifted_shiftRight m k).mantissa
  have hdiv : m / 2 ^ k ≤ m := Nat.div_le_self _ _
  have htoInt : UnpackedFloat.toInt Int32.minValue.toInt Int32.maxValue.toInt
      (.finite .positive m (-(k : Int)) hm) = (m / 2 ^ k : Nat) := by
    rw [UnpackedFloat.toInt, hround]
  have hclamp : toInt32 a = Int32.ofIntClamp (m / 2 ^ k : Nat) := by
    rw [← htoInt, ← hu]
    rfl
  rw [floor_eq_div, hclamp]
  apply Int32.toInt_ofIntClamp
  · exact le_trans (by decide) (Int.natCast_nonneg _)
  · rw [show Int32.maxValue.toInt = 2147483647 from rfl]
    omega

theorem fract_of_one_le (h : value a = some x) (hlow : 1 ≤ x) (hhigh : x < 2 ^ 24) :
    ∃ m k : Nat, k ≤ 23 ∧ m < 2 ^ 24 ∧ Int.fract x = (m : Int) * 2 ^ (-(k : Int)) := by
  obtain ⟨m, k, hm, -, hk, hupper, rfl⟩ := unpack_of_one_le h hlow hhigh
  refine ⟨m % 2 ^ k, k, hk, (Nat.mod_le _ _).trans_lt hupper, ?_⟩
  have hsplit : ((m : ℚ)) = 2 ^ k * (m / 2 ^ k : Nat) + (m % 2 ^ k : Nat) := by
    exact_mod_cast (Nat.div_add_mod m (2 ^ k)).symm
  rw [Int.fract, floor_eq_div, zpow_neg, zpow_natCast, ← div_eq_mul_inv, eq_div_iff (by positivity),
    sub_mul, div_mul_cancel₀ _ (by positivity)]
  simp only [Int.cast_natCast]
  linarith

theorem fract_eq_zero_or_le (h : value a = some x) (hlow : 1 ≤ x) (hhigh : x < 2 ^ 24) :
    Int.fract x = 0 ∨ 2 ^ (-23 : Int) ≤ Int.fract x := by
  obtain ⟨m, k, hk, -, hfract⟩ := fract_of_one_le h hlow hhigh
  rw [hfract]
  rcases Nat.eq_zero_or_pos m with rfl | hm
  · exact .inl (by norm_num)
  · have hone : (1 : ℚ) ≤ (m : Int) := by exact_mod_cast hm
    right
    calc (2 : ℚ) ^ (-23 : Int) ≤ 2 ^ (-(k : Int)) := zpow_le_zpow_right₀ (by norm_num) (by omega)
      _ ≤ _ := le_mul_of_one_le_left (by positivity) hone

theorem value_sub_toInt32 (h : value a = some x) (hlow : 1 ≤ x) (hhigh : x < 2 ^ 24) :
    value (a - ofInt32 (toInt32 a)) = some (Int.fract x) := by
  have hfloor := toInt32_eq_floor h hlow hhigh
  have hfloor_nonneg : 0 ≤ ⌊x⌋ := Int.floor_nonneg.mpr (by linarith)
  have hfloor_le : ⌊x⌋ ≤ 2 ^ 24 := by
    apply Int.floor_le_iff.mpr
    push_cast
    linarith
  have hint : value (ofInt32 (toInt32 a)) = some (⌊x⌋ : ℚ) := by
    rw [← hfloor]
    apply value_ofInt32
    rw [hfloor, abs_of_nonneg hfloor_nonneg]
    exact hfloor_le
  have hnear : nearest 24 (Int.fract x) = Int.fract x := by
    obtain ⟨m, k, -, hupper, hfract⟩ := fract_of_one_le h hlow hhigh
    rw [hfract]
    apply nearest_intCast_mul_zpow (by norm_num)
    rw [abs_of_nonneg (by positivity)]
    exact_mod_cast hupper.le
  have hnormal : x - ⌊x⌋ = 0 ∨ Normal (x - ⌊x⌋) := by
    refine (fract_eq_zero_or_le h hlow hhigh).imp_right fun hle => ?_
    have hone := Int.fract_lt_one x
    exact .of_pos_lt (le_trans (by norm_num) hle) (hone.trans (by norm_num))
  rw [value_sub h hint (by linarith) hnormal]
  exact congrArg some hnear

end

/-- An exponent alone is a power of two. -/
theorem value_exponent {b : Nat} (hb : 1 ≤ b) (hb' : b ≤ 254) {n : Int32} (hn : n.toInt = b) :
    value (.ofBits (n <<< 23).toUInt32) = some (2 ^ ((b : Int) - 127)) := by
  have hshift : ∀ b < 255, BitVec.ofNat 32 b <<< (23 : Nat) =
      packComponents Format.binary32 .positive (BitVec.ofNat 8 b) (BitVec.ofNat 23 0) := by
    decide +kernel
  have hword : n.toBitVec = BitVec.ofNat 32 b := by
    rw [← BitVec.ofInt_toInt (x := n.toBitVec), ← BitVec.ofInt_natCast, ← hn]
    rfl
  have hbits : (n <<< 23).toUInt32.toBitVec = n.toBitVec <<< (23 : Nat) := rfl
  show packedValue (UnpackedFloat.unpack Format.binary32 (n <<< 23).toUInt32.toBitVec) = _
  obtain ⟨hpos, hunpack⟩ := unpack_normal .positive hb hb' (show 0 < 2 ^ 23 by norm_num)
  rw [hbits, hword, hshift b (by omega), hunpack,
    packedValue_finite .positive hpos ⟨by norm_num, by norm_num, by omega⟩ (by omega)]
  show some (((2 ^ 23 + 0 : Nat) : Int) * (2 : ℚ) ^ ((b : Int) - 150)) = _
  rw [show (b : Int) - 127 = (23 : Nat) + (b - 150) by push_cast; ring,
    zpow_add₀ (by norm_num), zpow_natCast]
  norm_num

end SinglePrecision
