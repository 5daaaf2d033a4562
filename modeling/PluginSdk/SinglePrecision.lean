import Mathlib
import PluginSdk.BinaryFloat

/-! What the operations of `Float32` compute: in the range of the normal numbers
the exact result rounded to 24 bits. -/

namespace SinglePrecision

open BinaryFloat
open PythonText (MeasuresAs)
open Float.Model
open Float.Model.UnpackedFloat

def unpackedValue : UnpackedFloat → Option ℚ
  | .zero _ => some 0
  | .finite s m e _ => some (s.apply m * 2 ^ e)
  | _ => none

def value (x : Float32) : Option ℚ := unpackedValue x.toModel.unpack

/-! The mantissa with its two residual bits, shifted `k` places. -/

structure Shifted (m k : Nat) (em : ExtendedMantissa) : Prop where
  mantissa : em.mantissa = m / 2 ^ k
  roundBit : em.roundBit = true ↔ 2 ^ k ≤ 2 * (m % 2 ^ k)
  stickyBit : em.stickyBit = true ↔ 2 * (m % 2 ^ k) % 2 ^ k ≠ 0

theorem Shifted.zero (m : Nat) : Shifted m 0 (.ofMantissaAndAccuracy m .exact) := by
  constructor <;> simp [ExtendedMantissa.ofMantissaAndAccuracy, Nat.mod_one]

theorem Shifted.succ {m k : Nat} {em : ExtendedMantissa} (h : Shifted m k em) :
    Shifted m (k + 1) em.shiftRightOne := by
  have hpos : 0 < 2 ^ k := by positivity
  have hrest : m % 2 ^ k < 2 ^ k := Nat.mod_lt _ hpos
  have hmod : m % 2 ^ (k + 1) = m % 2 ^ k + 2 ^ k * (m / 2 ^ k % 2) := Nat.mod_pow_succ
  have hsplit : 2 ^ (k + 1) = 2 * 2 ^ k := by ring
  have hbit : m / 2 ^ k % 2 = 0 ∨ m / 2 ^ k % 2 = 1 := by omega
  have hsticky : (em.roundBit || em.stickyBit) = true ↔ m % 2 ^ k ≠ 0 := by
    rw [Bool.or_eq_true, h.roundBit, h.stickyBit]
    by_cases hlow : 2 * (m % 2 ^ k) < 2 ^ k
    · rw [Nat.mod_eq_of_lt hlow]
      omega
    · omega
  constructor
  · rw [ExtendedMantissa.shiftRightOne, h.mantissa, Nat.div_div_eq_div_mul, pow_succ]
  · show (em.mantissa % 2 != 0) = true ↔ _
    rw [h.mantissa, bne_iff_ne, hmod, hsplit]
    rcases hbit with hbit | hbit
    · rw [hbit]
      omega
    · rw [hbit]
      omega
  · show (em.roundBit || em.stickyBit) = true ↔ _
    rw [hsticky, hmod, hsplit]
    have hdouble : 2 * (m % 2 ^ k + 2 ^ k * (m / 2 ^ k % 2)) % (2 * 2 ^ k) = 2 * (m % 2 ^ k) := by
      rcases hbit with hbit | hbit
      · rw [hbit, mul_zero, add_zero]
        exact Nat.mod_eq_of_lt (by omega)
      · rw [hbit, mul_one, mul_add, Nat.add_mod_right]
        exact Nat.mod_eq_of_lt (by omega)
    rw [hdouble]
    omega

theorem shifted_shiftRight (m k : Nat) :
    Shifted m k ((ExtendedMantissa.ofMantissaAndAccuracy m .exact) >>> k) := by
  induction k with
  | zero => exact Shifted.zero m
  | succ k ih => exact ih.succ

/-- The rounded mantissa is the nearest one, ties going to the even one. -/
theorem Shifted.measuresAs {m k : Nat} {em : ExtendedMantissa} (h : Shifted m k em) :
    MeasuresAs m (2 ^ k) (em.roundedMantissa : Int) := by
  obtain ⟨mantissa, roundBit, stickyBit⟩ := em
  obtain ⟨hmantissa, hround, hsticky⟩ := h
  dsimp only at hmantissa hround hsticky
  subst hmantissa
  have hpos : 0 < 2 ^ k := by positivity
  have hrest : m % 2 ^ k < 2 ^ k := Nat.mod_lt _ hpos
  have hm : (m : ℚ) = 2 ^ k * (m / 2 ^ k : Nat) + (m % 2 ^ k : Nat) := by
    exact_mod_cast (Nat.div_add_mod m (2 ^ k)).symm
  have hcast : ((2 ^ k : Nat) : ℚ) = 2 ^ k := by push_cast; rfl
  generalize m / 2 ^ k = q at hm ⊢
  generalize m % 2 ^ k = r at hm hrest hround hsticky
  have hdown : |(m : ℚ) - (q : Int) * 2 ^ k| = r := by
    rw [hm, Int.cast_natCast, mul_comm, add_sub_cancel_left, Nat.abs_cast]
  have hup : |(m : ℚ) - ((q + 1 : Nat) : Int) * 2 ^ k| = 2 ^ k - r := by
    have hle : (r : ℚ) ≤ 2 ^ k := by exact_mod_cast hrest.le
    rw [hm, Int.cast_natCast, abs_sub_comm, abs_of_nonneg]
    · push_cast
      ring
    · push_cast
      linarith
  cases roundBit <;> cases stickyBit
  case false.false =>
    have hr : r = 0 := by
      by_contra hne
      have hlow : 2 * r < 2 ^ k := by simpa using hround
      simp only [Bool.false_eq_true, false_iff, not_not, Nat.mod_eq_of_lt hlow] at hsticky
      omega
    left
    show |(m : ℚ) - (q : Int) * 2 ^ k| < 2 ^ k / 2
    rw [hdown, hr, Nat.cast_zero]
    positivity
  case false.true =>
    have hlow : 2 * r < 2 ^ k := by simpa using hround
    have hlow' : 2 * (r : ℚ) < 2 ^ k := by exact_mod_cast hlow
    left
    show |(m : ℚ) - (q : Int) * 2 ^ k| < 2 ^ k / 2
    rw [hdown]
    linarith
  case true.false =>
    have hhigh : 2 ^ k ≤ 2 * r := by simpa using hround
    have hzero : 2 * r % 2 ^ k = 0 := by simpa using hsticky
    have hhalf : 2 * r = 2 ^ k := by
      rw [Nat.mod_eq_sub_mod hhigh, Nat.mod_eq_of_lt (by omega)] at hzero
      omega
    have hhalf' : 2 * (r : ℚ) = 2 ^ k := by exact_mod_cast hhalf
    right
    show |(m : ℚ) - ((q + q % 2 : Nat) : Int) * 2 ^ k| = 2 ^ k / 2 ∧
      ((q + q % 2 : Nat) : Int) % 2 = 0
    refine ⟨?_, by omega⟩
    rcases Nat.mod_two_eq_zero_or_one q with hq | hq
    · rw [hq, add_zero, hdown]
      linarith
    · rw [hq, hup]
      linarith
  case true.true =>
    have hhigh : 2 ^ k ≤ 2 * r := by simpa using hround
    have hne : 2 * r % 2 ^ k ≠ 0 := by simpa using hsticky
    have hmore : 2 ^ k < 2 * r := by
      rcases hhigh.lt_or_eq with hlt | heq
      · exact hlt
      · rw [← heq, Nat.mod_self] at hne
        exact absurd rfl hne
    have hmore' : (2 : ℚ) ^ k < 2 * r := by exact_mod_cast hmore
    left
    show |(m : ℚ) - ((q + 1 : Nat) : Int) * 2 ^ k| < 2 ^ k / 2
    rw [hup]
    linarith

/-! Rounding to 24 bits. -/

theorem targetExponent_eq (m : Nat) (e : Int) :
    Format.binary32.targetExponent (totalExponent m e) = max (m.log2 + 1 + e - 24) (-149) := rfl

theorem shiftToTargetExponent_eq {m k : Nat} {e : Int} (hk : m.log2 = 23 + k)
    (he : -149 ≤ e + k) : shiftToTargetExponent Format.binary32 m e .exact =
      ((ExtendedMantissa.ofMantissaAndAccuracy m .exact) >>> k, e + k) := by
  have hamount : (Format.binary32.targetExponent (totalExponent m e) - e).toNat = k := by
    rw [targetExponent_eq]
    omega
  unfold shiftToTargetExponent shiftToExponent
  simp only [hamount]

structure IsNormal (m : Nat) (e : Int) : Prop where
  lower : 2 ^ 23 ≤ m
  upper : m < 2 ^ 24
  least : -149 ≤ e

theorem nearest_of_measuresAs {m k M : Nat} {e : Int} (hk : m.log2 = 23 + k) (hm : 0 < m)
    (h : MeasuresAs m (2 ^ k) M) : nearest 24 (m * 2 ^ e) = M * 2 ^ (e + k) := by
  have hlow : 2 ^ (23 + k) ≤ m := by
    rw [← hk]
    exact Nat.log2_self_le hm.ne'
  have hhigh : m < 2 ^ (23 + k + 1) := by
    rw [← hk]
    exact Nat.lt_log2_self
  have hpow : (0 : ℚ) < 2 ^ e := by positivity
  have hy : (0 : ℚ) < m * 2 ^ e := by positivity
  have hlog : Int.log 2 |(m : ℚ) * 2 ^ e| = 23 + k + e := by
    rw [abs_of_pos hy]
    apply le_antisymm
    · rw [← Int.lt_add_one_iff, ← Int.lt_zpow_iff_log_lt (by norm_num) hy]
      have hm' : (m : ℚ) < 2 ^ (23 + k + 1) := by exact_mod_cast hhigh
      push_cast
      rw [show (23 + k + e + 1 : Int) = ((23 + k + 1 : Nat) : Int) + e by push_cast; ring,
        zpow_add₀ (by norm_num), zpow_natCast]
      gcongr
    · rw [← Int.zpow_le_iff_le_log (by norm_num) hy]
      have hm' : (2 : ℚ) ^ (23 + k) ≤ m := by exact_mod_cast hlow
      push_cast
      rw [show (23 + k + e : Int) = ((23 + k : Nat) : Int) + e by push_cast; ring,
        zpow_add₀ (by norm_num), zpow_natCast]
      gcongr
  have hspacing : spacing 24 (m * 2 ^ e) = 2 ^ k * 2 ^ e := by
    rw [spacing, hlog, ← zpow_natCast, ← zpow_add₀ (by norm_num)]
    congr 1
    push_cast
    ring
  have hscaled : MeasuresAs (m * 2 ^ e) (spacing 24 (m * 2 ^ e)) M := by
    rw [hspacing]
    exact MeasuresAs.scale h hpow
  rw [nearest_eq_of_measuresAs hscaled, hspacing, zpow_add₀ (by norm_num), zpow_natCast]
  push_cast
  ring

theorem roundedMantissa_cases (em : ExtendedMantissa) :
    em.roundedMantissa = em.mantissa ∨ em.roundedMantissa = em.mantissa + 1 := by
  obtain ⟨mantissa, roundBit, stickyBit⟩ := em
  cases roundBit <;> cases stickyBit
  case false.false => exact .inl rfl
  case false.true => exact .inl rfl
  case true.false =>
    show mantissa + mantissa % 2 = mantissa ∨ mantissa + mantissa % 2 = mantissa + 1
    omega
  case true.true => exact .inr rfl

theorem roundWithAccuracy_eq {m k : Nat} {e : Int} (s : Sign) (hm : 0 < m)
    (hk : m.log2 = 23 + k) (he : -149 ≤ e + k) :
    ∃ m' e' h', roundWithAccuracy Format.binary32 s m e .exact = .finite s m' e' h' ∧
      IsNormal m' e' ∧ (m' : ℚ) * 2 ^ e' = nearest 24 (m * 2 ^ e) := by
  have hshift := shifted_shiftRight m k
  have hmeasures := hshift.measuresAs
  generalize hem : (ExtendedMantissa.ofMantissaAndAccuracy m .exact) >>> k = em
    at hshift hmeasures
  have hlow : 2 ^ (23 + k) ≤ m := by
    rw [← hk]
    exact Nat.log2_self_le hm.ne'
  have hhigh : m < 2 ^ (23 + k + 1) := by
    rw [← hk]
    exact Nat.lt_log2_self
  have hq : 2 ^ 23 ≤ m / 2 ^ k ∧ m / 2 ^ k < 2 ^ 24 := by
    constructor
    · rw [Nat.le_div_iff_mul_le (by positivity), ← pow_add]
      exact hlow
    · rw [Nat.div_lt_iff_lt_mul (by positivity), ← pow_add]
      exact hhigh.trans_eq (by ring)
  have hround : em.roundedMantissa = m / 2 ^ k ∨ em.roundedMantissa = m / 2 ^ k + 1 := by
    rw [← hshift.mantissa]
    exact roundedMantissa_cases em
  have hnearest := nearest_of_measuresAs (e := e) hk hm hmeasures
  rw [roundWithAccuracy, shiftToTargetExponent_eq hk he, hem]
  dsimp only
  generalize em.roundedMantissa = M at hround hnearest
  by_cases hfits : M < 2 ^ 24
  · have hlog : M.log2 = 23 + 0 := by
      rw [Nat.log2_eq_iff (by omega)]
      omega
    have hsecond := shiftToTargetExponent_eq (e := e + k) hlog (by omega)
    have hmantissa := (shifted_shiftRight M 0).mantissa
    rw [pow_zero, Nat.div_one] at hmantissa
    have hpos : M ≠ 0 := by omega
    refine ⟨M, e + k, by omega, ?_, ⟨by omega, hfits, he⟩, hnearest.symm⟩
    simp only [hsecond, hmantissa, dif_neg hpos, Nat.cast_zero, add_zero]
  · -- the carry out of the top bit
    have hM : M = 2 ^ 24 := by omega
    have hlog : M.log2 = 23 + 1 := by
      rw [hM, Nat.log2_two_pow]
    have hsecond := shiftToTargetExponent_eq (e := e + k) hlog (by omega)
    have hmantissa := (shifted_shiftRight M 1).mantissa
    rw [hM, pow_one, show 2 ^ 24 / 2 = 2 ^ 23 by norm_num] at hmantissa
    refine ⟨2 ^ 23, e + k + 1, by norm_num, ?_, ⟨le_rfl, by norm_num, by omega⟩, ?_⟩
    · rw [hM] at hsecond ⊢
      simp only [hsecond, hmantissa, Nat.cast_one]
      rfl
    · rw [hnearest, hM, zpow_add_one₀ (by norm_num)]
      push_cast
      ring

/-! Packing loses nothing of a normal number. -/

theorem getLsbD_top (a : BitVec 1) (e : BitVec 8) (m : BitVec 23) :
    ((a ++ e ++ m).extractLsb 31 31)[0] = a[0] := by
  grind

theorem ofBitVec_unpackSign (s : Sign) (e : BitVec 8) (m : BitVec 23) :
    Sign.ofBitVec (unpackSign (packComponents Format.binary32 s e m)) = s := by
  have hsign : unpackSign (packComponents Format.binary32 s e m) = s.toBitVec := by
    ext i hi
    obtain rfl : i = 0 := by omega
    exact getLsbD_top s.toBitVec e m
  rw [hsign]
  cases s <;> rfl

theorem IsNormal.log2 {m : Nat} {e : Int} (h : IsNormal m e) : m.log2 = 23 := by
  have hlow := h.lower
  have hhigh := h.upper
  rw [Nat.log2_eq_iff (by omega)]
  omega

theorem unpack_normal (s : Sign) {b f : Nat} (hb : 1 ≤ b) (hb' : b ≤ 254) (hf : f < 2 ^ 23) :
    ∃ h, unpack Format.binary32
      (packComponents Format.binary32 s (BitVec.ofNat 8 b) (BitVec.ofNat 23 f)) =
        .finite s (2 ^ 23 + f) ((b : Int) - 150) h := by
  have hexponent : (BitVec.ofNat 8 b).toNat = b := by
    rw [BitVec.toNat_ofNat]
    exact Nat.mod_eq_of_lt (by omega)
  have hones : BitVec.ofNat 8 b ≠ -1#8 := by
    intro heq
    have hnat := congrArg BitVec.toNat heq
    rw [hexponent] at hnat
    have hval : (-1#8).toNat = 255 := rfl
    omega
  have hzero : BitVec.ofNat 8 b ≠ 0#8 := by
    intro heq
    have hnat := congrArg BitVec.toNat heq
    rw [hexponent] at hnat
    have hval : (0#8).toNat = 0 := rfl
    omega
  have hmantissa : (1#1 ++ BitVec.ofNat 23 f).toNat = 2 ^ 23 + f := by
    have hfraction : (BitVec.ofNat 23 f).toNat = f := by
      rw [BitVec.toNat_ofNat]
      exact Nat.mod_eq_of_lt hf
    rw [BitVec.toNat_append, hfraction, ← Nat.shiftLeft_add_eq_or_of_lt hf]
    rfl
  refine ⟨by positivity, ?_⟩
  unfold UnpackedFloat.unpack
  simp only [unpackMantissa_packComponents, unpackExponent_packComponents, ofBitVec_unpackSign]
  rw [if_neg hones, if_neg hzero]
  simp only [finite.injEq, true_and]
  refine ⟨hmantissa, ?_⟩
  rw [hexponent]
  rfl

theorem unpack_pack {m : Nat} {e : Int} (s : Sign) (h : 0 < m) (hn : IsNormal m e) (he : e ≤ 104) :
    unpack Format.binary32 (pack Format.binary32 (.finite s m e h)) = .finite s m e h := by
  have hlow := hn.lower
  have hhigh := hn.upper
  have hleast := hn.least
  obtain ⟨b, hb⟩ := Int.eq_ofNat_of_zero_le (show 0 ≤ e + 150 by omega)
  obtain ⟨f, rfl⟩ := Nat.exists_eq_add_of_le hlow
  have hbiased : (e + (Format.binary32.exponentBias : Int) + (23 : Nat)).toNat = b := by
    show (e + 127 + 23).toNat = b
    omega
  have hpack : pack Format.binary32 (.finite s (2 ^ 23 + f) e h) =
      packComponents Format.binary32 s (BitVec.ofNat 8 b) (BitVec.ofNat 23 f) := by
    have hlog := hn.log2
    have hover : ¬ 2 ^ 8 ≤ b + 1 := by omega
    have hbits : (2 ^ 23 + f).log2 + 1 = Format.binary32.mantissaBits := by
      rw [hlog]
      rfl
    have hcleared : BitVec.ofNat 23 (2 ^ 23 + f) = BitVec.ofNat 23 f := by
      apply BitVec.eq_of_toNat_eq
      simp
    unfold UnpackedFloat.pack
    simp only [hbiased]
    rw [if_neg hover, if_pos hbits, hcleared]
  obtain ⟨hpos, hunpack⟩ := unpack_normal s (b := b) (f := f) (by omega) (by omega) (by omega)
  rw [hpack, hunpack]
  simp only [finite.injEq, true_and]
  omega

/-! Values in the range of the normal numbers. -/

/-- Neither below the normal numbers nor, rounded, above them. -/
structure Normal (q : ℚ) : Prop where
  lower : 2 ^ (-126 : Int) ≤ |q|
  upper : |nearest 24 q| < 2 ^ 128

theorem Normal.of_lt {q : ℚ} (hlow : 2 ^ (-126 : Int) ≤ |q|) (hhigh : |q| < 2 ^ 127) :
    Normal q := by
  refine ⟨hlow, ?_⟩
  have herror := abs_nearest_sub_le 24 q
  calc |nearest 24 q| = |(nearest 24 q - q) + q| := by rw [sub_add_cancel]
    _ ≤ |q| / 2 ^ 24 + |q| := (abs_add_le _ _).trans (by linarith)
    _ < 2 ^ 128 := by linarith

theorem Normal.of_pos_lt {q : ℚ} (hlow : 2 ^ (-126 : Int) ≤ q) (hhigh : q < 2 ^ 127) :
    Normal q := by
  have hpos : 0 < q := lt_of_lt_of_le (by positivity) hlow
  apply Normal.of_lt
  · rwa [abs_of_pos hpos]
  · rwa [abs_of_pos hpos]

theorem Normal.of_abs_eq {q r : ℚ} (h : Normal q) (heq : |r| = |q|) : Normal r := by
  rcases abs_eq_abs.mp heq with rfl | rfl
  · exact h
  · exact ⟨by rw [abs_neg]; exact h.lower, by rw [nearest_neg, abs_neg]; exact h.upper⟩

def packedValue (u : UnpackedFloat) : Option ℚ :=
  unpackedValue (UnpackedFloat.unpack Format.binary32 (UnpackedFloat.pack Format.binary32 u))

theorem abs_mul_zpow (m : Nat) (e : Int) : |(m : ℚ) * 2 ^ e| = m * 2 ^ e :=
  abs_of_nonneg (by positivity)

theorem Normal.le_log2 {m : Nat} {e : Int} (h : Normal (m * 2 ^ e)) :
    -126 ≤ m.log2 + e := by
  have hlower := h.lower
  rw [abs_mul_zpow] at hlower
  have hhigh : (m : ℚ) < 2 ^ (m.log2 + 1) := by exact_mod_cast Nat.lt_log2_self
  have hlt : (2 : ℚ) ^ (-126 : Int) < 2 ^ ((m.log2 + 1 : Nat) + e : Int) := by
    rw [zpow_add₀ (by norm_num), zpow_natCast]
    exact hlower.trans_lt (by gcongr)
  have hexp := (zpow_lt_zpow_iff_right₀ (by norm_num)).mp hlt
  push_cast at hexp
  omega

theorem IsNormal.le_of_lt {m : Nat} {e : Int} (h : IsNormal m e)
    (hlt : (m : ℚ) * 2 ^ e < 2 ^ 128) : e ≤ 104 := by
  have hlow : (2 : ℚ) ^ 23 ≤ m := by exact_mod_cast h.lower
  have hpow : (2 : ℚ) ^ ((23 : Nat) + e : Int) < 2 ^ (128 : Int) := by
    rw [zpow_add₀ (by norm_num), zpow_natCast]
    exact lt_of_le_of_lt (by gcongr) hlt
  have hexp := (zpow_lt_zpow_iff_right₀ (by norm_num)).mp hpow
  push_cast at hexp
  omega

theorem apply_nearest {s : Sign} {m m' : Nat} {e e' : Int}
    (h : (m' : ℚ) * 2 ^ e' = nearest 24 (m * 2 ^ e)) :
    ((s.apply m' : Int) : ℚ) * 2 ^ e' = nearest 24 ((s.apply m : Int) * 2 ^ e) := by
  cases s with
  | positive => exact h
  | negative =>
    simp only [Sign.apply]
    push_cast
    rw [neg_mul, neg_mul, nearest_neg, h]

theorem packedValue_roundWithAccuracy {m k : Nat} {e : Int} (s : Sign) (hm : 0 < m)
    (hk : m.log2 = 23 + k) (hn : Normal (m * 2 ^ e)) :
    packedValue (roundWithAccuracy Format.binary32 s m e .exact) =
      some (nearest 24 ((s.apply m : Int) * 2 ^ e)) := by
  have hrange := hn.le_log2
  obtain ⟨m', e', h', hround, hnormal, hvalue⟩ :=
    roundWithAccuracy_eq (e := e) s hm hk (by omega)
  have hmost : (m' : ℚ) * 2 ^ e' < 2 ^ 128 := by
    rw [hvalue]
    exact (le_abs_self _).trans_lt hn.upper
  rw [packedValue, hround, unpack_pack s h' hnormal (hnormal.le_of_lt hmost)]
  exact congrArg some (apply_nearest hvalue)

theorem decreaseExponent_value {m : Nat} {e t : Int} (h : t ≤ e) :
    ((decreaseExponent m e t).1 : ℚ) * 2 ^ t = m * 2 ^ e := by
  obtain ⟨d, rfl⟩ := Int.le.dest h
  have hamount : (t + d - t).toNat = d := by omega
  simp only [decreaseExponent, hamount, Nat.shiftLeft_eq]
  rw [zpow_add₀ (by norm_num), zpow_natCast]
  push_cast
  ring

theorem log2_shiftLeft {m : Nat} (hm : 0 < m) (d : Nat) : (m <<< d).log2 = m.log2 + d := by
  rw [Nat.shiftLeft_eq, Nat.log2_eq_iff (by positivity), add_right_comm, pow_add, pow_add]
  have hlow := Nat.log2_self_le hm.ne'
  have hhigh : m < 2 ^ (m.log2 + 1) := Nat.lt_log2_self
  constructor
  · gcongr
  · gcongr

@[simp] theorem packedValue_zero (s : Sign) : packedValue (.zero s) = some 0 := by
  cases s <;> rfl

theorem packedValue_round {m : Nat} {e : Int} (s : Sign) (hm : 0 < m)
    (hn : Normal (m * 2 ^ e)) :
    packedValue (UnpackedFloat.round Format.binary32 s m e) =
      some (nearest 24 ((s.apply m : Int) * 2 ^ e)) := by
  have hrange := hn.le_log2
  rw [UnpackedFloat.round, targetExponent_eq]
  by_cases hfew : m.log2 < 23
  · -- too few bits: the mantissa is filled up to 24 of them
    obtain ⟨d, hd⟩ := Nat.exists_eq_add_of_lt hfew
    have htarget : max (m.log2 + 1 + e - 24) (-149) = e - (d + 1 : Nat) := by omega
    have hamount : (e - (e - (d + 1 : Nat))).toNat = d + 1 := by omega
    have hlog : (m <<< (d + 1)).log2 = 23 + 0 := by
      rw [log2_shiftLeft hm]
      omega
    have hvalue : ((m <<< (d + 1) : Nat) : ℚ) * 2 ^ (e - (d + 1 : Nat)) = m * 2 ^ e := by
      have hh := decreaseExponent_value (m := m) (show e - (d + 1 : Nat) ≤ e by omega)
      simpa only [decreaseExponent, hamount] using hh
    rw [htarget]
    simp only [decreaseExponent, hamount]
    have hpos : 0 < m <<< (d + 1) := by
      rw [Nat.shiftLeft_eq]
      positivity
    rw [packedValue_roundWithAccuracy s hpos hlog (by rw [hvalue]; exact hn)]
    congr 2
    rcases s with _ | _
    · simp only [Sign.apply, Int.cast_neg, Int.cast_natCast, neg_mul, hvalue]
    · exact hvalue
  · obtain ⟨k, hk⟩ := Nat.exists_eq_add_of_le (not_lt.mp hfew)
    have hamount : (e - max (m.log2 + 1 + e - 24) (-149)).toNat = 0 := by omega
    simp only [decreaseExponent, hamount, Nat.shiftLeft_zero, Nat.cast_zero, sub_zero]
    exact packedValue_roundWithAccuracy s hm hk hn

theorem packedValue_normalize {m : Int} {e : Int} (hn : m = 0 ∨ Normal (m * 2 ^ e)) :
    packedValue (UnpackedFloat.normalize Format.binary32 m e .positive) =
      some (nearest 24 (m * 2 ^ e)) := by
  rcases lt_trichotomy m 0 with hm | rfl | hm
  · obtain ⟨k, rfl⟩ : ∃ k : Nat, m = -k := ⟨(-m).toNat, by omega⟩
    have hk : 0 < k := by omega
    have hnormal : Normal ((k : ℚ) * 2 ^ e) := by
      refine (hn.resolve_left hm.ne).of_abs_eq ?_
      push_cast
      rw [neg_mul, abs_neg]
    have hround := packedValue_round .negative hk hnormal
    rw [UnpackedFloat.normalize, compare_lt_iff_lt.mpr hm]
    simpa only [neg_neg, Int.toNat_natCast, Sign.apply] using hround
  · simp only [Int.cast_zero, zero_mul, nearest_zero]
    exact packedValue_zero .positive
  · obtain ⟨k, rfl⟩ := Int.eq_ofNat_of_zero_le hm.le
    have hnormal : Normal ((k : ℚ) * 2 ^ e) := hn.resolve_left hm.ne'
    have hround := packedValue_round .positive (by omega) hnormal
    rw [UnpackedFloat.normalize, compare_gt_iff_gt.mpr hm]
    simpa only [Int.toNat_natCast, Sign.apply] using hround

/-! The operations. -/

theorem finite_shape {x : Float32.Model} {s : Sign} {m : Nat} {e : Int} {h : 0 < m}
    (hu : x.unpack = .finite s m e h) :
    m < 2 ^ 24 ∧ -149 ≤ e ∧ e ≤ 104 ∧ (2 ^ 23 ≤ m ∨ e = -149) := by
  unfold Float32.Model.unpack UnpackedFloat.unpack at hu
  dsimp only at hu
  have hf : (@unpackMantissa Format.binary32 x.toBits.toBitVec).toNat < 2 ^ 23 := BitVec.isLt _
  have hb : (@unpackExponent Format.binary32 x.toBits.toBitVec).toNat < 2 ^ 8 := BitVec.isLt _
  split_ifs at hu with hones hinf hzero hzero'
  · obtain ⟨-, rfl, rfl⟩ := finite.inj hu
    rw [hzero]
    refine ⟨by omega, ?_, ?_, .inr ?_⟩ <;> decide
  · obtain ⟨-, rfl, rfl⟩ := finite.inj hu
    have hcat : (1#1 ++ @unpackMantissa Format.binary32 x.toBits.toBitVec).toNat =
        2 ^ 23 + (@unpackMantissa Format.binary32 x.toBits.toBitVec).toNat := by
      rw [BitVec.toNat_append, ← Nat.shiftLeft_add_eq_or_of_lt (BitVec.isLt _)]
      rfl
    have hlast : (@unpackExponent Format.binary32 x.toBits.toBitVec).toNat ≠ 255 :=
      fun heq => hones (BitVec.eq_of_toNat_eq heq)
    have hfirst : (@unpackExponent Format.binary32 x.toBits.toBitVec).toNat ≠ 0 :=
      fun heq => hzero (BitVec.eq_of_toNat_eq heq)
    have hbias : (Format.binary32.exponentBias : Int) + (23 : Nat) = 150 := rfl
    rw [hcat, hbias]
    exact ⟨by omega, by omega, by omega, .inl (by omega)⟩

theorem value_cases {a : Float32} {x : ℚ} (h : value a = some x) :
    (∃ s, a.toModel.unpack = .zero s ∧ x = 0) ∨
      ∃ s m e hm, a.toModel.unpack = .finite s m e hm ∧ x = (s.apply m : Int) * 2 ^ e := by
  unfold value at h
  cases hu : a.toModel.unpack with
  | infinity s => simp [hu, unpackedValue] at h
  | notANumber => simp [hu, unpackedValue] at h
  | zero s =>
    rw [hu] at h
    exact .inl ⟨s, rfl, (Option.some.inj h).symm⟩
  | finite s m e hm =>
    rw [hu] at h
    exact .inr ⟨s, m, e, hm, rfl, (Option.some.inj h).symm⟩

theorem abs_apply (s : Sign) (m : Nat) : |(s.apply m : Int)| = m := by
  cases s <;> simp [Sign.apply]

theorem abs_apply_mul (s : Sign) (m : Nat) (e : Int) :
    |((s.apply m : Int) : ℚ) * 2 ^ e| = m * 2 ^ e := by
  have hcast : |((s.apply m : Int) : ℚ)| = m := by
    exact_mod_cast congrArg (Int.cast (R := ℚ)) (abs_apply s m)
  rw [abs_mul, hcast, abs_of_pos (by positivity : (0 : ℚ) < 2 ^ e)]

theorem apply_mul_ne_zero (s : Sign) {m : Nat} (hm : 0 < m) (e : Int) :
    ((s.apply m : Int) : ℚ) * 2 ^ e ≠ 0 := by
  rw [← abs_pos, abs_apply_mul]
  positivity

/-- The value of a number needs no rounding. -/
theorem nearest_value {a : Float32} {x : ℚ} (h : value a = some x) : nearest 24 x = x := by
  rcases value_cases h with ⟨s, -, rfl⟩ | ⟨s, m, e, hm, hu, rfl⟩
  · exact nearest_zero 24
  · have hshape := (finite_shape hu).1
    apply nearest_intCast_mul_zpow (by norm_num)
    rw [abs_apply]
    exact_mod_cast hshape.le

theorem nearest_zpow_mul {a : Float32} {x : ℚ} (h : value a = some x) (n : Int) :
    nearest 24 (2 ^ n * x) = 2 ^ n * x := by
  rcases value_cases h with ⟨s, -, rfl⟩ | ⟨s, m, e, hm, hu, rfl⟩
  · rw [mul_zero, nearest_zero]
  · have hshape := (finite_shape hu).1
    rw [show (2 : ℚ) ^ n * ((s.apply m : Int) * 2 ^ e) = (s.apply m : Int) * 2 ^ (n + e) by
      rw [zpow_add₀ (by norm_num)]; ring]
    apply nearest_intCast_mul_zpow (by norm_num)
    rw [abs_apply]
    exact_mod_cast hshape.le

theorem Normal.of_value {a : Float32} {x : ℚ} (h : value a = some x)
    (hlow : 2 ^ (-126 : Int) ≤ |x|) : Normal x := by
  refine ⟨hlow, ?_⟩
  rw [nearest_value h]
  rcases value_cases h with ⟨s, -, rfl⟩ | ⟨s, m, e, hm, hu, rfl⟩
  · norm_num
  · obtain ⟨hupper, -, hmost, -⟩ := finite_shape hu
    have hcast : (m : ℚ) < 2 ^ 24 := by exact_mod_cast hupper
    rw [abs_apply_mul]
    calc (m : ℚ) * 2 ^ e < 2 ^ 24 * 2 ^ e := mul_lt_mul_of_pos_right hcast (by positivity)
      _ ≤ 2 ^ 24 * 2 ^ (104 : Int) := by gcongr; norm_num
      _ = 2 ^ 128 := by norm_num

theorem isNormal_of_normal {x : Float32.Model} {s : Sign} {m : Nat} {e : Int} {h : 0 < m}
    (hu : x.unpack = .finite s m e h) (hn : Normal ((s.apply m : Int) * 2 ^ e)) :
    IsNormal m e ∧ e ≤ 104 := by
  obtain ⟨hupper, hleast, hmost, hlower⟩ := finite_shape hu
  refine ⟨⟨?_, hupper, hleast⟩, hmost⟩
  rcases hlower with hlower | rfl
  · exact hlower
  · have hvalue := hn.lower
    rw [abs_apply_mul] at hvalue
    have hcast : ((2 ^ 23 : Nat) : ℚ) ≤ m := by
      have hscale : (2 : ℚ) ^ (-126 : Int) = (2 ^ 23 : Nat) * 2 ^ (-149 : Int) := by norm_num
      rw [hscale] at hvalue
      exact le_of_mul_le_mul_right hvalue (by positivity)
    exact_mod_cast hcast

theorem packedValue_finite {m : Nat} {e : Int} (s : Sign) (h : 0 < m) (hn : IsNormal m e)
    (he : e ≤ 104) : packedValue (.finite s m e h) = some (((s.apply m : Int) : ℚ) * 2 ^ e) := by
  rw [packedValue, unpack_pack s h hn he]
  rfl

theorem packedValue_unpack {a : Float32} {x : ℚ} (h : value a = some x)
    (hn : x = 0 ∨ Normal x) : packedValue a.toModel.unpack = some x := by
  rcases value_cases h with ⟨s, hu, rfl⟩ | ⟨s, m, e, hm, hu, rfl⟩
  · rw [hu, packedValue_zero]
  · obtain ⟨hnormal, hmost⟩ :=
      isNormal_of_normal hu (hn.resolve_left (apply_mul_ne_zero s hm e))
    rw [hu, packedValue_finite s hm hnormal hmost]

theorem apply_decreaseExponent (s : Sign) {m : Nat} {e t : Int} (h : t ≤ e) :
    ((s.apply (decreaseExponent m e t).1 : Int) : ℚ) * 2 ^ t = (s.apply m : Int) * 2 ^ e := by
  have hvalue := decreaseExponent_value (m := m) h
  cases s with
  | positive => exact hvalue
  | negative =>
    simp only [Sign.apply]
    push_cast
    rw [neg_mul, neg_mul, hvalue]

theorem packedValue_sum (s s' : Sign) {m m' : Nat} {e e' : Int}
    (hn : ((s.apply m : Int) : ℚ) * 2 ^ e + (s'.apply m' : Int) * 2 ^ e' = 0 ∨
      Normal ((s.apply m : Int) * 2 ^ e + (s'.apply m' : Int) * 2 ^ e')) :
    packedValue (UnpackedFloat.normalize Format.binary32 (s.apply (decreaseExponent m e (min e e')).1 +
        s'.apply (decreaseExponent m' e' (min e e')).1) (min e e') .positive) =
      some (nearest 24 ((s.apply m : Int) * 2 ^ e + (s'.apply m' : Int) * 2 ^ e')) := by
  have hsum : (((s.apply (decreaseExponent m e (min e e')).1 +
      s'.apply (decreaseExponent m' e' (min e e')).1 : Int) : ℚ)) * 2 ^ min e e' =
      (s.apply m : Int) * 2 ^ e + (s'.apply m' : Int) * 2 ^ e' := by
    rw [Int.cast_add, add_mul, apply_decreaseExponent s (min_le_left e e'),
      apply_decreaseExponent s' (min_le_right e e')]
  rw [← hsum] at hn ⊢
  refine packedValue_normalize (hn.imp_left fun hzero => ?_)
  have hpow : (2 : ℚ) ^ min e e' ≠ 0 := by positivity
  exact_mod_cast (mul_eq_zero.mp hzero).resolve_right hpow

theorem apply_neg (s : Sign) (n : Int) : (-s).apply n = -s.apply n := by
  cases s
  · exact (neg_neg n).symm
  · rfl

section

variable {a b : Float32} {x y : ℚ}

theorem value_add (ha : value a = some x) (hb : value b = some y)
    (hn : x + y = 0 ∨ Normal (x + y)) : value (a + b) = some (nearest 24 (x + y)) := by
  show packedValue (UnpackedFloat.add Format.binary32 a.toModel.unpack b.toModel.unpack) = _
  rcases value_cases ha with ⟨s, hu, rfl⟩ | ⟨s, m, e, hm, hu, rfl⟩
  · rcases value_cases hb with ⟨s', hu', rfl⟩ | ⟨s', m', e', hm', hu', rfl⟩
    · rw [hu, hu', add_zero, nearest_zero]
      show packedValue (if s == s' then .zero s else .zero .positive) = some 0
      split_ifs <;> exact packedValue_zero _
    · rw [zero_add] at hn ⊢
      rw [nearest_value hb, ← packedValue_unpack hb hn, hu, hu']
      rfl
  · rcases value_cases hb with ⟨s', hu', rfl⟩ | ⟨s', m', e', hm', hu', rfl⟩
    · rw [add_zero] at hn ⊢
      rw [nearest_value ha, ← packedValue_unpack ha hn, hu, hu']
      rfl
    · rw [hu, hu']
      exact packedValue_sum s s' hn

theorem value_sub (ha : value a = some x) (hb : value b = some y) (hx : x ≠ 0)
    (hn : x - y = 0 ∨ Normal (x - y)) : value (a - b) = some (nearest 24 (x - y)) := by
  show packedValue (UnpackedFloat.sub Format.binary32 a.toModel.unpack b.toModel.unpack) = _
  rcases value_cases ha with ⟨s, hu, hzero⟩ | ⟨s, m, e, hm, hu, rfl⟩
  · exact absurd hzero hx
  · rcases value_cases hb with ⟨s', hu', rfl⟩ | ⟨s', m', e', hm', hu', rfl⟩
    · rw [sub_zero] at hn ⊢
      rw [nearest_value ha, ← packedValue_unpack ha hn, hu, hu']
      rfl
    · have hneg : ((s'.apply m' : Int) : ℚ) = -(((-s').apply m' : Int) : ℚ) := by
        rw [apply_neg]
        push_cast
        ring
      rw [hneg, neg_mul, sub_neg_eq_add] at hn ⊢
      rw [hu, hu', ← packedValue_sum s (-s') hn]
      simp only [UnpackedFloat.sub, apply_neg, ← sub_eq_add_neg]

theorem apply_mul (s s' : Sign) (m m' : Nat) :
    ((s * s').apply (m * m' : Nat) : Int) = s.apply m * s'.apply m' := by
  cases s <;> cases s'
  · show ((m * m' : Nat) : Int) = -m * -m'
    push_cast
    ring
  · show -((m * m' : Nat) : Int) = -m * m'
    push_cast
    ring
  · show -((m * m' : Nat) : Int) = m * -m'
    push_cast
    ring
  · show ((m * m' : Nat) : Int) = m * m'
    push_cast
    ring

theorem value_mul (ha : value a = some x) (hb : value b = some y) (hx : x = 0 ∨ Normal x)
    (hy : y = 0 ∨ Normal y) (hn : x * y = 0 ∨ Normal (x * y)) :
    value (a * b) = some (nearest 24 (x * y)) := by
  show packedValue (UnpackedFloat.mul Format.binary32 a.toModel.unpack b.toModel.unpack) = _
  rcases value_cases ha with ⟨s, hu, rfl⟩ | ⟨s, m, e, hm, hu, rfl⟩
  · rw [zero_mul, nearest_zero]
    rcases value_cases hb with ⟨s', hu', -⟩ | ⟨s', m', e', hm', hu', -⟩
    · rw [hu, hu']
      exact packedValue_zero _
    · rw [hu, hu']
      exact packedValue_zero _
  · rcases value_cases hb with ⟨s', hu', rfl⟩ | ⟨s', m', e', hm', hu', rfl⟩
    · rw [mul_zero, nearest_zero, hu, hu']
      exact packedValue_zero _
    · have hnormal := (isNormal_of_normal hu (hx.resolve_left (apply_mul_ne_zero s hm e))).1
      have hnormal' := (isNormal_of_normal hu' (hy.resolve_left (apply_mul_ne_zero s' hm' e'))).1
      have hprod : ((s.apply m : Int) : ℚ) * 2 ^ e * ((s'.apply m' : Int) * 2 ^ e') =
          ((s * s').apply (m * m' : Nat) : Int) * 2 ^ (e + e') := by
        rw [apply_mul, zpow_add₀ (by norm_num)]
        push_cast
        ring
      have hbits : 23 ≤ (m * m').log2 := by
        rw [Nat.le_log2 (by positivity)]
        calc 2 ^ 23 ≤ m := hnormal.lower
          _ ≤ m * m' := Nat.le_mul_of_pos_right m hm'
      obtain ⟨k, hk⟩ := Nat.exists_eq_add_of_le hbits
      rw [hprod] at hn ⊢
      have habs : Normal (((m * m' : Nat) : ℚ) * 2 ^ (e + e')) := by
        refine (hn.resolve_left (apply_mul_ne_zero (s * s') (by positivity) (e + e'))).of_abs_eq ?_
        rw [abs_mul_zpow, abs_apply_mul]
      rw [hu, hu']
      exact packedValue_roundWithAccuracy (s * s') (by positivity) hk habs

end

end SinglePrecision
