import PluginSdk.Approx
import PluginSdk.SingleConversions

/-! Powers of two in single precision, and how accurate they are. -/

namespace PluginSdk

open BinaryFloat SinglePrecision PolynomialBound

/-- `2^floor(x)` and the fractional part of `x`. -/
def exp2Floor (x : Float32) : Float32 × Float32 :=
  let x := x + ofInt32 127
  let xi := toInt32 x
  -- the exponent field alone, every bit of the mantissa zero
  (.ofBits (xi <<< 23).toUInt32, x - ofInt32 xi)

def exp2Coefficients : List Float32 :=
  [ofDecimal 1 0, ofDecimal 69315169353961 (-14), ofDecimal 2401595990753 (-13),
    ofDecimal 55817908652 (-12), ofDecimal 8991698010 (-12), ofDecimal 1879100722 (-12)]

def exp2Taylor5 (x : Float32) : Float32 :=
  let (yi, xf) := exp2Floor x
  yi * polyHorner exp2Coefficients xf

section

variable {x : Float32} {q : ℚ}

/-- The sum the exponent is read from, rounded to a single. -/
def biased (q : ℚ) : ℚ := nearest 24 (q + 127)

theorem biased_bounds (hlow : -126 ≤ q) (hhigh : q ≤ 128 - 1 / 2 ^ 16) :
    1 ≤ biased q ∧ biased q < 255 ∧ |biased q - (q + 127)| ≤ 1 / 2 ^ 17 := by
  have habs : |q + 127| < 2 ^ (8 : Int) := by
    rw [abs_of_pos (by linarith)]
    norm_num at hhigh ⊢
    linarith
  have herror : |biased q - (q + 127)| ≤ 1 / 2 ^ 17 :=
    (abs_nearest_sub_le_of_lt 24 habs).trans (by norm_num)
  refine ⟨one_le_nearest (by norm_num) (by linarith), ?_, herror⟩
  have hupper := (abs_le.mp herror).2
  norm_num at hhigh hupper ⊢
  linarith

theorem value_add_bias (h : value x = some q) (hlow : -126 ≤ q) (hhigh : q ≤ 128 - 1 / 2 ^ 16) :
    value (x + ofInt32 127) = some (biased q) := by
  have hbias : value (ofInt32 127) = some 127 := value_ofInt32 (n := 127) (by decide)
  refine value_add h hbias (.inr (.of_pos_lt ?_ ?_))
  · exact le_trans (by norm_num) (show (1 : ℚ) ≤ q + 127 by linarith)
  · norm_num at hhigh ⊢
    linarith

theorem exp2Floor_parts (h : value x = some q) (hlow : -126 ≤ q) (hhigh : q ≤ 128 - 1 / 2 ^ 16) :
    value (exp2Floor x).1 = some (2 ^ (⌊biased q⌋ - 127)) ∧
      value (exp2Floor x).2 = some (Int.fract (biased q)) := by
  obtain ⟨hone, hmost, -⟩ := biased_bounds hlow hhigh
  have hsum := value_add_bias h hlow hhigh
  have hinside : biased q < 2 ^ 24 := hmost.trans (by norm_num)
  have hfloor := toInt32_eq_floor hsum hone hinside
  obtain ⟨b, hb⟩ := Int.eq_ofNat_of_zero_le (Int.floor_nonneg.mpr (zero_le_one.trans hone))
  have hfirst : 1 ≤ ⌊biased q⌋ := Int.le_floor.mpr (by exact_mod_cast hone)
  have hlast : ⌊biased q⌋ < 255 := Int.floor_lt.mpr (by exact_mod_cast hmost)
  refine ⟨?_, value_sub_toInt32 hsum hone hinside⟩
  rw [hb] at hfirst hlast hfloor ⊢
  exact value_exponent (by omega) (by omega) hfloor

/-- Whole numbers pass the bias unrounded. -/
theorem biased_intCast {i : Int} (hlow : -126 ≤ i) (hhigh : i ≤ 127) :
    ⌊biased i⌋ - 127 = i ∧ Int.fract (biased i) = 0 := by
  have hwhole : biased i = ((i + 127 : Int) : ℚ) := by
    have hh := nearest_intCast_mul_zpow (p := 24) (by norm_num)
      (show |i + 127| ≤ 2 ^ 24 by rw [abs_of_pos (by omega)]; omega) 0
    rw [zpow_zero, mul_one] at hh
    rw [biased, ← hh]
    push_cast
    rfl
  rw [hwhole, Int.floor_intCast, Int.fract_intCast]
  exact ⟨by omega, rfl⟩

theorem biased_of_eq_intCast (hlow : -126 ≤ q) (hhigh : q ≤ 128 - 1 / 2 ^ 16) {i : Int}
    (h : q = i) : ⌊biased q⌋ - 127 = i ∧ Int.fract (biased q) = 0 := by
  subst h
  have hlt : (i : ℚ) < 128 := by
    norm_num at hhigh
    linarith
  have hmost : i < 128 := by exact_mod_cast hlt
  exact biased_intCast (by exact_mod_cast hlow) (by omega)

theorem floor_add_fract_biased (q : ℚ) :
    ((⌊biased q⌋ - 127 : Int) : ℚ) + Int.fract (biased q) = biased q - 127 := by
  have hsplit := Int.floor_add_fract (biased q)
  push_cast
  linarith

/-- The power and the rest make up `x`, but for the bits the bias pushes out. -/
theorem exp2Floor_splits (h : value x = some q) (hlow : -126 ≤ q) (hhigh : q ≤ 128 - 1 / 2 ^ 16) :
    ∃ n : Int, ∃ f : ℚ, value (exp2Floor x).1 = some (2 ^ n) ∧
      value (exp2Floor x).2 = some f ∧ 0 ≤ f ∧ f < 1 ∧ |n + f - q| ≤ 1 / 2 ^ 17 ∧
      ∀ i : Int, q = i → n = i ∧ f = 0 := by
  obtain ⟨-, -, herror⟩ := biased_bounds hlow hhigh
  obtain ⟨hpower, hfract⟩ := exp2Floor_parts h hlow hhigh
  refine ⟨⌊biased q⌋ - 127, Int.fract (biased q), hpower, hfract, Int.fract_nonneg _,
    Int.fract_lt_one _, ?_, fun i hi => biased_of_eq_intCast hlow hhigh hi⟩
  rw [floor_add_fract_biased, sub_sub, add_comm 127]
  exact herror

theorem exp2Floor_splits_half : value (ofDecimal 5 (-1)) = some (1 / 2) ∧
    ∃ n : Int, ∃ f : ℚ, value (exp2Floor (ofDecimal 5 (-1))).1 = some (2 ^ n) ∧
      value (exp2Floor (ofDecimal 5 (-1))).2 = some f ∧ 0 ≤ f ∧ f < 1 ∧
      |n + f - 1 / 2| ≤ 1 / 2 ^ 17 ∧ ∀ i : Int, (1 / 2 : ℚ) = i → n = i ∧ f = 0 :=
  ⟨by decide +kernel, exp2Floor_splits (by decide +kernel) (by norm_num) (by norm_num)⟩

end

/-! Horner's method in single precision, with positive coefficients, from 0 to 1. -/

theorem polyHorner_cons {T : Type*} [OfNat T 0] [Add T] [Mul T] (c d : T) (a : List T) (x : T) :
    polyHorner (c :: d :: a) x = c + polyHorner (d :: a) x * x := by
  obtain ⟨y, rest, h⟩ := List.exists_cons_of_ne_nil (show (d :: a).reverse ≠ [] by simp)
  have hcons : (c :: d :: a).reverse = y :: (rest ++ [c]) := by
    rw [List.reverse_cons, h, List.cons_append]
  unfold polyHorner
  simp only [h, hcons, List.foldl_append, List.foldl_cons, List.foldl_nil]

theorem nonneg_of_zero_or_le {t : ℚ} (h : t = 0 ∨ 2 ^ (-23 : Int) ≤ t) : 0 ≤ t := by
  rcases h with rfl | h
  · exact le_rfl
  · exact le_trans (by positivity) h

/-- How large the rounded sum gets, and how far off it is. -/
def hornerBound : List ℚ → ℚ × ℚ
  | [] => (0, 0)
  | [c] => (c, 0)
  | c :: a =>
    let largest := c + (hornerBound a).1 * (1 + 1 / 2 ^ 24)
    (largest * (1 + 1 / 2 ^ 24),
      (hornerBound a).2 + (hornerBound a).1 / 2 ^ 24 + largest / 2 ^ 24)

section

variable {x y c : Float32} {t y' c' m : ℚ}

theorem value_hornerStep (hc : value c = some c') (hc' : 1 / 2 ^ 10 ≤ c') (hy : value y = some y')
    (hlow : 1 / 2 ^ 11 ≤ y') (hhigh : y' ≤ m) (hm : c' + m * (1 + 1 / 2 ^ 24) ≤ 2 ^ 10)
    (hx : value x = some t) (ht : t = 0 ∨ 2 ^ (-23 : Int) ≤ t) (ht' : t ≤ 1) :
    ∃ z, value (c + y * x) = some z ∧ 1 / 2 ^ 11 ≤ z ∧
      z ≤ (c' + m * (1 + 1 / 2 ^ 24)) * (1 + 1 / 2 ^ 24) ∧
      |z - (c' + y' * t)| ≤ m / 2 ^ 24 + (c' + m * (1 + 1 / 2 ^ 24)) / 2 ^ 24 ∧
      (t = 0 → z = c') ∧ (1 ≤ c' → 1 ≤ z) := by
  have hy_pos : 0 < y' := lt_of_lt_of_le (by norm_num) hlow
  have ht_nonneg := nonneg_of_zero_or_le ht
  have hprod : y' * t ≤ m := (mul_le_of_le_one_right hy_pos.le ht').trans hhigh
  have hprod_nonneg : 0 ≤ y' * t := by positivity
  have hprod_normal : y' * t = 0 ∨ Normal (y' * t) := by
    rcases ht with rfl | ht
    · exact .inl (mul_zero _)
    · refine .inr (.of_pos_lt ?_ ?_)
      · calc (2 : ℚ) ^ (-126 : Int) ≤ 1 / 2 ^ 11 * 2 ^ (-23 : Int) := by norm_num
          _ ≤ y' * t := by gcongr
      · norm_num at hm ⊢
        linarith
  have hy_normal : Normal y' := by
    apply Normal.of_pos_lt
    · exact le_trans (by norm_num) hlow
    · norm_num at hm ⊢
      linarith
  have hx_normal : t = 0 ∨ Normal t := by
    exact ht.imp_right fun ht => .of_pos_lt (le_trans (by norm_num) ht) (ht'.trans_lt (by norm_num))
  have hmul := value_mul hy hx (.inr hy_normal) hx_normal hprod_normal
  -- the product
  have hproduct := abs_le.mp (abs_nearest_sub_le 24 (y' * t))
  rw [abs_of_nonneg hprod_nonneg] at hproduct
  have hp_nonneg : 0 ≤ nearest 24 (y' * t) := by linarith
  have hp_le : nearest 24 (y' * t) ≤ m * (1 + 1 / 2 ^ 24) := by linarith
  have hsum_pos : 0 < c' + nearest 24 (y' * t) := by linarith
  have hsum_normal : Normal (c' + nearest 24 (y' * t)) := by
    apply Normal.of_pos_lt
    · refine le_trans (show (2 : ℚ) ^ (-126 : Int) ≤ 1 / 2 ^ 10 by norm_num) ?_
      linarith
    · exact lt_of_le_of_lt (show _ ≤ (2 : ℚ) ^ 10 by linarith) (by norm_num)
  have hadd := value_add hc hmul (.inr hsum_normal)
  -- the sum
  have hsum := abs_le.mp (abs_nearest_sub_le 24 (c' + nearest 24 (y' * t)))
  rw [abs_of_pos hsum_pos] at hsum
  refine ⟨_, hadd, by linarith, by linarith, ?_, ?_, ?_⟩
  · rw [abs_le]
    constructor <;> linarith
  · rintro rfl
    rw [mul_zero, nearest_zero, add_zero, nearest_value hc]
  · intro hone
    exact one_le_nearest (by norm_num) (by linarith)

theorem hornerBound_nonneg {a : List Float32} {b : List ℚ}
    (h : List.Forall₂ (fun c c' => value c = some c' ∧ 1 / 2 ^ 10 ≤ c') a b) :
    0 ≤ (hornerBound b).1 := by
  induction h with
  | nil => exact le_rfl
  | @cons c c' a b hc hrest ih =>
    have hpos : 0 ≤ c' := le_trans (by norm_num) hc.2
    cases hrest with
    | nil => exact hpos
    | @cons d d' a b hd hrest =>
      show 0 ≤ (c' + (hornerBound (d' :: b)).1 * (1 + 1 / 2 ^ 24)) * (1 + 1 / 2 ^ 24)
      positivity

theorem value_polyHorner {a : List Float32} {b : List ℚ}
    (h : List.Forall₂ (fun c c' => value c = some c' ∧ 1 / 2 ^ 10 ≤ c') a b) (hne : b ≠ [])
    (hb : (hornerBound b).1 ≤ 2 ^ 10) (hx : value x = some t)
    (ht : t = 0 ∨ 2 ^ (-23 : Int) ≤ t) (ht' : t ≤ 1) :
    ∃ z, value (polyHorner a x) = some z ∧ 1 / 2 ^ 11 ≤ z ∧ z ≤ (hornerBound b).1 ∧
      |z - polyValue t b| ≤ (hornerBound b).2 ∧
      ∀ c', b.head? = some c' → (t = 0 → z = c') ∧ (1 ≤ c' → 1 ≤ z) := by
  induction h with
  | nil => exact absurd rfl hne
  | @cons c c' a b hc hrest ih =>
    cases hrest with
    | nil =>
      refine ⟨c', hc.1, le_trans (by norm_num) hc.2, le_rfl, ?_, ?_⟩
      · simp [polyValue, hornerBound]
      · intro d hd
        obtain rfl := Option.some.inj hd
        exact ⟨fun _ => rfl, id⟩
    | @cons d d' a b hd hrest =>
      have hlargest : (hornerBound (c' :: d' :: b)).1 =
        (c' + (hornerBound (d' :: b)).1 * (1 + 1 / 2 ^ 24)) * (1 + 1 / 2 ^ 24) := rfl
      rw [hlargest] at hb
      have hnonneg := hornerBound_nonneg (.cons hd hrest)
      obtain ⟨y', hy, hlow, hhigh, herror, -⟩ := ih (List.cons_ne_nil _ _) (by linarith [hc.2])
      obtain ⟨z, hz, hzlow, hzhigh, hstep, hhead⟩ :=
        value_hornerStep hc.1 hc.2 hy hlow hhigh (by linarith [hc.2]) hx ht ht'
      rw [polyHorner_cons]
      refine ⟨z, hz, hzlow, hzhigh, ?_, fun d hd => Option.some.inj hd ▸ hhead⟩
      have ht_nonneg := nonneg_of_zero_or_le ht
      have hcarried : |y' * t - polyValue t (d' :: b) * t| ≤ (hornerBound (d' :: b)).2 := by
        rw [← sub_mul, abs_mul, abs_of_nonneg ht_nonneg]
        exact (mul_le_of_le_one_right (abs_nonneg _) ht').trans herror
      calc |z - polyValue t (c' :: d' :: b)|
          ≤ |z - (c' + y' * t)| + |y' * t - polyValue t (d' :: b) * t| := by
            refine le_trans (le_of_eq ?_) (abs_add_le _ _)
            congr 1
            rw [polyValue]
            ring
        _ ≤ (hornerBound (c' :: d' :: b)).2 := by
            show _ ≤ (hornerBound (d' :: b)).2 + (hornerBound (d' :: b)).1 / 2 ^ 24 +
              (c' + (hornerBound (d' :: b)).1 * (1 + 1 / 2 ^ 24)) / 2 ^ 24
            linarith

end

/-! The coefficients of `exp2Taylor5`. -/

/-- What the literals round to. -/
def exp2Values : List ℚ :=
  [1, 11629156 / 2 ^ 24, 16116838 / 2 ^ 26, 14983506 / 2 ^ 28, 9654762 / 2 ^ 30,
    16141352 / 2 ^ 33]

theorem value_exp2Coefficients :
    List.Forall₂ (fun c c' => value c = some c' ∧ 1 / 2 ^ 10 ≤ c') exp2Coefficients exp2Values := by
  refine .cons ?_ (.cons ?_ (.cons ?_ (.cons ?_ (.cons ?_ (.cons ?_ .nil))))) <;> decide +kernel

theorem boundedOn_exp2Values : BoundedOn 32 (225 / 10 ^ 9)
    (polyAdd exp2Values ((powerCoefficients 10).map (-1 * ·))) := by
  decide +kernel

theorem hornerBound_exp2Values : (hornerBound exp2Values).1 ≤ 2 ^ 10 ∧
    (hornerBound exp2Values).2 ≤ 29 / 10 ^ 8 := by
  decide +kernel

/-- On a single from 0 to 1 the polynomial is the power of two to six digits. -/
theorem value_exp2Polynomial {x : Float32} {t : ℚ} (hx : value x = some t)
    (ht : t = 0 ∨ 2 ^ (-23 : Int) ≤ t) (ht' : t < 1) :
    ∃ z, value (polyHorner exp2Coefficients x) = some z ∧ 1 ≤ z ∧
      |(z : ℝ) - (2 : ℝ) ^ (t : ℝ)| ≤ 535 / 10 ^ 9 ∧ (t = 0 → z = 1) := by
  obtain ⟨z, hz, -, -, herror, hhead⟩ := value_polyHorner value_exp2Coefficients
    (List.cons_ne_nil _ _) hornerBound_exp2Values.1 hx ht ht'.le
  obtain ⟨hzero, hone⟩ := hhead 1 rfl
  have ht_nonneg := nonneg_of_zero_or_le ht
  refine ⟨z, hz, hone le_rfl, ?_, hzero⟩
  have hrounding : |(z : ℝ) - (polyValue t exp2Values : ℚ)| ≤ 29 / 10 ^ 8 := by
    have hcast := (Rat.cast_le (K := ℝ)).mpr (herror.trans hornerBound_exp2Values.2)
    push_cast at hcast
    exact hcast
  have hpower := abs_polyValue_sub_two_rpow_le (by norm_num) boundedOn_exp2Values ht_nonneg ht'
  have htriangle := abs_sub_le (z : ℝ) (polyValue t exp2Values : ℚ) ((2 : ℝ) ^ (t : ℝ))
  push_cast at hpower
  linarith

theorem two_rpow_shift_bounds {δ : ℝ} (h : |δ| ≤ 1 / 2 ^ 17) :
    |(2 : ℝ) ^ δ - 1| ≤ 53 / 10 ^ 7 := by
  have hpower := abs_le.mp (abs_two_rpow_sub_one_sub_le (h.trans (by norm_num)))
  have hlog := Real.log_two_lt_d9
  have hlog_pos : 0 < Real.log 2 := Real.log_pos (by norm_num)
  have hlinear : |δ * Real.log 2| ≤ 1 / 2 ^ 17 * 0.6931471808 := by
    rw [abs_mul, abs_of_pos hlog_pos]
    gcongr
  have hsquare : δ ^ 2 ≤ (1 / 2 ^ 17) ^ 2 := by
    rw [← sq_abs]
    gcongr
  have hlinear' := abs_le.mp hlinear
  rw [abs_le]
  norm_num at hlinear' hsquare ⊢
  constructor <;> linarith

theorem two_rpow_below_one : (2 : ℝ) ^ (-(1 / 2 ^ 17) : ℝ) ≤ 1 - 5 / 10 ^ 6 := by
  have hpower := abs_le.mp (abs_two_rpow_sub_one_sub_le
    (show |(-(1 / 2 ^ 17) : ℝ)| ≤ 1 by rw [abs_neg, abs_of_pos (by positivity)]; norm_num))
  have hlog := Real.log_two_gt_d9
  norm_num at hpower hlog ⊢
  linarith [hpower.2]

theorem abs_zpow_mul_sub_le {n : Int} {f z : ℚ} {ε : ℝ} (hf : 0 ≤ f)
    (h : |(z : ℝ) - (2 : ℝ) ^ (f : ℝ)| ≤ ε) :
    |((2 ^ n * z : ℚ) : ℝ) - (2 : ℝ) ^ (((n : ℚ) + f : ℚ) : ℝ)| ≤
      ε * (2 : ℝ) ^ (((n : ℚ) + f : ℚ) : ℝ) := by
  have hone : 1 ≤ (2 : ℝ) ^ (f : ℝ) := Real.one_le_rpow (by norm_num) (by exact_mod_cast hf)
  have hscale : (2 : ℝ) ^ (((n : ℚ) + f : ℚ) : ℝ) = 2 ^ n * (2 : ℝ) ^ (f : ℝ) := by
    push_cast
    rw [Real.rpow_add (by norm_num), Real.rpow_intCast]
  rw [hscale]
  push_cast
  rw [← mul_sub, abs_mul, abs_of_pos (show (0 : ℝ) < 2 ^ n by positivity)]
  have hε : 0 ≤ ε := (abs_nonneg _).trans h
  calc (2 : ℝ) ^ n * |(z : ℝ) - (2 : ℝ) ^ (f : ℝ)| ≤ 2 ^ n * ε := by gcongr
    _ = ε * (2 ^ n * 1) := by ring
    _ ≤ ε * (2 ^ n * (2 : ℝ) ^ (f : ℝ)) := by gcongr

section

variable {x : Float32} {q : ℚ}

theorem zpow_mul_lt (hlow : -126 ≤ q) (hhigh : q ≤ 128 - 1 / 2 ^ 16) {z : ℚ}
    (h : |(z : ℝ) - (2 : ℝ) ^ ((Int.fract (biased q) : ℚ) : ℝ)| ≤ 535 / 10 ^ 9) :
    2 ^ (⌊biased q⌋ - 127) * z < 2 ^ 128 := by
  have herror := abs_zpow_mul_sub_le (n := ⌊biased q⌋ - 127) (Int.fract_nonneg (biased q)) h
  rw [floor_add_fract_biased] at herror
  have hexponent : biased q - 127 ≤ 128 - 1 / 2 ^ 17 := by
    have hbias := (abs_le.mp (biased_bounds hlow hhigh).2.2).2
    norm_num at hbias hhigh ⊢
    linarith
  have hexponent' : ((biased q - 127 : ℚ) : ℝ) ≤ 128 + -(1 / 2 ^ 17) := by
    have hcast := (Rat.cast_le (K := ℝ)).mpr hexponent
    push_cast at hcast ⊢
    linarith
  have hpower : (2 : ℝ) ^ ((biased q - 127 : ℚ) : ℝ) ≤ 2 ^ 128 * (1 - 5 / 10 ^ 6) := by
    calc (2 : ℝ) ^ ((biased q - 127 : ℚ) : ℝ) ≤ 2 ^ (128 + -(1 / 2 ^ 17) : ℝ) :=
          Real.rpow_le_rpow_of_exponent_le (by norm_num) hexponent'
      _ = 2 ^ 128 * 2 ^ (-(1 / 2 ^ 17) : ℝ) := by
          rw [Real.rpow_add (by norm_num)]
          norm_num
      _ ≤ 2 ^ 128 * (1 - 5 / 10 ^ 6) := by
          gcongr
          exact two_rpow_below_one
  have hreal : ((2 ^ (⌊biased q⌋ - 127) * z : ℚ) : ℝ) < ((2 ^ 128 : ℚ) : ℝ) := by
    have hupper := (abs_le.mp herror).2
    push_cast at hupper hpower ⊢
    linarith
  exact_mod_cast hreal

theorem exp2Taylor5_value (h : value x = some q) (hlow : -126 ≤ q) (hhigh : q ≤ 128 - 1 / 2 ^ 16) :
    ∃ z : ℚ, value (exp2Taylor5 x) = some (2 ^ (⌊biased q⌋ - 127) * z) ∧
      |(z : ℝ) - (2 : ℝ) ^ ((Int.fract (biased q) : ℚ) : ℝ)| ≤ 535 / 10 ^ 9 ∧
      (Int.fract (biased q) = 0 → z = 1) := by
  obtain ⟨hone, hmost, -⟩ := biased_bounds hlow hhigh
  obtain ⟨hpower, hfract⟩ := exp2Floor_parts h hlow hhigh
  have hcases := fract_eq_zero_or_le (value_add_bias h hlow hhigh) hone
    (hmost.trans (by norm_num))
  obtain ⟨z, hz, hz_one, herror, hzero⟩ :=
    value_exp2Polynomial hfract hcases (Int.fract_lt_one _)
  refine ⟨z, ?_, herror, hzero⟩
  have hfirst : 1 ≤ ⌊biased q⌋ := Int.le_floor.mpr (by exact_mod_cast hone)
  have hexponent : (2 : ℚ) ^ (-126 : Int) ≤ 2 ^ (⌊biased q⌋ - 127) :=
    zpow_le_zpow_right₀ (by norm_num) (by omega)
  have hpower_pos : (0 : ℚ) < 2 ^ (⌊biased q⌋ - 127) := by positivity
  have hprod_normal : Normal (2 ^ (⌊biased q⌋ - 127) * z) := by
    refine ⟨?_, ?_⟩
    · rw [abs_of_pos (by positivity)]
      exact hexponent.trans (le_mul_of_one_le_right hpower_pos.le hz_one)
    · rw [nearest_zpow_mul hz, abs_of_pos (by positivity)]
      exact zpow_mul_lt hlow hhigh herror
  have hmul := value_mul hpower hz
    (.inr (.of_value hpower (hexponent.trans (le_abs_self _))))
    (.inr (.of_value hz (le_trans (by norm_num) (hz_one.trans (le_abs_self _)))))
    (.inr hprod_normal)
  rw [nearest_zpow_mul hz] at hmul
  exact hmul

/-- The relative error is at most `6e-6`, and the powers of whole numbers are exact. -/
theorem exp2Taylor5_accurate (h : value x = some q) (hlow : -126 ≤ q)
    (hhigh : q ≤ 128 - 1 / 2 ^ 16) :
    ∃ r : ℚ, value (exp2Taylor5 x) = some r ∧
      |(r : ℝ) - (2 : ℝ) ^ (q : ℝ)| ≤ 6 / 10 ^ 6 * (2 : ℝ) ^ (q : ℝ) ∧
      ∀ i : Int, q = i → r = 2 ^ i := by
  obtain ⟨z, hz, herror, hzero⟩ := exp2Taylor5_value h hlow hhigh
  refine ⟨_, hz, ?_, ?_⟩
  · have hscaled := abs_zpow_mul_sub_le (n := ⌊biased q⌋ - 127) (Int.fract_nonneg (biased q)) herror
    rw [floor_add_fract_biased] at hscaled
    have hbias : |((biased q - (q + 127) : ℚ) : ℝ)| ≤ 1 / 2 ^ 17 := by
      have hcast := (Rat.cast_le (K := ℝ)).mpr (biased_bounds hlow hhigh).2.2
      push_cast at hcast ⊢
      exact hcast
    have hshift := two_rpow_shift_bounds hbias
    have hsplit : (2 : ℝ) ^ ((biased q - 127 : ℚ) : ℝ) =
        2 ^ (q : ℝ) * 2 ^ ((biased q - (q + 127) : ℚ) : ℝ) := by
      rw [← Real.rpow_add (by norm_num)]
      congr 1
      push_cast
      ring
    rw [hsplit] at hscaled
    have hpos : (0 : ℝ) < 2 ^ (q : ℝ) := by positivity
    generalize (2 : ℝ) ^ (q : ℝ) = power at *
    generalize (2 : ℝ) ^ ((biased q - (q + 127) : ℚ) : ℝ) = factor at *
    -- the error of the polynomial, then that of the bias
    have hbiased : |power * factor - power| ≤ 53 / 10 ^ 7 * power := by
      rw [show power * factor - power = (factor - 1) * power by ring, abs_mul, abs_of_pos hpos]
      gcongr
    have hfactor : power * factor ≤ 101 / 100 * power := by
      have hupper := (abs_le.mp hshift).2
      rw [mul_comm]
      gcongr
      linarith
    calc _ ≤ _ + |power * factor - power| := abs_sub_le _ (power * factor) _
      _ ≤ 535 / 10 ^ 9 * (101 / 100 * power) + 53 / 10 ^ 7 * power := by
        gcongr
        exact hscaled.trans (by gcongr)
      _ ≤ 6 / 10 ^ 6 * power := by linarith
  · intro i hi
    obtain ⟨hwhole, hfract⟩ := biased_of_eq_intCast hlow hhigh hi
    rw [hwhole, hzero hfract, mul_one]

theorem exp2Taylor5_accurate_half : value (ofDecimal 5 (-1)) = some (1 / 2) ∧
    ∃ r : ℚ, value (exp2Taylor5 (ofDecimal 5 (-1))) = some r ∧
      |(r : ℝ) - (2 : ℝ) ^ ((1 / 2 : ℚ) : ℝ)| ≤ 6 / 10 ^ 6 * (2 : ℝ) ^ ((1 / 2 : ℚ) : ℝ) ∧
      ∀ i : Int, (1 / 2 : ℚ) = i → r = 2 ^ i :=
  ⟨by decide +kernel, exp2Taylor5_accurate (by decide +kernel) (by norm_num) (by norm_num)⟩

end

end PluginSdk
