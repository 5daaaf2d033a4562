import PluginSdk.FrequencyResponse

/-! Biquad filters. Each second-order type is one shape carried over by the
bilinear transform, so all of them are stable, and what they do at the chosen
frequency and at both ends of the range is read off the shape. -/

namespace PluginSdk

open Convolution StableSeries Filter Topology

attribute [local instance] two_atLeastTwo

/-- The types of `TBiquadFilter`. -/
inductive BiquadType
  | LOWPASS_1POLE
  | HIGHPASS_1POLE
  | LOWPASS
  | HIGHPASS
  | LOWSHELF
  | HIGHSHELF
  | BANDPASS
  | PEAK
  | NOTCH
  | NUM_TYPES
  deriving DecidableEq, Repr

namespace IIRFilter

open MathFunctions in
def setParameters {T : Type} [Field T] [LE T] [DecidableLE T] [MathFunctions T]
    (s : IIRFilter 3 3 T) (type : BiquadType) (f Q V : T) : IIRFilter 3 3 T :=
  let K := tan (MathFunctions.pi * f)
  match type with
  | .LOWPASS_1POLE =>
    let a0 := -exp (-2 * MathFunctions.pi * f)
    s.setCoefficients #v[1 + a0, 0, 0] #v[a0, 0]
  | .HIGHPASS_1POLE =>
    let a0 := exp (-2 * MathFunctions.pi * (1 / 2 - f))
    s.setCoefficients #v[1 - a0, 0, 0] #v[a0, 0]
  | .LOWPASS =>
    let norm := 1 / (1 + K / Q + K * K)
    let b0 := K * K * norm
    s.setCoefficients #v[b0, 2 * b0, b0]
      #v[2 * (K * K - 1) * norm, (1 - K / Q + K * K) * norm]
  | .HIGHPASS =>
    let norm := 1 / (1 + K / Q + K * K)
    s.setCoefficients #v[norm, -2 * norm, norm]
      #v[2 * (K * K - 1) * norm, (1 - K / Q + K * K) * norm]
  | .LOWSHELF =>
    let sqrtV := sqrt V
    if 1 ≤ V then
      let norm := 1 / (1 + sqrt2 * K + K * K)
      s.setCoefficients
        #v[(1 + sqrt2 * sqrtV * K + V * K * K) * norm, 2 * (V * K * K - 1) * norm,
          (1 - sqrt2 * sqrtV * K + V * K * K) * norm]
        #v[2 * (K * K - 1) * norm, (1 - sqrt2 * K + K * K) * norm]
    else
      let norm := 1 / (1 + sqrt2 / sqrtV * K + K * K / V)
      s.setCoefficients
        #v[(1 + sqrt2 * K + K * K) * norm, 2 * (K * K - 1) * norm, (1 - sqrt2 * K + K * K) * norm]
        #v[2 * (K * K / V - 1) * norm, (1 - sqrt2 / sqrtV * K + K * K / V) * norm]
  | .HIGHSHELF =>
    let sqrtV := sqrt V
    if 1 ≤ V then
      let norm := 1 / (1 + sqrt2 * K + K * K)
      s.setCoefficients
        #v[(V + sqrt2 * sqrtV * K + K * K) * norm, 2 * (K * K - V) * norm,
          (V - sqrt2 * sqrtV * K + K * K) * norm]
        #v[2 * (K * K - 1) * norm, (1 - sqrt2 * K + K * K) * norm]
    else
      let norm := 1 / (1 / V + sqrt2 / sqrtV * K + K * K)
      s.setCoefficients
        #v[(1 + sqrt2 * K + K * K) * norm, 2 * (K * K - 1) * norm, (1 - sqrt2 * K + K * K) * norm]
        #v[2 * (K * K - 1 / V) * norm, (1 / V - sqrt2 / sqrtV * K + K * K) * norm]
  | .BANDPASS =>
    let norm := 1 / (1 + K / Q + K * K)
    let b0 := K / Q * norm
    s.setCoefficients #v[b0, 0, -b0] #v[2 * (K * K - 1) * norm, (1 - K / Q + K * K) * norm]
  | .PEAK =>
    if 1 ≤ V then
      let norm := 1 / (1 + K / Q + K * K)
      let b1 := 2 * (K * K - 1) * norm
      s.setCoefficients
        #v[(1 + K / Q * V + K * K) * norm, b1, (1 - K / Q * V + K * K) * norm]
        #v[b1, (1 - K / Q + K * K) * norm]
    else
      let norm := 1 / (1 + K / Q / V + K * K)
      let b1 := 2 * (K * K - 1) * norm
      s.setCoefficients #v[(1 + K / Q + K * K) * norm, b1, (1 - K / Q + K * K) * norm]
        #v[b1, (1 - K / Q / V + K * K) * norm]
  | .NOTCH =>
    let norm := 1 / (1 + K / Q + K * K)
    let b0 := (1 + K * K) * norm
    let b1 := 2 * (K * K - 1) * norm
    s.setCoefficients #v[b0, b1, b0] #v[b1, (1 - K / Q + K * K) * norm]
  | .NUM_TYPES => s

end IIRFilter

/-- An analog filter of second order, the frequency taken as one: `b2 s² + b1 s + b0` over
`a2 s² + a1 s + a0`. -/
structure AnalogShape where
  b2 : ℝ
  b1 : ℝ
  b0 : ℝ
  a2 : ℝ
  a1 : ℝ
  a0 : ℝ

namespace BiquadType

/-- What each second-order type is meant to do. -/
noncomputable def shape (type : BiquadType) (Q V : ℝ) : Option AnalogShape :=
  match type with
  | .LOWPASS => some ⟨0, 0, 1, 1, 1 / Q, 1⟩
  | .HIGHPASS => some ⟨1, 0, 0, 1, 1 / Q, 1⟩
  | .LOWSHELF =>
    some (if 1 ≤ V then ⟨1, √2 * √V, V, 1, √2, 1⟩ else ⟨1, √2, 1, 1, √2 / √V, 1 / V⟩)
  | .HIGHSHELF =>
    some (if 1 ≤ V then ⟨V, √2 * √V, 1, 1, √2, 1⟩ else ⟨1, √2, 1, 1 / V, √2 / √V, 1⟩)
  | .BANDPASS => some ⟨0, 1 / Q, 0, 1, 1 / Q, 1⟩
  | .PEAK =>
    some (if 1 ≤ V then ⟨1, 1 / Q * V, 1, 1, 1 / Q, 1⟩ else ⟨1, 1 / Q, 1, 1, 1 / Q / V, 1⟩)
  | .NOTCH => some ⟨1, 0, 1, 1, 1 / Q, 1⟩
  | _ => none

end BiquadType

namespace AnalogShape

structure Positive (g : AnalogShape) : Prop where
  a2 : 0 < g.a2
  a1 : 0 < g.a1
  a0 : 0 < g.a0

/-- The bilinear transform, with the frequency moved to `K`. -/
noncomputable def bilinear (g : AnalogShape) (K : ℝ) (s : IIRFilter 3 3 ℝ) : IIRFilter 3 3 ℝ :=
  let norm := 1 / (g.a2 + g.a1 * K + g.a0 * K ^ 2)
  s.setCoefficients
    #v[(g.b2 + g.b1 * K + g.b0 * K ^ 2) * norm, 2 * (g.b0 * K ^ 2 - g.b2) * norm,
      (g.b2 - g.b1 * K + g.b0 * K ^ 2) * norm]
    #v[2 * (g.a0 * K ^ 2 - g.a2) * norm, (g.a2 - g.a1 * K + g.a0 * K ^ 2) * norm]

end AnalogShape

theorem BiquadType.shape_positive {type : BiquadType} {Q V : ℝ} (hQ : 0 < Q) (hV : 0 < V)
    {g : AnalogShape} (hg : type.shape Q V = some g) : g.Positive := by
  have hroot := Real.sqrt_pos.mpr hV
  cases type <;> simp only [shape, Option.some.injEq, reduceCtorEq] at hg <;> subst hg <;>
    (try split_ifs) <;> constructor <;> positivity

theorem AnalogShape.bilinear_eq {g : AnalogShape} {K p0 p1 p2 q1 q2 : ℝ}
    (hp0 : p0 = (g.b2 + g.b1 * K + g.b0 * K ^ 2) * (1 / (g.a2 + g.a1 * K + g.a0 * K ^ 2)))
    (hp1 : p1 = 2 * (g.b0 * K ^ 2 - g.b2) * (1 / (g.a2 + g.a1 * K + g.a0 * K ^ 2)))
    (hp2 : p2 = (g.b2 - g.b1 * K + g.b0 * K ^ 2) * (1 / (g.a2 + g.a1 * K + g.a0 * K ^ 2)))
    (hq1 : q1 = 2 * (g.a0 * K ^ 2 - g.a2) * (1 / (g.a2 + g.a1 * K + g.a0 * K ^ 2)))
    (hq2 : q2 = (g.a2 - g.a1 * K + g.a0 * K ^ 2) * (1 / (g.a2 + g.a1 * K + g.a0 * K ^ 2)))
    (s : IIRFilter 3 3 ℝ) :
    s.setCoefficients #v[p0, p1, p2] #v[q1, q2] = g.bilinear K s := by
  rw [bilinear, hp0, hp1, hp2, hq1, hq2]

theorem IIRFilter.setParameters_eq {type : BiquadType} {Q V : ℝ} {g : AnalogShape}
    (hg : type.shape Q V = some g) (s : IIRFilter 3 3 ℝ) (f : ℝ) :
    s.setParameters type f Q V = g.bilinear (Real.tan (Real.pi * f)) s := by
  have hsqrt2 : (MathFunctions.sqrt2 : ℝ) = √2 := rfl
  have hsqrt : MathFunctions.sqrt V = √V := rfl
  by_cases hV : 1 ≤ V <;> cases type <;>
    simp only [BiquadType.shape, hV, if_true, if_false, Option.some.injEq, reduceCtorEq] at hg <;>
    subst hg <;> simp only [setParameters, hV, if_true, if_false, hsqrt2, hsqrt] <;>
    refine AnalogShape.bilinear_eq (K := Real.tan (Real.pi * f)) ?_ ?_ ?_ ?_ ?_ s <;>
    simp only [MathFunctions.tan, MathFunctions.pi] <;> ring

namespace AnalogShape

/-- The value of a quadratic form at `1 - z` and `1 + z`, of which the bilinear transform
consists. -/
noncomputable def form (c2 c1 c0 K : ℝ) (z : ℂ) : ℂ :=
  c2 * (1 - z) ^ 2 + c1 * K * ((1 - z) * (1 + z)) + c0 * K ^ 2 * (1 + z) ^ 2

variable {g : AnalogShape} {K : ℝ}

theorem eval_numerator (s : IIRFilter 3 3 ℝ) (z : ℂ) :
    ((g.bilinear K s).numerator.map Complex.ofRealHom).eval z =
      form g.b2 g.b1 g.b0 K z / (g.a2 + g.a1 * K + g.a0 * K ^ 2 : ℝ) := by
  simp [IIRFilter.numerator, bilinear, IIRFilter.setCoefficients, signal, form]
  ring

theorem eval_denominator (hnorm : g.a2 + g.a1 * K + g.a0 * K ^ 2 ≠ 0) (s : IIRFilter 3 3 ℝ)
    (z : ℂ) :
    ((g.bilinear K s).denominator.map Complex.ofRealHom).eval z =
      form g.a2 g.a1 g.a0 K z / (g.a2 + g.a1 * K + g.a0 * K ^ 2 : ℝ) := by
  have hunit := mul_inv_cancel₀ (Complex.ofReal_ne_zero.mpr hnorm)
  push_cast at hunit
  simp [IIRFilter.denominator, bilinear, IIRFilter.setCoefficients, signal, form]
  linear_combination (-1) * hunit

theorem Positive.norm_pos (hg : g.Positive) (hK : 0 < K) :
    0 < g.a2 + g.a1 * K + g.a0 * K ^ 2 := by
  have h2 := hg.a2
  have h1 := hg.a1
  have h0 := hg.a0
  positivity

/-- A quadratic with positive coefficients has no root on the right. -/
theorem quadratic_ne_zero {c2 c1 c0 : ℝ} (h2 : 0 < c2) (h1 : 0 < c1) (h0 : 0 < c0) {w : ℂ}
    (hw : 0 ≤ w.re) : c2 * w ^ 2 + c1 * w + c0 ≠ 0 := by
  intro hzero
  have hre := congrArg Complex.re hzero
  have him := congrArg Complex.im hzero
  simp [pow_two] at hre him
  have hline : w.im * (2 * c2 * w.re + c1) = 0 := by linear_combination him
  rcases mul_eq_zero.mp hline with h | h
  · rw [h] at hre
    have hpos : 0 ≤ c2 * (w.re * w.re) + c1 * w.re := by positivity
    linarith
  · have hpos : 0 ≤ 2 * c2 * w.re := by positivity
    linarith

/-- The unit disc is carried to the right half plane. -/
theorem form_ne_zero {c2 c1 c0 : ℝ} (h2 : 0 < c2) (h1 : 0 < c1) (h0 : 0 < c0) (hK : 0 < K) {z : ℂ}
    (hz : ‖z‖ ≤ 1) : form c2 c1 c0 K z ≠ 0 := by
  by_cases hv : 1 + z = 0
  · have hz' : z = -1 := by linear_combination hv
    have hfour : form c2 c1 c0 K z = ((4 * c2 : ℝ) : ℂ) := by
      rw [form, hz']
      push_cast
      ring
    rw [hfour, Complex.ofReal_ne_zero]
    positivity
  · have hright : 0 ≤ ((1 - z) / (1 + z)).re := by
      have hsq : z.re * z.re + z.im * z.im ≤ 1 := by
        rw [← Complex.normSq_apply, Complex.normSq_eq_norm_sq]
        exact pow_le_one₀ (norm_nonneg z) hz
      have hsame : ((1 - z) / (1 + z)).re =
          (1 - (z.re * z.re + z.im * z.im)) / Complex.normSq (1 + z) := by
        rw [Complex.div_re, ← add_div]
        simp
        ring
      rw [hsame]
      exact div_nonneg (by linarith) (Complex.normSq_nonneg _)
    have hquadratic := quadratic_ne_zero h2 (mul_pos h1 hK) (mul_pos h0 (pow_pos hK 2)) hright
    have hscaled : form c2 c1 c0 K z = (1 + z) ^ 2 * ((c2 : ℂ) * ((1 - z) / (1 + z)) ^ 2 +
        (c1 * K : ℝ) * ((1 - z) / (1 + z)) + (c0 * K ^ 2 : ℝ)) := by
      rw [form]
      push_cast
      field_simp
    rw [hscaled]
    exact mul_ne_zero (pow_ne_zero 2 hv) hquadratic

theorem forgets_bilinear (hg : g.Positive) (hK : 0 < K) (s : IIRFilter 3 3 ℝ) :
    Forgets (g.bilinear K s).denominator := by
  intro z hz
  have hnorm := hg.norm_pos hK
  rw [eval_denominator hnorm.ne']
  exact div_ne_zero (form_ne_zero hg.a2 hg.a1 hg.a0 hK hz) (Complex.ofReal_ne_zero.mpr hnorm.ne')

theorem quotient_bilinear (hg : g.Positive) (hK : 0 < K) (s : IIRFilter 3 3 ℝ) (z : ℂ) :
    quotient (g.bilinear K s).numerator (g.bilinear K s).denominator z =
      form g.b2 g.b1 g.b0 K z / form g.a2 g.a1 g.a0 K z := by
  have hnorm := hg.norm_pos hK
  rw [quotient, eval_numerator, eval_denominator hnorm.ne',
    div_div_div_cancel_right₀ (Complex.ofReal_ne_zero.mpr hnorm.ne')]

/-- What is passed at frequency zero, at the chosen one and at half the sample rate. -/
noncomputable def responses (g : AnalogShape) : ℝ × ℝ × ℝ :=
  (g.b0 / g.a0, √(((g.b0 - g.b2) ^ 2 + g.b1 ^ 2) / ((g.a0 - g.a2) ^ 2 + g.a1 ^ 2)), g.b2 / g.a2)

theorem form_low (c2 c1 c0 K : ℝ) : form c2 c1 c0 K 1 = ((4 * K ^ 2 : ℝ) : ℂ) * c0 := by
  rw [form]
  push_cast
  ring

theorem form_high (c2 c1 c0 K : ℝ) : form c2 c1 c0 K (-1) = 4 * c2 := by
  rw [form]
  ring

theorem half_turn {t : ℝ} (hcos : Real.cos t ≠ 0) :
    1 - Complex.exp (-(2 * t : ℝ) * Complex.I) =
      Complex.I * Real.tan t * (1 + Complex.exp (-(2 * t : ℝ) * Complex.I)) := by
  have hcos' : (Real.cos t : ℂ) ≠ 0 := Complex.ofReal_ne_zero.mpr hcos
  have hhalf : -((2 * t : ℝ) : ℂ) * Complex.I = ((2 : ℕ) : ℂ) * (((-t : ℝ) : ℂ) * Complex.I) := by
    push_cast
    ring
  have hturn : Complex.exp (-(2 * t : ℝ) * Complex.I) =
      (Real.cos t - Real.sin t * Complex.I) ^ 2 := by
    rw [hhalf, Complex.exp_nat_mul, Complex.exp_mul_I, ← Complex.ofReal_cos, ← Complex.ofReal_sin,
      Real.cos_neg, Real.sin_neg, Complex.ofReal_neg, neg_mul, sub_eq_add_neg]
  have hone : ((Real.cos t : ℂ)) ^ 2 + (Real.sin t : ℂ) ^ 2 = 1 := by
    exact_mod_cast Real.cos_sq_add_sin_sq t
  have htan : (Real.tan t : ℂ) * Real.cos t = Real.sin t := by
    exact_mod_cast Real.tan_mul_cos hcos
  have hi := Complex.I_sq
  rw [hturn, ← htan, ← hone, ← htan]
  linear_combination (Real.cos t : ℂ) ^ 2 *
    ((Real.tan t : ℂ) ^ 2 - (Real.tan t : ℂ) ^ 3 * Complex.I) * hi

/-- At the chosen frequency the bilinear transform is at `i`. -/
theorem form_centre (c2 c1 c0 : ℝ) {t : ℝ} (hcos : Real.cos t ≠ 0) :
    form c2 c1 c0 (Real.tan t) (Complex.exp (-(2 * t : ℝ) * Complex.I)) =
      (Real.tan t * (1 + Complex.exp (-(2 * t : ℝ) * Complex.I))) ^ 2 *
        ((c0 - c2 : ℝ) + c1 * Complex.I) := by
  have hi := Complex.I_sq
  rw [form, half_turn hcos]
  generalize Complex.exp (-(2 * t : ℝ) * Complex.I) = z
  rw [Complex.ofReal_sub]
  linear_combination ((Real.tan t : ℂ) * (1 + z)) ^ 2 * c2 * hi

variable {f : ℝ}

theorem norm_low (hg : g.Positive) (hb : 0 ≤ g.b0) (hK : 0 < K) (s : IIRFilter 3 3 ℝ) :
    ‖quotient (g.bilinear K s).numerator (g.bilinear K s).denominator
      (Complex.exp (-(2 * Real.pi * 0 : ℝ) * Complex.I))‖ = g.responses.1 := by
  have hstill : Complex.exp (-(2 * Real.pi * 0 : ℝ) * Complex.I) = 1 := by simp
  have hunit : ((4 * K ^ 2 : ℝ) : ℂ) ≠ 0 := Complex.ofReal_ne_zero.mpr (by positivity)
  rw [hstill, quotient_bilinear hg hK, form_low, form_low, mul_div_mul_left _ _ hunit,
    ← Complex.ofReal_div, Complex.norm_real, Real.norm_of_nonneg (div_nonneg hb hg.a0.le), responses]

theorem norm_high (hg : g.Positive) (hb : 0 ≤ g.b2) (hK : 0 < K) (s : IIRFilter 3 3 ℝ) :
    ‖quotient (g.bilinear K s).numerator (g.bilinear K s).denominator
      (Complex.exp (-(2 * Real.pi * (1 / 2) : ℝ) * Complex.I))‖ = g.responses.2.2 := by
  have hflip : Complex.exp (-(2 * Real.pi * (1 / 2) : ℝ) * Complex.I) = -1 := by
    have hangle : -((2 * Real.pi * (1 / 2) : ℝ) : ℂ) * Complex.I = -(Real.pi * Complex.I) := by
      push_cast
      ring
    rw [hangle, Complex.exp_neg, Complex.exp_pi_mul_I, inv_neg_one]
  have hfour : (4 : ℂ) ≠ 0 := by norm_num
  rw [hflip, quotient_bilinear hg hK, form_high, form_high, mul_div_mul_left _ _ hfour,
    ← Complex.ofReal_div, Complex.norm_real, Real.norm_of_nonneg (div_nonneg hb hg.a2.le), responses]

theorem norm_add_mul_I (x y : ℝ) : ‖(x : ℂ) + y * Complex.I‖ = √(x ^ 2 + y ^ 2) := by
  rw [Complex.norm_eq_sqrt_sq_add_sq]
  simp

theorem norm_centre (hg : g.Positive) (hcos : Real.cos (Real.pi * f) ≠ 0)
    (hK : 0 < Real.tan (Real.pi * f)) (s : IIRFilter 3 3 ℝ) :
    ‖quotient (g.bilinear (Real.tan (Real.pi * f)) s).numerator
      (g.bilinear (Real.tan (Real.pi * f)) s).denominator
        (Complex.exp (-(2 * Real.pi * f : ℝ) * Complex.I))‖ = g.responses.2.1 := by
  have hform := form_ne_zero hg.a2 hg.a1 hg.a0 hK
    (z := Complex.exp (-(2 * (Real.pi * f) : ℝ) * Complex.I)) (by
      rw [← Complex.ofReal_neg, Complex.norm_exp_ofReal_mul_I])
  rw [form_centre _ _ _ hcos] at hform
  rw [mul_assoc 2 Real.pi f, quotient_bilinear hg hK, form_centre _ _ _ hcos, form_centre _ _ _ hcos,
    mul_div_mul_left _ _ (left_ne_zero_of_mul hform), norm_div, norm_add_mul_I, norm_add_mul_I,
    ← Real.sqrt_div (by positivity), responses]

end AnalogShape

namespace BiquadType

/-- What the types pass at frequency zero, at the chosen one and at half the sample rate. -/
noncomputable def responses (type : BiquadType) (Q V : ℝ) : Option (ℝ × ℝ × ℝ) :=
  match type with
  | .LOWPASS => some (1, Q, 0)
  | .HIGHPASS => some (0, Q, 1)
  | .LOWSHELF => some (V, if 1 ≤ V then √((V ^ 2 + 1) / 2) else √(2 / ((1 / V) ^ 2 + 1)), 1)
  | .HIGHSHELF => some (1, if 1 ≤ V then √((V ^ 2 + 1) / 2) else √(2 / ((1 / V) ^ 2 + 1)), V)
  | .BANDPASS => some (0, 1, 0)
  | .PEAK => some (1, V, 1)
  | .NOTCH => some (1, 0, 1)
  | _ => none

theorem eq_sqrt {r x : ℝ} (hr : 0 ≤ r) (h : x = r ^ 2) : r = √x := by rw [h, Real.sqrt_sq hr]

theorem shape_responses (type : BiquadType) {Q V : ℝ} (hQ : 0 < Q) (hV : 0 < V) :
    type.responses Q V = (type.shape Q V).map AnalogShape.responses := by
  have htwo : √2 ^ 2 = (2 : ℝ) := Real.sq_sqrt (by norm_num)
  have hroot : √V ^ 2 = V := Real.sq_sqrt hV.le
  have hsame {low centre high : ℝ} {g : AnalogShape} (hlow : low = g.b0 / g.a0)
      (hcentre : centre = g.responses.2.1) (hhigh : high = g.b2 / g.a2) :
      some (low, centre, high) = (some g).map AnalogShape.responses := by
    rw [hlow, hcentre, hhigh]
    rfl
  cases type with
  | LOWPASS =>
    refine hsame (by simp) (eq_sqrt hQ.le ?_) (by simp)
    field_simp
    ring
  | HIGHPASS =>
    refine hsame (by simp) (eq_sqrt hQ.le ?_) (by simp)
    field_simp
    ring
  | LOWSHELF =>
    by_cases h : 1 ≤ V
    · rw [responses, shape, if_pos h, if_pos h]
      refine hsame (by simp) (congrArg Real.sqrt ?_) (by simp)
      rw [mul_pow, htwo, hroot]
      ring
    · rw [responses, shape, if_neg h, if_neg h]
      refine hsame (by simp) (congrArg Real.sqrt ?_) (by simp)
      rw [div_pow √2, htwo, hroot]
      field_simp
      ring
  | HIGHSHELF =>
    by_cases h : 1 ≤ V
    · rw [responses, shape, if_pos h, if_pos h]
      refine hsame (by simp) (congrArg Real.sqrt ?_) (by simp)
      rw [mul_pow, htwo, hroot]
      ring
    · rw [responses, shape, if_neg h, if_neg h]
      refine hsame (by simp) (congrArg Real.sqrt ?_) (by simp)
      rw [div_pow √2, htwo, hroot]
      field_simp
      ring
  | BANDPASS =>
    refine hsame (by simp) (eq_sqrt zero_le_one ?_) (by simp)
    field_simp
    ring
  | PEAK =>
    rw [responses, shape]
    split_ifs
    · refine hsame (by simp) (eq_sqrt hV.le ?_) (by simp)
      field_simp
      ring
    · refine hsame (by simp) (eq_sqrt hV.le ?_) (by simp)
      field_simp
      ring
  | NOTCH =>
    refine hsame (by simp) (eq_sqrt (le_refl 0) ?_) (by simp)
    simp
  | LOWPASS_1POLE => rfl
  | HIGHPASS_1POLE => rfl
  | NUM_TYPES => rfl

end BiquadType

theorem BiquadType.shape_nonneg {type : BiquadType} {Q V : ℝ} (hV : 0 < V) {g : AnalogShape}
    (hg : type.shape Q V = some g) : 0 ≤ g.b0 ∧ 0 ≤ g.b2 := by
  cases type <;> simp only [shape, Option.some.injEq, reduceCtorEq] at hg <;> subst hg <;>
    (try split_ifs) <;> constructor <;> positivity

theorem tan_pos {f : ℝ} (hf : 0 < f) (hf' : f < 1 / 2) :
    0 < Real.tan (Real.pi * f) ∧ Real.cos (Real.pi * f) ≠ 0 := by
  have hpi := Real.pi_pos
  have hlow : 0 < Real.pi * f := mul_pos hpi hf
  have hhigh : Real.pi * f < Real.pi / 2 := by
    have h := mul_lt_mul_of_pos_left hf' hpi
    linarith
  exact ⟨Real.tan_pos_of_pos_of_lt_pi_div_two hlow hhigh,
    (Real.cos_pos_of_mem_Ioo ⟨by linarith, hhigh⟩).ne'⟩

theorem forgets_onePole {a0 : ℝ} (ha : |a0| < 1) (b : Vector ℝ 3) (s : IIRFilter 3 3 ℝ) :
    Forgets (s.setCoefficients b #v[a0, 0]).denominator := by
  intro z hz hroot
  have hpole : 1 + a0 * z = 0 := by
    rw [← hroot]
    simp [IIRFilter.denominator, IIRFilter.setCoefficients, signal]
  have hnorm : ‖(a0 : ℂ) * z‖ = 1 := by
    have hminus : (a0 : ℂ) * z = -1 := by linear_combination hpole
    rw [hminus, norm_neg, norm_one]
  rw [norm_mul, Complex.norm_real, Real.norm_eq_abs] at hnorm
  have hle : |a0| * ‖z‖ ≤ |a0| * 1 := mul_le_mul_of_nonneg_left hz (abs_nonneg a0)
  linarith

theorem setParameters_forgets {type : BiquadType} {f Q V : ℝ} (htype : type ≠ .NUM_TYPES)
    (hf : 0 < f) (hf' : f < 1 / 2) (hQ : 0 < Q) (hV : 0 < V) (s : IIRFilter 3 3 ℝ) :
    Forgets (s.setParameters type f Q V).denominator := by
  have hpi := Real.pi_pos
  have hexp {x : ℝ} (hx : x < 0) : |Real.exp x| < 1 := by
    rw [Real.abs_exp]
    exact Real.exp_lt_one_iff.mpr hx
  cases hshape : type.shape Q V with
  | some g =>
    rw [s.setParameters_eq hshape f]
    exact AnalogShape.forgets_bilinear (BiquadType.shape_positive hQ hV hshape) (tan_pos hf hf').1 s
  | none =>
    cases type <;> simp only [BiquadType.shape, reduceCtorEq] at hshape
    · have hneg : -2 * Real.pi * f < 0 := by
        have h := mul_pos hpi hf
        linarith
      have hsmall : |-Real.exp (-2 * Real.pi * f)| < 1 := by
        rw [abs_neg]
        exact hexp hneg
      exact forgets_onePole hsmall _ s
    · have hneg : -2 * Real.pi * (1 / 2 - f) < 0 := by
        have h := mul_pos hpi (sub_pos.mpr hf')
        linarith
      exact forgets_onePole (hexp hneg) _ s
    · exact absurd rfl htype

/-- Whatever the type, the parameters and the state left over, a biquad filter answers every
bounded input by a bounded output. -/
theorem biquadFilter_bounded {type : BiquadType} {f Q V : ℝ} (htype : type ≠ .NUM_TYPES)
    (hf : 0 < f) (hf' : f < 1 / 2) (hQ : 0 < Q) (hV : 0 < V) (s : IIRFilter 3 3 ℝ) :
    ∃ K rest : ℝ, ∀ xs M, (∀ x ∈ xs, |x| ≤ M) → ∃ t ys,
      PartialRun.run (IIRFilter.answer IIRFilter.process) (s.setParameters type f Q V, []) xs =
        some (t, ys) ∧ ys.length = xs.length ∧ ∀ y ∈ ys, |y| ≤ K * M + rest :=
  IIRFilter.bounded_run (by decide) (by decide) (setParameters_forgets htype hf hf' hQ hV s)

theorem biquadFilter_bounded_peak :
    ∃ K rest : ℝ, ∀ xs M, (∀ x ∈ xs, |x| ≤ M) → ∃ t ys,
      PartialRun.run (IIRFilter.answer IIRFilter.process)
        ((IIRFilter.new : IIRFilter 3 3 ℝ).setParameters .PEAK (1 / 4) 2 (1 / 2), []) xs =
          some (t, ys) ∧ ys.length = xs.length ∧ ∀ y ∈ ys, |y| ≤ K * M + rest :=
  biquadFilter_bounded (by decide) (by norm_num) (by norm_num) (by norm_num) (by norm_num) _

/-- A sine at frequency zero, at the chosen one or at half the sample rate settles on the sine
that the type is meant to pass, from any state. -/
theorem biquadFilter_settles {type : BiquadType} {f Q V low centre high : ℝ} (hf : 0 < f)
    (hf' : f < 1 / 2) (hQ : 0 < Q) (hV : 0 < V)
    (htype : type.responses Q V = some (low, centre, high)) (s : IIRFilter 3 3 ℝ)
    {g response : ℝ} (hg : (g, response) ∈ [(0, low), (f, centre), (1 / 2, high)])
    (amplitude phase : ℝ) :
    (s.setParameters type f Q V).getFrequencyResponse g = some response ∧
      ∃ turn y, (∀ n, ∃ t, PartialRun.run (IIRFilter.answer IIRFilter.process)
          (s.setParameters type f Q V, [])
          ((List.range n).map (sine amplitude (2 * Real.pi * g) phase)) =
            some (t, (List.range n).map y)) ∧
        Tendsto (fun n => y n - sine (response * amplitude) (2 * Real.pi * g) (phase + turn) n)
          atTop (𝓝 0) := by
  obtain ⟨hK, hcos⟩ := tan_pos hf hf'
  rw [BiquadType.shape_responses type hQ hV, Option.map_eq_some_iff] at htype
  obtain ⟨shape, hshape, hresponses⟩ := htype
  have hpositive := BiquadType.shape_positive hQ hV hshape
  obtain ⟨hb0, hb2⟩ := BiquadType.shape_nonneg hV hshape
  have hnorm : ‖quotient (s.setParameters type f Q V).numerator
      (s.setParameters type f Q V).denominator
        (Complex.exp (-(2 * Real.pi * g : ℝ) * Complex.I))‖ = response := by
    rw [s.setParameters_eq hshape f]
    simp only [List.mem_cons, Prod.mk.injEq, List.not_mem_nil, or_false] at hg
    rcases hg with ⟨rfl, rfl⟩ | ⟨rfl, rfl⟩ | ⟨rfl, rfl⟩
    · rw [AnalogShape.norm_low hpositive hb0 hK, hresponses]
    · rw [AnalogShape.norm_centre hpositive hcos hK, hresponses]
    · rw [AnalogShape.norm_high hpositive hb2 hK, hresponses]
  have hforgets : Forgets (s.setParameters type f Q V).denominator := by
    rw [s.setParameters_eq hshape f]
    exact AnalogShape.forgets_bilinear hpositive hK s
  have hsettle := IIRFilter.answers_settle hforgets amplitude (2 * Real.pi * g) phase
  rw [hnorm] at hsettle
  refine ⟨?_, _, _, IIRFilter.run_answers (by decide) (by decide) _ _, hsettle⟩
  rw [IIRFilter.getFrequencyResponse_eq (by decide) (by decide), hnorm]

theorem biquadFilter_settles_notch :
    ((IIRFilter.new : IIRFilter 3 3 ℝ).setParameters .NOTCH (1 / 4) 2 1).getFrequencyResponse
        (1 / 4) = some 0 := by
  have hmem : ((1 / 4 : ℝ), (0 : ℝ)) ∈ [((0 : ℝ), (1 : ℝ)), (1 / 4, 0), (1 / 2, 1)] := by simp
  exact (biquadFilter_settles (by norm_num) (by norm_num) (by norm_num) (by norm_num) rfl
    IIRFilter.new hmem 1 0).1

end PluginSdk
