import Mathlib
import PluginSdk.TransferFunction

/-! Linear recurrences that forget. If the denominator has no root in the closed
unit disc, the response to a bounded input is bounded, and the response to a
rotation settles on that rotation, amplified by the value of the quotient. -/

namespace StableSeries

open Polynomial TransferFunction Filter Topology

open scoped PowerSeries

def Stable (h : ℂ⟦X⟧) : Prop := Summable fun n => ‖PowerSeries.coeff n h‖

/-- What a rotation is amplified by. -/
noncomputable def gain (h : ℂ⟦X⟧) (w : ℂ) : ℂ := tsum fun n => PowerSeries.coeff n h * w ^ n

/-- What no response exceeds. -/
noncomputable def total (h : ℂ⟦X⟧) : ℝ := tsum fun n => ‖PowerSeries.coeff n h‖

theorem stable_coe (p : ℂ[X]) : Stable p := by
  apply summable_of_ne_finset_zero (s := Finset.range (p.natDegree + 1))
  intro n hn
  rw [Finset.mem_range, not_lt] at hn
  rw [Polynomial.coeff_coe, coeff_eq_zero_of_natDegree_lt hn, norm_zero]

theorem Stable.mul {f g : ℂ⟦X⟧} (hf : Stable f) (hg : Stable g) : Stable (f * g) := by
  have h := summable_norm_sum_mul_antidiagonal_of_summable_norm hf hg
  simpa only [Stable, PowerSeries.coeff_mul] using h

theorem norm_term_le {w : ℂ} (hw : ‖w‖ ≤ 1) (h : ℂ⟦X⟧) (n : Nat) :
    ‖PowerSeries.coeff n h * w ^ n‖ ≤ ‖PowerSeries.coeff n h‖ := by
  rw [norm_mul, norm_pow]
  exact mul_le_of_le_one_right (norm_nonneg _) (pow_le_one₀ (norm_nonneg _) hw)

theorem Stable.summable {h : ℂ⟦X⟧} (hh : Stable h) {w : ℂ} (hw : ‖w‖ ≤ 1) :
    Summable fun n => ‖PowerSeries.coeff n h * w ^ n‖ :=
  hh.of_nonneg_of_le (fun _ => norm_nonneg _) (norm_term_le hw h)

theorem gain_mul {f g : ℂ⟦X⟧} (hf : Stable f) (hg : Stable g) {w : ℂ} (hw : ‖w‖ ≤ 1) :
    gain (f * g) w = gain f w * gain g w := by
  rw [gain, gain, gain, tsum_mul_tsum_eq_tsum_sum_antidiagonal_of_summable_norm (hf.summable hw)
    (hg.summable hw)]
  refine tsum_congr fun n => ?_
  rw [PowerSeries.coeff_mul, Finset.sum_mul]
  refine Finset.sum_congr rfl fun ij hij => ?_
  rw [← Finset.HasAntidiagonal.mem_antidiagonal.mp hij]
  ring

theorem gain_coe (p : ℂ[X]) (w : ℂ) : gain p w = p.eval w := by
  rw [gain, eval_eq_sum_range, tsum_eq_sum]
  · exact Finset.sum_congr rfl fun n _ => by rw [Polynomial.coeff_coe]
  · intro n hn
    rw [Finset.mem_range, not_lt] at hn
    rw [Polynomial.coeff_coe, coeff_eq_zero_of_natDegree_lt hn, zero_mul]

/-- One root outside the disc. -/
theorem stable_geometric {q : ℂ} (hq : ‖q‖ < 1) : Stable (transfer 1 (1 - C q * X)) := by
  have hzero : (1 - C q * X : ℂ[X]).coeff 0 = 1 := by simp
  have hgeometric : ((1 - C q * X : ℂ[X]) : ℂ⟦X⟧) * PowerSeries.mk (fun n => q ^ n) =
      (1 : ℂ[X]) := by
    ext n
    rw [Polynomial.coe_sub, Polynomial.coe_mul, Polynomial.coe_C, Polynomial.coe_X,
      Polynomial.coe_one, sub_mul, one_mul, mul_assoc, map_sub, PowerSeries.coeff_C_mul]
    cases n with
    | zero => simp
    | succ n => simp [PowerSeries.coeff_succ_X_mul, PowerSeries.coeff_one, pow_succ']
  rw [← eq_transfer hzero hgeometric]
  simpa [Stable] using summable_geometric_of_lt_one (norm_nonneg q) hq

theorem eq_geometric_mul {D : ℂ[X]} (hD : D.coeff 0 = 1) {r : ℂ} (hr : D.IsRoot r) :
    ∃ E : ℂ[X], D = (1 - C r⁻¹ * X) * E ∧ E.coeff 0 = 1 ∧ D.natDegree = E.natDegree + 1 := by
  obtain ⟨F, hF⟩ := dvd_iff_isRoot.mpr hr
  have hne : r ≠ 0 := by
    rintro rfl
    rw [IsRoot, ← coeff_zero_eq_eval_zero, hD] at hr
    exact one_ne_zero hr
  have hF0 : F ≠ 0 := by
    rintro rfl
    rw [mul_zero] at hF
    rw [hF, coeff_zero] at hD
    exact zero_ne_one hD
  have hfactor : X - C r = (1 - C r⁻¹ * X) * C (-r) := by
    have hunit : C r⁻¹ * C r = (1 : ℂ[X]) := by rw [← C_mul, inv_mul_cancel₀ hne, C_1]
    rw [C_neg]
    linear_combination (-X) * hunit
  refine ⟨C (-r) * F, by rw [hF, hfactor, mul_assoc], ?_, ?_⟩
  · rw [hF] at hD
    simpa [mul_coeff_zero] using hD
  · rw [hF, natDegree_mul (X_sub_C_ne_zero r) hF0, natDegree_X_sub_C,
      natDegree_C_mul (neg_ne_zero.mpr hne), Nat.add_comm]

variable {N D : ℂ[X]}

theorem stable_transfer (N : ℂ[X]) (hD : D.coeff 0 = 1) (hroots : ∀ z, ‖z‖ ≤ 1 → D.eval z ≠ 0) :
    Stable (transfer N D) := by
  rw [transfer_eq, mul_comm]
  refine (stable_coe N).mul ?_
  induction hdegree : D.natDegree generalizing D with
  | zero =>
    rw [eq_C_of_natDegree_eq_zero hdegree, hD, C_1]
    have hone : ((1 : ℂ[X]) : ℂ⟦X⟧) * (1 : ℂ[X]) = (1 : ℂ[X]) := by rw [Polynomial.coe_one, mul_one]
    rw [← eq_transfer coeff_one_zero hone]
    exact stable_coe 1
  | succ n ih =>
    have hdeg : 0 < D.degree := natDegree_pos_iff_degree_pos.mp (by omega)
    obtain ⟨r, hr⟩ := Complex.exists_root hdeg
    have hout : 1 < ‖r‖ := lt_of_not_ge fun h => hroots r h hr
    obtain ⟨E, hE, hE0, hEdegree⟩ := eq_geometric_mul hD hr
    have hEroots : ∀ z, ‖z‖ ≤ 1 → E.eval z ≠ 0 := by
      intro z hz hzero
      refine hroots z hz ?_
      rw [hE, eval_mul, hzero, mul_zero]
    have hfirst : (1 - C r⁻¹ * X : ℂ[X]).coeff 0 = 1 := by simp
    have hsplit : transfer 1 _ * transfer 1 E = transfer (1 * 1) _ := transfer_mul hfirst hE0
    rw [mul_one, ← hE] at hsplit
    rw [← hsplit]
    refine (stable_geometric ?_).mul (ih hE0 hEroots (by omega))
    rw [norm_inv]
    exact inv_lt_one_of_one_lt₀ hout

theorem gain_transfer (hD : D.coeff 0 = 1) (hroots : ∀ z, ‖z‖ ≤ 1 → D.eval z ≠ 0) {w : ℂ}
    (hw : ‖w‖ ≤ 1) : gain (transfer N D) w = N.eval w / D.eval w := by
  rw [eq_div_iff (hroots w hw), mul_comm, ← gain_coe D, ← gain_coe N,
    ← gain_mul (stable_coe D) (stable_transfer N hD hroots) hw, mul_transfer N hD]

theorem coeff_tendsto_zero {h : ℂ⟦X⟧} (hh : Stable h) :
    Tendsto (fun n => PowerSeries.coeff n h) atTop (𝓝 0) :=
  tendsto_zero_iff_norm_tendsto_zero.mpr hh.tendsto_atTop_zero

theorem response_bounded {h : ℂ⟦X⟧} (hh : Stable h) {x : ℂ⟦X⟧} {M : ℝ} {n : Nat}
    (hx : ∀ k ≤ n, ‖PowerSeries.coeff k x‖ ≤ M) :
    ‖PowerSeries.coeff n (h * x)‖ ≤ total h * M := by
  have hM : 0 ≤ M := (norm_nonneg _).trans (hx 0 (Nat.zero_le n))
  have hterm : ∀ i ∈ Finset.range (n + 1),
      ‖PowerSeries.coeff i h * PowerSeries.coeff (n - i) x‖ ≤ ‖PowerSeries.coeff i h‖ * M := by
    intro i _
    rw [norm_mul]
    exact mul_le_mul_of_nonneg_left (hx _ (Nat.sub_le n i)) (norm_nonneg _)
  calc ‖PowerSeries.coeff n (h * x)‖
      = ‖∑ i ∈ Finset.range (n + 1), PowerSeries.coeff i h * PowerSeries.coeff (n - i) x‖ := by
        rw [PowerSeries.coeff_mul, Finset.Nat.sum_antidiagonal_eq_sum_range_succ
          (fun i j => PowerSeries.coeff i h * PowerSeries.coeff j x)]
    _ ≤ ∑ i ∈ Finset.range (n + 1), ‖PowerSeries.coeff i h‖ * M := norm_sum_le_of_le _ hterm
    _ = (∑ i ∈ Finset.range (n + 1), ‖PowerSeries.coeff i h‖) * M := (Finset.sum_mul _ _ _).symm
    _ ≤ total h * M :=
        mul_le_mul_of_nonneg_right (hh.sum_le_tsum _ fun _ _ => norm_nonneg _) hM

/-- A rotation comes out as the same rotation, in the long run. -/
theorem response_settles {h : ℂ⟦X⟧} (hh : Stable h) {w : ℂ} (hw : ‖w‖ = 1) :
    Tendsto (fun n => PowerSeries.coeff n (h * PowerSeries.mk fun n => w ^ n) -
      gain h w⁻¹ * w ^ n) atTop (𝓝 0) := by
  have hw0 : w ≠ 0 := by
    rintro rfl
    rw [norm_zero] at hw
    exact zero_ne_one hw
  have hinv : ‖w⁻¹‖ ≤ 1 := by rw [norm_inv, hw, inv_one]
  have hsum := ((hh.summable hinv).of_norm.hasSum.tendsto_sum_nat.comp (tendsto_add_atTop_nat 1))
  have hdiff := (hsum.sub_const (gain h w⁻¹))
  rw [gain, sub_self] at hdiff
  rw [tendsto_zero_iff_norm_tendsto_zero] at hdiff ⊢
  refine hdiff.congr fun n => ?_
  have hturned : PowerSeries.coeff n (h * PowerSeries.mk fun n => w ^ n) =
      (∑ i ∈ Finset.range (n + 1), PowerSeries.coeff i h * w⁻¹ ^ i) * w ^ n := by
    rw [PowerSeries.coeff_mul, Finset.Nat.sum_antidiagonal_eq_sum_range_succ
      (fun i j => PowerSeries.coeff i h * PowerSeries.coeff j (PowerSeries.mk fun n => w ^ n)),
      Finset.sum_mul]
    refine Finset.sum_congr rfl fun i hi => ?_
    have hle : i ≤ n := Nat.lt_succ_iff.mp (Finset.mem_range.mp hi)
    rw [PowerSeries.coeff_mk, mul_assoc, inv_pow, pow_sub₀ w hw0 hle, mul_comm (w ^ n)]
  rw [hturned, ← sub_mul, norm_mul, norm_pow, hw, one_pow, mul_one]
  rfl

/-! Real recurrences. A sine is the real part of a rotation. -/

variable {N D : ℝ[X]}

/-- The quotient of the two polynomials. -/
noncomputable def quotient (N D : ℝ[X]) (w : ℂ) : ℂ :=
  (N.map Complex.ofRealHom).eval w / (D.map Complex.ofRealHom).eval w

/-- No root of the denominator is in the closed unit disc. -/
def Forgets (D : ℝ[X]) : Prop :=
  ∀ z : ℂ, ‖z‖ ≤ 1 → (D.map Complex.ofRealHom).eval z ≠ 0

theorem stable_map (N : ℝ[X]) (hD : D.coeff 0 = 1) (hforgets : Forgets D) :
    Stable (PowerSeries.map Complex.ofRealHom (transfer N D)) := by
  rw [transfer_map _ hD]
  refine stable_transfer _ ?_ hforgets
  rw [Polynomial.coeff_map, hD, map_one]

theorem real_tendsto_zero (N : ℝ[X]) (hD : D.coeff 0 = 1) (hforgets : Forgets D) :
    Tendsto (fun n => PowerSeries.coeff n (transfer N D)) atTop (𝓝 0) := by
  have h := (coeff_tendsto_zero (stable_map N hD hforgets)).norm
  rw [norm_zero] at h
  refine tendsto_zero_iff_norm_tendsto_zero.mpr (h.congr fun n => ?_)
  rw [PowerSeries.coeff_map]
  exact Complex.norm_real _

theorem real_bounded (hD : D.coeff 0 = 1) (hforgets : Forgets D) (N : ℝ[X]) :
    ∃ K, ∀ x M n, (∀ k ≤ n, |PowerSeries.coeff k x| ≤ M) →
      |PowerSeries.coeff n (transfer N D * x)| ≤ K * M := by
  refine ⟨total (PowerSeries.map Complex.ofRealHom (transfer N D)), fun x M n hx => ?_⟩
  have hnorm (z : ℝ⟦X⟧) (k : Nat) :
      ‖PowerSeries.coeff k (PowerSeries.map Complex.ofRealHom z)‖ = |PowerSeries.coeff k z| := by
    rw [PowerSeries.coeff_map]
    exact Complex.norm_real _
  rw [← hnorm, map_mul]
  refine response_bounded (stable_map N hD hforgets) fun k hk => ?_
  rw [hnorm]
  exact hx k hk

noncomputable def sine (amplitude speed phase : ℝ) (n : Nat) : ℝ :=
  amplitude * Real.cos (speed * n + phase)

theorem sine_eq (amplitude speed phase : ℝ) (n : Nat) :
    sine amplitude speed phase n =
      (amplitude * Complex.exp (phase * Complex.I) * Complex.exp (speed * Complex.I) ^ n).re := by
  have hturn : Complex.exp (phase * Complex.I) * Complex.exp (speed * Complex.I) ^ n =
      Complex.exp ((speed * n + phase : ℝ) * Complex.I) := by
    rw [← Complex.exp_nat_mul, ← Complex.exp_add]
    push_cast
    ring_nf
  rw [mul_assoc, hturn, Complex.re_ofReal_mul, Complex.exp_ofReal_mul_I_re, sine]

/-- A sine comes out as a sine of the same speed, in the long run. -/
theorem sine_settles (N : ℝ[X]) (hD : D.coeff 0 = 1) (hforgets : Forgets D)
    (amplitude speed phase : ℝ) :
    Tendsto (fun n =>
      PowerSeries.coeff n (transfer N D * PowerSeries.mk (sine amplitude speed phase)) -
        sine (‖quotient N D (Complex.exp (-speed * Complex.I))‖ * amplitude) speed
          (phase + (quotient N D (Complex.exp (-speed * Complex.I))).arg) n) atTop (𝓝 0) := by
  have hwinv : (Complex.exp (speed * Complex.I))⁻¹ = Complex.exp (-speed * Complex.I) := by
    rw [← Complex.exp_neg, neg_mul]
  have hw : ‖Complex.exp (speed * Complex.I)‖ = 1 := Complex.norm_exp_ofReal_mul_I speed
  have hone : (D.map Complex.ofRealHom).coeff 0 = 1 := by rw [Polynomial.coeff_map, hD, map_one]
  have hsettles := response_settles (stable_map N hD hforgets) hw
  rw [hwinv, transfer_map _ hD, gain_transfer hone hforgets
    (by rw [← hwinv, norm_inv, hw, inv_one])] at hsettles
  change Tendsto (fun n => _ - quotient N D _ * _) atTop (𝓝 0) at hsettles
  generalize quotient N D (Complex.exp (-speed * Complex.I)) = H at hsettles ⊢
  have hreal := (Complex.continuous_re.tendsto _).comp
    (hsettles.const_mul (amplitude * Complex.exp (phase * Complex.I) : ℂ))
  rw [mul_zero, Complex.zero_re] at hreal
  refine hreal.congr fun n => ?_
  rw [Function.comp_apply, mul_sub, Complex.sub_re]
  refine congrArg₂ (· - ·) ?_ ?_
  · rw [PowerSeries.coeff_mul, PowerSeries.coeff_mul, Finset.mul_sum, Complex.re_sum]
    refine Finset.sum_congr rfl fun ij _ => ?_
    rw [← transfer_map _ hD, PowerSeries.coeff_map, PowerSeries.coeff_mk, PowerSeries.coeff_mk,
      sine_eq, mul_left_comm]
    exact Complex.re_ofReal_mul _ _
  · have hpolar : ((‖H‖ * amplitude : ℝ) : ℂ) * Complex.exp ((phase + H.arg : ℝ) * Complex.I) =
        amplitude * Complex.exp (phase * Complex.I) * H := by
      nth_rewrite 3 [← Complex.norm_mul_exp_arg_mul_I H]
      push_cast
      rw [add_mul, Complex.exp_add]
      ring
    rw [sine_eq, hpolar, mul_assoc _ H]

end StableSeries
