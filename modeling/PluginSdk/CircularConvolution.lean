import Mathlib.Algebra.Polynomial.Coeff
import Mathlib.Analysis.Fourier.ZMod

/-! The discrete Fourier transform takes circular convolutions to products. A
circular convolution with room for the whole product is the linear one. -/

namespace CircularConvolution

open Polynomial ZMod

variable {N : Nat}

section

variable [NeZero N]

noncomputable def circular (f g : ZMod N → ℂ) (k : ZMod N) : ℂ := ∑ j, f j * g (k - j)

theorem dft_circular (f g : ZMod N → ℂ) (k : ZMod N) :
    𝓕 (circular f g) k = 𝓕 f k * 𝓕 g k := by
  simp only [dft_apply, smul_eq_mul, circular]
  rw [Finset.sum_mul_sum]
  simp only [Finset.mul_sum]
  rw [Finset.sum_comm]
  refine Finset.sum_congr rfl fun j _ => ?_
  -- the second factor runs over the differences from `j`
  refine Fintype.sum_equiv (Equiv.subRight j) _ _ fun m => ?_
  have hsplit : -(m * k) = -(j * k) + -((m - j) * k) := by ring
  rw [Equiv.subRight_apply, hsplit, AddChar.map_add_eq_mul]
  ring

end

/-- The first `N` coefficients of a polynomial, as a periodic signal. -/
noncomputable def periodic (p : ℝ[X]) (k : ZMod N) : ℂ := (p.coeff k.val : ℝ)

theorem periodic_add (p q : ℝ[X]) :
    (periodic (p + q) : ZMod N → ℂ) = periodic p + periodic q := by
  funext k
  rw [periodic, coeff_add, Complex.ofReal_add]
  rfl

theorem circular_periodic [NeZero N] {p q : ℝ[X]} {a b : Nat} (hp : ∀ i, a ≤ i → p.coeff i = 0)
    (hq : ∀ i, b ≤ i → q.coeff i = 0) (hroom : a + b ≤ N + 1) :
    circular (periodic p) (periodic q) = (periodic (p * q) : ZMod N → ℂ) := by
  funext k
  -- what would wrap around meets zeros of one of the two
  have hterm (j : ZMod N) : (periodic p j * periodic q (k - j) : ℂ) =
      if j.val ≤ k.val then ((p.coeff j.val * q.coeff (k.val - j.val) : ℝ) : ℂ) else 0 := by
    rw [periodic, periodic, ← Complex.ofReal_mul]
    split_ifs with hj
    · rw [ZMod.val_sub hj]
    · have hwrap : N ≤ (k - j).val + j.val := by
        by_contra hlt
        have hadd := ZMod.val_add_of_lt (Nat.lt_of_not_le hlt)
        rw [sub_add_cancel] at hadd
        omega
      have hval := ZMod.val_add_val_of_le hwrap
      rw [sub_add_cancel] at hval
      have hj' := ZMod.val_lt j
      rcases Nat.lt_or_ge j.val a with hlow | hhigh
      · rw [hq _ (by omega), mul_zero, Complex.ofReal_zero]
      · rw [hp _ hhigh, zero_mul, Complex.ofReal_zero]
  rw [circular, Finset.sum_congr rfl fun j _ => hterm j, ← Finset.sum_filter, periodic, coeff_mul,
    Finset.Nat.sum_antidiagonal_eq_sum_range_succ (fun i j => p.coeff i * q.coeff j),
    Complex.ofReal_sum]
  have hk := ZMod.val_lt k
  refine Finset.sum_nbij' ZMod.val Nat.cast ?_ ?_ ?_ ?_ ?_
  · intro j hj
    rw [Finset.mem_filter] at hj
    exact Finset.mem_range.mpr (Nat.lt_succ_of_le hj.2)
  · intro i hi
    rw [Finset.mem_range] at hi
    rw [Finset.mem_filter, ZMod.val_natCast_of_lt (by omega)]
    exact ⟨Finset.mem_univ _, Nat.lt_succ_iff.mp hi⟩
  · exact fun j _ => ZMod.natCast_zmod_val j
  · intro i hi
    rw [Finset.mem_range] at hi
    exact ZMod.val_natCast_of_lt (by omega)
  · exact fun j _ => rfl

/-- The transform of a product that there is room for. -/
theorem dft_periodic_mul [NeZero N] {p q : ℝ[X]} {a b : Nat} (hp : ∀ i, a ≤ i → p.coeff i = 0)
    (hq : ∀ i, b ≤ i → q.coeff i = 0) (hroom : a + b ≤ N + 1) :
    𝓕 (periodic (p * q) : ZMod N → ℂ) = 𝓕 (periodic p) * 𝓕 (periodic q) := by
  rw [← circular_periodic hp hq hroom]
  exact funext (dft_circular _ _)

end CircularConvolution
