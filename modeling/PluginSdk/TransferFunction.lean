import Mathlib.RingTheory.PowerSeries.Inverse

/-! Linear recurrences with constant coefficients. The solution is the input
times a power series, the quotient of the two polynomials. -/

namespace TransferFunction

open Polynomial PowerSeries

variable {R : Type*} [CommRing R]

noncomputable def transfer (N D : R[X]) : R⟦X⟧ := (N : R⟦X⟧) * invOfUnit (D : R⟦X⟧) 1

/-- What is heard up to a time settles a convolution up to that time. -/
theorem series_mul_congr (p : R⟦X⟧) {q r : R⟦X⟧} {n : Nat}
    (h : ∀ k ≤ n, PowerSeries.coeff k q = PowerSeries.coeff k r) :
    PowerSeries.coeff n (p * q) = PowerSeries.coeff n (p * r) := by
  rw [PowerSeries.coeff_mul, PowerSeries.coeff_mul]
  refine Finset.sum_congr rfl fun ij hij => ?_
  rw [Finset.HasAntidiagonal.mem_antidiagonal] at hij
  rw [h _ (by omega)]

variable {N D : R[X]}

theorem transfer_eq (N D : R[X]) : transfer N D = transfer 1 D * N := by
  rw [transfer, transfer, Polynomial.coe_one, one_mul, mul_comm]

theorem mul_transfer (N : R[X]) (hD : D.coeff 0 = 1) : (D : R⟦X⟧) * transfer N D = N := by
  have hunit : constantCoeff (D : R⟦X⟧) = ((1 : Rˣ) : R) := by
    rw [← coeff_zero_eq_constantCoeff_apply, Polynomial.coeff_coe, hD, Units.val_one]
  rw [transfer, mul_left_comm, mul_invOfUnit _ _ hunit, mul_one]

theorem eq_transfer (hD : D.coeff 0 = 1) {h : R⟦X⟧} (hh : (D : R⟦X⟧) * h = N) : h = transfer N D := by
  have hone := mul_transfer 1 hD
  rw [transfer_eq, ← hh, ← mul_assoc, mul_comm _ (D : R⟦X⟧), hone, Polynomial.coe_one, one_mul]

/-- The recurrence has one solution, up to any time. -/
theorem solves_iff (hD : D.coeff 0 = 1) {y z : R⟦X⟧} {L : Nat} :
    (∀ n < L, PowerSeries.coeff n ((D : R⟦X⟧) * y) = PowerSeries.coeff n z) ↔
      ∀ n < L, PowerSeries.coeff n y = PowerSeries.coeff n (transfer 1 D * z) := by
  have hone := mul_transfer 1 hD
  rw [Polynomial.coe_one] at hone
  have hmul : (D : R⟦X⟧) * (transfer 1 D * z) = z := by rw [← mul_assoc, hone, one_mul]
  have hinv : transfer 1 D * ((D : R⟦X⟧) * y) = y := by
    rw [← mul_assoc, mul_comm _ (D : R⟦X⟧), hone, one_mul]
  constructor
  · intro h n hn
    rw [← hinv]
    exact series_mul_congr _ fun k hk => h k (by omega)
  · intro h n hn
    rw [← hmul]
    exact series_mul_congr _ fun k hk => h k (by omega)

/-- In series the numerators and the denominators multiply. -/
theorem transfer_mul {N' D' : R[X]} (hD : D.coeff 0 = 1) (hD' : D'.coeff 0 = 1) :
    transfer N D * transfer N' D' = transfer (N * N') (D * D') := by
  have hfirst : (D * D').coeff 0 = 1 := by rw [mul_coeff_zero, hD, hD', mul_one]
  apply eq_transfer hfirst
  rw [Polynomial.coe_mul, Polynomial.coe_mul, mul_mul_mul_comm, mul_transfer N hD,
    mul_transfer N' hD']

theorem transfer_map {S : Type*} [CommRing S] (f : R →+* S) (hD : D.coeff 0 = 1) :
    PowerSeries.map f (transfer N D) = transfer (N.map f) (D.map f) := by
  have hone : (D.map f).coeff 0 = 1 := by rw [Polynomial.coeff_map, hD, map_one]
  apply eq_transfer hone
  rw [polynomial_map_coe, polynomial_map_coe, ← map_mul, mul_transfer N hD]

end TransferFunction
