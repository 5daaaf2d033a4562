import Mathlib.Analysis.Complex.ExponentialBounds
import Mathlib.Analysis.SpecialFunctions.Pow.Real
import Mathlib.Tactic.Ring

/-! Polynomials as lists of coefficients, and how far they are from a power of two. -/

namespace PolynomialBound

section

variable {T : Type*} [CommSemiring T]

/-- The value of a polynomial, lowest coefficient first. -/
def polyValue (x : T) : List T → T
  | [] => 0
  | c :: a => c + polyValue x a * x

def polyAdd : List T → List T → List T
  | [], b => b
  | a, [] => a
  | c :: a, d :: b => (c + d) :: polyAdd a b

/-- The polynomial in the distance from `l`. -/
def polyShift (l : T) : List T → List T
  | [] => []
  | c :: a => polyAdd (c :: polyShift l a) ((polyShift l a).map (l * ·))

theorem polyValue_eq_sum (x : T) (a : List T) :
    polyValue x a = ∑ n : Fin a.length, a.get n * x ^ n.val := by
  induction a with
  | nil => rfl
  | cons c a ih =>
    rw [polyValue, ih, Finset.sum_mul]
    simp only [List.length_cons, Fin.sum_univ_succ, List.get_cons_zero, Fin.val_zero, Fin.val_succ,
      pow_zero, mul_one]
    congr 1
    apply Finset.sum_congr rfl
    intro n _
    show a.get n * x ^ n.val * x = a.get n * x ^ (n.val + 1)
    rw [pow_succ, mul_assoc]

theorem polyValue_add (x : T) (a b : List T) :
    polyValue x (polyAdd a b) = polyValue x a + polyValue x b := by
  induction a, b using polyAdd.induct with
  | case1 b => simp [polyAdd, polyValue]
  | case2 a h => cases a <;> simp [polyAdd, polyValue]
  | case3 c a d b ih =>
    simp only [polyAdd, polyValue, ih]
    ring

theorem polyValue_map_mul (x l : T) (a : List T) :
    polyValue x (a.map (l * ·)) = l * polyValue x a := by
  induction a with
  | nil => simp [polyValue]
  | cons c a ih =>
    simp only [List.map_cons, polyValue, ih]
    ring

theorem polyValue_shift (l u : T) (a : List T) :
    polyValue u (polyShift l a) = polyValue (l + u) a := by
  induction a with
  | nil => rfl
  | cons c a ih =>
    rw [polyShift, polyValue_add, polyValue_map_mul, polyValue, polyValue, ih]
    ring

end

section

variable {K : Type*} [Field K] [LinearOrder K] [IsStrictOrderedRing K]

theorem abs_polyValue_le {u r : K} (h : |u| ≤ r) (a : List K) :
    |polyValue u a| ≤ polyValue r (a.map (|·|)) := by
  induction a with
  | nil => simp [polyValue]
  | cons c a ih =>
    have hr : 0 ≤ r := (abs_nonneg u).trans h
    calc |polyValue u (c :: a)| ≤ |c| + |polyValue u a| * |u| := by
          rw [polyValue, ← abs_mul]
          exact abs_add_le _ _
      _ ≤ |c| + polyValue r (a.map (|·|)) * r := by
          have hnonneg := (abs_nonneg _).trans ih
          gcongr

/-- `n` pieces of `[0, 1]`, each looked at from its middle. -/
def BoundedOn (n : Nat) (ε : K) (a : List K) : Prop :=
  ∀ j : Nat, j < n → polyValue (1 / ((2 * n : Nat) : K))
    ((polyShift (((2 * j + 1 : Nat) : K) / ((2 * n : Nat) : K)) a).map (|·|)) ≤ ε

instance (n : Nat) (ε : K) (a : List K) : Decidable (BoundedOn n ε a) :=
  inferInstanceAs (Decidable (∀ j : Nat, j < n → _))

theorem exists_piece [FloorSemiring K] {n : Nat} (hn : 0 < n) {t : K} (hlow : 0 ≤ t)
    (hhigh : t < 1) : ∃ j < n,
      |t - ((2 * j + 1 : Nat) : K) / ((2 * n : Nat) : K)| ≤ 1 / ((2 * n : Nat) : K) := by
  have hpos : (0 : K) < n := by exact_mod_cast hn
  have hfloor := Nat.floor_le (show 0 ≤ t * n by positivity)
  have hfloor' := Nat.lt_floor_add_one (t * n)
  refine ⟨⌊t * n⌋₊, ?_, ?_⟩
  · rw [Nat.floor_lt (by positivity)]
    exact mul_lt_of_lt_one_left hpos hhigh
  · push_cast
    have hsplit : t - (2 * (⌊t * n⌋₊ : K) + 1) / (2 * n) =
        (2 * (t * n - ⌊t * n⌋₊) - 1) / (2 * n) := by
      field_simp
      ring
    rw [hsplit, abs_div, abs_of_pos (show (0 : K) < 2 * n by positivity)]
    gcongr
    rw [abs_le]
    constructor <;> linarith

theorem BoundedOn.abs_polyValue_le [FloorSemiring K] {n : Nat} {ε : K} {a : List K}
    (h : BoundedOn n ε a) (hn : 0 < n) {t : K} (hlow : 0 ≤ t) (hhigh : t < 1) :
    |polyValue t a| ≤ ε := by
  obtain ⟨j, hj, hdist⟩ := exists_piece hn hlow hhigh
  have hpiece := PolynomialBound.abs_polyValue_le hdist
    (polyShift (((2 * j + 1 : Nat) : K) / ((2 * n : Nat) : K)) a)
  rw [polyValue_shift, add_sub_cancel] at hpiece
  exact hpiece.trans (h j hj)

end

/-! Powers of two with an exponent from 0 to 1. -/

/-- Ten decimals of the logarithm of two. -/
def logTwo : ℚ := 6931471806 / 10 ^ 10

def powerCoefficients (n : Nat) : List ℚ :=
  (List.range n).map fun m => logTwo ^ m / m.factorial

theorem abs_log_two_sub_le : |Real.log 2 - (logTwo : ℚ)| ≤ 1 / 10 ^ 9 := by
  have hlow := Real.log_two_gt_d9
  have hhigh := Real.log_two_lt_d9
  rw [logTwo, abs_le]
  push_cast
  constructor <;> linarith

theorem abs_exp_sub_powerCoefficients_le {t : ℚ} (hlow : 0 ≤ t) (hhigh : t ≤ 1) :
    |Real.exp ((t * logTwo : ℚ) : ℝ) - (polyValue t (powerCoefficients 10) : ℚ)| ≤ 1 / 10 ^ 8 := by
  have harg : |((t * logTwo : ℚ) : ℝ)| ≤ 6931471806 / 10 ^ 10 := by
    rw [← Rat.cast_abs, abs_of_nonneg (by rw [logTwo]; positivity), logTwo]
    push_cast
    have hcast : (t : ℝ) ≤ 1 := by exact_mod_cast hhigh
    linarith
  have hbound := Real.exp_bound (harg.trans (by norm_num)) (show 0 < 10 by norm_num)
  have hsum : ((polyValue t (powerCoefficients 10) : ℚ) : ℝ) =
      ∑ m ∈ Finset.range 10, ((t * logTwo : ℚ) : ℝ) ^ m / (m.factorial : ℝ) := by
    simp only [powerCoefficients, List.range, List.range.loop, List.map, polyValue,
      Finset.sum_range_succ, Finset.sum_range_zero]
    push_cast
    ring
  rw [hsum]
  refine hbound.trans ?_
  calc _ ≤ (6931471806 / 10 ^ 10 : ℝ) ^ 10 *
        ((Nat.succ 10 : Nat) / ((Nat.factorial 10 : Nat) * (10 : Nat))) := by
        gcongr
    _ ≤ 1 / 10 ^ 8 := by norm_num [Nat.factorial]

theorem abs_two_rpow_sub_le {t : ℚ} (hlow : 0 ≤ t) (hhigh : t ≤ 1) :
    |(2 : ℝ) ^ (t : ℝ) - (polyValue t (powerCoefficients 10) : ℚ)| ≤ 2 / 10 ^ 8 := by
  have hcast : (t : ℝ) ≤ 1 := by exact_mod_cast hhigh
  have hcast' : (0 : ℝ) ≤ t := by exact_mod_cast hlow
  have hsmall : |(t : ℝ) * (Real.log 2 - (logTwo : ℚ))| ≤ 1 / 10 ^ 9 := by
    rw [abs_mul, abs_of_nonneg hcast']
    calc (t : ℝ) * |Real.log 2 - (logTwo : ℚ)| ≤ 1 * (1 / 10 ^ 9) := by
          gcongr
          exact abs_log_two_sub_le
      _ = 1 / 10 ^ 9 := one_mul _
  have hexp := Real.abs_exp_sub_one_le (hsmall.trans (by norm_num))
  have hthree : Real.exp ((t * logTwo : ℚ) : ℝ) ≤ 3 := by
    have hone : ((t * logTwo : ℚ) : ℝ) ≤ 1 := by
      rw [logTwo]
      push_cast
      linarith
    exact (Real.exp_le_exp.mpr hone).trans (Real.exp_one_lt_d9.le.trans (by norm_num))
  have hsplit : (2 : ℝ) ^ (t : ℝ) - Real.exp ((t * logTwo : ℚ) : ℝ) =
      Real.exp ((t * logTwo : ℚ) : ℝ) * (Real.exp (t * (Real.log 2 - (logTwo : ℚ))) - 1) := by
    rw [mul_sub, ← Real.exp_add, mul_one, Real.rpow_def_of_pos (by norm_num)]
    congr 2
    push_cast
    ring
  have hleft : |(2 : ℝ) ^ (t : ℝ) - Real.exp ((t * logTwo : ℚ) : ℝ)| ≤ 1 / 10 ^ 8 := by
    rw [hsplit, abs_mul, abs_of_pos (Real.exp_pos _)]
    calc _ ≤ 3 * (2 * (1 / 10 ^ 9) : ℝ) := by
          gcongr
          exact hexp.trans (by gcongr)
      _ ≤ 1 / 10 ^ 8 := by norm_num
  have hright := abs_exp_sub_powerCoefficients_le hlow hhigh
  have htriangle := abs_sub_le ((2 : ℝ) ^ (t : ℝ)) (Real.exp ((t * logTwo : ℚ) : ℝ))
    (polyValue t (powerCoefficients 10) : ℚ)
  linarith

theorem abs_two_rpow_sub_one_sub_le {δ : ℝ} (h : |δ| ≤ 1) :
    |(2 : ℝ) ^ δ - 1 - δ * Real.log 2| ≤ δ ^ 2 := by
  have hlog : |Real.log 2| ≤ 1 := by
    rw [abs_of_pos (Real.log_pos (by norm_num))]
    linarith [Real.log_two_lt_d9]
  have hsmall : |Real.log 2 * δ| ≤ |δ| := by
    rw [abs_mul]
    exact mul_le_of_le_one_left (abs_nonneg _) hlog
  rw [Real.rpow_def_of_pos (by norm_num), mul_comm δ]
  refine (Real.abs_exp_sub_one_sub_id_le (hsmall.trans h)).trans ?_
  rw [← sq_abs (Real.log 2 * δ), ← sq_abs δ]
  gcongr

/-- A polynomial is as near to the power as its coefficients are to those of the power. -/
theorem abs_polyValue_sub_two_rpow_le {a : List ℚ} {n : Nat} {ε : ℚ} (hn : 0 < n)
    (h : BoundedOn n ε (polyAdd a ((powerCoefficients 10).map (-1 * ·))))
    {t : ℚ} (hlow : 0 ≤ t) (hhigh : t < 1) :
    |(polyValue t a : ℚ) - (2 : ℝ) ^ (t : ℝ)| ≤ ε + 2 / 10 ^ 8 := by
  have hpoly := h.abs_polyValue_le hn hlow hhigh
  rw [polyValue_add, polyValue_map_mul, neg_one_mul, ← sub_eq_add_neg] at hpoly
  have hreal : |((polyValue t a : ℚ) : ℝ) - (polyValue t (powerCoefficients 10) : ℚ)| ≤ ε := by
    exact_mod_cast hpoly
  have hpower := abs_two_rpow_sub_le hlow hhigh.le
  rw [abs_sub_comm] at hpower
  have htriangle := abs_sub_le ((polyValue t a : ℚ) : ℝ) (polyValue t (powerCoefficients 10) : ℚ)
    ((2 : ℝ) ^ (t : ℝ))
  linarith

end PolynomialBound
