import Mathlib.Algebra.Order.Field.Power
import Mathlib.Algebra.Order.Ring.Rat
import Mathlib.Data.Int.Log
import Mathlib.Tactic.FieldSimp
import Mathlib.Tactic.NormNum
import PluginSdk.PythonFloat

/-! Binary floating point: numbers of `p` significant bits, and operations that
round to the nearest of them with ties to the even one. Exponents are unbounded,
so that what is said of a run in these numbers holds of a machine as long as
nothing overflows and nothing falls below the normal numbers. -/

namespace BinaryFloat

open PythonText (roundHalfEven MeasuresAs measuresAs_roundHalfEven roundHalfEven_div_eq_iff)

/-- The distance of neighbouring numbers around `y`. -/
def spacing (p : Nat) (y : ℚ) : ℚ := 2 ^ (Int.log 2 |y| + 1 - p)

def nearest (p : Nat) (y : ℚ) : ℚ := roundHalfEven (y / spacing p y) * spacing p y

variable {p : Nat} {y : ℚ} {m k : Int}

theorem spacing_pos (p : Nat) (y : ℚ) : 0 < spacing p y := by
  unfold spacing
  positivity

theorem spacing_le (hy : y ≠ 0) (h : |y| < 2 ^ m) : spacing p y ≤ 2 ^ (m - p) := by
  have hlog : Int.log 2 |y| < m :=
    (Int.lt_zpow_iff_log_lt (by norm_num) (abs_pos.mpr hy)).mp (by exact_mod_cast h)
  exact zpow_le_zpow_right₀ (by norm_num) (by omega)

theorem spacing_le_mul (p : Nat) (hy : y ≠ 0) : spacing p y ≤ 2 * |y| / 2 ^ p := by
  have hlog : ((2 : ℕ) : ℚ) ^ Int.log 2 |y| ≤ |y| :=
    Int.zpow_log_le_self (by norm_num) (abs_pos.mpr hy)
  have hsplit : spacing p y = 2 * 2 ^ Int.log 2 |y| / 2 ^ p := by
    unfold spacing
    rw [zpow_sub₀ (by norm_num), zpow_add_one₀ (by norm_num), zpow_natCast]
    ring
  rw [hsplit]
  push_cast at hlog
  gcongr

theorem measuresAs_nearest (p : Nat) (y : ℚ) :
    MeasuresAs y (spacing p y) (roundHalfEven (y / spacing p y)) :=
  measuresAs_roundHalfEven (spacing_pos p y) y

theorem abs_nearest_sub_le_spacing (p : Nat) (y : ℚ) : |nearest p y - y| ≤ spacing p y / 2 := by
  rw [abs_sub_comm]
  exact (measuresAs_nearest p y).abs_sub_le

@[simp] theorem nearest_zero (p : Nat) : nearest p 0 = 0 := by
  simp [nearest, roundHalfEven]

theorem abs_nearest_sub_le_of_lt (p : Nat) (h : |y| < 2 ^ m) :
    |nearest p y - y| ≤ 2 ^ (m - p) / 2 := by
  by_cases hy : y = 0
  · subst hy
    simp only [nearest_zero, sub_self, abs_zero]
    positivity
  · have hspacing := spacing_le (p := p) hy h
    exact (abs_nearest_sub_le_spacing p y).trans (by gcongr)

theorem abs_nearest_sub_le (p : Nat) (y : ℚ) : |nearest p y - y| ≤ |y| / 2 ^ p := by
  by_cases hy : y = 0
  · simp [hy]
  · have hspacing := spacing_le_mul p hy
    have hhalf := abs_nearest_sub_le_spacing p y
    calc |nearest p y - y| ≤ spacing p y / 2 := hhalf
      _ ≤ 2 * |y| / 2 ^ p / 2 := by gcongr
      _ = |y| / 2 ^ p := by ring

theorem nearest_eq_of_multiple {n : Int} (hspacing : y = n * spacing p y) : nearest p y = y := by
  have hpos := spacing_pos p y
  have hround : roundHalfEven (y / spacing p y) = n := by
    rw [roundHalfEven_div_eq_iff hpos]
    left
    rw [← hspacing, sub_self, abs_zero]
    exact half_pos hpos
  rw [nearest, hround, ← hspacing]

/-- The numbers of `p` bits are exactly the values that rounding leaves alone. -/
theorem nearest_intCast_mul_zpow (hp : 0 < p) {n : Int} (hn : |n| ≤ 2 ^ p) (k : Int) :
    nearest p (n * 2 ^ k) = n * 2 ^ k := by
  by_cases hzero : n = 0
  · simp [hzero]
  have hq : (n : ℚ) ≠ 0 := by exact_mod_cast hzero
  have hy : (n : ℚ) * 2 ^ k ≠ 0 := mul_ne_zero hq (by positivity)
  have habs : |(n : ℚ) * 2 ^ k| = |(n : ℚ)| * 2 ^ k := by
    rw [abs_mul, abs_of_pos (by positivity : (0 : ℚ) < 2 ^ k)]
  have hnq : |(n : ℚ)| ≤ 2 ^ p := by exact_mod_cast hn
  -- the exponent of the spacing is at most `k`, or the value is a power of two
  rcases hnq.lt_or_eq with hlt | heq
  · have hlog : Int.log 2 |(n : ℚ) * 2 ^ k| < p + k := by
      rw [← Int.lt_zpow_iff_log_lt (by norm_num) (abs_pos.mpr hy), habs]
      push_cast
      rw [zpow_add₀ (by norm_num), zpow_natCast]
      gcongr
    obtain ⟨j, hj⟩ := Int.le.dest (show Int.log 2 |(n : ℚ) * 2 ^ k| + 1 - p ≤ k by omega)
    refine nearest_eq_of_multiple (n := n * 2 ^ j) ?_
    unfold spacing
    push_cast
    rw [mul_assoc, ← zpow_natCast, ← zpow_add₀ (by norm_num), add_comm (j : Int), hj]
  · have hlog : Int.log 2 |(n : ℚ) * 2 ^ k| = p + k := by
      rw [habs, heq, ← zpow_natCast, ← zpow_add₀ (by norm_num)]
      exact_mod_cast Int.log_zpow (R := ℚ) (by norm_num) _
    have hspacing : spacing p ((n : ℚ) * 2 ^ k) = 2 ^ (k + 1) := by
      rw [spacing, hlog]
      congr 1
      omega
    obtain ⟨j, rfl⟩ : ∃ j, n = 2 * j := by
      have hnat : |n| = 2 ^ p := by exact_mod_cast heq
      have heven : (2 : Int) ∣ |n| := by
        rw [hnat]
        exact dvd_pow_self 2 hp.ne'
      exact (dvd_abs 2 n).mp heven
    refine nearest_eq_of_multiple (n := j) ?_
    rw [hspacing, zpow_add_one₀ (by norm_num)]
    push_cast
    ring

theorem MeasuresAs.neg {length unit : ℚ} {n : Int} (h : MeasuresAs length unit n) :
    MeasuresAs (-length) unit (-n) := by
  have habs : |-length - ((-n : Int) : ℚ) * unit| = |length - n * unit| := by
    rw [← abs_neg]
    push_cast
    congr 1
    ring
  unfold MeasuresAs
  rw [habs]
  rcases h with h | ⟨h, heven⟩
  · exact .inl h
  · exact .inr ⟨h, by omega⟩

theorem MeasuresAs.scale {length unit : ℚ} {n : Int} (h : MeasuresAs length unit n) {r : ℚ}
    (hr : 0 < r) : MeasuresAs (length * r) (unit * r) n := by
  have habs : |length * r - n * (unit * r)| = |length - n * unit| * r := by
    rw [← abs_of_pos hr, ← abs_mul, abs_of_pos hr]
    congr 1
    ring
  unfold MeasuresAs
  rw [habs]
  rcases h with h | ⟨h, heven⟩
  · left
    nlinarith
  · right
    refine ⟨?_, heven⟩
    rw [h]
    ring

theorem nearest_eq_of_measuresAs {n : Int} (h : MeasuresAs y (spacing p y) n) :
    nearest p y = n * spacing p y := by
  rw [nearest, (roundHalfEven_div_eq_iff (spacing_pos p y)).mpr h]

@[simp] theorem spacing_neg (p : Nat) (y : ℚ) : spacing p (-y) = spacing p y := by
  rw [spacing, spacing, abs_neg]

@[simp] theorem nearest_neg (p : Nat) (y : ℚ) : nearest p (-y) = -nearest p y := by
  have hneg : MeasuresAs (-y) (spacing p (-y)) (-roundHalfEven (y / spacing p y)) := by
    rw [spacing_neg]
    exact MeasuresAs.neg (measuresAs_nearest p y)
  rw [nearest_eq_of_measuresAs hneg, spacing_neg, nearest]
  push_cast
  ring

/-- Rounding does not cross a power of two. -/
theorem one_le_nearest (hp : 0 < p) (h : 1 ≤ y) : 1 ≤ nearest p y := by
  have hy : 0 < y := by linarith
  have hlog : ((2 : ℕ) : ℚ) ^ Int.log 2 |y| ≤ |y| :=
    Int.zpow_log_le_self (by norm_num) (abs_pos.mpr hy.ne')
  have hexp : 0 ≤ Int.log 2 |y| := by
    rw [← Int.zpow_le_iff_le_log (by norm_num) (abs_pos.mpr hy.ne'), abs_of_pos hy]
    simpa using h
  obtain ⟨j, rfl⟩ := Nat.exists_eq_add_of_lt hp
  have hpow : (2 : ℚ) ^ Int.log 2 |y| = ((2 ^ j : Int) : ℚ) * spacing (0 + j + 1) y := by
    unfold spacing
    push_cast
    rw [← zpow_natCast, ← zpow_add₀ (by norm_num)]
    congr 1
    ring
  have hpos := spacing_pos (0 + j + 1) y
  have hhalf := (abs_le.mp (abs_nearest_sub_le_spacing (0 + j + 1) y)).1
  push_cast at hlog
  rw [abs_of_pos hy] at hlog
  rw [abs_of_pos hy] at hpow
  have hround : (2 ^ j : Int) ≤ roundHalfEven (y / spacing (0 + j + 1) y) := by
    by_contra hlt
    have hle : ((roundHalfEven (y / spacing (0 + j + 1) y) : Int) : ℚ) + 1 ≤ ((2 ^ j : Int) : ℚ) := by
      exact_mod_cast not_le.mp hlt
    unfold nearest at hhalf
    nlinarith
  have hcast : ((2 ^ j : Int) : ℚ) ≤ (roundHalfEven (y / spacing (0 + j + 1) y) : Int) := by
    exact_mod_cast hround
  have hone : (1 : ℚ) ≤ 2 ^ Int.log 2 y := by
    rw [abs_of_pos hy] at hexp
    exact one_le_zpow₀ (by norm_num) hexp
  unfold nearest
  nlinarith

theorem nearest_le_zpow (hy : 0 < y) (h : y < 2 ^ m) : nearest p y ≤ 2 ^ m := by
  have hpos := spacing_pos p y
  have hlog : Int.log 2 |y| < m := by
    rw [abs_of_pos hy]
    exact (Int.lt_zpow_iff_log_lt (by norm_num) hy).mp (by exact_mod_cast h)
  have hpow : (2 : ℚ) ^ (Int.log 2 |y| + 1) = ((2 ^ p : Int) : ℚ) * spacing p y := by
    unfold spacing
    push_cast
    rw [← zpow_natCast, ← zpow_add₀ (by norm_num)]
    congr 1
    ring
  have hupper : y < 2 ^ (Int.log 2 |y| + 1) := by
    have hlt := Int.lt_zpow_succ_log_self (b := 2) (by norm_num) |y|
    push_cast at hlt
    exact (le_abs_self y).trans_lt hlt
  have hround : roundHalfEven (y / spacing p y) ≤ 2 ^ p := by
    by_contra hlt
    have hle : ((2 ^ p : Int) : ℚ) + 1 ≤ (roundHalfEven (y / spacing p y) : Int) := by
      exact_mod_cast not_le.mp hlt
    have hhalf := (abs_le.mp (abs_nearest_sub_le_spacing p y)).2
    have hmul := mul_le_mul_of_nonneg_right hle hpos.le
    unfold nearest at hhalf
    linarith
  calc nearest p y ≤ ((2 ^ p : Int) : ℚ) * spacing p y := by
        unfold nearest
        gcongr
    _ = 2 ^ (Int.log 2 |y| + 1) := hpow.symm
    _ ≤ 2 ^ m := zpow_le_zpow_right₀ (by norm_num) (by omega)

end BinaryFloat
