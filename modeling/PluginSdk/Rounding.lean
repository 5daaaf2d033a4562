import Mathlib.Algebra.Order.Round
import Mathlib.Tactic.Linarith
import Mathlib.Tactic.Ring

/-! Rounding to the nearest integer with halves taken away from zero. Above
zero it is the rounding of Mathlib, below zero its mirror image. -/

namespace Rounding

variable {K : Type*} [Field K] [LinearOrder K] [IsStrictOrderedRing K] [FloorRing K] {q r : K}

def halfAway (q : K) : Int := if 0 ≤ q then ⌊q + 1 / 2⌋ else -⌊-q + 1 / 2⌋

theorem halfAway_of_nonneg (h : 0 ≤ q) : halfAway q = round q := by
  rw [halfAway, if_pos h, round_eq]

theorem halfAway_of_neg (h : q < 0) : halfAway q = -round (-q) := by
  rw [halfAway, if_neg (not_le.mpr h), round_eq]

theorem halfAway_nonneg (h : 0 ≤ q) : 0 ≤ halfAway q := by
  rw [halfAway, if_pos h]
  exact Int.floor_nonneg.mpr (by linarith)

theorem halfAway_nonpos (h : q < 0) : halfAway q ≤ 0 := by
  have hh : 0 ≤ ⌊-q + 1 / 2⌋ := Int.floor_nonneg.mpr (by linarith)
  rw [halfAway, if_neg (not_le.mpr h)]
  omega

theorem halfAway_mono (h : q ≤ r) : halfAway q ≤ halfAway r := by
  rcases lt_or_ge q 0 with hq | hq
  · rcases lt_or_ge r 0 with hr | hr
    · have hh : ⌊-r + 1 / 2⌋ ≤ ⌊-q + 1 / 2⌋ := Int.floor_mono (by linarith)
      rw [halfAway, halfAway, if_neg (not_le.mpr hq), if_neg (not_le.mpr hr)]
      omega
    · exact (halfAway_nonpos hq).trans (halfAway_nonneg hr)
  · rw [halfAway, halfAway, if_pos hq, if_pos (hq.trans h)]
    exact Int.floor_mono (by linarith)

/-- No integer is nearer. -/
theorem abs_sub_halfAway_le (q : K) (n : Int) : |q - halfAway q| ≤ |q - n| := by
  rcases lt_or_ge q 0 with hq | hq
  · have hh := round_le (-q) (-n)
    have hl : |q - halfAway q| = |-q - round (-q)| := by
      rw [halfAway_of_neg hq, ← abs_neg]
      push_cast
      congr 1
      ring
    have hr : |q - n| = |-q - ((-n : Int) : K)| := by
      rw [← abs_neg]
      push_cast
      congr 1
      ring
    rwa [hl, hr]
  · rw [halfAway_of_nonneg hq]
    exact round_le q n

theorem halfAway_natCast (n : Nat) : halfAway (n : K) = n := by
  rw [halfAway_of_nonneg n.cast_nonneg, round_natCast]

theorem halfAway_le_natCast {n : Nat} (h : q ≤ n) : halfAway q ≤ n := by
  have hh := halfAway_mono h
  rwa [halfAway_natCast] at hh

end Rounding
