import Mathlib.Algebra.Group.Action.Pi
import Mathlib.Algebra.Order.AbsoluteValue.Basic
import PluginSdk.MinBlep

/-! The end of the response to a discontinuity. The step of one table has
settled there; the other table is left long before its step has. -/

namespace PluginSdk

theorem crossfade_mem {a b p lo hi : ℚ} (ha : lo ≤ a ∧ a ≤ hi) (hb : lo ≤ b ∧ b ≤ hi)
    (hp : 0 ≤ p) (hp' : p ≤ 1) : lo ≤ crossfade a b p ∧ crossfade a b p ≤ hi := by
  have hmix : crossfade a b p = (1 - p) * a + p * b := by
    rw [crossfade]
    ring
  have hq : 0 ≤ 1 - p := sub_nonneg.mpr hp'
  rw [hmix]
  constructor
  · calc lo = (1 - p) * lo + p * lo := by ring
      _ ≤ (1 - p) * a + p * b :=
        add_le_add (mul_le_mul_of_nonneg_left ha.1 hq) (mul_le_mul_of_nonneg_left hb.1 hp)
  · calc (1 - p) * a + p * b ≤ (1 - p) * hi + p * hi :=
        add_le_add (mul_le_mul_of_nonneg_left ha.2 hq) (mul_le_mul_of_nonneg_left hb.2 hp)
      _ = hi := by ring

/-- Between two places an interpolation keeps the bounds of the entries there. -/
theorem interpolateLinear_mem {table : List ℚ} {x lo hi : ℚ} {m n : Nat} (hm : (m : ℚ) ≤ x)
    (hn : x < n) (hlen : n < table.length)
    (hbound : ∀ i v, m ≤ i → i ≤ n → table[i]? = some v → lo ≤ v ∧ v ≤ hi) :
    ∃ y, interpolateLinear table x = some y ∧ lo ≤ y ∧ y ≤ hi := by
  have hx : 0 ≤ x := (Nat.cast_nonneg m).trans hm
  have hle : m ≤ ⌊x⌋₊ := Nat.le_floor hm
  obtain ⟨hlt, a, b, ha, hb, hy⟩ := interpolateLinear_eq hx hn hlen
  refine ⟨_, hy, ?_⟩
  apply crossfade_mem
  · exact hbound _ _ hle hlt.le ha
  · exact hbound _ _ (Nat.le_succ_of_le hle) hlt hb
  · exact sub_nonneg.mpr (Nat.floor_le hx)
  · linarith [Nat.lt_floor_add_one x]

/-- Bounds, in millionths, of the entries from `m` to `n`. -/
def within (table : List Nat) (m n lo hi : Nat) : Bool :=
  ((table.take (n + 1)).drop m).all fun v => lo ≤ v && v ≤ hi

theorem ofMillionths_within {table : List Nat} {m n lo hi : Nat}
    (h : within table m n lo hi = true) {i : Nat} {v : ℚ} (hm : m ≤ i) (hn : i ≤ n)
    (hv : (ofMillionths table)[i]? = some v) :
    (lo : ℚ) / 1000000 ≤ v ∧ v ≤ (hi : ℚ) / 1000000 := by
  obtain ⟨k, hk, rfl⟩ := getElem?_ofMillionths hv
  have hmem : k ∈ (table.take (n + 1)).drop m := by
    apply List.mem_of_getElem? (i := i - m)
    rw [List.getElem?_drop, Nat.add_sub_cancel' hm, List.getElem?_take_of_lt (by omega), hk]
  have hbounds := List.all_eq_true.mp h k hmem
  rw [Bool.and_eq_true, decide_eq_true_eq, decide_eq_true_eq] at hbounds
  have hlo : (lo : ℚ) ≤ k := by exact_mod_cast hbounds.1
  have hhi : (k : ℚ) ≤ hi := by exact_mod_cast hbounds.2
  exact ⟨div_le_div_of_nonneg_right hlo (by norm_num),
    div_le_div_of_nonneg_right hhi (by norm_num)⟩

section

variable {g : Precomputed} {p : ℚ}

theorem lastIndex_ge (hp : p ≤ 0) :
    (((2 * g.Z - 1) * g.O : Nat) : ℚ) ≤ ((2 * g.Z - 1 : Nat) - p) * g.O := by
  rw [Nat.cast_mul]
  exact mul_le_mul_of_nonneg_right (by linarith) (Nat.cast_nonneg _)

/-- Bounds of the entries of the last frame are bounds of the last correction. -/
theorem lastCorrection_eq {T : Type} [SMul ℚ T] {table : List Nat} {lo hi : Nat}
    (himpulse : g.impulse = ofMillionths table)
    (hwithin : within table ((2 * g.Z - 1) * g.O) (2 * g.Z * g.O) lo hi = true)
    (hp : -1 < p) (hp' : p ≤ 0) (x : T) :
    ∃ y, correction g p x (2 * g.Z - 1) = some ((-1 + y) • x) ∧
      (lo : ℚ) / 1000000 ≤ y ∧ y ≤ (hi : ℚ) / 1000000 := by
  have hlast : 2 * g.Z - 1 < 2 * g.Z := by cases g <;> decide
  have hbound : ∀ i v, (2 * g.Z - 1) * g.O ≤ i → i ≤ 2 * g.Z * g.O → g.impulse[i]? = some v →
      (lo : ℚ) / 1000000 ≤ v ∧ v ≤ (hi : ℚ) / 1000000 := by
    rw [himpulse]
    exact fun i v hm hn => ofMillionths_within hwithin hm hn
  obtain ⟨y, hy, hmem⟩ := interpolateLinear_mem (lastIndex_ge hp') (index_lt hp hlast)
    g.impulse_covers hbound
  refine ⟨y, ?_, hmem⟩
  rw [correction, hy, Option.map_some]

end

/-- The last correction is negligible with the table made for four zero
crossings. The table made for sixteen is left half way, where it is not. -/
theorem lastCorrection_settles_iff {p : ℚ} (hp : -1 < p) (hp' : p ≤ 0) (g : Precomputed)
    (x : Fin g.lanes → ℚ) :
    (∃ v, correction g p x (2 * g.Z - 1) = some v ∧ ∀ i, |v i| ≤ |x i| / 100) ↔
      g = .float_16_32 ∨ ∀ i, x i = 0 := by
  cases g with
  | float_16_32 =>
    have hwithin : within minBlep_4_32_millionths 224 256 990000 1010000 = true := by decide
    obtain ⟨y, hy, hlo, hhi⟩ := lastCorrection_eq (g := .float_16_32) rfl hwithin hp hp' x
    have habs : |-1 + y| ≤ 1 / 100 := by
      rw [abs_le]
      constructor <;> linarith
    refine iff_of_true ⟨_, hy, fun i => ?_⟩ (.inl rfl)
    calc |((-1 + y) • x) i| = |-1 + y| * |x i| := abs_mul _ _
      _ ≤ 1 / 100 * |x i| := mul_le_mul_of_nonneg_right habs (abs_nonneg _)
      _ = |x i| / 100 := by ring
  | float_4_16_16 =>
    have hwithin : within minBlep_16_16_millionths 224 256 0 960000 = true := by decide
    obtain ⟨y, hy, -, hhi⟩ := lastCorrection_eq (g := .float_4_16_16) rfl hwithin hp hp' x
    have habs : 4 / 100 ≤ |-1 + y| := by
      rw [le_abs]
      right
      linarith
    constructor
    · rintro ⟨v, hv, hsmall⟩
      obtain rfl : (-1 + y) • x = v := Option.some.inj (hy.symm.trans hv)
      right
      intro i
      have hle : |-1 + y| * |x i| ≤ |x i| / 100 := (abs_mul _ _).symm.trans_le (hsmall i)
      have hge : 4 / 100 * |x i| ≤ |-1 + y| * |x i| :=
        mul_le_mul_of_nonneg_right habs (abs_nonneg _)
      have hzero : |x i| ≤ 0 := by linarith
      exact abs_nonpos_iff.mp hzero
    · rintro (h | hx)
      · cases h
      · refine ⟨_, hy, fun i => ?_⟩
        have hzero : ((-1 + y) • x) i = 0 := mul_eq_zero_of_right _ (hx i)
        rw [hzero, abs_zero]
        exact div_nonneg (abs_nonneg _) (by norm_num)

theorem lastCorrection_settles_sample :
    ∃ v, correction .float_16_32 (-1 / 2) (fun _ : Fin 1 => (3 : ℚ)) 7 = some v ∧
      ∀ i, |v i| ≤ |3| / 100 :=
  (lastCorrection_settles_iff (by norm_num) (by norm_num) .float_16_32 fun _ => 3).mpr (.inl rfl)

theorem lastCorrection_settles_fails :
    ∃ v, correction .float_4_16_16 0 (fun _ : Fin 4 => (1 : ℚ)) 7 = some v ∧
      ¬∀ i, |v i| ≤ |1| / 100 := by
  have hlast : interpolateLinear minBlep_16_16 ((7 - 0) * 32) = some (935330 / 1000000) := by
    decide +kernel
  refine ⟨fun _ => (-1 + 935330 / 1000000) * 1, congrArg (Option.map _) hlast, fun h => ?_⟩
  have hfirst := h 0
  norm_num at hfirst

end PluginSdk
