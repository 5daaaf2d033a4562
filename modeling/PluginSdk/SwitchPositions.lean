import PluginSdk.Rounding
import PluginSdk.StateConversion
import Mathlib.Tactic.Linarith

/-! Switches and choices map a param value to one of `num_pos` evenly spaced
positions. In exact arithmetic the position is the nearest one. -/

namespace PluginSdk

open ElementClass (derivedFrom)

variable {el : Element ℚ} {v w : ℚ}

def HasPositions (c : ElementClass) : Prop :=
  derivedFrom c .flipSwitch ∨ derivedFrom c .slideSwitch ∨ derivedFrom c .altParamChoice

instance (c : ElementClass) : Decidable (HasPositions c) := inferInstanceAs (Decidable (_ ∨ _ ∨ _))

/-- No earlier overload of `convertState` takes such an element. -/
theorem not_derivedFrom_of_hasPositions {c : ElementClass} (h : HasPositions c) :
    derivedFrom c .momentaryButton = false ∧ derivedFrom c .latchingButton = false ∧
      derivedFrom c .pot = false ∧ derivedFrom c .altParamContinuous = false := by
  cases c <;> first | decide | exact absurd h (by decide)

theorem convertState_of_hasPositions (h : HasPositions el.type) (v : ℚ) :
    convertState el v = some (.unsigned (convertPosition el v)) := by
  obtain ⟨hmom, hlatch, hpot, hcont⟩ := not_derivedFrom_of_hasPositions h
  simp only [convertState, hmom, hlatch, hpot, hcont]
  rcases h with h | h | h
  · simp [h]
  · simp [h]
  · simp [h]

def lastPosition (el : Element ℚ) : Nat := el.numPos.toNat - 1

theorem toNat_numPos_sub_one (hn : 1 ≤ el.numPos.toNat) :
    (el.numPos - 1).toNat = lastPosition el := by
  have hone : (1 : UInt32) ≤ el.numPos := UInt32.le_iff_toNat_le.mpr hn
  rw [UInt32.toNat_sub_of_le _ _ hone]
  rfl

/-- The cast to `unsigned` is exact: the rounded value is a position. -/
theorem toNat_convertPosition (hn : 1 ≤ el.numPos.toNat) (h0 : 0 ≤ v) (h1 : v ≤ 1) :
    ((convertPosition el v).toNat : Int) = Rounding.halfAway (v * lastPosition el) := by
  have hlast : lastPosition el < 2 ^ 32 := by
    have := el.numPos.toNat_lt
    unfold lastPosition
    omega
  have hpos : (0 : ℚ) ≤ lastPosition el := Nat.cast_nonneg _
  have hlo := Rounding.halfAway_nonneg (mul_nonneg h0 hpos)
  have hhi := Rounding.halfAway_le_natCast (mul_le_of_le_one_left hpos h1)
  have hval : convertPosition el v =
      UInt32.ofNat ⌊(Rounding.halfAway (v * lastPosition el) : ℚ)⌋.toNat := by
    rw [← toNat_numPos_sub_one hn]
    simp only [convertPosition, FloatOps.toUnsigned, FloatOps.round, FloatOps.ofUnsigned,
      Rounding.halfAway]
    push_cast
    split_ifs <;> rfl
  rw [hval, Int.floor_intCast, UInt32.toNat_ofNat', Nat.mod_eq_of_lt (by omega)]
  omega

theorem convertPosition_lt (hn : 1 ≤ el.numPos.toNat) (h0 : 0 ≤ v) (h1 : v ≤ 1) :
    (convertPosition el v).toNat < el.numPos.toNat := by
  have hhi : Rounding.halfAway (v * lastPosition el) ≤ lastPosition el :=
    Rounding.halfAway_le_natCast (mul_le_of_le_one_left (Nat.cast_nonneg _) h1)
  rw [← toNat_convertPosition hn h0 h1] at hhi
  unfold lastPosition at hhi
  omega

theorem convertPosition_mono (hn : 1 ≤ el.numPos.toNat) (h0 : 0 ≤ v) (h : v ≤ w) (h1 : w ≤ 1) :
    (convertPosition el v).toNat ≤ (convertPosition el w).toNat := by
  have hh : Rounding.halfAway (v * lastPosition el) ≤ Rounding.halfAway (w * lastPosition el) :=
    Rounding.halfAway_mono (mul_le_mul_of_nonneg_right h (Nat.cast_nonneg _))
  rw [← toNat_convertPosition hn h0 (h.trans h1), ← toNat_convertPosition hn (h0.trans h) h1] at hh
  omega

theorem convertPosition_nearest (hn : 1 ≤ el.numPos.toNat) (h0 : 0 ≤ v) (h1 : v ≤ 1) (k : Nat) :
    |v * lastPosition el - (convertPosition el v).toNat| ≤ |v * lastPosition el - k| := by
  have hh := Rounding.abs_sub_halfAway_le (v * lastPosition el) k
  rw [← toNat_convertPosition hn h0 h1] at hh
  exact_mod_cast hh

theorem convertPosition_canonical {k : Nat} (hn : 2 ≤ el.numPos.toNat) (hk : k < el.numPos.toNat) :
    (convertPosition el ((k : ℚ) / lastPosition el)).toNat = k := by
  have hpos : 0 < lastPosition el := by
    unfold lastPosition
    omega
  have hkle : k ≤ lastPosition el := by
    unfold lastPosition
    omega
  have hlast : (0 : ℚ) < lastPosition el := Nat.cast_pos.mpr hpos
  have hle : (k : ℚ) ≤ lastPosition el := Nat.cast_le.mpr hkle
  have h0 : (0 : ℚ) ≤ k / lastPosition el := div_nonneg (Nat.cast_nonneg k) hlast.le
  have hn1 : 1 ≤ el.numPos.toNat := by omega
  have hh := toNat_convertPosition hn1 h0 ((div_le_one hlast).mpr hle)
  rw [div_mul_cancel₀ _ hlast.ne', Rounding.halfAway_natCast] at hh
  omega

/-- Every value in `[0, 1]` selects the nearest of the positions, in order, and
every position is selected by its own value. -/
theorem convertState_positions (el : Element ℚ) (hel : HasPositions el.type)
    (hn : 1 ≤ el.numPos.toNat) :
    (∀ v, convertState el v = some (.unsigned (convertPosition el v))) ∧
    (∀ v : ℚ, 0 ≤ v → v ≤ 1 → (convertPosition el v).toNat < el.numPos.toNat) ∧
    (∀ v w : ℚ, 0 ≤ v → v ≤ w → w ≤ 1 →
      (convertPosition el v).toNat ≤ (convertPosition el w).toNat) ∧
    (∀ v : ℚ, 0 ≤ v → v ≤ 1 → ∀ k < el.numPos.toNat,
      |v * (el.numPos.toNat - 1 : ℕ) - (convertPosition el v).toNat| ≤
        |v * (el.numPos.toNat - 1 : ℕ) - k|) ∧
    (2 ≤ el.numPos.toNat → ∀ k < el.numPos.toNat,
      (convertPosition el ((k : ℚ) / (el.numPos.toNat - 1 : ℕ))).toNat = k) :=
  ⟨convertState_of_hasPositions hel, fun _ h0 h1 => convertPosition_lt hn h0 h1,
    fun _ _ h0 h h1 => convertPosition_mono hn h0 h h1,
    fun _ h0 h1 k _ => convertPosition_nearest hn h0 h1 k,
    fun hn2 _ hk => convertPosition_canonical hn2 hk⟩

theorem convertState_positions_sample :
    let sw7 : Element ℚ := .slideSwitch ⟨0, 0, "", ""⟩ 7
    (convertPosition sw7 (2 / 6)).toNat = 2 ∧ (convertPosition sw7 (11 / 24)).toNat < 7 := by
  intro sw7
  have hn : 2 ≤ sw7.numPos.toNat := by decide
  obtain ⟨-, hlt, -, -, hcanon⟩ := convertState_positions sw7 (.inr (.inl (by decide))) (by decide)
  have hk := hcanon hn 2 (by decide)
  have hlast : sw7.numPos.toNat - 1 = 6 := by decide
  rw [hlast] at hk
  exact ⟨by exact_mod_cast hk, hlt (11 / 24) (by norm_num) (by norm_num)⟩

end PluginSdk
