import Mathlib.Data.Fintype.Prod
import Mathlib.Data.UInt
import Mathlib.Dynamics.PeriodicPts.Lemmas
import Mathlib.Tactic.NormNum
import PluginSdk.Cells
import PluginSdk.History
import PluginSdk.SingleConversions

/-! The random generator and what is drawn from it. A draw permutes the states,
so that a generator comes back to where it was and never loses its seed. -/

namespace PluginSdk

open Cells History

structure Xoroshiro128Plus where
  state0 : UInt64 := 0
  state1 : UInt64 := 0
  deriving DecidableEq

namespace Xoroshiro128Plus

def rotl (x k : UInt64) : UInt64 := (x <<< k) ||| (x >>> (64 - k))

/-- `operator()`: the drawn number and the generator after it. -/
def draw (g : Xoroshiro128Plus) : UInt64 × Xoroshiro128Plus :=
  let s0 := g.state0
  let s1 := g.state1 ^^^ s0
  (g.state0 + g.state1, ⟨rotl s0 55 ^^^ s1 ^^^ (s1 <<< 14), rotl s1 36⟩)

def next (g : Xoroshiro128Plus) : Xoroshiro128Plus := g.draw.2

def seed (s0 s1 : UInt64) : Xoroshiro128Plus := next ⟨s0, s1⟩

def isSeeded (g : Xoroshiro128Plus) : Bool := g.state0 != 0 || g.state1 != 0

theorem rotateRight_rotateLeft (x : BitVec 64) (k : Nat) : (x.rotateLeft k).rotateRight k = x := by
  ext i hi
  simp only [BitVec.getElem_rotateRight, BitVec.getElem_rotateLeft]
  grind

theorem rotateLeft_injective (k : Nat) : Function.Injective fun x : BitVec 64 => x.rotateLeft k :=
  Function.LeftInverse.injective (g := fun x => x.rotateRight k)
    fun x => rotateRight_rotateLeft x k

theorem rotl_55_inj {x y : UInt64} (h : rotl x 55 = rotl y 55) : x = y := by
  have hbits : x.toBitVec.rotateLeft 55 = y.toBitVec.rotateLeft 55 := congrArg UInt64.toBitVec h
  exact UInt64.eq_of_toBitVec_eq (rotateLeft_injective 55 hbits)

theorem rotl_36_inj {x y : UInt64} (h : rotl x 36 = rotl y 36) : x = y := by
  have hbits : x.toBitVec.rotateLeft 36 = y.toBitVec.rotateLeft 36 := congrArg UInt64.toBitVec h
  exact UInt64.eq_of_toBitVec_eq (rotateLeft_injective 36 hbits)

theorem xor_right_inj {x y z : UInt64} (h : x ^^^ z = y ^^^ z) : x = y := by
  have hcancel := congrArg (· ^^^ z) h
  simpa only [UInt64.xor_assoc, UInt64.xor_self, UInt64.xor_zero] using hcancel

theorem next_injective : Function.Injective next := by
  rintro ⟨a0, a1⟩ ⟨b0, b1⟩ h
  obtain ⟨h0, h1⟩ := Xoroshiro128Plus.mk.inj h
  have hx : a1 ^^^ a0 = b1 ^^^ b0 := rotl_36_inj h1
  -- the rotated word and the shifted one are now known on both sides
  rw [hx] at h0
  obtain rfl : a0 = b0 := rotl_55_inj (xor_right_inj (xor_right_inj h0))
  obtain rfl : a1 = b1 := xor_right_inj hx
  rfl

theorem next_default : next {} = {} := rfl

theorem isSeeded_iff (g : Xoroshiro128Plus) : g.isSeeded = true ↔ g ≠ {} := by
  obtain ⟨s0, s1⟩ := g
  simp only [isSeeded, bne_iff_ne, Bool.or_eq_true, ne_eq, Xoroshiro128Plus.mk.injEq, not_and_or]

theorem isSeeded_next (g : Xoroshiro128Plus) : g.next.isSeeded = g.isSeeded := by
  rw [Bool.eq_iff_iff, isSeeded_iff, isSeeded_iff, not_iff_not]
  constructor
  · intro h
    exact next_injective (h.trans next_default.symm)
  · intro h
    rw [h, next_default]

theorem isSeeded_iterate (g : Xoroshiro128Plus) (k : Nat) :
    (next^[k] g).isSeeded = g.isSeeded := by
  induction k with
  | zero => rfl
  | succ k ih => rw [Function.iterate_succ_apply', isSeeded_next, ih]

/-! The states with a seed are fewer than `2 ^ 128`, and a draw permutes them. -/

abbrev Seeded := {g : Xoroshiro128Plus // g ≠ {}}

def nextSeeded (g : Seeded) : Seeded :=
  ⟨next g.1, (isSeeded_iff _).mp (by rw [isSeeded_next, isSeeded_iff]; exact g.2)⟩

theorem nextSeeded_injective : Function.Injective nextSeeded := fun _ _ h =>
  Subtype.ext (next_injective (Subtype.ext_iff.mp h))

theorem iterate_nextSeeded (g : Seeded) (k : Nat) : (nextSeeded^[k] g).1 = next^[k] g.1 := by
  have hsemi : Function.Semiconj Subtype.val nextSeeded next := fun _ => rfl
  exact (hsemi.iterate_right k) g

def words (g : Xoroshiro128Plus) : Fin (2 ^ 64) × Fin (2 ^ 64) := (g.state0.toFin, g.state1.toFin)

theorem words_injective : Function.Injective words := by
  rintro ⟨a0, a1⟩ ⟨b0, b1⟩ h
  obtain ⟨h0, h1⟩ := Prod.mk.inj h
  obtain rfl := UInt64.toFin_inj.mp h0
  obtain rfl := UInt64.toFin_inj.mp h1
  rfl

theorem exists_period (g : Seeded) : ∃ n, 0 < n ∧ n < 2 ^ 128 ∧ nextSeeded^[n] g = g := by
  classical
  let fintype : Fintype Xoroshiro128Plus := Fintype.ofInjective words words_injective
  have hstates : Fintype.card Xoroshiro128Plus ≤ 2 ^ 128 := by
    have hle := Fintype.card_le_of_injective words words_injective
    rw [Fintype.card_prod, Fintype.card_fin] at hle
    exact hle.trans (by norm_num)
  have hseeded : Fintype.card Seeded < Fintype.card Xoroshiro128Plus :=
    Fintype.card_subtype_lt (x := {}) (by simp)
  have hmem := nextSeeded_injective.mem_periodicPts g
  refine ⟨Function.minimalPeriod nextSeeded g, Function.minimalPeriod_pos_of_mem_periodicPts hmem,
    ?_, Function.isPeriodicPt_minimalPeriod nextSeeded g⟩
  exact Function.minimalPeriod_le_card.trans_lt (hseeded.trans_le hstates)

/-! The bytes of `random::buffer`. -/

section

variable {size : Nat}

/-- Byte `m` of a drawn number. -/
def byteOf (r : UInt64) (m : Nat) : UInt8 := (r >>> UInt64.ofNat (8 * m)).toUInt8

def writeIf (c : Prop) [Decidable c] (out : Vector UInt8 size) (i : Nat) (v : UInt8) :
    Option (Vector UInt8 size) :=
  if c then write? out i v else some out

/-- One turn of the loop. -/
def writeBytes (len : Nat) (out : Vector UInt8 size) (i : Nat) (r : UInt64) :
    Option (Vector UInt8 size) := do
  let out ← write? out i r.toUInt8
  let out ← writeIf (i + 1 < len) out (i + 1) (r >>> 8).toUInt8
  let out ← writeIf (i + 2 < len) out (i + 2) (r >>> 16).toUInt8
  writeIf (i + 3 < len) out (i + 3) (r >>> 24).toUInt8

def bufferFrom (len : Nat) (g : Xoroshiro128Plus) (out : Vector UInt8 size) (i : Nat) :
    Option (Xoroshiro128Plus × Vector UInt8 size) :=
  if i < len then do
    let out ← writeBytes len out i g.draw.1
    bufferFrom len g.draw.2 out (i + 4)
  else some (g, out)
termination_by len - i

def buffer (g : Xoroshiro128Plus) (out : Vector UInt8 size) (len : Nat) :
    Option (Xoroshiro128Plus × Vector UInt8 size) := bufferFrom len g out 0

def vector (g : Xoroshiro128Plus) (len : Nat) : Option (Xoroshiro128Plus × Vector UInt8 len) :=
  buffer g (Vector.replicate len 0) len

/-- `out'` is `out` with the cells of `p` overwritten. -/
def Overwrites (out out' : Vector UInt8 size) (p : Nat → Prop) (v : Nat → UInt8) : Prop :=
  ∀ j, (p j → out'[j]? = some (v j)) ∧ (¬ p j → out'[j]? = out[j]?)

theorem write?_overwrites (out : Vector UInt8 size) {i : Nat} (v : UInt8) (h : i < size) :
    ∃ out', write? out i v = some out' ∧ Overwrites out out' (· = i) fun _ => v := by
  refine ⟨out.setIfInBounds i v, ?_, ?_⟩
  · unfold write?
    rw [if_pos (by omega)]
    rfl
  · intro j
    rw [Vector.getElem?_setIfInBounds]
    constructor
    · rintro rfl
      simp [h]
    · intro hne
      rw [if_neg (Ne.symm hne)]

theorem writeIf_overwrites {c : Prop} [Decidable c] (out : Vector UInt8 size) {i : Nat} (v : UInt8)
    (h : c → i < size) :
    ∃ out', writeIf c out i v = some out' ∧ Overwrites out out' (fun j => c ∧ j = i) fun _ => v := by
  by_cases hc : c
  · obtain ⟨out', hwrite, hover⟩ := write?_overwrites out v (h hc)
    refine ⟨out', by rw [writeIf, if_pos hc, hwrite], ?_⟩
    intro j
    simpa only [hc, true_and] using hover j
  · refine ⟨out, by rw [writeIf, if_neg hc], ?_⟩
    intro j
    exact ⟨fun hj => absurd hj.1 hc, fun _ => rfl⟩

theorem writeBytes_overwrites {len i : Nat} (out : Vector UInt8 size) (r : UInt64) (hi : i < len)
    (hlen : len ≤ size) :
    ∃ out', writeBytes len out i r = some out' ∧
      Overwrites out out' (fun j => i ≤ j ∧ j < i + 4 ∧ j < len) fun j => byteOf r (j - i) := by
  obtain ⟨out0, h0, hover0⟩ := write?_overwrites out r.toUInt8 (show i < size by omega)
  obtain ⟨out1, h1, hover1⟩ := writeIf_overwrites (c := i + 1 < len) out0 (i := i + 1)
    (r >>> 8).toUInt8 (by omega)
  obtain ⟨out2, h2, hover2⟩ := writeIf_overwrites (c := i + 2 < len) out1 (i := i + 2)
    (r >>> 16).toUInt8 (by omega)
  obtain ⟨out3, h3, hover3⟩ := writeIf_overwrites (c := i + 3 < len) out2 (i := i + 3)
    (r >>> 24).toUInt8 (by omega)
  refine ⟨out3, by simp [writeBytes, h0, h1, h2, h3], ?_⟩
  intro j
  constructor
  · rintro ⟨hlo, hhi, hj⟩
    obtain ⟨m, rfl⟩ := Nat.exists_eq_add_of_le hlo
    have hm : m = 0 ∨ m = 1 ∨ m = 2 ∨ m = 3 := by omega
    show out3[i + m]? = some (byteOf r (i + m - i))
    rw [Nat.add_sub_cancel_left]
    -- the later writes leave the cell alone
    rcases hm with rfl | rfl | rfl | rfl
    · rw [(hover3 _).2 (by omega), (hover2 _).2 (by omega), (hover1 _).2 (by omega),
        (hover0 _).1 (by omega)]
      simp [byteOf]
    · rw [(hover3 _).2 (by omega), (hover2 _).2 (by omega), (hover1 _).1 (by omega)]
      rfl
    · rw [(hover3 _).2 (by omega), (hover2 _).1 (by omega)]
      rfl
    · rw [(hover3 _).1 (by omega)]
      rfl
  · intro hj
    rw [(hover3 _).2 (by omega), (hover2 _).2 (by omega), (hover1 _).2 (by omega),
      (hover0 _).2 (by omega)]

theorem bufferFrom_overwrites {len : Nat} (hlen : len ≤ size) (g : Xoroshiro128Plus)
    (out : Vector UInt8 size) (i : Nat) :
    ∃ out', bufferFrom len g out i = some (next^[(len - i + 3) / 4] g, out') ∧
      Overwrites out out' (fun j => i ≤ j ∧ j < len)
        fun j => byteOf (next^[(j - i) / 4] g).draw.1 ((j - i) % 4) := by
  induction hn : len - i using Nat.strong_induction_on generalizing g out i with
  | h n ih =>
    subst hn
    rw [bufferFrom]
    by_cases hi : i < len
    · obtain ⟨out1, hwrite, hover⟩ := writeBytes_overwrites out g.draw.1 hi hlen
      obtain ⟨out', hrest, hover'⟩ := ih (len - (i + 4)) (by omega) g.next out1 (i + 4) rfl
      refine ⟨out', ?_, ?_⟩
      · have hdraws : (len - i + 3) / 4 = (len - (i + 4) + 3) / 4 + 1 := by omega
        rw [if_pos hi, hwrite, hdraws, Function.iterate_succ_apply]
        exact hrest
      · intro j
        constructor
        · rintro ⟨hlo, hj⟩
          by_cases hfour : j < i + 4
          · have hdiv : (j - i) / 4 = 0 := by omega
            have hmod : (j - i) % 4 = j - i := by omega
            rw [(hover' j).2 (by omega), (hover j).1 ⟨hlo, hfour, hj⟩]
            simp only [hdiv, hmod, Function.iterate_zero_apply]
          · have hdiv : (j - i) / 4 = (j - (i + 4)) / 4 + 1 := by omega
            have hmod : (j - i) % 4 = (j - (i + 4)) % 4 := by omega
            rw [(hover' j).1 ⟨by omega, hj⟩]
            simp only [hdiv, hmod, Function.iterate_succ_apply]
        · intro hj
          rw [(hover' j).2 (by omega), (hover j).2 (by omega)]
    · refine ⟨out, ?_, ?_⟩
      · have hdraws : (len - i + 3) / 4 = 0 := by omega
        rw [if_neg hi, hdraws]
        rfl
      · intro j
        exact ⟨fun hj => absurd hj (by omega), fun _ => rfl⟩

/-- The loop writes the first `len` bytes and no other: byte `j` is one of the
four low bytes of draw `j / 4`, and a draw is used for each four bytes begun. -/
theorem buffer_bytes {len : Nat} (g : Xoroshiro128Plus) (out : Vector UInt8 size)
    (hlen : len ≤ size) :
    ∃ out', buffer g out len = some (next^[(len + 3) / 4] g, out') ∧
      (∀ j, j < len → out'[j]? = some (byteOf (next^[j / 4] g).draw.1 (j % 4))) ∧
      ∀ j, len ≤ j → out'[j]? = out[j]? := by
  obtain ⟨out', hbuffer, hover⟩ := bufferFrom_overwrites hlen g out 0
  refine ⟨out', hbuffer, ?_, ?_⟩
  · intro j hj
    exact (hover j).1 ⟨by omega, hj⟩
  · intro j hj
    exact (hover j).2 (by omega)

theorem buffer_bytes_five : 5 ≤ 6 ∧ ∃ out', buffer ⟨1, 0⟩ (Vector.replicate 6 7) 5 =
    some (next^[2] ⟨1, 0⟩, out') ∧ out'[5]? = some 7 := by
  obtain ⟨out', hbuffer, -, hrest⟩ := buffer_bytes ⟨1, 0⟩ (Vector.replicate 6 7)
    (show 5 ≤ 6 by decide)
  exact ⟨by decide, out', hbuffer, hrest 5 (by decide)⟩

end

/-! Calls of the global generator. -/

inductive RandomCall
  | seed (s0 s1 : UInt64)
  | get
  | vector (len : Nat)

def after (g : Xoroshiro128Plus) : RandomCall → Xoroshiro128Plus
  | .seed s0 s1 => seed s0 s1
  | .get => g.draw.2
  | .vector len => ((g.vector len).map Prod.fst).getD g

/-- Whether a call seeds the generator, and whether with more than zeros. -/
def RandomCall.seeds : RandomCall → Option Bool
  | .seed s0 s1 => some (s0 != 0 || s1 != 0)
  | _ => none

theorem isSeeded_after (g : Xoroshiro128Plus) (call : RandomCall) :
    (g.after call).isSeeded = call.seeds.getD g.isSeeded := by
  cases call with
  | seed s0 s1 => exact isSeeded_next ⟨s0, s1⟩
  | get => exact isSeeded_next g
  | vector len =>
    obtain ⟨out', hbuffer, -⟩ := bufferFrom_overwrites le_rfl g (Vector.replicate len 0) 0
    have hvector : g.vector len = some (next^[(len - 0 + 3) / 4] g, out') := hbuffer
    simp only [after, hvector, Option.map_some, Option.getD_some, isSeeded_iterate]
    rfl

/-- After any run of calls the generator has a seed exactly if the latest one given
was not all zeros. It then comes back to its state within fewer than `2 ^ 128`
draws, so that what it gives repeats from the very next number on; and no other
state is ever in the same place after as many draws. -/
theorem draws_cycle (calls : List RandomCall) (start : Xoroshiro128Plus) :
    (calls.foldl after start).isSeeded = (latest RandomCall.seeds calls).getD start.isSeeded ∧
      ((calls.foldl after start).isSeeded = true → ∃ n, 0 < n ∧ n < 2 ^ 128 ∧
        ∀ k, next^[k + n] (calls.foldl after start) = next^[k] (calls.foldl after start)) ∧
      ∀ g k, next^[k] g = next^[k] (calls.foldl after start) → g = calls.foldl after start := by
  have hrun : (calls.foldl after start).isSeeded =
      (latest RandomCall.seeds calls).getD start.isSeeded :=
    foldl_latest isSeeded (fun g call _ => isSeeded_after g call) start
  refine ⟨hrun, ?_, fun g k heq => next_injective.iterate k heq⟩
  generalize calls.foldl after start = g
  intro hseed
  obtain ⟨n, hpos, hlt, hperiod⟩ := exists_period ⟨g, (isSeeded_iff g).mp hseed⟩
  have hback : next^[n] g = g := by
    rw [← iterate_nextSeeded ⟨g, (isSeeded_iff g).mp hseed⟩, hperiod]
  refine ⟨n, hpos, hlt, ?_⟩
  intro k
  rw [Function.iterate_add_apply, hback]

theorem draws_cycle_seed :
    ∃ n, 0 < n ∧ n < 2 ^ 128 ∧ next^[0 + n] (seed 1 2) = seed 1 2 := by
  obtain ⟨n, hpos, hlt, hperiod⟩ := (draws_cycle [.seed 1 2] {}).2.1 (by decide)
  exact ⟨n, hpos, hlt, hperiod 0⟩

/-! Floats from 0 to 1. -/

open BinaryFloat SinglePrecision

def getUInt32 (g : Xoroshiro128Plus) : UInt32 × Xoroshiro128Plus :=
  ((g.draw.1 >>> 32).toUInt32, g.draw.2)

/-- The factor is the single just below `2 ^ -32`. -/
def getFloat (g : Xoroshiro128Plus) : Float32 × Xoroshiro128Plus :=
  (ofUInt32 g.getUInt32.1 * ofDecimal 232830629 (-18), g.getUInt32.2)

theorem value_factor : value (ofDecimal 232830629 (-18)) = some ((2 ^ 24 - 1) / 2 ^ 56) := by
  decide +kernel

/-- Never 1, also where the drawn number rounds up to `2 ^ 32`. -/
theorem getFloat_unit (g : Xoroshiro128Plus) :
    g.getFloat.2 = next g ∧ ∃ r : ℚ, value g.getFloat.1 = some r ∧ 0 ≤ r ∧ r < 1 ∧
      |r - (g.getUInt32.1.toNat : ℚ) / 2 ^ 32| ≤ (g.getUInt32.1.toNat : ℚ) / 2 ^ 32 / 2 ^ 22 := by
  refine ⟨rfl, ?_⟩
  have hdrawn := value_ofUInt32 g.getUInt32.1
  have hword : ((g.getUInt32.1.toNat : Nat) : ℚ) < 2 ^ 32 := by
    exact_mod_cast g.getUInt32.1.toNat_lt
  show ∃ r : ℚ, value (ofUInt32 g.getUInt32.1 * ofDecimal 232830629 (-18)) = some r ∧ _
  generalize g.getUInt32.1 = u at hdrawn hword ⊢
  rcases Nat.eq_zero_or_pos u.toNat with hzero | hpos
  · rw [hzero, Nat.cast_zero, nearest_zero] at hdrawn
    have hmul := value_mul hdrawn value_factor (.inl rfl)
      (.inr (.of_value value_factor (by norm_num))) (.inl (zero_mul _))
    rw [zero_mul, nearest_zero] at hmul
    exact ⟨0, hmul, le_rfl, by norm_num, by rw [hzero]; norm_num⟩
  · have hone : (1 : ℚ) ≤ u.toNat := by exact_mod_cast hpos
    have hlow := one_le_nearest (p := 24) (by norm_num) hone
    have hhigh := nearest_le_zpow (p := 24) (m := 32) (zero_lt_one.trans_le hone)
      (by exact_mod_cast hword)
    have hrounded := abs_le.mp (abs_nearest_sub_le 24 (u.toNat : ℚ))
    rw [abs_of_pos (by linarith)] at hrounded
    -- the product is at most the single just below 1
    have hprod_pos : 0 < nearest 24 (u.toNat : ℚ) * ((2 ^ 24 - 1) / 2 ^ 56) := by positivity
    have hprod_le : nearest 24 (u.toNat : ℚ) * ((2 ^ 24 - 1) / 2 ^ 56) ≤ 1 - 1 / 2 ^ 24 := by
      norm_num at hhigh ⊢
      linarith
    have hprod_low : 1 / 2 ^ 33 ≤ nearest 24 (u.toNat : ℚ) * ((2 ^ 24 - 1) / 2 ^ 56) := by
      norm_num at hlow ⊢
      linarith
    have hnormal : Normal (nearest 24 (u.toNat : ℚ) * ((2 ^ 24 - 1) / 2 ^ 56)) := by
      exact .of_pos_lt (le_trans (by norm_num) hprod_low) (lt_of_le_of_lt hprod_le (by norm_num))
    have hmul := value_mul hdrawn value_factor
      (.inr (.of_value hdrawn (le_trans (by norm_num) (hlow.trans (le_abs_self _)))))
      (.inr (.of_value value_factor (by norm_num))) (.inr hnormal)
    have herror := abs_le.mp (abs_nearest_sub_le 24
      (nearest 24 (u.toNat : ℚ) * ((2 ^ 24 - 1) / 2 ^ 56)))
    rw [abs_of_pos hprod_pos] at herror
    have hspaced := abs_le.mp (abs_nearest_sub_le_of_lt (m := 0) 24
      (show |nearest 24 (u.toNat : ℚ) * ((2 ^ 24 - 1) / 2 ^ 56)| < 2 ^ (0 : Int) by
        rw [abs_of_pos hprod_pos]
        exact lt_of_le_of_lt hprod_le (by norm_num)))
    refine ⟨_, hmul, by linarith, ?_, ?_⟩
    · norm_num at hspaced hprod_le ⊢
      linarith [hspaced.2]
    · rw [abs_le]
      norm_num at hrounded herror ⊢
      constructor <;> linarith

end Xoroshiro128Plus

end PluginSdk
