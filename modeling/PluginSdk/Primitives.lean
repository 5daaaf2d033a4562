import Mathlib.Data.Rat.Floor

/-! The C++ scalar operations the sources rely on. `float` is a parameter:
nothing here is assumed about it beyond the operations themselves. -/

namespace PluginSdk

/-- The operations on `float` that the sources use, without laws. -/
class FloatOps (F : Type) extends Zero F, One F, Add F, Sub F, Neg F, Mul F where
  lt : F → F → Bool
  eq : F → F → Bool
  half : F
  ofUnsigned : UInt32 → F
  round : F → F
  toUnsigned : F → UInt32

namespace FloatOps

variable {F : Type} [FloatOps F]

def min (a b : F) : F := if lt b a then b else a

def max (a b : F) : F := if lt a b then b else a

def clamp (v lo hi : F) : F := if lt v lo then lo else if lt hi v then hi else v

end FloatOps

/-- Exact arithmetic: `round` takes halves away from zero and `toUnsigned`
truncates. -/
instance : FloatOps ℚ where
  lt a b := decide (a < b)
  eq a b := decide (a = b)
  half := 1 / 2
  ofUnsigned n := n.toNat
  round q := if 0 ≤ q then ⌊q + 1 / 2⌋ else -⌊-q + 1 / 2⌋
  toUnsigned q := UInt32.ofNat ⌊q⌋.toNat

def sizeT (id : Int32) : Nat := id.toUInt32.toNat

def clampUnsigned (v lo hi : Nat) : Nat := if v < lo then lo else if hi < v then hi else v

theorem clampUnsigned_eq {lo hi : Nat} (h : lo ≤ hi) (v : Nat) :
    clampUnsigned v lo hi = max lo (min v hi) := by
  unfold clampUnsigned
  split_ifs <;> omega

theorem clampUnsigned_bounds {lo hi : Nat} (h : lo ≤ hi) (v : Nat) :
    lo ≤ clampUnsigned v lo hi ∧ clampUnsigned v lo hi ≤ hi := by
  rw [clampUnsigned_eq h]
  exact ⟨le_max_left _ _, max_le h (min_le_right v hi)⟩

/-- Below `INT_MAX` the cast identifies exactly the id itself. -/
theorem sizeT_eq_iff {id : Int32} {n : Nat} (hn : n < 2 ^ 31) : sizeT id = n ↔ id.toInt = n := by
  have hc : id.toInt = if 2 * sizeT id < 2 ^ 32 then (sizeT id : Int) else sizeT id - 2 ^ 32 := by
    exact BitVec.toInt_eq_toNat_cond id.toBitVec
  have hlt : sizeT id < 2 ^ 32 := id.toUInt32.toNat_lt
  have hhi := id.toInt_lt
  split_ifs at hc <;> omega

end PluginSdk
