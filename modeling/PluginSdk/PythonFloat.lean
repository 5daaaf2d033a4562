import PluginSdk.PythonText
import Mathlib.Algebra.Order.Floor.Ring
import Mathlib.Data.Rat.Floor
import Mathlib.Tactic.Linarith
import Mathlib.Tactic.Ring

/-! Python floats and the exceptions that numeric code raises. Floats are a
parameter; with rationals in their place the arithmetic is exact. -/

namespace PythonText

inductive PyError
  | valueError | typeError | keyError | indexError | overflowError | userException
  deriving DecidableEq, Repr

/-- Python's `float`, without laws. `ofRat` is the value of a literal and of a
quotient of two integers, `round3` is `round(x, 3)`. -/
class PyFloat (F : Type) where
  ofString : Str → Option F
  ofRat : ℚ → F
  add : F → F → F
  sub : F → F → F
  div : F → F → F
  lt : F → F → Bool
  eq : F → F → Bool
  round3 : F → F
  round : F → Except PyError Int
  str : F → Str

section

variable {F : Type} [PyFloat F]

def floatOf (s : Str) : Except PyError F :=
  match PyFloat.ofString s with
  | some v => .ok v
  | none => .error .valueError

def floatOfAttr (attr : Option Str) : Except PyError F :=
  match attr with
  | some s => floatOf s
  | none => .error .typeError

end

theorem bind_eq_ok {ε α β : Type} {x : Except ε α} {f : α → Except ε β} {b : β} :
    (x >>= f) = .ok b ↔ ∃ a, x = .ok a ∧ f a = .ok b := by
  cases x with
  | error e => exact iff_of_false (fun h => by cases h) fun ⟨_, h, _⟩ => by cases h
  | ok a => exact ⟨fun h => ⟨a, rfl, h⟩, fun ⟨_, ha, h⟩ => by cases ha; exact h⟩

/-- Halves go to the even neighbour. -/
def roundHalfEven (q : ℚ) : Int :=
  if q - ⌊q⌋ < 1 / 2 then ⌊q⌋
  else if 1 / 2 < q - ⌊q⌋ then ⌊q⌋ + 1
  else if ⌊q⌋ % 2 = 0 then ⌊q⌋ else ⌊q⌋ + 1

/-- `length` is `n` units of `unit`, halves counting for the even number. -/
def MeasuresAs (length unit : ℚ) (n : Int) : Prop :=
  |length - n * unit| < unit / 2 ∨ |length - n * unit| = unit / 2 ∧ n % 2 = 0

theorem measuresAs_roundHalfEven {unit : ℚ} (hunit : 0 < unit) (length : ℚ) :
    MeasuresAs length unit (roundHalfEven (length / unit)) := by
  have hfloor := Int.floor_le (length / unit)
  have hceil := Int.lt_floor_add_one (length / unit)
  have hlength : length = length / unit * unit := (div_mul_cancel₀ length hunit.ne').symm
  generalize length / unit = q at hfloor hceil hlength ⊢
  have hdown : |length - ⌊q⌋ * unit| = (q - ⌊q⌋) * unit := by
    rw [hlength, ← sub_mul, abs_of_nonneg (mul_nonneg (by linarith) hunit.le)]
  have hup : |length - (⌊q⌋ + 1 : Int) * unit| = (⌊q⌋ + 1 - q) * unit := by
    rw [hlength, ← sub_mul, abs_of_nonpos (mul_nonpos_of_nonpos_of_nonneg
      (by push_cast; linarith) hunit.le)]
    push_cast
    ring
  unfold roundHalfEven MeasuresAs
  split_ifs with hlow hhigh heven
  · left
    rw [hdown]
    nlinarith
  · left
    rw [hup]
    nlinarith
  · have hhalf : q - ⌊q⌋ = 1 / 2 := le_antisymm (not_lt.mp hhigh) (not_lt.mp hlow)
    right
    rw [hdown, hhalf]
    exact ⟨by ring, heven⟩
  · have hhalf : q - ⌊q⌋ = 1 / 2 := le_antisymm (not_lt.mp hhigh) (not_lt.mp hlow)
    have hhalf' : (⌊q⌋ : ℚ) + 1 - q = 1 / 2 := by linarith
    right
    rw [hup, hhalf']
    exact ⟨by ring, by omega⟩

theorem MeasuresAs.abs_sub_le {length unit : ℚ} {n : Int} (h : MeasuresAs length unit n) :
    |length - n * unit| ≤ unit / 2 := h.elim le_of_lt fun h => h.1.le

theorem MeasuresAs.le {length unit : ℚ} {n m : Int} (hunit : 0 < unit)
    (hn : MeasuresAs length unit n) (hm : MeasuresAs length unit m) : m ≤ n := by
  by_contra hlt
  rw [not_le] at hlt
  have hnext : (n : ℚ) + 1 ≤ m := by exact_mod_cast hlt
  have hle := (abs_le.mp hn.abs_sub_le).2
  have hge := (abs_le.mp hm.abs_sub_le).1
  have hmul : ((n : ℚ) + 1) * unit ≤ m * unit := mul_le_mul_of_nonneg_right hnext hunit.le
  -- both are half a unit away, so both would be even
  have hnhalf : length - n * unit = unit / 2 := by linarith
  have hmhalf : length - m * unit = -(unit / 2) := by linarith
  have habs : |unit / 2| = unit / 2 := abs_of_pos (by linarith)
  have hneven : n % 2 = 0 := by
    rcases hn with hn | hn
    · rw [hnhalf, habs] at hn
      exact absurd hn (lt_irrefl _)
    · exact hn.2
  have hmeven : m % 2 = 0 := by
    rcases hm with hm | hm
    · rw [hmhalf, abs_neg, habs] at hm
      exact absurd hm (lt_irrefl _)
    · exact hm.2
  have hsucc : m = n + 1 := by
    have hq : ((m : ℚ) - (n + 1)) * unit = 0 := by linarith
    have hz : (m : ℚ) - (n + 1) = 0 := (mul_eq_zero.mp hq).resolve_right hunit.ne'
    have hm : (m : ℚ) = ((n + 1 : Int) : ℚ) := by push_cast; linarith
    exact_mod_cast hm
  omega

theorem roundHalfEven_div_eq_iff {length unit : ℚ} {n : Int} (hunit : 0 < unit) :
    roundHalfEven (length / unit) = n ↔ MeasuresAs length unit n := by
  have hround := measuresAs_roundHalfEven hunit length
  constructor
  · intro h
    rwa [h] at hround
  · intro h
    exact le_antisymm (h.le hunit hround) (hround.le hunit h)

def unsignedDecimal (s : Str) : Option ℚ :=
  match s.splitOn '.' with
  | [whole] => (readDecimal whole).map fun n => (n : ℚ)
  | [whole, fraction] =>
    if whole ++ fraction = [] then none
    else do
      let n ← readDigitsOr0 whole
      let m ← readDigitsOr0 fraction
      some (n + m / 10 ^ fraction.length)
  | _ => none
where
  readDecimal (s : Str) : Option Nat := if s = [] then none else readDigitsOr0 s
  readDigitsOr0 (s : Str) : Option Nat :=
    s.foldlM (fun n c => if c.isDigit then some (10 * n + (c.toNat - 48)) else none) 0

/-- Exact arithmetic on plain decimals. -/
instance : PyFloat ℚ where
  ofString
    | '-' :: s => (unsignedDecimal s).map fun q => -q
    | s => unsignedDecimal s
  ofRat q := q
  add a b := a + b
  sub a b := a - b
  div a b := a / b
  lt a b := decide (a < b)
  eq a b := decide (a = b)
  round3 q := roundHalfEven (q * 1000) / 1000
  round q := .ok (roundHalfEven q)
  str q := (toString q).toList

end PythonText
