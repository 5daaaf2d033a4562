import Mathlib

/-! Consecutive blocks of a list of sizes. Block `i` starts where the sizes
before it end, so the blocks are disjoint and cover an initial segment. -/

namespace Tiling

def offset (sizes : List Nat) (i : Nat) : Nat := (sizes.take i).sum

/-- The ids that belong to entry `i`; empty when its size is zero. -/
def block (sizes : List Nat) (i : Nat) : Set Nat :=
  Set.Ico (offset sizes i) (offset sizes (i + 1))

@[simp] theorem offset_zero (sizes : List Nat) : offset sizes 0 = 0 := rfl

theorem offset_succ {sizes : List Nat} {i size : Nat} (h : sizes[i]? = some size) :
    offset sizes (i + 1) = offset sizes i + size := by
  simp [offset, List.take_add_one, h]

theorem offset_of_length_le {sizes : List Nat} {i : Nat} (h : sizes.length ≤ i) :
    offset sizes i = sizes.sum := by
  rw [offset, List.take_of_length_le h]

theorem offset_mono (sizes : List Nat) : Monotone (offset sizes) := by
  refine monotone_nat_of_le_succ fun i => ?_
  rcases lt_or_ge i sizes.length with hi | hi
  · have hs := offset_succ (List.getElem?_eq_getElem hi)
    omega
  · rw [offset_of_length_le hi, offset_of_length_le (by omega)]

theorem offset_le_sum (sizes : List Nat) (i : Nat) : offset sizes i ≤ sizes.sum := by
  have hh := offset_mono sizes (le_max_left i sizes.length)
  rwa [offset_of_length_le (le_max_right i sizes.length)] at hh

theorem offset_add_le_sum {sizes : List Nat} {i size : Nat} (h : sizes[i]? = some size) :
    offset sizes i + size ≤ sizes.sum :=
  (offset_succ h).symm.le.trans (offset_le_sum sizes (i + 1))

theorem block_eq {sizes : List Nat} {i size : Nat} (h : sizes[i]? = some size) :
    block sizes i = Set.Ico (offset sizes i) (offset sizes i + size) := by
  rw [block, offset_succ h]

theorem mem_block {sizes : List Nat} {i size k : Nat} (h : sizes[i]? = some size) (hk : k < size) :
    offset sizes i + k ∈ block sizes i := by
  rw [block_eq h]
  exact ⟨by omega, by omega⟩

theorem blocks_disjoint (sizes : List Nat) :
    Pairwise (Function.onFun Disjoint (block sizes)) :=
  (offset_mono sizes).pairwise_disjoint_on_Ico_succ

theorem block_index_unique {sizes : List Nat} {i j x : Nat}
    (hi : x ∈ block sizes i) (hj : x ∈ block sizes j) : i = j := by
  by_contra hne
  exact Set.disjoint_left.mp (blocks_disjoint sizes hne) hi hj

theorem address_inj {sizes : List Nat} {i j m n k l : Nat}
    (hi : sizes[i]? = some m) (hj : sizes[j]? = some n) (hk : k < m) (hl : l < n)
    (h : offset sizes i + k = offset sizes j + l) : i = j ∧ k = l := by
  have hm := mem_block hi hk
  rw [h] at hm
  have he : i = j := block_index_unique hm (mem_block hj hl)
  subst he
  exact ⟨rfl, by omega⟩

theorem exists_block_of_lt {sizes : List Nat} {x : Nat} (n : Nat) (h : x < offset sizes n) :
    ∃ i < n, x ∈ block sizes i := by
  induction n with
  | zero => simp at h
  | succ n ih =>
    rcases lt_or_ge x (offset sizes n) with hx | hx
    · obtain ⟨i, hi, hm⟩ := ih hx
      exact ⟨i, by omega, hm⟩
    · exact ⟨n, by omega, hx, h⟩

theorem mem_some_block_iff {sizes : List Nat} {x : Nat} :
    (∃ i < sizes.length, x ∈ block sizes i) ↔ x < sizes.sum := by
  constructor
  · rintro ⟨i, _, _, hx⟩
    exact hx.trans_le (offset_le_sum sizes (i + 1))
  · intro hx
    exact exists_block_of_lt sizes.length (by rwa [offset_of_length_le (Nat.le_refl _)])

end Tiling
