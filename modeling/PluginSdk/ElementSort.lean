import PluginSdk.ComparatorSort
import PluginSdk.ElementCount
import Mathlib.Data.Prod.Lex

/-! `populate_sorted_elements_indices`: pairs of an element and its indices are
sorted by the indices and then taken apart into two vectors. `std::sort` itself
is a parameter. -/

namespace PluginSdk

variable {F : Type}

def Indices.sortsBefore (aidx bidx : Indices) : Bool :=
  if aidx.paramIdx < bidx.paramIdx then true
  else if bidx.paramIdx < aidx.paramIdx then false
  else if aidx.inputIdx < bidx.inputIdx then true
  else if bidx.inputIdx < aidx.inputIdx then false
  else if aidx.outputIdx < bidx.outputIdx then true
  else if bidx.outputIdx < aidx.outputIdx then false
  else if aidx.lightIdx < bidx.lightIdx then true
  else false

def sortsBefore (a b : Element F × Indices) : Bool := a.2.sortsBefore b.2

structure SortedElements (F : Type) where
  elemIdx : List (Element F × Indices)
  elements : List (Element F)
  indices : List Indices

def SortedElements.clear (out : SortedElements F) : SortedElements F :=
  { out with elements := [], indices := [] }

def SortedElements.pushBack (out : SortedElements F) (elemidx : Element F × Indices) :
    SortedElements F :=
  { out with
    elements := out.elements ++ [elemidx.1]
    indices := out.indices ++ [elemidx.2] }

/-- All three vectors are passed by reference, so all three come back. -/
def populateSortedElementsIndices
    (sort : (Element F × Indices → Element F × Indices → Bool) → List (Element F × Indices) →
      List (Element F × Indices))
    (elemIdx : List (Element F × Indices)) (elements : List (Element F)) (indices : List Indices) :
    SortedElements F :=
  let elemIdx := sort sortsBefore elemIdx
  elemIdx.foldl SortedElements.pushBack (SortedElements.clear { elemIdx, elements, indices })

/-- Params first, then inputs, outputs and lights. -/
abbrev SortKey := Nat ×ₗ Nat ×ₗ Nat ×ₗ Nat

def Indices.sortKey (idx : Indices) : SortKey :=
  toLex (idx.paramIdx.toNat, toLex (idx.inputIdx.toNat,
    toLex (idx.outputIdx.toNat, idx.lightIdx.toNat)))

theorem lt_sortKey_iff (a b : Indices) : a.sortKey < b.sortKey ↔
    a.paramIdx < b.paramIdx ∨ a.paramIdx = b.paramIdx ∧
      (a.inputIdx < b.inputIdx ∨ a.inputIdx = b.inputIdx ∧
        (a.outputIdx < b.outputIdx ∨ a.outputIdx = b.outputIdx ∧ a.lightIdx < b.lightIdx)) := by
  simp only [Indices.sortKey, Prod.Lex.toLex_lt_toLex, UInt16.lt_iff_toNat_lt, UInt16.toNat_inj]

theorem sortKey_injective : Function.Injective Indices.sortKey := by
  intro a b h
  simp only [Indices.sortKey, EmbeddingLike.apply_eq_iff_eq, Prod.mk.injEq,
    UInt16.toNat_inj] at h
  obtain ⟨hp, hi, ho, hl⟩ := h
  cases a
  cases b
  simp_all

theorem Indices.sortsBefore_iff (a b : Indices) :
    a.sortsBefore b = true ↔ a.sortKey < b.sortKey := by
  rw [lt_sortKey_iff]
  simp only [sortsBefore, UInt16.lt_iff_toNat_lt, ← UInt16.toNat_inj]
  split_ifs <;> simp <;> omega

theorem sortsBefore_iff (a b : Element F × Indices) :
    sortsBefore a b = true ↔ a.2.sortKey < b.2.sortKey := a.2.sortsBefore_iff b.2

theorem sortKey_le_marker (idx : Indices) (k : Kind) : idx.idx k ≤ noElementMarker := by
  have hlt := (idx.idx k).toNat_lt
  have hm : noElementMarker.toNat = 2 ^ 16 - 1 := rfl
  rw [UInt16.le_iff_toNat_le]
  omega

theorem foldl_pushBack (tuples : List (Element F × Indices)) (out : SortedElements F) :
    tuples.foldl SortedElements.pushBack out =
      { out with
        elements := out.elements ++ tuples.map Prod.fst
        indices := out.indices ++ tuples.map Prod.snd } := by
  induction tuples generalizing out with
  | nil => simp
  | cons tuple tuples ih =>
    rw [List.foldl_cons, ih]
    simp [SortedElements.pushBack]

variable {sort : (Element F × Indices → Element F × Indices → Bool) →
  List (Element F × Indices) → List (Element F × Indices)}

/-- The old contents of the output vectors do not matter. -/
theorem populateSortedElementsIndices_eq (elemIdx : List (Element F × Indices))
    (elements : List (Element F)) (indices : List Indices) :
    populateSortedElementsIndices sort elemIdx elements indices =
      { elemIdx := sort sortsBefore elemIdx
        elements := (sort sortsBefore elemIdx).map Prod.fst
        indices := (sort sortsBefore elemIdx).map Prod.snd } := by
  rw [populateSortedElementsIndices, foldl_pushBack]
  rfl

theorem populateSortedElementsIndices_sorts (hsort : ComparatorSort.Sorts sort) :
    ComparatorSort.StrictWeak Indices.sortsBefore ∧
    (∀ elemIdx elements indices,
      let out := populateSortedElementsIndices sort elemIdx elements indices
      out.elements.length = elemIdx.length ∧ out.indices.length = elemIdx.length ∧
      (out.elements.zip out.indices).Perm elemIdx ∧
      out.indices.Pairwise (fun a b => a.sortKey ≤ b.sortKey) ∧
      ∀ idx ∈ out.indices, ∀ k, idx.idx k ≤ noElementMarker) ∧
    ∀ xs ys elements indices elements' indices', xs.Perm ys → (xs.map Prod.snd).Nodup →
      let out := populateSortedElementsIndices sort xs elements indices
      let out' := populateSortedElementsIndices sort ys elements' indices'
      out.elements = out'.elements ∧ out.indices = out'.indices := by
  have hlt := sortsBefore_iff (F := F)
  refine ⟨ComparatorSort.strictWeak_of_key Indices.sortsBefore_iff,
    fun elemIdx elements indices => ?_, fun xs ys _ _ _ _ hperm hnd => ?_⟩
  · have hp := hsort.perm _ (ComparatorSort.strictWeak_of_key hlt) elemIdx
    simp only [populateSortedElementsIndices_eq]
    refine ⟨?_, ?_, ?_, ?_, fun idx _ k => sortKey_le_marker idx k⟩
    · rw [List.length_map, hp.length_eq]
    · rw [List.length_map, hp.length_eq]
    · have hzip : sort sortsBefore elemIdx = _ := List.zip_of_prod rfl rfl
      rwa [← hzip]
    · exact List.pairwise_map.mpr (hsort.key_le hlt elemIdx)
  · have hkeys : (xs.map fun x => x.2.sortKey).Nodup := by
      have hh := hnd.map sortKey_injective
      rwa [List.map_map] at hh
    simp only [populateSortedElementsIndices_eq]
    rw [hsort.eq_of_perm hlt hperm hkeys]
    exact ⟨rfl, rfl⟩

theorem populateSortedElementsIndices_sorts_sample :
    let jack : Element ℚ := .jackInput ⟨0, 0, "In", ""⟩
    let knob : Element ℚ := .knob ⟨0, 5, "Level", ""⟩
    let jackIdx : Indices := ⟨0xFFFF, 0xFFFF, 0, 0xFFFF⟩
    let knobIdx : Indices := ⟨0, 0xFFFF, 0xFFFF, 0xFFFF⟩
    let sort := fun lt xs => xs.mergeSort fun a b => !lt b a
    (populateSortedElementsIndices sort [(jack, jackIdx), (knob, knobIdx)] [knob] []).elements =
      (populateSortedElementsIndices sort [(knob, knobIdx), (jack, jackIdx)] [] [jackIdx]).elements := by
  intro jack knob jackIdx knobIdx sort
  obtain ⟨-, -, hperm⟩ :=
    populateSortedElementsIndices_sorts (F := ℚ) ComparatorSort.mergeSort_sorts
  exact (hperm [(jack, jackIdx), (knob, knobIdx)] [(knob, knobIdx), (jack, jackIdx)] [knob] []
    [] [jackIdx] (List.Perm.swap _ _ []) (by decide)).1

end PluginSdk
