import PluginSdk.ElementCount
import Mathlib.Data.Set.Lattice

/-! The index table over a whole list of elements. As long as no kind has
more than `0xFFFF` entries, the rows tile the ids of each kind. -/

namespace PluginSdk

variable {F : Type} {els : List (Element F)} {i : Nat} {el : Element F} {idx : Indices} {k : Kind}

def FitsUInt16 (els : List (Element F)) : Prop := ∀ k, (countAll els).num k ≤ 0xFFFF

/-- The ids of kind `k` that row `i` of the table assigns to its element. -/
def idInterval (els : List (Element F)) (k : Kind) (i : Nat) : Set Nat :=
  {x | ∃ el idx, els[i]? = some el ∧ (getIndices els)[i]? = some idx ∧ 0 < (count el).num k ∧
    (idx.idx k).toNat ≤ x ∧ x < (idx.idx k).toNat + (count el).num k}

theorem sizes_getElem? (he : els[i]? = some el) (k : Kind) :
    (sizes els k)[i]? = some ((count el).num k) := by
  simp [sizes, he]

theorem getIndices_row (he : els[i]? = some el) : ∃ idx, (getIndices els)[i]? = some idx := by
  have hi : i < (getIndices els).length := by
    rw [getIndices_length]
    exact (List.getElem?_eq_some_iff.mp he).1
  exact ⟨_, List.getElem?_eq_getElem hi⟩

/-- Also beyond `0xFFFF` entries, a wrapped id stays below the total. -/
theorem idx_add_le_total (he : els[i]? = some el) (ht : (getIndices els)[i]? = some idx)
    (hk : 0 < (count el).num k) :
    (idx.idx k).toNat + (count el).num k ≤ (countAll els).num k := by
  have hb := Tiling.offset_add_le_sum (sizes_getElem? he k)
  have hm := Nat.mod_le (Tiling.offset (sizes els k) i) (2 ^ 16)
  rw [getIndices_idx he ht, if_pos hk, countAll_num, UInt16.toNat_ofNat']
  omega

theorem idx_toNat (hfit : FitsUInt16 els) (he : els[i]? = some el)
    (ht : (getIndices els)[i]? = some idx) (hk : 0 < (count el).num k) :
    (idx.idx k).toNat = Tiling.offset (sizes els k) i := by
  have hb := Tiling.offset_add_le_sum (sizes_getElem? he k)
  have hf := hfit k
  rw [countAll_num] at hf
  rw [getIndices_idx he ht, if_pos hk, UInt16.toNat_ofNat', Nat.mod_eq_of_lt (by omega)]

theorem idx_ne_marker (hfit : FitsUInt16 els) (he : els[i]? = some el)
    (ht : (getIndices els)[i]? = some idx) (hk : 0 < (count el).num k) :
    idx.idx k ≠ noElementMarker := by
  intro hm
  have hb := idx_add_le_total he ht hk
  have hf := hfit k
  have hn : (idx.idx k).toNat = 0xFFFF := by rw [hm]; rfl
  omega

theorem idx_of_num_zero (he : els[i]? = some el) (ht : (getIndices els)[i]? = some idx)
    (hk : (count el).num k = 0) : idx.idx k = noElementMarker := by
  rw [getIndices_idx he ht, if_neg (by omega)]

theorem idInterval_eq_block (hfit : FitsUInt16 els) (k : Kind) (i : Nat) :
    idInterval els k i = if i < els.length then Tiling.block (sizes els k) i else ∅ := by
  ext x
  split_ifs with hi
  · have he : els[i]? = some els[i] := List.getElem?_eq_getElem hi
    obtain ⟨idx, ht⟩ := getIndices_row he
    rw [Tiling.block_eq (sizes_getElem? he k)]
    constructor
    · rintro ⟨el, idx, he, ht, hk, hlo, hhi⟩
      rw [idx_toNat hfit he ht hk] at hlo hhi
      have hel : els[i] = el := (List.getElem?_eq_some_iff.mp he).2
      rw [hel]
      exact ⟨hlo, hhi⟩
    · rintro ⟨hlo, hhi⟩
      have hk : 0 < (count els[i]).num k := by omega
      have hn := idx_toNat hfit he ht hk
      exact ⟨els[i], idx, he, ht, hk, by omega, by omega⟩
  · refine iff_of_false ?_ (Set.notMem_empty x)
    rintro ⟨el, idx, he, _⟩
    exact hi (List.getElem?_eq_some_iff.mp he).1

theorem idInterval_subset_block (hfit : FitsUInt16 els) (k : Kind) (i : Nat) :
    idInterval els k i ⊆ Tiling.block (sizes els k) i := by
  rw [idInterval_eq_block hfit]
  split_ifs
  · exact Set.Subset.rfl
  · exact Set.empty_subset _

theorem writeIndices_eq (els : List (Element F)) (running : Indices) (i : Nat)
    (span : List Indices) (h : i + els.length ≤ span.length) :
    writeIndices running i els span =
      some (span.take i ++ indicesFrom running els ++ span.drop (i + els.length)) := by
  induction els generalizing running i span with
  | nil => simp [writeIndices, indicesFrom]
  | cons el els ih =>
    simp only [List.length_cons] at h ⊢
    have hi : i < span.length := by omega
    rw [writeIndices, if_pos hi, ih _ _ _ (by simpa using by omega)]
    have hs : span.set i (maskedTotal (count el) running) =
        (span.take i ++ [maskedTotal (count el) running]) ++ span.drop (i + 1) := by
      rw [List.set_eq_take_append_cons_drop, if_pos hi, List.append_assoc, List.singleton_append]
    have hl : (span.take i ++ [maskedTotal (count el) running]).length = i + 1 := by
      simp [Nat.min_eq_left hi.le]
    have ht : (span.set i (maskedTotal (count el) running)).take (i + 1) =
        span.take i ++ [maskedTotal (count el) running] := by
      rw [hs, List.take_left' hl]
    have hd : (span.set i (maskedTotal (count el) running)).drop (i + 1 + els.length) =
        span.drop (i + (els.length + 1)) := by
      rw [← List.drop_drop, hs, List.drop_left' hl, List.drop_drop, show
        i + 1 + els.length = i + (els.length + 1) by omega]
    rw [ht, hd]
    simp [indicesFrom]

/-- Every kind's ids `0 .. total` are handed out once each, in element order,
by both overloads; elements without an entry get the marker, which is no id. -/
theorem getIndices_tile_ids (els : List (Element F)) (hfit : FitsUInt16 els) :
    (getIndices els).length = els.length ∧
    (∀ span : List Indices, els.length ≤ span.length →
      getIndicesInto els span = some (getIndices els ++ span.drop els.length)) ∧
    ∀ k : Kind,
      (∀ i el idx, els[i]? = some el → (getIndices els)[i]? = some idx →
        (0 < (count el).num k →
          (idx.idx k).toNat = ((els.take i).map fun e => (count e).num k).sum) ∧
        ((count el).num k = 0 → idx.idx k = noElementMarker)) ∧
      (∀ i j, i < j → ∀ x ∈ idInterval els k i, ∀ y ∈ idInterval els k j, x < y) ∧
      Pairwise (Function.onFun Disjoint (idInterval els k)) ∧
      (⋃ i, idInterval els k i) = Set.Iio ((countAll els).num k) ∧
      ∀ i, noElementMarker.toNat ∉ idInterval els k i := by
  refine ⟨getIndices_length els, fun span h => ?_, fun k => ⟨?_, ?_, ?_, ?_, ?_⟩⟩
  · have hw := writeIndices_eq els {} 0 span (by omega)
    simpa [getIndicesInto, getIndices] using hw
  · intro i el idx he ht
    refine ⟨fun hk => ?_, idx_of_num_zero he ht⟩
    rw [idx_toNat hfit he ht hk, Tiling.offset, sizes, List.map_take]
  · intro i j hij x hx y hy
    have hx' := (idInterval_subset_block hfit k i hx).2
    have hy' := (idInterval_subset_block hfit k j hy).1
    exact hx'.trans_le ((Tiling.offset_mono _ hij).trans hy')
  · intro i j hij
    exact (Tiling.blocks_disjoint (sizes els k) hij).mono
      (idInterval_subset_block hfit k i) (idInterval_subset_block hfit k j)
  · ext x
    rw [Set.mem_iUnion, Set.mem_Iio, countAll_num, ← Tiling.mem_some_block_iff]
    simp only [idInterval_eq_block hfit]
    constructor
    · rintro ⟨i, hx⟩
      split_ifs at hx with hi
      · exact ⟨i, by simpa [sizes] using hi, hx⟩
      · exact absurd hx (Set.notMem_empty x)
    · rintro ⟨i, hi, hx⟩
      have hi' : i < els.length := by simpa [sizes] using hi
      exact ⟨i, by simpa only [if_pos hi'] using hx⟩
  · rintro i ⟨el, idx, he, ht, hk, hlo, hhi⟩
    have hb := idx_add_le_total he ht hk
    have hf := hfit k
    have hn : noElementMarker.toNat = 0xFFFF := rfl
    omega

def samplePanel : List (Element ℚ) :=
  let el : BaseElement ℚ := ⟨0, 0, "", ""⟩
  [.jackInput el, .sliderLight el, .textDisplay el, .rgbLight el, .jackOutput el, .knob el]

theorem samplePanel_fits : FitsUInt16 samplePanel := by
  intro k
  cases k <;> decide

theorem getIndices_tile_samplePanel :
    (⋃ i, idInterval samplePanel .light i) = Set.Iio 4 ∧
    getIndicesInto samplePanel (List.replicate 8 noElementIndices) =
      some (getIndices samplePanel ++ [noElementIndices, noElementIndices]) := by
  have hh := getIndices_tile_ids samplePanel samplePanel_fits
  exact ⟨(hh.2.2 .light).2.2.2.1, hh.2.1 (List.replicate 8 noElementIndices) (by decide)⟩

end PluginSdk
