import PluginSdk.FirstMatch
import PluginSdk.IndexTable

/-! Finding an element by its base members. Both lookups walk the elements with
a running value of their own and agree with the precomputed index table, whose
rows share no id. -/

namespace PluginSdk

variable {F : Type} [FloatOps F] {els : List (Element F)}

/-- `operator==` on the base members; the float comparisons are those of C++. -/
def BaseElement.eq (a b : BaseElement F) : Bool :=
  FloatOps.eq a.xMm b.xMm && FloatOps.eq a.yMm b.yMm && a.shortName == b.shortName &&
    a.longName == b.longName

def getElementId (els : List (Element F)) (element : BaseElement F) : Option Nat :=
  FirstMatch.search (fun el => element.eq el.toBase) (fun i _ => i + 1) 0 els

/-- `get_indices(element)`: the running totals in front of the element, unmasked. -/
def getIndicesOf (els : List (Element F)) (element : BaseElement F) : Option Indices :=
  FirstMatch.search (fun el => element.eq el.toBase) (fun (idx : Indices) el => idx + count el) {} els

def runningTotal (idx : Indices) (els : List (Element F)) : Indices :=
  els.foldl (fun (idx : Indices) el => idx + count el) idx

structure DistinctElements (els : List (Element F)) : Prop where
  noNaN : ∀ el ∈ els, FloatOps.eq el.toBase.xMm el.toBase.xMm = true ∧
    FloatOps.eq el.toBase.yMm el.toBase.yMm = true
  distinct : ∀ (i j : Nat) a b, els[i]? = some a → els[j]? = some b →
    a.toBase.eq b.toBase = true → i = j

namespace DistinctElements

variable {i : Nat} {el : Element F}

theorem eq_self (h : DistinctElements els) (he : els[i]? = some el) :
    el.toBase.eq el.toBase = true := by
  obtain ⟨hx, hy⟩ := h.noNaN el (List.mem_of_getElem? he)
  simp [BaseElement.eq, hx, hy]

theorem ne_before (h : DistinctElements els) (he : els[i]? = some el) (j : Nat) (a : Element F)
    (hj : j < i) (ha : els[j]? = some a) : el.toBase.eq a.toBase = false := by
  by_contra hne
  have hij := h.distinct i j el a he ha (by simpa using hne)
  omega

theorem getElementId_eq (h : DistinctElements els) (he : els[i]? = some el) :
    getElementId els el.toBase = some i := by
  have hlen : (els.take i).length = i :=
    List.length_take_of_le (List.getElem?_eq_some_iff.mp he).1.le
  rw [getElementId, FirstMatch.search_eq_some he (h.eq_self he) (h.ne_before he),
    List.foldl_const, hlen]
  exact congrArg some (Nat.succ_iterate 0 i |>.trans (Nat.zero_add i))

theorem getIndicesOf_eq (h : DistinctElements els) (he : els[i]? = some el) :
    getIndicesOf els el.toBase = some (runningTotal {} (els.take i)) :=
  FirstMatch.search_eq_some he (h.eq_self he) (h.ne_before he) ({} : Indices)

end DistinctElements

section Table

omit [FloatOps F]

theorem indicesFrom_getElem? {running : Indices} {i : Nat} {el : Element F}
    (he : els[i]? = some el) : (indicesFrom running els)[i]? =
      some (maskedTotal (count el) (runningTotal running (els.take i))) := by
  induction els generalizing running i with
  | nil => simp at he
  | cons a els ih =>
    cases i with
    | zero =>
      obtain rfl : a = el := by simpa using he
      rfl
    | succ i =>
      rw [indicesFrom, List.getElem?_cons_succ, ih he]
      rfl

theorem markUnusedIndices_eq (idx : Indices) (cnt : Counts) :
    markUnusedIndices idx cnt = maskedTotal cnt idx := by
  simp only [markUnusedIndices, maskedTotal, gt_iff_lt, Nat.pos_iff_ne_zero, ite_not]

theorem matched_iff (x y : Indices) :
    matched x y = true ↔ ∃ k, x.idx k = y.idx k ∧ x.idx k ≠ noElementMarker := by
  simp only [matched, Bool.or_eq_true, Bool.and_eq_true, beq_iff_eq, bne_iff_ne]
  constructor
  · rintro (((h | h) | h) | h)
    · exact ⟨.param, h⟩
    · exact ⟨.input, h⟩
    · exact ⟨.output, h⟩
    · exact ⟨.light, h⟩
  · rintro ⟨k, h⟩
    cases k with
    | param => exact .inl (.inl (.inl h))
    | light => exact .inr h
    | input => exact .inl (.inl (.inr h))
    | output => exact .inl (.inr h)

theorem row_unique (hfit : FitsUInt16 els) {i j : Nat} {a b : Element F} {x y : Indices} {k : Kind}
    (ha : els[i]? = some a) (hb : els[j]? = some b) (hx : (getIndices els)[i]? = some x)
    (hy : (getIndices els)[j]? = some y) (hxy : x.idx k = y.idx k)
    (hne : x.idx k ≠ noElementMarker) : i = j := by
  have hka : 0 < (count a).num k :=
    Nat.pos_of_ne_zero fun hz => hne (idx_of_num_zero ha hx hz)
  have hkb : 0 < (count b).num k :=
    Nat.pos_of_ne_zero fun hz => hne (hxy.trans (idx_of_num_zero hb hy hz))
  have hoff := (idx_toNat hfit ha hx hka).symm.trans
    ((congrArg UInt16.toNat hxy).trans (idx_toNat hfit hb hy hkb))
  exact (Tiling.address_inj (sizes_getElem? ha k) (sizes_getElem? hb k) hka hkb
    (congrArg (· + 0) hoff)).1

theorem matched_rows_iff (hfit : FitsUInt16 els) {i j : Nat} {a b : Element F} {x y : Indices}
    (ha : els[i]? = some a) (hb : els[j]? = some b) (hx : (getIndices els)[i]? = some x)
    (hy : (getIndices els)[j]? = some y) :
    matched x y = true ↔ i = j ∧ ∃ k, 0 < (count a).num k := by
  rw [matched_iff]
  constructor
  · rintro ⟨k, hxy, hne⟩
    have hk : 0 < (count a).num k :=
      Nat.pos_of_ne_zero fun hz => hne (idx_of_num_zero ha hx hz)
    exact ⟨row_unique hfit ha hb hx hy hxy hne, k, hk⟩
  · rintro ⟨rfl, k, hk⟩
    obtain rfl : x = y := Option.some.inj (hx.symm.trans hy)
    exact ⟨k, rfl, idx_ne_marker hfit ha hx hk⟩

end Table

theorem lookups_agree_with_table (els : List (Element F)) (hfit : FitsUInt16 els)
    (hdistinct : DistinctElements els) :
    (∀ (i : Nat) el row, els[i]? = some el → (getIndices els)[i]? = some row →
      getElementId els el.toBase = some i ∧
      ∃ idx, getIndicesOf els el.toBase = some idx ∧ markUnusedIndices idx (count el) = row) ∧
    (∀ element : BaseElement F, (∀ el ∈ els, element.eq el.toBase = false) →
      getElementId els element = none ∧ getIndicesOf els element = none) ∧
    ∀ (i j : Nat) a b x y, els[i]? = some a → els[j]? = some b →
      (getIndices els)[i]? = some x → (getIndices els)[j]? = some y →
      (matched x y = true ↔ i = j ∧ ∃ k, 0 < (count a).num k) := by
  refine ⟨fun i el row he ht => ?_, fun element h => ?_, fun i j a b x y ha hb hx hy => ?_⟩
  · refine ⟨hdistinct.getElementId_eq he, _, hdistinct.getIndicesOf_eq he, ?_⟩
    rw [getIndices, indicesFrom_getElem? he] at ht
    rw [markUnusedIndices_eq]
    exact Option.some.inj ht
  · exact ⟨FirstMatch.search_eq_none h 0, FirstMatch.search_eq_none h ({} : Indices)⟩
  · exact matched_rows_iff hfit ha hb hx hy

def lookupPanel : List (Element ℚ) :=
  [.jackInput ⟨0, 0, "In", ""⟩, .textDisplay ⟨0, 5, "Text", ""⟩, .sliderLight ⟨0, 5, "Level", ""⟩]

theorem lookupPanel_distinct : DistinctElements lookupPanel := by
  refine ⟨by decide, fun i j a b ha hb hab => ?_⟩
  have hi := (List.getElem?_eq_some_iff.mp ha).1
  have hj := (List.getElem?_eq_some_iff.mp hb).1
  have hlen : lookupPanel.length = 3 := rfl
  rw [hlen] at hi hj
  interval_cases i <;> interval_cases j <;> cases ha <;> cases hb <;>
    first | rfl | exact absurd hab (by decide)

theorem lookups_agree_with_table_sample :
    getElementId lookupPanel ⟨0, 5, "Level", ""⟩ = some 2 ∧
      getElementId lookupPanel ⟨0, 5, "Other", ""⟩ = none := by
  have hfit : FitsUInt16 lookupPanel := by
    intro k
    cases k <;> decide
  obtain ⟨hfound, hmissing, -⟩ := lookups_agree_with_table lookupPanel hfit lookupPanel_distinct
  exact ⟨(hfound 2 _ _ rfl rfl).1, (hmissing ⟨0, 5, "Other", ""⟩ (by decide)).1⟩

end PluginSdk
