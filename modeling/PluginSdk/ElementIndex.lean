import PluginSdk.IndexTable

/-! The id of an element within its table row, and a row made from an id.
Both dispatch on the class of the element, each with an overload set of its own. -/

namespace PluginSdk

open ElementClass (tree derivedFrom)

variable {F : Type}

def getIndexOverload : ElementClass → Option (Indices → UInt16)
  | .paramElement => some Indices.paramIdx
  | .lightElement => some Indices.lightIdx
  | .jackInput => some Indices.inputIdx
  | .jackOutput => some Indices.outputIdx
  | .baseElement => some fun _ => noElementMarker
  | _ => none

def getIndex (el : Element F) (indices : Indices) : UInt16 :=
  (tree.lookup getIndexOverload el.type).elim noElementMarker (· indices)

def setIndexOverload : ElementClass → Option (UInt16 → Indices)
  | .paramElement | .altParamElement => some fun idx => { noElementIndices with paramIdx := idx }
  | .lightElement => some fun idx => { noElementIndices with lightIdx := idx }
  | .jackInput => some fun idx => { noElementIndices with inputIdx := idx }
  | .jackOutput => some fun idx => { noElementIndices with outputIdx := idx }
  | .baseElement => some fun _ => noElementIndices
  | _ => none

/-- The parameter is a `uint8_t`, widened again when the visitor stores it. -/
def setIndex (el : Element F) (idx : UInt8) : Indices :=
  (tree.lookup setIndexOverload el.type).elim noElementIndices (· idx.toUInt16)

/-- The kind whose id names the element: its param if it has one. -/
def ownKind (el : Element F) : Option Kind :=
  if 0 < (count el).numParams then some .param
  else if 0 < (count el).numLights then some .light
  else if 0 < (count el).numInputs then some .input
  else if 0 < (count el).numOutputs then some .output
  else none

theorem num_pos_of_ownKind {el : Element F} {k : Kind} (h : ownKind el = some k) :
    0 < (count el).num k := by
  unfold ownKind at h
  split_ifs at h with hp hl hi ho <;> cases h <;> assumption

theorem ownKind_of_num_pos {el : Element F} {k : Kind} (h : 0 < (count el).num k) :
    ∃ k', ownKind el = some k' := by
  unfold ownKind
  split_ifs with hp hl hi ho
  · exact ⟨_, rfl⟩
  · exact ⟨_, rfl⟩
  · exact ⟨_, rfl⟩
  · exact ⟨_, rfl⟩
  · cases k <;> simp_all [Counts.num]

/-- The alternatives below `AltParamElement` reach the `BaseElement` overload. -/
theorem getIndex_eq {el : Element F} {k : Kind} (h : ownKind el = some k) (a : Indices) :
    getIndex el a = if derivedFrom el.type .altParamElement then noElementMarker else a.idx k := by
  cases el <;> cases h <;> rfl

theorem setIndex_idx {el : Element F} {k : Kind} (h : ownKind el = some k) (id : UInt8) (k' : Kind) :
    (setIndex el id).idx k' = if k' = k then id.toUInt16 else noElementMarker := by
  cases el <;> cases h <;> cases k' <;> rfl

theorem toUInt8_toUInt16_eq_iff (id : UInt16) : id.toUInt8.toUInt16 = id ↔ id.toNat < 256 := by
  rw [← UInt16.toNat_inj]
  simp only [UInt8.toNat_toUInt16, UInt16.toNat_toUInt8]
  omega

/-- What the two functions promise for an element, its row and an id: the
row's own entry is found, and an id survives being stored and read back. -/
def AgreesWithRow (el : Element F) (row : Indices) (id : UInt16) : Prop :=
  ∃ k, ownKind el = some k ∧ getIndex el row = row.idx k ∧
    getIndex el (setIndex el id.toUInt8) = id ∧
    ∀ k', k' ≠ k → (setIndex el id.toUInt8).idx k' = noElementMarker

/-- The promise is kept exactly for elements other than alt params and for
ids that fit the `uint8_t` parameter. -/
theorem agreesWithRow_iff {els : List (Element F)} {i : Nat} {el : Element F} {row : Indices}
    {kind : Kind} (hfit : FitsUInt16 els) (he : els[i]? = some el)
    (ht : (getIndices els)[i]? = some row) (hentry : 0 < (count el).num kind) (id : UInt16) :
    AgreesWithRow el row id ↔
      derivedFrom el.type .altParamElement = false ∧ id.toNat < 256 := by
  obtain ⟨k, hk⟩ := ownKind_of_num_pos hentry
  have hrow : row.idx k ≠ noElementMarker := idx_ne_marker hfit he ht (num_pos_of_ownKind hk)
  constructor
  · rintro ⟨k', hk', hget, hround, _⟩
    obtain rfl : k' = k := Option.some.inj (hk'.symm.trans hk)
    rw [getIndex_eq hk] at hget hround
    cases halt : derivedFrom el.type .altParamElement with
    | true =>
      rw [halt, if_pos rfl] at hget
      exact absurd hget.symm hrow
    | false =>
      rw [halt, if_neg (by decide), setIndex_idx hk, if_pos rfl] at hround
      exact ⟨rfl, (toUInt8_toUInt16_eq_iff id).mp hround⟩
  · rintro ⟨halt, hlt⟩
    refine ⟨k, hk, ?_, ?_, fun k' hk' => ?_⟩
    · rw [getIndex_eq hk, halt, if_neg (by decide)]
    · rw [getIndex_eq hk, halt, if_neg (by decide), setIndex_idx hk, if_pos rfl]
      exact (toUInt8_toUInt16_eq_iff id).mpr hlt
    · rw [setIndex_idx hk, if_neg hk']

theorem agreesWithRow_sample :
    AgreesWithRow (.knob ⟨0, 0, "", ""⟩ : Element ℚ) ⟨1, 0xFFFF, 0xFFFF, 0xFFFF⟩ 200 := by
  have he : samplePanel[5]? = some (.knob ⟨0, 0, "", ""⟩) := rfl
  have ht : (getIndices samplePanel)[5]? = some ⟨1, 0xFFFF, 0xFFFF, 0xFFFF⟩ := by decide
  have hk : 0 < (count (.knob ⟨0, 0, "", ""⟩ : Element ℚ)).num .param := by decide
  exact (agreesWithRow_iff samplePanel_fits he ht hk 200).mpr (by decide)

/-- The only alt param of a panel is read back as no element at all, and id
`300` of an encoder comes back as `44`. -/
theorem getIndex_setIndex_fail :
    (∃ (els : List (Element ℚ)) (el : Element ℚ) (row : Indices), FitsUInt16 els ∧
      els[0]? = some el ∧ (getIndices els)[0]? = some row ∧ 0 < (count el).numParams ∧
      getIndex el row ≠ row.paramIdx) ∧
    getIndex (.encoder ⟨0, 0, "", ""⟩ : Element ℚ)
      (setIndex (.encoder ⟨0, 0, "", ""⟩ : Element ℚ) (300 : UInt16).toUInt8) = 44 := by
  refine ⟨⟨[.altParamContinuous ⟨0, 0, "", ""⟩], .altParamContinuous ⟨0, 0, "", ""⟩,
    ⟨0, 0xFFFF, 0xFFFF, 0xFFFF⟩, ?_, rfl, rfl, by decide, by decide⟩, by decide⟩
  intro k
  cases k <;> decide

end PluginSdk
