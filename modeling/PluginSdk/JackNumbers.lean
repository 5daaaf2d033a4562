import PluginSdk.ComponentOrder

/-! The number of a jack in its legacy enum and in the index table. Both count
the jacks of its kind before it, the table in 16 bits. -/

namespace PluginSdk

open PythonText XmlTree

open ElementClass (derivedFrom)

inductive JackSide
  | input | output
  deriving DecidableEq, Repr

namespace JackSide

def category : JackSide → Category
  | input => .input
  | output => .output

def itemPrefix : JackSide → Str
  | input => "Input".toList
  | output => "Output".toList

def kind : JackSide → Kind
  | input => .input
  | output => .output

def elementClass : JackSide → ElementClass
  | input => .jackInput
  | output => .jackOutput

end JackSide

variable {F G : Type}

def Components.legacyJacks (comps : Components F) : JackSide → List (Component F)
  | .input => comps.legacyInputs
  | .output => comps.legacyOutputs

def isJack (side : JackSide) (c : Component F) : Bool := c.category = some side.category

def jacksBefore (comps : Components F) (side : JackSide) (p : Nat) : Nat :=
  ((comps.elements.take p).filter (isJack side)).length

/-- The class of each jack derives from the jack class of its side, and no
other class derives from it. -/
def ClassesFit (comps : Components F) (elementOf : Component F → Element G) : Prop :=
  ∀ side, ∀ c ∈ comps.elements, derivedFrom (elementOf c).type side.elementClass = isJack side c

theorem num_of_jack (side : JackSide) (el : Element G) :
    (count el).num side.kind = if derivedFrom el.type side.elementClass then 1 else 0 := by
  cases side <;> cases el <;> rfl

theorem offset_sizes {els : List (Component F)} {elementOf : Component F → Element G}
    {side : JackSide}
    (h : ∀ c ∈ els, derivedFrom (elementOf c).type side.elementClass = isJack side c) (p : Nat) :
    Tiling.offset (sizes (els.map elementOf) side.kind) p =
      ((els.take p).filter (isJack side)).length := by
  induction els generalizing p with
  | nil => simp [Tiling.offset, sizes]
  | cons c els ih =>
    cases p with
    | zero => rfl
    | succ p =>
      have hrest := ih (fun c' hc' => h c' (List.mem_cons_of_mem c hc')) p
      have hnum := num_of_jack side (elementOf c)
      rw [h c List.mem_cons_self] at hnum
      simp only [Tiling.offset, sizes, List.map_cons, List.take_succ_cons, List.sum_cons,
        List.filter_cons] at hrest ⊢
      rw [hrest, hnum]
      cases isJack side c
      · simp
      · simp [Nat.add_comm]

theorem list_of_isJack {side : JackSide} {c : Component F} (h : isJack side c = true) :
    c.list = some .jacks := by
  rw [Component.list, of_decide_eq_true h]
  cases side <;> rfl

theorem isJack_input (c : Component F) : isJack .input c = decide (c.legacy = some .inputs) := by
  unfold isJack Component.legacy
  cases c.category with
  | none => rfl
  | some cat => cases cat <;> rfl

theorem isJack_output {c : Component F} (h : c.list = some .jacks) :
    isJack .output c = decide (¬ c.legacy = some .inputs) := by
  unfold Component.list at h
  unfold isJack Component.legacy
  cases hc : c.category with
  | none => simp [hc] at h
  | some cat =>
    rw [hc] at h
    cases cat <;> first | rfl | cases h

theorem filter_isJack_nil {cs : List (Component F)} {k : ElementList} (hk : k ≠ .jacks)
    (hcs : ∀ c ∈ cs, c.list = some k) (side : JackSide) : cs.filter (isJack side) = [] := by
  rw [List.filter_eq_nil_iff]
  intro c hc hjack
  have hlist := (hcs c hc).symm.trans (list_of_isJack hjack)
  exact hk (Option.some.inj hlist)

theorem linked_list [PyFloat F] (params : List (Component F)) (c : Component F) :
    (linked params c).list = c.list := by
  unfold linked linkAltParam
  split_ifs
  · split <;> rfl
  · rfl
  · rfl

/-- A jack is found in the index table under the number of jacks before it, modulo `2 ^ 16`. -/
theorem idx_of_jack {comps : Components F} {elementOf : Component F → Element G}
    (hfit : ClassesFit comps elementOf) {side : JackSide} {p : Nat} {c : Component F} {row : Indices}
    (hc : comps.elements[p]? = some c) (hjack : isJack side c = true)
    (hrow : (getIndices (comps.elements.map elementOf))[p]? = some row) :
    (row.idx side.kind).toNat = jacksBefore comps side p % 2 ^ 16 := by
  have hmem : c ∈ comps.elements := List.mem_of_getElem? hc
  have he : (comps.elements.map elementOf)[p]? = some (elementOf c) := by
    rw [List.getElem?_map, hc]
    rfl
  have hnum : 0 < (count (elementOf c)).num side.kind := by
    rw [num_of_jack, hfit side c hmem, hjack]
    decide
  rw [getIndices_idx he hrow, if_pos hnum, offset_sizes (hfit side), UInt16.toNat_ofNat']
  rfl

section

variable [PyFloat F] [Unicode] {els : List SvgElem} {comps : Components F}

theorem list_of_mem_reverse_filter {k : ElementList} {c : Component F}
    (h : c ∈ ((recordsOf els).filter fun c => c.list = some k).reverse) : c.list = some k :=
  of_decide_eq_true (List.mem_filter.mp (List.mem_reverse.mp h)).2

theorem list_of_mem_altParams (h : CollectedInOrder els comps) {c : Component F}
    (hc : c ∈ comps.altParams) : c.list = some .altParams := by
  rw [h.altParams, List.mem_reverse] at hc
  obtain ⟨c', hc', rfl⟩ := List.mem_map.mp hc
  rw [linked_list]
  exact of_decide_eq_true (List.mem_filter.mp hc').2

theorem legacyJacks_eq (h : CollectedInOrder els comps) (side : JackSide) :
    comps.legacyJacks side = comps.jacks.filter (isJack side) := by
  cases side with
  | input =>
    rw [Components.legacyJacks, h.legacyInputs]
    exact List.filter_congr fun c _ => (isJack_input c).symm
  | output =>
    rw [Components.legacyJacks, h.legacyOutputs]
    apply List.filter_congr
    intro c hc
    exact (isJack_output (list_of_mem_reverse_filter (h.jacks ▸ hc))).symm

/-- The jacks of one side among all elements are its legacy list. -/
theorem filter_elements (h : CollectedInOrder els comps) (side : JackSide) :
    comps.elements.filter (isJack side) = comps.legacyJacks side := by
  have hparams : comps.params.filter (isJack side) = [] :=
    filter_isJack_nil (by decide) (fun c hc => list_of_mem_reverse_filter (h.params ▸ hc)) side
  have hlights : comps.lights.filter (isJack side) = [] :=
    filter_isJack_nil (by decide) (fun c hc => list_of_mem_reverse_filter (h.lights ▸ hc)) side
  have halt : comps.altParams.filter (isJack side) = [] :=
    filter_isJack_nil (by decide) (fun c hc => list_of_mem_altParams h hc) side
  rw [h.elements, List.filter_append, List.filter_append, List.filter_append, hparams, hlights,
    halt, List.nil_append, List.append_nil, List.append_nil, legacyJacks_eq h]

theorem isEnumName_of_mem_jacks (h : CollectedInOrder els comps) {c : Component F} {side : JackSide}
    (hc : c ∈ comps.legacyJacks side) : IsEnumName c.legacyEnumName := by
  rw [legacyJacks_eq h, h.jacks] at hc
  have hrecord := List.mem_reverse.mp (List.mem_of_mem_filter hc)
  obtain ⟨_, _, _, hname⟩ := mem_recordsOf (List.mem_of_mem_filter hrecord)
  exact hname

theorem enumerator_of_jack (h : CollectedInOrder els comps) {side : JackSide} {c : Component F}
    {i : Nat} (hc : (comps.legacyJacks side)[i]? = some c) :
    (enumerators (makeLegacyEnum side.itemPrefix (comps.legacyJacks side)))[i]? =
      some (side.itemPrefix ++ c.legacyEnumName) := by
  have hlt : i < (comps.legacyJacks side).length := (List.getElem?_eq_some_iff.mp hc).1
  have hne : comps.legacyJacks side ≠ [] := List.ne_nil_of_length_pos (by omega)
  have hitem : IsEnumName side.itemPrefix ∧ side.itemPrefix ≠ [] := by cases side <;> decide
  rw [enumerators_makeLegacyEnum hitem.1 hitem.2 hne fun k hk => isEnumName_of_mem_jacks h hk,
    List.getElem?_append_left (by simpa using hlt), List.getElem?_map, hc]
  rfl

/-- Nothing is lost or listed twice, all lists keep the reverse document order,
and the enum numbers each jack by the jacks of its side before it. The index
table has the same number modulo `2 ^ 16`. -/
theorem panelToComponents_in_order {root group : SvgNode}
    (hroot : panelToComponents root = .ok comps) (hgroup : getComponentsGroup root = .ok group)
    {elementOf : Component F → Element G} (hfit : ClassesFit comps elementOf) :
    CollectedInOrder (svgElements group) comps ∧
      ∀ side p c, comps.elements[p]? = some c → isJack side c = true →
        (comps.legacyJacks side)[jacksBefore comps side p]? = some c ∧
        (enumerators (makeLegacyEnum side.itemPrefix (comps.legacyJacks side)))[
          jacksBefore comps side p]? = some (side.itemPrefix ++ c.legacyEnumName) ∧
        ∀ row, (getIndices (comps.elements.map elementOf))[p]? = some row →
          (row.idx side.kind).toNat = jacksBefore comps side p % 2 ^ 16 := by
  obtain ⟨dpi, width, hp, group', lists, _, _, _, hgroup', hlists, rfl⟩ :=
    panelToComponents_eq_ok_iff.mp hroot
  obtain rfl : group = group' := Except.ok.inj (hgroup.symm.trans hgroup')
  have horder := collectedInOrder hlists dpi hp (findSlugAndModulename group).1
    (findSlugAndModulename group).2
  refine ⟨horder, fun side p c hc hjack => ?_⟩
  -- the legacy list is what a filter leaves of all elements
  have hplace := Collecting.getElem?_filter_of_getElem? hc hjack
  rw [filter_elements horder] at hplace
  exact ⟨hplace, enumerator_of_jack horder hplace, fun row hrow => idx_of_jack hfit hc hjack hrow⟩

end

/-- Classes as the assumption wants them. -/
def elementByCategory (c : Component ℚ) : Element ℚ :=
  match c.category with
  | some .input => .jackInput ⟨0, 0, "", ""⟩
  | some .output => .jackOutput ⟨0, 0, "", ""⟩
  | _ => .knob ⟨0, 0, "", ""⟩

theorem classesFit_elementByCategory (comps : Components ℚ) : ClassesFit comps elementByCategory := by
  intro side c _
  unfold elementByCategory isJack
  cases c.category with
  | none => cases side <;> rfl
  | some cat => cases side <;> cases cat <;> rfl

def jackPanel : SvgNode := panelOf
  [circleShape "Pitch" "fill:#00ff00;", circleShape "Out" "fill:#0000ff;",
    circleShape "Gate" "fill:#80ff80;"]

open scoped PythonText.AsciiTables in
theorem panelToComponents_in_order_sample :
    ∃ comps, panelToComponents (F := ℚ) jackPanel = .ok comps ∧
      (enumerators (makeLegacyEnum "Input".toList comps.legacyInputs))[1]? =
        some "InputPitch".toList ∧
      ∃ row, (getIndices (comps.elements.map elementByCategory))[2]? = some row ∧
        row.inputIdx.toNat = 1 := by
  have hgroup : getComponentsGroup jackPanel = .ok _ := rfl
  refine ⟨_, rfl, ?_⟩
  have hh := panelToComponents_in_order (F := ℚ) rfl hgroup (classesFit_elementByCategory _)
  obtain ⟨_, henum, hrow⟩ := hh.2 .input 2 _ rfl rfl
  exact ⟨henum, _, rfl, hrow _ rfl⟩

theorem elemsOf_replicate (n : Nat) (tag : Str) (attrs : List (Str × Str)) :
    elemsOf (List.replicate n (Node.element tag attrs [])) = List.replicate n ⟨tag, attrs, []⟩ := by
  induction n with
  | zero => rfl
  | succ n ih =>
    rw [List.replicate_succ, elemsOf, ih]
    rfl

section

open scoped PythonText.AsciiTables

def jackRow (n : Nat) : SvgNode := panelOf (List.replicate n (circleShape "In" "fill:#00ff00;"))

theorem panelToComponents_jackRow (n : Nat) :
    ∃ comps c, panelToComponents (F := ℚ) (jackRow n) = .ok comps ∧
      comps.elements = List.replicate n c ∧ isJack .input c = true := by
  obtain ⟨c, hc, hjack⟩ : ∃ c : Component ℚ,
      componentOf (circleElem "In" "fill:#00ff00;") = .ok (some (.analogIn, c)) ∧
        isJack .input c = true := ⟨_, rfl, rfl⟩
  have hrecord : recordOf (F := ℚ) (circleElem "In" "fill:#00ff00;") = some c := by
    rw [recordOf, Collecting.record, hc]
    rfl
  have hrecords : recordsOf (List.replicate n (circleElem "In" "fill:#00ff00;")) =
      List.replicate n c := List.filterMap_replicate_of_some hrecord
  obtain ⟨lists, hlists⟩ : ∃ lists : ComponentLists ℚ,
      collect (List.replicate n (circleElem "In" "fill:#00ff00;")) = .ok lists := by
    refine ⟨_, Collecting.run_eq_ok_iff.mpr ⟨fun el hel => ?_, rfl⟩⟩
    rw [List.eq_of_mem_replicate hel, Collecting.record, hc]
  have hlist : c.list = some .jacks := list_of_isJack hjack
  have hother : ∀ k, k ≠ ElementList.jacks →
      (List.replicate n c).filter (fun c => c.list = some k) = [] := by
    intro k hk
    refine List.filter_replicate_of_neg ?_
    rw [hlist, decide_eq_true_eq]
    exact fun he => hk (Option.some.inj he).symm
  have hsvg : svgElements (componentsGroup (List.replicate n (circleShape "In" "fill:#00ff00;"))) =
      List.replicate n (circleElem "In" "fill:#00ff00;") := by
    rw [svgElements, componentsGroup, Node.descendants, Node.content, circleShape,
      elemsOf_replicate]
    exact List.filter_replicate_of_pos (by decide)
  obtain ⟨comps, hroot, horder⟩ : ∃ comps, panelToComponents (F := ℚ) (jackRow n) = .ok comps ∧
      CollectedInOrder (List.replicate n (circleElem "In" "fill:#00ff00;")) comps := by
    refine ⟨_, panelToComponents_eq_ok_iff.mpr ⟨_, _, _, _, lists, rfl, rfl, rfl, rfl, ?_, rfl⟩,
      collectedInOrder hlists _ _ _ _⟩
    exact (congrArg collect hsvg).trans hlists
  refine ⟨comps, c, hroot, ?_, hjack⟩
  rw [horder.elements, horder.params, horder.jacks, horder.lights, horder.altParams, hrecords,
    hother .params (by decide), hother .lights (by decide), hother .altParams (by decide),
    List.filter_replicate_of_pos (by simpa using hlist)]
  simp

/-- The index table numbers each jack as the enum does. -/
def TableAgrees (comps : Components ℚ) (elementOf : Component ℚ → Element ℚ) : Prop :=
  ∀ side p c row, comps.elements[p]? = some c → isJack side c = true →
    (getIndices (comps.elements.map elementOf))[p]? = some row →
      (row.idx side.kind).toNat = jacksBefore comps side p

/-- The last of `65537` inputs is number `0` in the table. -/
theorem panelToComponents_in_order_fails :
    ∃ comps, panelToComponents (F := ℚ) (jackRow 65537) = .ok comps ∧
      ClassesFit comps elementByCategory ∧ ¬ TableAgrees comps elementByCategory := by
  obtain ⟨comps, c, hroot, helems, hjack⟩ := panelToComponents_jackRow 65537
  refine ⟨comps, hroot, classesFit_elementByCategory comps, fun hagrees => ?_⟩
  have hc : comps.elements[65536]? = some c := by
    rw [helems, List.getElem?_replicate, if_pos (by decide)]
  have hel : (comps.elements.map elementByCategory)[65536]? = some (elementByCategory c) := by
    rw [List.getElem?_map, hc]
    rfl
  obtain ⟨row, hrow⟩ := getIndices_row hel
  have hbefore : jacksBefore comps .input 65536 = 65536 := by
    rw [jacksBefore, helems, List.take_replicate, List.filter_replicate_of_pos hjack,
      List.length_replicate]
    decide
  have hsame := hagrees .input 65536 c row hc hjack hrow
  rw [idx_of_jack (classesFit_elementByCategory comps) hc hjack hrow, hbefore] at hsame
  exact absurd hsame (by decide)

end

end PluginSdk
