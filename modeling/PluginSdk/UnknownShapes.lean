import PluginSdk.PanelComponents

/-! A shape whose colour belongs to no branch. The loop means to skip it, but
converts the end of the colour to a number first. -/

namespace PluginSdk

open PythonText XmlTree

/-- No test of the dispatch holds of the colour, whatever number it ends in. -/
def IsUnknownColor (color : Str) : Prop :=
  ¬ "#ff00".toList <+: color ∧ ¬ "#8080".toList <+: color ∧ color ∉ knownColors

instance (color : Str) : Decidable (IsUnknownColor color) :=
  inferInstanceAs (Decidable (_ ∧ _ ∧ _))

theorem isUnknownColor_iff {color : Str} :
    IsUnknownColor color ↔ ∀ isRect n, branchOf isRect color n = none := by
  constructor
  · rintro ⟨hred, hgrey, hknown⟩ isRect n
    rw [branchOf_of_notMem hknown, if_neg hred, if_neg hgrey]
  · intro h
    have hknown : color ∉ knownColors := by
      have hall : ∀ known ∈ knownColors, branchOf true known 0 ≠ none := by decide
      exact fun hmem => hall color hmem (h true 0)
    have hnone := h true 0
    rw [branchOf_of_notMem hknown] at hnone
    split_ifs at hnone with hred hgrey
    exact ⟨hred, hgrey, hknown⟩

variable {F : Type} [PyFloat F]

variable (F) in
/-- If the name carries a range, `float` accepts both its bounds. -/
def HasReadableRange [Unicode] (name : Str) : Prop :=
  ∀ bare lo hi rest, (splitPositions (splitClass name).1).1.splitOn '!' = bare :: lo :: hi :: rest →
    (PyFloat.ofString lo : Option F).isSome ∧ (PyFloat.ofString hi : Option F).isSome

theorem floatOf_eq_ok_iff {s : Str} {v : F} : floatOf s = .ok v ↔ PyFloat.ofString s = some v := by
  unfold floatOf
  cases PyFloat.ofString (F := F) s <;> simp

theorem splitRange_ok_iff (name : Str) :
    (∃ r, splitRange (F := F) name = .ok r) ↔
      ∀ bare lo hi rest, name.splitOn '!' = bare :: lo :: hi :: rest →
        (PyFloat.ofString lo : Option F).isSome ∧ (PyFloat.ofString hi : Option F).isSome := by
  unfold splitRange
  split
  case h_1 bare lo hi rest hsplit =>
    simp only [bind_eq_ok, floatOf_eq_ok_iff, hsplit, List.cons.injEq]
    constructor
    · rintro ⟨_, minVal, hlo, maxVal, hhi, _⟩ _ _ _ _ ⟨rfl, rfl, rfl, rfl⟩
      simp only [hlo, hhi, Option.isSome_some, and_self]
    · intro h
      obtain ⟨hlo, hhi⟩ := h bare lo hi rest ⟨rfl, rfl, rfl, rfl⟩
      obtain ⟨minVal, hlo⟩ := Option.isSome_iff_exists.mp hlo
      obtain ⟨maxVal, hhi⟩ := Option.isSome_iff_exists.mp hhi
      exact ⟨_, minVal, hlo, maxVal, hhi, rfl⟩
  case h_2 hnone =>
    exact iff_of_true ⟨_, rfl⟩ fun bare lo hi rest hsplit => absurd hsplit (hnone bare lo hi rest)

theorem namedPart_ok_iff [Unicode] {name : Str} :
    (∃ part : NamedPart F, namedPart name = .ok part) ↔ HasReadableRange F name := by
  have hrange := splitRange_ok_iff (F := F) (splitPositions (splitClass name).1).1
  rw [HasReadableRange, ← hrange]
  simp only [namedPart, bind_eq_ok]
  constructor
  · rintro ⟨_, r, hr, _⟩
    exact ⟨r, hr⟩
  · rintro ⟨r, hr⟩
    exact ⟨_, r, hr, rfl⟩

def CanBeSkipped (F : Type) [PyFloat F] [Unicode] (name color : Str) : Prop :=
  HasReadableRange F name ∧ (intOfString 16 (lastChars color 2)).isSome

section

variable [Unicode] {el : SvgElem} {name style : Str} {g : Geometry F}

theorem of_componentOf_ok {found : Option (Branch × Component F)}
    (hname : elementName el = some name) (hgeom : geometryOf el = .ok (some g))
    (hstyle : el.get "style".toList = some style) (hcolor : IsUnknownColor (fillColor style))
    (h : componentOf el = .ok found) : found = none ∧ CanBeSkipped F name (fillColor style) := by
  simp only [componentOf, hname, bind_eq_ok, hgeom, hstyle, Except.ok.injEq] at h
  obtain ⟨part, hpart, _, rfl, hend⟩ := h
  cases hn : intOfString 16 (lastChars (fillColor style) 2) with
  | none =>
    rw [hn] at hend
    cases hend
  | some n =>
    simp only [hn, isUnknownColor_iff.mp hcolor] at hend
    exact ⟨(Except.ok.inj hend).symm, namedPart_ok_iff.mp ⟨part, hpart⟩, by rw [hn]; rfl⟩

theorem componentOf_of_canBeSkipped (hname : elementName el = some name)
    (hgeom : geometryOf el = .ok (some g)) (hstyle : el.get "style".toList = some style)
    (hcolor : IsUnknownColor (fillColor style)) (hcan : CanBeSkipped F name (fillColor style)) :
    componentOf (F := F) el = .ok none := by
  obtain ⟨part, hpart⟩ := namedPart_ok_iff.mpr hcan.1
  obtain ⟨n, hn⟩ := Option.isSome_iff_exists.mp hcan.2
  simp only [componentOf, hname, bind_eq_ok, hgeom, hstyle, Except.ok.injEq]
  refine ⟨part, hpart, some g, rfl, ?_⟩
  simp only [hn, isUnknownColor_iff.mp hcolor]

end

theorem tag_of_geometryOf {el : SvgElem} {g : Geometry F} (h : geometryOf el = .ok (some g)) :
    el.tag = svgTag "rect" ∨ el.tag = svgTag "circle" := by
  unfold geometryOf at h
  split_ifs at h with hrect hcircle
  · exact .inl hrect
  · exact .inr hcircle
  · cases h

section

variable {tag : Str} {attrs : List (Str × Str)} {group group' : SvgNode}

theorem filter_descendants_of_inserted {p : SvgElem → Bool}
    (hins : Inserted (.element tag attrs []) group group') (hp : p ⟨tag, attrs, []⟩ = false) :
    group'.descendants.filter p = group.descendants.filter p := by
  obtain ⟨pre, post, hbefore, hafter⟩ := hins.descendants_eq rfl
  rw [hbefore, hafter, List.append_assoc, List.filter_append, List.filter_append,
    List.filter_append]
  simp [Node.elems, elemsOf, innerTexts, hp]

theorem findLabelledText_of_inserted (hins : Inserted (.element tag attrs []) group group')
    (htext : tag ≠ svgTag "text") (hg : tag ≠ svgTag "g") (label : Str) :
    findLabelledText label group' = findLabelledText label group := by
  unfold findLabelledText
  rw [filter_descendants_of_inserted hins (decide_eq_false htext),
    filter_descendants_of_inserted hins (decide_eq_false hg)]

theorem svgElements_of_inserted (hins : Inserted (.element tag attrs []) group group')
    (hsvg : svgNs <+: tag) :
    ∃ pre post, svgElements group = pre ++ post ∧
      svgElements group' = pre ++ ⟨tag, attrs, []⟩ :: post := by
  obtain ⟨pre, post, hbefore, hafter⟩ := hins.descendants_eq rfl
  refine ⟨_, _, by rw [svgElements, hbefore, List.filter_append], ?_⟩
  rw [svgElements, hafter, List.append_assoc, List.filter_append, List.filter_append]
  simp [Node.elems, elemsOf, innerTexts, hsvg]

end

/-- One more shape of an unknown colour in the components group leaves the
result as it is, exactly if the shape can be skipped. -/
theorem panelToComponents_skips_iff [Unicode] {root root' group group' : SvgNode}
    {comps : Components F} {tag : Str} {attrs : List (Str × Str)} {name style : Str}
    {g : Geometry F} (hroot : panelToComponents root = .ok comps)
    (hattrs : ∀ key, root'.get key = root.get key)
    (hgroup : getComponentsGroup root = .ok group) (hgroup' : getComponentsGroup root' = .ok group')
    (hins : Inserted (.element tag attrs []) group group')
    (hname : elementName ⟨tag, attrs, []⟩ = some name)
    (hgeom : geometryOf ⟨tag, attrs, []⟩ = .ok (some g))
    (hstyle : attrs.lookup "style".toList = some style)
    (hcolor : IsUnknownColor (fillColor style)) :
    panelToComponents root' = .ok comps ↔ CanBeSkipped F name (fillColor style) := by
  have hdpi : deduceDpi F root' = deduceDpi F root := by simp only [deduceDpi, hattrs]
  have hshape : tag = svgTag "rect" ∨ tag = svgTag "circle" := tag_of_geometryOf hgeom
  have hsvg : svgNs <+: tag := by rcases hshape with rfl | rfl <;> exact List.prefix_append _ _
  have htext : tag ≠ svgTag "text" := by rcases hshape with rfl | rfl <;> decide
  have hg : tag ≠ svgTag "g" := by rcases hshape with rfl | rfl <;> decide
  have hslug : findSlugAndModulename group' = findSlugAndModulename group := by
    simp only [findSlugAndModulename, findLabelledText_of_inserted hins htext hg]
  obtain ⟨pre, post, hbefore, hafter⟩ := svgElements_of_inserted hins hsvg
  -- everything but the loop sees the same document
  constructor
  · intro hroot'
    obtain ⟨_, _, _, group₁, lists, _, _, _, hg₁, hlists, _⟩ :=
      panelToComponents_eq_ok_iff.mp hroot'
    obtain rfl : group' = group₁ := Except.ok.inj (hgroup'.symm.trans hg₁)
    cases hc : componentOf (F := F) ⟨tag, attrs, []⟩ with
    | ok found => exact (of_componentOf_ok hname hgeom hstyle hcolor hc).2
    | error e =>
      obtain ⟨e', hrun⟩ : ∃ e', collect (F := F) (svgElements group') = .error e' := by
        rw [hafter]
        exact Collecting.run_append_error hc ({} : ComponentLists F) pre post
      rw [hrun] at hlists
      cases hlists
  · intro hcan
    obtain ⟨dpi, width, hp, group₁, lists, hd, hw, hhp, hg₁, hlists, rfl⟩ :=
      panelToComponents_eq_ok_iff.mp hroot
    obtain rfl : group = group₁ := Except.ok.inj (hgroup.symm.trans hg₁)
    have hskip := componentOf_of_canBeSkipped hname hgeom hstyle hcolor hcan
    have hcollect : collect (svgElements group') = .ok lists := by
      rw [collect, hafter, Collecting.run_append_skip hskip, ← hbefore]
      exact hlists
    refine panelToComponents_eq_ok_iff.mpr
      ⟨dpi, width, hp, group', lists, hdpi.trans hd, ?_, hhp, hgroup', hcollect, ?_⟩
    · rw [hattrs, hw]
    · rw [hslug]

open scoped PythonText.AsciiTables in
theorem panelToComponents_skips_sample :
    ∃ comps, panelToComponents (F := ℚ) (panelOf [circleShape "Freq" "fill:#ff0040;"]) = .ok comps ∧
      panelToComponents (F := ℚ)
        (panelOf [circleShape "Freq" "fill:#ff0040;", circleShape "Art" "fill:#123456"]) =
          .ok comps := by
  obtain ⟨comps, hroot⟩ :
      ∃ comps, panelToComponents (F := ℚ) (panelOf [circleShape "Freq" "fill:#ff0040;"]) = .ok comps :=
    ⟨_, rfl⟩
  have hattrs : ∀ key,
      (panelOf [circleShape "Freq" "fill:#ff0040;", circleShape "Art" "fill:#123456"]).get key =
        (panelOf [circleShape "Freq" "fill:#ff0040;"]).get key := fun _ => rfl
  have hins : Inserted (circleShape "Art" "fill:#123456") _ _ :=
    .here (svgTag "g") [(inkscapeLabel, "components".toList)] [circleShape "Freq" "fill:#ff0040;"] []
  have hcan : CanBeSkipped ℚ "Art".toList (fillColor "fill:#123456".toList) :=
    ⟨namedPart_ok_iff.mp ⟨_, rfl⟩, by decide⟩
  have hskip := panelToComponents_skips_iff hroot hattrs rfl rfl hins rfl rfl rfl (by decide)
  exact ⟨comps, hroot, hskip.mpr hcan⟩

open scoped PythonText.AsciiTables in
/-- With one circle of the style, which no branch takes, an empty panel is refused. -/
def IsRefusedFor (style : String) : Prop :=
  IsUnknownColor (fillColor style.toList) ∧
    Inserted (circleShape "Art" style) (componentsGroup []) (componentsGroup [circleShape "Art" style]) ∧
    (∃ comps, panelToComponents (F := ℚ) (panelOf []) = .ok comps) ∧
    panelToComponents (F := ℚ) (panelOf [circleShape "Art" style]) = .error .valueError

/-- Most fills that are no hex colour stop the script. -/
theorem panelToComponents_skips_fails :
    IsRefusedFor "fill:none;" ∧ IsRefusedFor "fill:green" ∧
      IsRefusedFor "stroke:none;fill:url(#paint);" ∧ IsRefusedFor "stroke:#123456" := by
  refine ⟨?_, ?_, ?_, ?_⟩ <;> exact ⟨by decide, .here _ _ [] [], ⟨_, rfl⟩, rfl⟩

end PluginSdk
