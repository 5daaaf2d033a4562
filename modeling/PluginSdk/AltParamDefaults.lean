import PluginSdk.PanelComponents

/-! Alt params carry their default in the last byte of a grey. The byte `ff`
makes the colour that of a gate output, and the clamp of a choice admits the
number of choices itself. -/

namespace PluginSdk

open PythonText XmlTree

/-- `#8080bb` -/
def greyColor (b : UInt8) : Str := "#8080".toList ++ hexByte b.toNat

theorem greyColor_end [Unicode] (b : UInt8) :
    intOfString 16 (lastChars (greyColor b) 2) = some (b.toNat : Int) :=
  intOfString_hexByte b.toNat_lt

open scoped PythonText.AsciiTables in
theorem greyColor_notMem {b : UInt8} (hb : b ≠ 255) : greyColor b ∉ knownColors := by
  intro hmem
  have hgrey : ∀ known ∈ knownColors, "#8080".toList <+: known → known = "#8080ff".toList := by
    decide
  have hff : greyColor b = "#8080ff".toList := hgrey _ hmem (List.prefix_append _ _)
  -- the number at the end of the colour gives the byte away
  have hend := greyColor_end b
  rw [hff] at hend
  have hvalue : (255 : Int) = b.toNat := Option.some.inj hend
  exact hb (UInt8.toNat_inj.mp (Int.ofNat.inj hvalue).symm)

theorem branchOf_grey {b : UInt8} (hb : b ≠ 255) (isRect : Bool) (n : Int) :
    branchOf isRect (greyColor b) n = some .altParam := by
  have hred : ¬ "#ff00".toList <+: greyColor b := by
    rintro ⟨rest, he⟩
    exact absurd (List.cons.inj (List.cons.inj he).2).1 (by decide)
  have hgrey : "#8080".toList <+: greyColor b := List.prefix_append _ _
  rw [branchOf_of_notMem (greyColor_notMem hb), if_neg hred, if_pos hgrey]

variable {F : Type} [PyFloat F]

namespace ComponentName

/-- How many choices a name gives, as `Name@n` or as two and more labels. -/
def choiceCount [Unicode] (nm : ComponentName F) : Option Int :=
  match nm.labels with
  | [] => none
  | [label] => (intOfString 10 label).filter (1 ≤ ·)
  | first :: rest => if first = "action".toList then none else some (first :: rest).length

theorem one_le_choiceCount [Unicode] {nm : ComponentName F} {n : Int}
    (h : nm.choiceCount = some n) : 1 ≤ n := by
  unfold choiceCount at h
  split at h
  · cases h
  · exact of_decide_eq_true (Option.filter_eq_some_iff.mp h).2
  · split_ifs at h
    obtain rfl := Option.some.inj h
    simp only [List.length_cons]
    omega

end ComponentName

namespace Component

variable {c : Component F} {k : Int}

theorem asAltParam_labels {first : Str} {rest : List Str} (hpos : c.posNames = first :: rest)
    (hfirst : first ≠ "action".toList) (n : Int) :
    (c.asAltParam n).defaultVal = some (altParamChoice (first :: rest).length n) := by
  simp only [asAltParam, hpos, hfirst, if_false]

theorem asAltParam_choices (hpos : c.posNames = []) (hk : 0 < c.numChoices) (n : Int) :
    (c.asAltParam n).defaultVal = some (altParamChoice c.numChoices n) := by
  simp only [asAltParam, hpos, hk, if_true]

theorem asAltParam_continuous (hpos : c.posNames = []) (hk : c.numChoices = 0) (n : Int) :
    (c.asAltParam n).className = some (c.className.getD "AltParamContinuous".toList) ∧
      (c.asAltParam n).defaultVal =
        some (floatDefault ((if n = 255 then 256 else n : Int) / 256)) := by
  simp only [asAltParam, hpos, hk, lt_irrefl, if_false, if_true, and_true]
  rfl

end Component

/-- A circle or rect of colour `#8080bb` that bears the name. -/
structure IsGreyShape [Unicode] (el : SvgElem) (nm : ComponentName F) (b : UInt8) : Prop where
  name : elementName el = some nm.render
  geometry : ∃ g : Geometry F, geometryOf el = .ok (some g)
  color : ∃ style, el.get "style".toList = some style ∧ fillColor style = greyColor b

/-- The default of an alt param, as the last byte of its colour means it. -/
structure DefaultOf [Unicode] (nm : ComponentName F) (b : UInt8) (c : Component F) : Prop where
  choice : ∀ n, nm.choiceCount = some n →
    c.defaultVal = some (.text (strOfInt (max 0 (min (n - 1) (b.toNat - 0x80)))))
  continuous : nm.labels = [] →
    c.className = some (nm.className.getD "AltParamContinuous".toList) ∧
      c.defaultVal = some (Component.floatDefault (if b = 0xff then 1 else b.toNat / 256))

/-- One pass of the loop adds one alt param with the default of the byte, and nothing else. -/
def RecordedAsAltParam [Unicode] (el : SvgElem) (nm : ComponentName F) (b : UInt8) : Prop :=
  ∃ c : Component F, c.category = some .altParam ∧ DefaultOf nm b c ∧
    ∀ lists : ComponentLists F, Collecting.step componentOf ComponentLists.add lists el =
      .ok { lists with altParams := lists.altParams ++ [c] }

section

variable [Unicode] {el : SvgElem} {nm : ComponentName F} {b : UInt8}

/-- What the loop has of a component when it comes to the dispatch. -/
def greyComponent (nm : ComponentName F) (g : Geometry F) (b : UInt8) : Component F where
  rawName := nm.render
  className := nm.className
  posNames := nm.positions.1
  numChoices := nm.positions.2
  range := nm.range.map RangeText.value
  defaultVal := (nm.range.map RangeText.value).map fun r => .value r.minVal
  displayName := formatForDisplay nm.bare
  legacyEnumName := formatAsLegacyEnumItem nm.bare
  enumName := formatAsEnumItem nm.bare
  cx := g.cx
  cy := g.cy
  shape := g.shape
  color := greyColor b

theorem componentOf_grey (h : IsGreyShape el nm b) :
    ∃ g : Geometry F, ∀ branch c, branchOf g.shape.isRect (greyColor b) b.toNat = some branch →
      branch.complete el b.toNat (greyComponent nm g b) = .ok c →
        componentOf el = .ok (some (branch, c)) := by
  obtain ⟨g, hgeom⟩ := h.geometry
  obtain ⟨style, hstyle, hcolor⟩ := h.color
  refine ⟨g, fun branch c hbranch hc => ?_⟩
  rw [← hcolor] at hbranch
  unfold greyComponent at hc
  rw [← hcolor] at hc
  refine componentOf_of_branch h.name nm.namedPart_render hgeom hstyle ?_ hbranch hc
  rw [hcolor, greyColor_end]

theorem positions_of_choiceCount {n : Int} (h : nm.choiceCount = some n) :
    (∃ first rest, nm.positions.1 = first :: rest ∧ first ≠ "action".toList ∧
      n = (first :: rest).length) ∨ (nm.positions.1 = [] ∧ nm.positions.2 = n) := by
  unfold ComponentName.choiceCount at h
  split at h
  case h_1 => cases h
  case h_2 label hl =>
    have hn := (Option.filter_eq_some_iff.mp h).1
    rw [nm.positions_of_choices hl hn]
    exact .inr ⟨rfl, rfl⟩
  case h_3 first rest hrest hl =>
    split_ifs at h with hfirst
    have hlabels : nm.positions = (first :: rest, 0) := by
      rw [← hl]
      refine nm.positions_of_labels fun label n hone => ?_
      rw [hl] at hone
      exact absurd (List.cons.inj hone).2 hrest
    rw [hlabels]
    exact .inl ⟨first, rest, rfl, hfirst, (Option.some.inj h).symm⟩

theorem positions_of_no_labels (h : nm.labels = []) : nm.positions = ([], 0) := by
  unfold ComponentName.positions
  rw [h]

theorem defaultVal_grey {n : Int} (hn : nm.choiceCount = some n) (g : Geometry F) (b : UInt8) :
    ((greyComponent nm g b).asAltParam b.toNat).defaultVal =
      some (.text (strOfInt (max 0 (min n (b.toNat - 128))))) := by
  rcases positions_of_choiceCount hn with ⟨first, rest, hpos, hfirst, rfl⟩ | ⟨hpos, hchoices⟩
  · exact Component.asAltParam_labels hpos hfirst b.toNat
  · have hk : 0 < (greyComponent nm g b).numChoices := by
      have hle := ComponentName.one_le_choiceCount hn
      change 0 < nm.positions.2
      omega
    rw [Component.asAltParam_choices hpos hk]
    change some (Component.altParamChoice nm.positions.2 b.toNat) = _
    rw [hchoices]
    rfl

theorem step_gateOut (h : IsGreyShape el nm 0xff) :
    ∃ c : Component F, ∀ lists : ComponentLists F,
      Collecting.step componentOf ComponentLists.add lists el =
        .ok { lists with
          legacyOutputs := lists.legacyOutputs ++ [c]
          jacks := lists.jacks ++ [c] } := by
  obtain ⟨g, hof⟩ := componentOf_grey h
  obtain ⟨c, hc⟩ : ∃ c : Component F, componentOf el = .ok (some (.gateOut, c)) :=
    ⟨_, hof .gateOut _ rfl rfl⟩
  refine ⟨c, fun lists => ?_⟩
  rw [Collecting.step, hc]
  rfl

theorem step_altParam (h : IsGreyShape el nm b) (hb : b ≠ 0xff) :
    ∃ c : Component F, c.category = some .altParam ∧
      (∀ n, nm.choiceCount = some n →
        c.defaultVal = some (.text (strOfInt (max 0 (min n (b.toNat - 128)))))) ∧
      (nm.labels = [] → c.className = some (nm.className.getD "AltParamContinuous".toList) ∧
        c.defaultVal = some (Component.floatDefault (b.toNat / 256))) ∧
      ∀ lists : ComponentLists F, Collecting.step componentOf ComponentLists.add lists el =
        .ok { lists with altParams := lists.altParams ++ [c] } := by
  obtain ⟨g, hof⟩ := componentOf_grey h
  have hc := hof .altParam _ (branchOf_grey hb g.shape.isRect b.toNat) rfl
  refine ⟨{ (greyComponent nm g b).asAltParam b.toNat with
      linkedRegion := some (greyComponent nm g b).region
      category := some .altParam },
    rfl, fun n hn => defaultVal_grey hn g b, fun hl => ?_, fun lists => ?_⟩
  · have hpos : nm.positions = ([], 0) := positions_of_no_labels hl
    have hcont := Component.asAltParam_continuous (c := greyComponent nm g b)
      (congrArg Prod.fst hpos) (congrArg Prod.snd hpos) b.toNat
    have hne : ¬ (b.toNat : Int) = 255 := fun he => hb (UInt8.toNat_inj.mp (Int.ofNat.inj he))
    rw [if_neg hne] at hcont
    exact hcont
  · rw [Collecting.step, hc]
    rfl

theorem RecordedAsAltParam.ne_ff (hrec : RecordedAsAltParam el nm b) (h : IsGreyShape el nm b) :
    b ≠ 0xff := by
  rintro rfl
  obtain ⟨c, hjack⟩ := step_gateOut h
  obtain ⟨c', _, _, hstep⟩ := hrec
  have hlists := Except.ok.inj ((hjack {}).symm.trans (hstep {}))
  have hjacks : [c] = [] := congrArg ComponentLists.jacks hlists
  cases hjacks

theorem RecordedAsAltParam.lt {n : Int} (hrec : RecordedAsAltParam el nm b)
    (h : IsGreyShape el nm b) (hn : nm.choiceCount = some n) : (b.toNat : Int) < 0x80 + n := by
  obtain ⟨c, _, hchoice, _, hstep⟩ := step_altParam h (hrec.ne_ff h)
  obtain ⟨c', _, hdefault, hstep'⟩ := hrec
  -- on empty lists the step shows which component it adds
  have hlists := Except.ok.inj ((hstep {}).symm.trans (hstep' {}))
  have hc : [c] = [c'] := congrArg ComponentLists.altParams hlists
  obtain rfl : c = c' := List.head_eq_of_cons_eq hc
  have hle := ComponentName.one_le_choiceCount hn
  have htext := (hchoice n hn).symm.trans (hdefault.choice n hn)
  rw [Option.some.injEq, DefaultVal.text.injEq] at htext
  have hclamp := strOfInt_inj (le_max_left _ _) (le_max_left _ _) htext
  omega

/-- The default is what the byte means, except for the byte `ff` and for
choices that the byte puts past the last one. -/
theorem altParam_default_iff (h : IsGreyShape el nm b) :
    RecordedAsAltParam el nm b ↔
      b ≠ 0xff ∧ ∀ n, nm.choiceCount = some n → (b.toNat : Int) < 0x80 + n := by
  constructor
  · intro hrec
    exact ⟨hrec.ne_ff h, fun n hn => hrec.lt h hn⟩
  · rintro ⟨hb, hlt⟩
    obtain ⟨c, hcategory, hchoice, hcont, hstep⟩ := step_altParam h hb
    refine ⟨c, hcategory, ⟨fun n hn => ?_, fun hl => ?_⟩, hstep⟩
    · have hle := ComponentName.one_le_choiceCount hn
      have hb' := hlt n hn
      have hclamp : max 0 (min n ((b.toNat : Int) - 128)) =
          max 0 (min (n - 1) ((b.toNat : Int) - 0x80)) := by omega
      rw [hchoice n hn, hclamp]
    · rw [if_neg hb]
      exact hcont hl

end

def speed : ComponentName ℚ where
  bare := "Speed".toList
  range := none
  labels := ["low".toList, "mid".toList, "high".toList]
  className := none
  bare_plain := by decide
  labels_plain := by decide
  class_plain := by decide

open scoped PythonText.AsciiTables in
theorem altParam_default_sample :
    RecordedAsAltParam (circleElem "Speed@low@mid@high" "fill:#808082;") speed 0x82 := by
  have h : IsGreyShape (circleElem "Speed@low@mid@high" "fill:#808082;") speed 0x82 :=
    ⟨rfl, ⟨_, rfl⟩, _, rfl, by decide⟩
  refine (altParam_default_iff h).mpr ⟨by decide, fun n hn => ?_⟩
  obtain rfl : 3 = n := Option.some.inj hn
  decide

open scoped PythonText.AsciiTables in
/-- One past the last choice, the default is the number of choices. -/
theorem altParam_default_fails :
    IsGreyShape (circleElem "Speed@low@mid@high" "fill:#808083;") speed 0x83 ∧
      ¬ RecordedAsAltParam (circleElem "Speed@low@mid@high" "fill:#808083;") speed 0x83 ∧
      IsGreyShape (circleElem "Speed@low@mid@high" "fill:#8080ff;") speed 0xff ∧
      ¬ RecordedAsAltParam (circleElem "Speed@low@mid@high" "fill:#8080ff;") speed 0xff := by
  have h : IsGreyShape (circleElem "Speed@low@mid@high" "fill:#808083;") speed 0x83 :=
    ⟨rfl, ⟨_, rfl⟩, _, rfl, by decide⟩
  have hff : IsGreyShape (circleElem "Speed@low@mid@high" "fill:#8080ff;") speed 0xff :=
    ⟨rfl, ⟨_, rfl⟩, _, rfl, by decide⟩
  refine ⟨h, fun hrec => ?_, hff, fun hrec => hrec.ne_ff hff rfl⟩
  have hlt : ((0x83 : UInt8).toNat : Int) < 0x80 + 3 := hrec.lt h rfl
  exact absurd hlt (by decide)

end PluginSdk
