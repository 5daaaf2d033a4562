import PluginSdk.Collecting
import PluginSdk.ComponentName
import Mathlib.Data.List.Infix

/-! `panel_to_components` of `createinfo.py`: every circle and rect of the
components group is told by its fill colour, and becomes a component in the
lists that belong to that colour. -/

namespace PluginSdk

open PythonText XmlTree

structure Box (F : Type) where
  x : F
  y : F
  width : F
  height : F

inductive Shape (F : Type)
  | circle
  | rect (box : Box F)

structure Geometry (F : Type) where
  cx : F
  cy : F
  shape : Shape F

inductive CoordRef
  | center | topLeft
  deriving DecidableEq, Repr

inductive Category
  | knob | slider | light | input | output | encoder | button | switch | display | altParam
  deriving DecidableEq, Repr

/-- The dictionary of one component; `none` is a key that is not set. -/
structure Component (F : Type) extends NamedPart F where
  cx : F
  cy : F
  shape : Shape F
  color : Str
  coordRef : CoordRef := .center
  category : Option Category := none
  linkedRegion : Option (List F) := none
  linkedParam : Option (Component F) := none

/-- The colour branches that make a component, in the order of the tests. -/
inductive Branch
  | knobOrSlider | led | analogIn | gateIn | analogOut | gateOut | encoder
  | latchingButton | momentaryButton | switch2pos | switch3pos | display | altParam
  deriving DecidableEq, Repr

/-- The remaining colours, unsupported widgets among them, are only logged. -/
def branchOf (isRect : Bool) (color : Str) (defaultValInt : Int) : Option Branch :=
  if "#ff00".toList <+: color ∧ defaultValInt ≤ 128 then some .knobOrSlider
  else if "#ff00".toList <+: color ∧ 128 < defaultValInt then some .led
  else if color = "#00ff00".toList then some .analogIn
  else if color = "#80ff80".toList then some .gateIn
  else if color = "#0000ff".toList then some .analogOut
  -- also the last of the greys that the branch for alt params is meant for
  else if color = "#8080ff".toList then some .gateOut
  else if color = "#c000c0".toList then some .encoder
  else if color = "#ff8000".toList ∨ color = "#ff8001".toList then some .latchingButton
  else if color = "#ffc000".toList then some .momentaryButton
  else if color = "#ff8080".toList ∨ color = "#ff8081".toList then some .switch2pos
  else if color = "#ffc080".toList ∨ color = "#ffc081".toList ∨ color = "#ffc082".toList then
    some .switch3pos
  else if isRect ∧ color = "#ffff00".toList then some .display
  else if "#8080".toList <+: color then some .altParam
  else none

def knownColors : List Str :=
  ["#00ff00".toList, "#80ff80".toList, "#0000ff".toList, "#8080ff".toList, "#c000c0".toList,
    "#ff8000".toList, "#ff8001".toList, "#ffc000".toList, "#ff8080".toList, "#ff8081".toList,
    "#ffc080".toList, "#ffc081".toList, "#ffc082".toList, "#ffff00".toList]

theorem branchOf_of_notMem {color : Str} (h : color ∉ knownColors) (isRect : Bool) (n : Int) :
    branchOf isRect color n =
      if "#ff00".toList <+: color then some (if n ≤ 128 then .knobOrSlider else .led)
      else if "#8080".toList <+: color then some .altParam else none := by
  have hne : ∀ known ∈ knownColors, color ≠ known := fun known hmem he => h (he ▸ hmem)
  simp only [knownColors, List.forall_mem_cons] at hne
  simp only [branchOf, hne, or_self, and_false, if_false]
  by_cases hred : "#ff00".toList <+: color
  · by_cases hn : n ≤ 128
    · simp only [hred, hn, and_self, if_true]
    · simp only [hred, hn, not_le.mp hn, and_self, and_false, if_true, if_false]
  · simp only [hred, false_and, if_false]

section

variable [Unicode]

/-- What follows each `fill:` in a style, without the spaces in front. -/
def fillValues (style : Str) : List Str :=
  style.tails.filterMap fun rest =>
    if "fill:".toList <+: rest then some ((rest.drop 5).dropWhile isSpace) else none

def inFillValue (c : Char) : Bool := c != ';' && c != '\n'

/-- The first value that a semicolon ends; if there is none, the rest of the
line after the first `fill:`. -/
def fillText (style : Str) : Str :=
  match (fillValues style).find? fun value => (value.dropWhile inFillValue).head? = some ';' with
  | some value => value.takeWhile inFillValue
  | none => ((fillValues style).headD []).takeWhile (· != '\n')

def fillColor (style : Str) : Str := expandColorSynonyms (strip (· == ';') (lower (fillText style)))

end

variable {F : Type} [PyFloat F]

def quarterTurns : List Str :=
  ["rotate(90)".toList, "rotate(270)".toList, "rotate(-90)".toList]

def isTurned (transform : Option Str) : Bool :=
  quarterTurns.any fun turn => turn <:+: transform.getD []

def rectGeometry (el : SvgElem) : Except PyError (Geometry F) := do
  let x : F ← floatOfAttr (el.get "x".toList)
  let y : F ← floatOfAttr (el.get "y".toList)
  let width : F ← floatOfAttr (el.get "width".toList)
  let height : F ← floatOfAttr (el.get "height".toList)
  let half (length : F) : F := PyFloat.div length (PyFloat.ofRat 2)
  -- a quarter turn swaps the sides, but the corner and the centre stay
  let turned := isTurned (el.get "transform".toList)
  .ok {
    cx := PyFloat.round3 (PyFloat.add x (half width))
    cy := PyFloat.round3 (PyFloat.add y (half height))
    shape := .rect {
      x := PyFloat.round3 x
      y := PyFloat.round3 y
      width := PyFloat.round3 (if turned then height else width)
      height := PyFloat.round3 (if turned then width else height) } }

def circleGeometry (el : SvgElem) : Except PyError (Geometry F) := do
  let cx : F ← floatOfAttr (el.get "cx".toList)
  let cy : F ← floatOfAttr (el.get "cy".toList)
  .ok { cx := PyFloat.round3 cx, cy := PyFloat.round3 cy, shape := .circle }

def geometryOf (el : SvgElem) : Except PyError (Option (Geometry F)) :=
  if el.tag = svgTag "rect" then (rectGeometry el).map some
  else if el.tag = svgTag "circle" then (circleGeometry el).map some
  else .ok none

def Shape.isRect : Shape F → Bool
  | .circle => false
  | .rect _ => true

/-- `c['height']` and `c['width']`, which a circle does not have. -/
def Shape.size : Shape F → Except PyError (F × F)
  | .circle => .error .keyError
  | .rect box => .ok (box.height, box.width)

namespace Component

def setClassIfNotSet (c : Component F) (newclass : Str) : Component F :=
  { c with className := some (c.className.getD newclass) }

def stateText (c : Component F) (state : String) : DefaultVal F :=
  .text (c.className.getD [] ++ "::State_t::".toList ++ state.toList)

def lastState (c : Component F) : DefaultVal F :=
  c.stateText (if "Horiz".toList <:+: c.className.getD [] then "RIGHT" else "UP")

def altParamChoice (numChoices defaultValInt : Int) : DefaultVal F :=
  -- the upper bound is the number of choices, not the last of them
  .text (strOfInt (max 0 (min numChoices (defaultValInt - 128))))

def floatDefault (q : ℚ) : DefaultVal F := .text (PyFloat.str (PyFloat.ofRat q : F) ++ ['f'])

def region (c : Component F) : List F :=
  match c.shape with
  | .circle => []
  | .rect box => [box.x, box.y, PyFloat.add box.x box.width, PyFloat.add box.y box.height]

def asAltParam (c : Component F) (defaultValInt : Int) : Component F :=
  match c.posNames with
  | first :: rest =>
    if first = "action".toList then c.setClassIfNotSet "AltParamAction".toList
    else { c.setClassIfNotSet "AltParamChoiceLabeled".toList with
      numChoices := (first :: rest).length
      defaultVal := some (altParamChoice (first :: rest).length defaultValInt) }
  | [] =>
    if 0 < c.numChoices then { c.setClassIfNotSet "AltParamChoice".toList with
      posNames := []
      defaultVal := some (altParamChoice c.numChoices defaultValInt) }
    else if c.numChoices = 0 then { c.setClassIfNotSet "AltParamContinuous".toList with
      defaultVal := some (floatDefault ((if defaultValInt = 255 then 256 else defaultValInt) / 256)) }
    -- a negative number of choices: no class, and no default of its own
    else c

end Component

/-- What a branch adds to the component before it is listed. The argument of
`set_class_if_not_set` is computed also where the name has given a class. -/
def Branch.complete (branch : Branch) (el : SvgElem) (n : Int) (c : Component F) :
    Except PyError (Component F) :=
  match branch with
  | .knobOrSlider => do
    let c := { c with defaultVal := some (Component.floatDefault (n / 128)) }
    match c.shape with
    | .circle =>
      let newclass ← getKnobClassFromRadius F (el.get "r".toList)
      .ok { c.setClassIfNotSet newclass with category := some .knob }
    | .rect box =>
      .ok { c.setClassIfNotSet (getSliderClass box.height box.width) with category := some .slider }
  | .led => .ok { c.setClassIfNotSet (getLedClassFromSelector n) with category := some .light }
  | .analogIn => .ok { c.setClassIfNotSet "AnalogJackInput4ms".toList with category := some .input }
  | .gateIn => .ok { c.setClassIfNotSet "GateJackInput4ms".toList with category := some .input }
  | .analogOut => .ok { c.setClassIfNotSet "AnalogJackOutput4ms".toList with category := some .output }
  | .gateOut => .ok { c.setClassIfNotSet "GateJackOutput4ms".toList with category := some .output }
  | .encoder => do
    let newclass ← getEncoderClassFromRadius F (el.get "r".toList)
    .ok { c.setClassIfNotSet newclass with category := some .encoder }
  | .latchingButton =>
    let c := c.setClassIfNotSet "OrangeButton".toList
    let down : DefaultVal F := .text "LatchingButton::State_t::DOWN".toList
    .ok { c with
      defaultVal := if n = 1 then some down else c.defaultVal
      category := some .button }
  | .momentaryButton =>
    .ok { c.setClassIfNotSet "WhiteMomentary7mm".toList with category := some .button }
  | .switch2pos => do
    let (height, width) ← c.shape.size
    let c := c.setClassIfNotSet (getToggle2posClass height width)
    .ok { c with
      defaultVal := if n = 0x81 then some c.lastState else c.defaultVal
      category := some .switch }
  | .switch3pos => do
    let (height, width) ← c.shape.size
    let c := c.setClassIfNotSet (getToggle3posClass height width)
    .ok { c with
      defaultVal := if n = 0x81 then some (c.stateText "CENTER")
        else if n = 0x82 then some c.lastState else c.defaultVal
      category := some .switch }
  | .display =>
    .ok { c.setClassIfNotSet "TextDisplay".toList with
      coordRef := .topLeft
      category := some .display }
  | .altParam =>
    .ok { c.asAltParam n with linkedRegion := some c.region, category := some .altParam }

/-- One pass of the loop up to the end of its branch; `none` where the pass
ends without a component. -/
def componentOf [Unicode] (el : SvgElem) : Except PyError (Option (Branch × Component F)) :=
  match elementName el with
  | none => .ok none
  | some name => do
    let part : NamedPart F ← namedPart name
    match ← geometryOf el with
    | none => .ok none
    | some g =>
      match el.get "style".toList with
      | none => .ok none
      | some style =>
        let color := fillColor style
        -- converted before the colour is looked at
        match intOfString 16 (lastChars color 2) with
        | none => .error .valueError
        | some n =>
          match branchOf g.shape.isRect color n with
          | none => .ok none
          | some branch => do
            let c ← branch.complete el n
              { part with cx := g.cx, cy := g.cy, shape := g.shape, color := color }
            .ok (some (branch, c))

theorem componentOf_of_branch [Unicode] {el : SvgElem} {name style : Str} {part : NamedPart F}
    {g : Geometry F} {n : Int} {branch : Branch} {c : Component F}
    (hname : elementName el = some name) (hpart : namedPart name = .ok part)
    (hgeom : geometryOf el = .ok (some g)) (hstyle : el.get "style".toList = some style)
    (hn : intOfString 16 (lastChars (fillColor style) 2) = some n)
    (hbranch : branchOf g.shape.isRect (fillColor style) n = some branch)
    (hc : branch.complete el n
      { part with cx := g.cx, cy := g.cy, shape := g.shape, color := fillColor style } = .ok c) :
    componentOf el = .ok (some (branch, c)) := by
  simp only [componentOf, hname, bind_eq_ok, hpart, hgeom, hstyle, Except.ok.injEq]
  refine ⟨part, rfl, some g, rfl, ?_⟩
  simp only [hn, hbranch, bind_eq_ok]
  exact ⟨c, hc, rfl⟩

structure ComponentLists (F : Type) where
  params : List (Component F) := []
  jacks : List (Component F) := []
  lights : List (Component F) := []
  altParams : List (Component F) := []
  legacyKnobs : List (Component F) := []
  legacySwitches : List (Component F) := []
  legacyInputs : List (Component F) := []
  legacyOutputs : List (Component F) := []

def ComponentLists.add (lists : ComponentLists F) (found : Branch × Component F) :
    ComponentLists F :=
  let (branch, c) := found
  match branch with
  | .knobOrSlider | .encoder =>
    { lists with
      legacyKnobs := lists.legacyKnobs ++ [c]
      params := lists.params ++ [c] }
  | .led | .display => { lists with lights := lists.lights ++ [c] }
  | .analogIn | .gateIn =>
    { lists with
      legacyInputs := lists.legacyInputs ++ [c]
      jacks := lists.jacks ++ [c] }
  | .analogOut | .gateOut =>
    { lists with
      legacyOutputs := lists.legacyOutputs ++ [c]
      jacks := lists.jacks ++ [c] }
  | .latchingButton | .momentaryButton | .switch2pos | .switch3pos =>
    { lists with
      legacySwitches := lists.legacySwitches ++ [c]
      params := lists.params ++ [c] }
  | .altParam => { lists with altParams := lists.altParams ++ [c] }

def linkAltParam (params : List (Component F)) (alt : Component F) : Component F :=
  -- an alt param that covers a region is not linked
  if (alt.linkedRegion.getD []).isEmpty then
    match params.find? fun p => PyFloat.eq p.cx alt.cx && PyFloat.eq p.cy alt.cy with
    | some p => { alt with linkedParam := some p }
    | none => alt
  else alt

structure Components (F : Type) extends ComponentLists F where
  dpi : Int
  hp : Int
  slug : Str
  moduleName : Str
  elements : List (Component F)

def ComponentLists.finish (lists : ComponentLists F) (dpi hp : Int) (slug moduleName : Str) :
    Components F :=
  let params := lists.params.reverse
  let jacks := lists.jacks.reverse
  let lights := lists.lights.reverse
  -- links are looked for in document order, before the lists are turned around
  let altParams := (lists.altParams.map (linkAltParam lists.params)).reverse
  { params, jacks, lights, altParams
    legacyKnobs := lists.legacyKnobs.reverse
    legacySwitches := lists.legacySwitches.reverse
    legacyInputs := lists.legacyInputs.reverse
    legacyOutputs := lists.legacyOutputs.reverse
    dpi, hp, slug, moduleName
    elements := params ++ jacks ++ lights ++ altParams }

/-- `findall(".//svg:*")` -/
def svgElements (group : SvgNode) : List SvgElem :=
  group.descendants.filter fun el => svgNs <+: el.tag

def collect [Unicode] (els : List SvgElem) : Except PyError (ComponentLists F) :=
  Collecting.run componentOf ComponentLists.add {} els

def panelToComponents [Unicode] (root : SvgNode) : Except PyError (Components F) := do
  let dpi ← deduceDpi F root
  let width : F ← getDimInches (root.get "width".toList)
  let hp ← PyFloat.round (PyFloat.div width (PyFloat.ofRat (2 / 10)))
  let group ← getComponentsGroup root
  let (slug, moduleName) := findSlugAndModulename group
  let lists ← collect (svgElements group)
  .ok (lists.finish dpi hp slug moduleName)

theorem panelToComponents_eq_ok_iff [Unicode] {root : SvgNode} {comps : Components F} :
    panelToComponents root = .ok comps ↔
      ∃ dpi width hp group lists, deduceDpi F root = .ok dpi ∧
        getDimInches (F := F) (root.get "width".toList) = .ok width ∧
        PyFloat.round (PyFloat.div width (PyFloat.ofRat (2 / 10))) = .ok hp ∧
        getComponentsGroup root = .ok group ∧ collect (svgElements group) = .ok lists ∧
        comps = lists.finish dpi hp (findSlugAndModulename group).1
          (findSlugAndModulename group).2 := by
  simp only [panelToComponents, bind_eq_ok, Except.ok.injEq]
  constructor
  · rintro ⟨dpi, hdpi, width, hw, hp, hhp, group, hg, lists, hl, he⟩
    exact ⟨dpi, width, hp, group, lists, hdpi, hw, hhp, hg, hl, he.symm⟩
  · rintro ⟨dpi, width, hp, group, lists, hdpi, hw, hhp, hg, hl, he⟩
    exact ⟨dpi, hdpi, width, hw, hp, hhp, group, hg, lists, hl, he.symm⟩

def componentsGroup (shapes : List SvgNode) : SvgNode :=
  .element (svgTag "g") [(inkscapeLabel, "components".toList)] shapes

/-- A drawing that has the shapes of its components group and nothing else. -/
def panelOf (shapes : List SvgNode) : SvgNode :=
  .element (svgTag "svg") [] [componentsGroup shapes]

def circleAttrs (name style : String) : List (Str × Str) :=
  [("id".toList, name.toList), ("cx".toList, "10".toList), ("cy".toList, "20".toList),
    ("r".toList, "8".toList), ("style".toList, style.toList)]

def circleShape (name style : String) : SvgNode :=
  .element (svgTag "circle") (circleAttrs name style) []

def circleElem (name style : String) : SvgElem := ⟨svgTag "circle", circleAttrs name style, []⟩

end PluginSdk
