import PluginSdk.LegacyEnum

/-! `components_to_infofile` of `createinfo.py`, the C++ header of a panel, and
the functions that print its parts. -/

namespace PluginSdk

open PythonText

def Category.text : Category → Str
  | .knob => "Knob".toList
  | .slider => "Slider".toList
  | .light => "Light".toList
  | .input => "In".toList
  | .output => "Out".toList
  | .encoder => "Encoder".toList
  | .button => "Button".toList
  | .switch => "Switch".toList
  | .display => "Display".toList
  | .altParam => "AltParam".toList

def CoordRef.text : CoordRef → Str
  | .center => "Center".toList
  | .topLeft => "TopLeft".toList

def quoted (s : Str) : Str := '"' :: (s ++ ['"'])

def itemOf {α : Type} (key : Option α) : Except PyError α :=
  match key with
  | some v => .ok v
  | none => .error .keyError

variable {F : Type} [PyFloat F]

def DefaultVal.print : DefaultVal F → Str
  | .value v => PyFloat.str v
  | .text s => s

def toMm (dpi : Int) (v : F) : Str :=
  "to_mm<".toList ++ strOfInt dpi ++ ">(".toList ++ PyFloat.str v ++ ")".toList

def Shape.box : Shape F → Except PyError (Box F)
  | .circle => .error .keyError
  | .rect box => .ok box

/-- The corner only where it is asked for, which a circle does not have. -/
def Component.position (k : Component F) : Except PyError (F × F) :=
  match k.coordRef with
  | .center => .ok (k.cx, k.cy)
  | .topLeft => do
    let box ← k.shape.box
    .ok (box.x, box.y)

def printSize (k : Component F) (dpi : Int) : Except PyError Str := do
  let category ← itemOf k.category
  if category = .display then do
    let box ← k.shape.box
    .ok (", ".toList ++ toMm dpi box.width ++ ", ".toList ++ toMm dpi box.height)
  else .ok []

def threePosSwitches : List Str := ["Toggle3pos".toList, "Toggle3posHoriz".toList]

def twoPosSwitches : List Str := ["Toggle2pos".toList, "Toggle2posHoriz".toList]

def labeledChoice : Str := "AltParamChoiceLabeled".toList

def namesEveryPosition (k : Component F) (cls : Str) : Prop :=
  cls ∈ threePosSwitches ∧ k.posNames.length = 3 ∨ cls ∈ twoPosSwitches ∧ k.posNames.length = 2

instance (k : Component F) (cls : Str) : Decidable (namesEveryPosition k cls) :=
  inferInstanceAs (Decidable (_ ∨ _))

/-- The element comes back without its default where that is already printed. -/
def printPositionNames (k : Component F) : Except PyError (Str × Component F) := do
  let cls ← itemOf k.className
  if namesEveryPosition k cls then
    .ok (", \x7b".toList ++ (", ".toList).intercalate (k.posNames.map quoted) ++ "\x7d".toList, k)
  else if cls = "AltParamChoice".toList then
    .ok (", ".toList ++ strOfInt k.numChoices, k)
  else if cls = labeledChoice then
    let defaultval := (k.defaultVal.map fun d => ", ".toList ++ d.print).getD []
    let source := ", ".toList ++ strOfInt k.numChoices ++ defaultval ++ "\x7d, \x7b".toList ++
      k.posNames.flatMap fun nm => quoted nm ++ ", ".toList
    .ok (removeSuffix ", ".toList source ++ "\x7d".toList, { k with defaultVal := none })
  else .ok ([], k)

def printDefaultValue (k : Component F) : Str :=
  ((k.defaultVal.map fun d => ", ".toList ++ d.print).getD []) ++
    ((k.range.map fun r => ", ".toList ++ PyFloat.str r.minVal ++ ", ".toList ++
      PyFloat.str r.maxVal ++ ", ".toList ++ quoted r.units).getD [])

def elemDefinition (dpi : Int) (k : Component F) : Except PyError Str := do
  let cls ← itemOf k.className
  let (x, y) ← k.position
  let size ← printSize k dpi
  let (positionNames, k') ← printPositionNames k
  .ok ("\t\t".toList ++ cls ++ "\x7b\x7b".toList ++
    (if cls = labeledChoice then "\x7b".toList else []) ++
    toMm dpi x ++ ", ".toList ++ toMm dpi y ++ ", ".toList ++ k.coordRef.text ++ ", ".toList ++
    quoted k.displayName ++ ", ".toList ++
    -- the long name
    quoted [] ++ size ++ "\x7d".toList ++ positionNames ++ printDefaultValue k' ++
    "\x7d,\n".toList)

def listElemDefinitions (elems : List (Component F)) (dpi : Int) : Except PyError Str :=
  match elems with
  | [] => .ok []
  | k :: elems => do
    let first ← elemDefinition dpi k
    let rest ← listElemDefinitions elems dpi
    .ok (first ++ rest)

section

variable [Unicode]

/-- The category at the end of the name gets its capitals, or is added. -/
def elemName (enumName category : Str) : Str :=
  if lower category <:+ enumName then
    enumName.take (enumName.length - category.length) ++ category
  else if category <:+ enumName then enumName
  else enumName ++ category

def listElemNames (elems : List (Component F)) : Except PyError Str :=
  match elems with
  | [] => .ok []
  | k :: elems => do
    let category ← itemOf k.category
    let rest ← listElemNames elems
    .ok (newLine ++ elemName k.enumName category.text ++ ",".toList ++ rest)

end

/-- What a caller can pass for a flag: `False`, or the text of an option. -/
inductive PyArg
  | false
  | text (s : Str)

def PyArg.truthy : PyArg → Bool
  | .false => Bool.false
  | .text s => s ≠ []

def legacyNaming (components : Components F) : Str :=
  let line := newLine
  "\n\n        // Legacy naming".toList ++
    line ++ makeLegacyEnum "Knob".toList components.legacyKnobs ++
    line ++ makeLegacyEnum "Switch".toList components.legacySwitches ++
    line ++ makeLegacyEnum "Input".toList components.legacyInputs ++
    line ++ makeLegacyEnum "Output".toList components.legacyOutputs ++
    line ++ makeLegacyEnum "Led".toList components.lights ++
    line ++ makeLegacyEnum "AltParam".toList components.altParams ++ "\n".toList

def infoFileHead (components : Components F) : Str :=
  let slug := components.slug
  "#pragma once\n".toList ++
    "#include \"helpers/4ms_elements.hh\"\n".toList ++
    "#include \"CoreModules/elements/element_info.hh\"\n".toList ++
    "\n#include <array>\n\nnamespace MetaModule\n\x7b\n".toList ++
    "struct ".toList ++ slug ++ "Info : ModuleInfoBase \x7b\n".toList ++
    "    static constexpr std::string_view slug\x7b".toList ++ quoted slug ++ "\x7d;\n".toList ++
    "    static constexpr std::string_view description\x7b".toList ++
    quoted components.moduleName ++ "\x7d;\n".toList ++
    "    static constexpr uint32_t width_hp = ".toList ++ strOfInt components.hp ++ ";\n".toList ++
    "    static constexpr std::string_view svg_filename\x7b".toList ++
    quoted ("res/modules/".toList ++ slug ++ "_artwork.svg".toList) ++ "\x7d;\n".toList

def componentsToInfofile [Unicode] (components : Components F) (doLegacy : PyArg := .false)
    (brand : Str := "4ms".toList) : Except PyError Str := do
  let definitions ← listElemDefinitions components.elements components.dpi
  let names ← listElemNames components.elements
  .ok (infoFileHead components ++
    "    static constexpr std::string_view png_filename\x7b".toList ++
    quoted (brand ++ "/".toList ++ components.slug ++ ".png".toList) ++ "\x7d;\n".toList ++
    "\n    using enum Coords;\n\n".toList ++
    "    static constexpr std::array<Element, ".toList ++ strOfInt components.elements.length ++
    "> Elements\x7b\x7b\n".toList ++ definitions ++ "\x7d\x7d;\n\n".toList ++
    "    enum class Elem \x7b".toList ++ names ++ "\n    \x7d;\n".toList ++
    (if doLegacy.truthy then legacyNaming components else []) ++
    "\n\x7d;\n\x7d // namespace MetaModule\n".toList)

end PluginSdk
