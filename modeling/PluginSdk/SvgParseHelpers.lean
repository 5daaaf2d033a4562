import PluginSdk.PythonFloat
import PluginSdk.XmlTree

/-! `svg_parse_helpers.py`: classes chosen by size, colour synonyms, the
components group with its two texts, and the resolution of the drawing. -/

namespace PluginSdk

open PythonText XmlTree

variable {F : Type} [PyFloat F]

abbrev SvgNode := Node Char

abbrev SvgElem := Elem Char

def svgNs : Str := "\x7bhttp://www.w3.org/2000/svg\x7d".toList

def svgTag (name : String) : Str := svgNs ++ name.toList

def inkscapeLabel : Str := "\x7bhttp://www.inkscape.org/namespaces/inkscape\x7dlabel".toList

/-- The thresholds on the radius, in drawing units, that all round parts share. -/
def classFromRadius (small medium large other : String) (radius : Option Str) :
    Except PyError Str := do
  let r : F ← floatOfAttr radius
  if PyFloat.lt r (PyFloat.ofRat 10) && PyFloat.lt (PyFloat.ofRat 3) r then .ok small.toList
  else if PyFloat.lt r (PyFloat.ofRat 20) then .ok medium.toList
  else if PyFloat.lt r (PyFloat.ofRat 40) then .ok large.toList
  else .ok other.toList

variable (F) in
def getKnobClassFromRadius (radius : Option Str) : Except PyError Str :=
  classFromRadius (F := F) "Knob9mm" "Davies1900hBlackKnob" "DaviesLargeKnob" "Davies1900hBlackKnob"
    radius

variable (F) in
def getEncoderClassFromRadius (radius : Option Str) : Except PyError Str :=
  classFromRadius (F := F) "Encoder" "EncoderRGB" "EncoderWhiteLight" "Encoder" radius

def classFromShape (vertical horizontal : String) (height width : F) : Str :=
  if PyFloat.lt width height then vertical.toList else horizontal.toList

def getSliderClass (height width : F) : Str :=
  classFromShape "Slider25mmVertLED" "Slider25mmHorizLED" height width

def getToggle2posClass (height width : F) : Str :=
  classFromShape "Toggle2pos" "Toggle2posHoriz" height width

def getToggle3posClass (height width : F) : Str :=
  classFromShape "Toggle3pos" "Toggle3posHoriz" height width

def getLedClassFromSelector (selector : Int) : Str :=
  if selector = 0xFF then "RedGreenBlueLight".toList
  else if selector = 0xFE then "RedBlueLight".toList
  else if selector = 0xFD then "WhiteLight".toList
  else if selector = 0xFC then "RedLight".toList
  else if selector = 0xFB then "OrangeLight".toList
  else if selector = 0xFA then "GreenLight".toList
  else if selector = 0xF9 then "BlueLight".toList
  else "WhiteLight".toList

def colorSynonyms : List (String × String × String) := [
  ("red", "#f00", "#ff0000"),
  ("lime", "#0f0", "#00ff00"),
  ("blue", "#00f", "#0000ff"),
  ("yellow", "#ff0", "#ffff00"),
  ("magenta", "#f0f", "#ff00ff"),
  ("cyan", "#0ff", "#00ffff"),
  ("black", "#000", "#000000"),
  ("white", "#fff", "#ffffff"),
  ("gray", "#888", "#808080"),
  ("grey", "#888", "#808080")]

/-- The comparisons are made one after the other, each on the colour so far. -/
def expandColorSynonyms (color : Str) : Str :=
  colorSynonyms.foldl (fun color synonym =>
    if color = synonym.1.toList ∨ color = synonym.2.1.toList then synonym.2.2.toList else color) color

def getComponentsGroup (root : SvgNode) : Except PyError SvgNode :=
  let isGroup (key : Str) (el : SvgElem) : Bool :=
    el.tag == svgTag "g" && el.get key == some "components".toList
  match (findIn (isGroup inkscapeLabel) root.content).or
    (findIn (isGroup "id".toList) root.content) with
  | some group => .ok group
  | none => .error .userException

def textLabel (el : SvgElem) : Option Str :=
  (el.get inkscapeLabel).or ((el.get "id".toList).or (el.get "data-name".toList))

def lastTextLabelled (label default : Str) (els : List SvgElem) : Str :=
  els.foldl (fun found el => if textLabel el = some label then el.innerText else found) default

/-- Text elements are searched first, and groups while nothing has been found. -/
def findLabelledText (label : Str) (group : SvgNode) : Str :=
  let unnamed := "Unnamed".toList
  let found := lastTextLabelled label unnamed
    (group.descendants.filter fun el => el.tag = svgTag "text")
  if found = unnamed then
    lastTextLabelled label unnamed (group.descendants.filter fun el => el.tag = svgTag "g")
  else found

def isModuleNameChar (c : Char) : Bool :=
  c.isAlphanum || c == '_' || c == '.' || c == '-'

def findSlugAndModulename [Unicode] (group : SvgNode) : Str × Str :=
  let slug := findLabelledText "slug".toList group
  let moduleName := findLabelledText "modulename".toList group
  (strip isSpace (slug.filter isWord),
    strip isSpace (replaceRuns (fun c => !isModuleNameChar c) ' ' false moduleName))

def isDimChar (c : Char) : Bool := c.isDigit || c == '.' || c == '-'

def getDimInches (dimString : Option Str) : Except PyError F :=
  match dimString with
  | none => .ok (PyFloat.ofRat 0)
  | some s => do
    let dimInches : F ← floatOf (s.filter isDimChar)
    if s.filter (fun c => !isDimChar c) = "mm".toList then
      .ok (PyFloat.div dimInches (PyFloat.ofRat (254 / 10)))
    else .ok dimInches

def floatAt (dims : List Str) (i : Nat) : Except PyError F :=
  match dims[i]? with
  | some s => floatOf s
  | none => .error .indexError

variable (F) in
/-- The vertical resolution is computed as well, but only compared and logged. -/
def deduceDpi (root : SvgNode) : Except PyError Int := do
  let widthInches : F ← getDimInches (root.get "width".toList)
  let heightInches : F ← getDimInches (root.get "height".toList)
  match root.get "viewBox".toList with
  | none => .ok 72
  | some viewBox =>
    if PyFloat.eq widthInches (PyFloat.ofRat 0) || PyFloat.eq heightInches (PyFloat.ofRat 0) then
      .ok 72
    else do
      let viewBoxDims := viewBox.splitOn ' '
      let viewRight : F ← floatAt viewBoxDims 2
      let viewLeft : F ← floatAt viewBoxDims 0
      let viewBottom : F ← floatAt viewBoxDims 3
      let viewTop : F ← floatAt viewBoxDims 1
      let hDPI ← PyFloat.round (PyFloat.div (PyFloat.sub viewRight viewLeft) widthInches)
      let _ ← PyFloat.round (PyFloat.div (PyFloat.sub viewBottom viewTop) heightInches)
      .ok (if hDPI = 1 then 72 else hDPI)

end PluginSdk
