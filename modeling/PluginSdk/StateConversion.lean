import PluginSdk.ElementCount

/-! Typed views of raw values: `convertState` turns a param value into the
`State_t` of its element, `convertLED` turns a colour into light components.
Which overload applies is decided by the class of the element. -/

namespace PluginSdk

open ElementClass (derivedFrom)

inductive MomentaryState
  | released | pressed
  deriving DecidableEq, Repr

inductive LatchingState
  | up | down
  deriving DecidableEq, Repr

inductive StateValue (F : Type)
  | float (val : F)
  | unsigned (pos : UInt32)
  | momentary (state : MomentaryState)
  | latching (state : LatchingState)
  | bool (val : Bool)
  deriving DecidableEq, Repr

inductive LedValue (F : Type)
  | float (value : F)
  | floats (values : Vector F 3)
  | bool (value : Bool)
  | bools (values : Vector Bool 3)
  | bipolarColor (value : F)
  | fullColor (value : F)

def Element.numPos {F : Type} : Element F → UInt32
  | .flipSwitch _ n | .slideSwitch _ n | .altParamChoice _ n | .altParamChoiceLabeled _ n => n
  | _ => 0

variable {F : Type} [FloatOps F]

open FloatOps

/-- The nearest of the evenly spaced positions `0 .. num_pos - 1`. -/
def convertPosition (el : Element F) (val : F) : UInt32 :=
  toUnsigned (round (val * ofUnsigned (el.numPos - 1)))

/-- `none` for the elements whose `State_t` is `void`. -/
def convertState (el : Element F) (val : F) : Option (StateValue F) :=
  if derivedFrom el.type .momentaryButton then
    some (.momentary (if lt half val then .pressed else .released))
  else if derivedFrom el.type .latchingButton then
    some (.latching (if lt half val then .down else .up))
  else if derivedFrom el.type .flipSwitch then
    some (.unsigned (convertPosition el val))
  else if derivedFrom el.type .slideSwitch then
    some (.unsigned (convertPosition el val))
  else if derivedFrom el.type .pot then
    some (.float val)
  else if derivedFrom el.type .altParamContinuous then
    some (.float val)
  else if derivedFrom el.type .altParamChoice then
    some (.unsigned (convertPosition el val))
  else if derivedFrom el.type .altParamAction then
    some (.bool (lt half val))
  else none

def fullColorComponents (value : F) : List F :=
  let green := 1 - (1 + 1) * value
  let blue := -green
  let green := clamp green 0 1
  let blue := clamp blue 0 1
  let red := clamp (1 - (green + blue)) 0 1
  [red, green, blue]

/-- `none` where no overload accepts the value for this element. -/
def convertLED (el : Element F) : LedValue F → Option (List F)
  | .float value => if el.type.numLights = 1 then some [value] else none
  | .floats values => if el.type.numLights = 3 then some values.toList else none
  | .bool value => if el.type.numLights = 1 then some [if value then 1 else 0] else none
  | .bools values =>
    if el.type.numLights = 3 then some (values.toList.map fun b => if b then 1 else 0) else none
  | .bipolarColor value =>
    if derivedFrom el.type .dualLight then some [-FloatOps.min value 0, FloatOps.max value 0]
    else none
  | .fullColor value =>
    if derivedFrom el.type .rgbLight then some (fullColorComponents value) else none

theorem numLights_of_dualLight {c : ElementClass} (h : derivedFrom c .dualLight) :
    c.numLights = 2 := by
  cases c <;> first | rfl | exact absurd h (by decide)

theorem numLights_of_rgbLight {c : ElementClass} (h : derivedFrom c .rgbLight) :
    c.numLights = 3 := by
  cases c <;> first | rfl | exact absurd h (by decide)

theorem convertLED_length {el : Element F} {value : LedValue F} {raw : List F}
    (h : convertLED el value = some raw) : raw.length = (count el).numLights := by
  cases value with
  | float v | floats v | bool v | bools v =>
    obtain ⟨hn, hr⟩ := Option.ite_none_right_eq_some.mp h
    obtain rfl := Option.some.inj hr
    simp [count, hn]
  | bipolarColor v =>
    obtain ⟨hd, hr⟩ := Option.ite_none_right_eq_some.mp h
    obtain rfl := Option.some.inj hr
    exact (numLights_of_dualLight hd).symm
  | fullColor v =>
    obtain ⟨hd, hr⟩ := Option.ite_none_right_eq_some.mp h
    obtain rfl := Option.some.inj hr
    exact (numLights_of_rgbLight hd).symm

end PluginSdk
