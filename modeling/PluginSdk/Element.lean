import PluginSdk.ClassTree
import PluginSdk.Primitives

/-! The element classes of `base_element.hh` and the alternatives of the
`Element` variant. Static members and base conversions follow the class tree;
an element carries the data members that the modelled functions read. -/

namespace PluginSdk

inductive ElementClass
  | baseElement | imageElement | nullElement | paramElement
  | pot | knob | knobSnapped | slider | sliderLight
  | button | momentaryButton | momentaryButtonRGB | momentaryButtonLight | latchingButton
  | switch | flipSwitch | slideSwitch
  | encoder | encoderRGB
  | jackElement | jackInput | jackOutput
  | lightElement | monoLight | dualLight | rgbLight
  | textDisplay | dynamicTextDisplay | dynamicGraphicDisplay
  | altParamElement | altParamContinuous | altParamChoice | altParamAction | altParamChoiceLabeled
  deriving DecidableEq, Repr

namespace ElementClass

def base : ElementClass → Option ElementClass
  | baseElement => none
  | imageElement | nullElement | altParamElement => some baseElement
  | paramElement | jackElement | lightElement => some imageElement
  | pot | button | switch | encoder => some paramElement
  | knob | slider => some pot
  | knobSnapped => some knob
  | sliderLight => some slider
  | momentaryButton | latchingButton => some button
  | momentaryButtonRGB | momentaryButtonLight => some momentaryButton
  | flipSwitch | slideSwitch => some switch
  | encoderRGB => some encoder
  | jackInput | jackOutput => some jackElement
  | monoLight | dualLight | rgbLight | textDisplay | dynamicGraphicDisplay => some lightElement
  | dynamicTextDisplay => some textDisplay
  | altParamContinuous | altParamChoice | altParamAction => some altParamElement
  | altParamChoiceLabeled => some altParamChoice

def depth : ElementClass → Nat
  | baseElement => 0
  | imageElement | nullElement | altParamElement => 1
  | paramElement | jackElement | lightElement
  | altParamContinuous | altParamChoice | altParamAction => 2
  | pot | button | switch | encoder | jackInput | jackOutput | monoLight | dualLight | rgbLight
  | textDisplay | dynamicGraphicDisplay | altParamChoiceLabeled => 3
  | knob | slider | momentaryButton | latchingButton | flipSwitch | slideSwitch | encoderRGB
  | dynamicTextDisplay => 4
  | knobSnapped | sliderLight | momentaryButtonRGB | momentaryButtonLight => 5

def tree : ClassTree ElementClass where
  base := base
  depth := depth
  depth_base {c b} h := by
    cases c <;> cases h
    all_goals decide

abbrev derivedFrom (c b : ElementClass) : Bool := tree.derivedFrom c b

/-- The `static constexpr size_t NumParams` that the class itself declares. -/
def declaresNumParams : ElementClass → Option Nat
  | baseElement => some 0
  | paramElement | altParamElement => some 1
  | _ => none

def declaresNumLights : ElementClass → Option Nat
  | baseElement => some 0
  | sliderLight | momentaryButtonLight | latchingButton | monoLight | dynamicTextDisplay
  | dynamicGraphicDisplay => some 1
  | dualLight => some 2
  | momentaryButtonRGB | encoderRGB | rgbLight => some 3
  | _ => none

def declaresNumInputs : ElementClass → Option Nat
  | baseElement => some 0
  | jackInput => some 1
  | _ => none

def declaresNumOutputs : ElementClass → Option Nat
  | baseElement => some 0
  | jackOutput => some 1
  | _ => none

def numParams (c : ElementClass) : Nat := (tree.lookup declaresNumParams c).getD 0

def numLights (c : ElementClass) : Nat := (tree.lookup declaresNumLights c).getD 0

def numInputs (c : ElementClass) : Nat := (tree.lookup declaresNumInputs c).getD 0

def numOutputs (c : ElementClass) : Nat := (tree.lookup declaresNumOutputs c).getD 0

theorem lookup_getD_le {declares : ElementClass → Option Nat} {bound : Nat}
    (h : ∀ c n, declares c = some n → n ≤ bound) (c : ElementClass) :
    (tree.lookup declares c).getD 0 ≤ bound := by
  cases hl : tree.lookup declares c with
  | none => exact Nat.zero_le bound
  | some n => exact tree.lookup_forall h hl

theorem numParams_le_one (c : ElementClass) : c.numParams ≤ 1 := by
  refine lookup_getD_le (fun c n hn => ?_) c
  cases c <;> cases hn <;> decide

theorem numInputs_le_one (c : ElementClass) : c.numInputs ≤ 1 := by
  refine lookup_getD_le (fun c n hn => ?_) c
  cases c <;> cases hn <;> decide

theorem numOutputs_le_one (c : ElementClass) : c.numOutputs ≤ 1 := by
  refine lookup_getD_le (fun c n hn => ?_) c
  cases c <;> cases hn <;> decide

theorem numOutputs_of_numLights_pos {c : ElementClass} (h : 0 < c.numLights) :
    c.numOutputs = 0 := by
  cases c <;> first | rfl | exact absurd h (by decide)

end ElementClass

structure BaseElement (F : Type) where
  xMm : F
  yMm : F
  shortName : String
  longName : String
  deriving DecidableEq, Repr

inductive Element (F : Type)
  | nullElement (el : BaseElement F)
  | imageElement (el : BaseElement F)
  | paramElement (el : BaseElement F)
  | knob (el : BaseElement F)
  | slider (el : BaseElement F)
  | sliderLight (el : BaseElement F)
  | flipSwitch (el : BaseElement F) (numPos : UInt32)
  | slideSwitch (el : BaseElement F) (numPos : UInt32)
  | momentaryButton (el : BaseElement F)
  | momentaryButtonLight (el : BaseElement F)
  | momentaryButtonRGB (el : BaseElement F)
  | latchingButton (el : BaseElement F)
  | encoder (el : BaseElement F)
  | encoderRGB (el : BaseElement F)
  | jackInput (el : BaseElement F)
  | jackOutput (el : BaseElement F)
  | monoLight (el : BaseElement F)
  | dualLight (el : BaseElement F)
  | rgbLight (el : BaseElement F)
  | textDisplay (el : BaseElement F)
  | dynamicTextDisplay (el : BaseElement F)
  | dynamicGraphicDisplay (el : BaseElement F)
  | altParamContinuous (el : BaseElement F)
  | altParamChoice (el : BaseElement F) (numPos : UInt32)
  | altParamChoiceLabeled (el : BaseElement F) (numPos : UInt32)
  | altParamAction (el : BaseElement F)
  | knobSnapped (el : BaseElement F)
  deriving DecidableEq, Repr

namespace Element

variable {F : Type}

def type : Element F → ElementClass
  | nullElement _ => .nullElement
  | imageElement _ => .imageElement
  | paramElement _ => .paramElement
  | knob _ => .knob
  | slider _ => .slider
  | sliderLight _ => .sliderLight
  | flipSwitch _ _ => .flipSwitch
  | slideSwitch _ _ => .slideSwitch
  | momentaryButton _ => .momentaryButton
  | momentaryButtonLight _ => .momentaryButtonLight
  | momentaryButtonRGB _ => .momentaryButtonRGB
  | latchingButton _ => .latchingButton
  | encoder _ => .encoder
  | encoderRGB _ => .encoderRGB
  | jackInput _ => .jackInput
  | jackOutput _ => .jackOutput
  | monoLight _ => .monoLight
  | dualLight _ => .dualLight
  | rgbLight _ => .rgbLight
  | textDisplay _ => .textDisplay
  | dynamicTextDisplay _ => .dynamicTextDisplay
  | dynamicGraphicDisplay _ => .dynamicGraphicDisplay
  | altParamContinuous _ => .altParamContinuous
  | altParamChoice _ _ => .altParamChoice
  | altParamChoiceLabeled _ _ => .altParamChoiceLabeled
  | altParamAction _ => .altParamAction
  | knobSnapped _ => .knobSnapped

def toBase : Element F → BaseElement F
  | nullElement el | imageElement el | paramElement el | knob el | slider el | sliderLight el
  | flipSwitch el _ | slideSwitch el _ | momentaryButton el | momentaryButtonLight el
  | momentaryButtonRGB el | latchingButton el | encoder el | encoderRGB el | jackInput el
  | jackOutput el | monoLight el | dualLight el | rgbLight el | textDisplay el
  | dynamicTextDisplay el | dynamicGraphicDisplay el | altParamContinuous el | altParamChoice el _
  | altParamChoiceLabeled el _ | altParamAction el | knobSnapped el => el

end Element

end PluginSdk
