import PluginSdk.CoreProcessor
import PluginSdk.Cells
import PluginSdk.History

/-! `SmartCoreProcessor`: five arrays, reached by number from the host and by
element from the module. Typed accessors go through the index table. -/

namespace PluginSdk

variable {F : Type} [FloatOps F]

structure SmartCoreProcessor (I : Info F) where
  paramValues : Vector F I.counts.numParams
  inputValues : Vector (Option F) I.counts.numInputs
  outputValues : Vector F I.counts.numOutputs
  ledValues : Vector F I.counts.numLights
  outputPatched : Vector Bool I.counts.numOutputs

namespace SmartCoreProcessor

variable {I : Info F}

def init (I : Info F) : SmartCoreProcessor I where
  paramValues := .replicate _ 0
  inputValues := .replicate _ none
  outputValues := .replicate _ 0
  ledValues := .replicate _ 0
  outputPatched := .replicate _ false

/-! Module interface -/

def setOutput (s : SmartCoreProcessor I) (el : I.OutputElem) (val : F) : SmartCoreProcessor I :=
  { s with outputValues := s.outputValues.setIfInBounds (I.index el).outputIdx.toNat val }

def getOutputOf (s : SmartCoreProcessor I) (el : I.OutputElem) : F :=
  s.outputValues[(I.index el).outputIdx.toNat]?.getD 0

def isOutputPatched (s : SmartCoreProcessor I) (el : I.OutputElem) : Bool :=
  s.outputPatched[(I.index el).outputIdx.toNat]?.getD false

def isInputPatched (s : SmartCoreProcessor I) (el : I.InputElem) : Bool :=
  match s.inputValues[(I.index el).inputIdx.toNat]? with
  | some val => val.isSome
  | none => false

def getInput (s : SmartCoreProcessor I) (el : I.InputElem) : Option F :=
  s.inputValues[(I.index el).inputIdx.toNat]?.getD none

def getParamRaw (s : SmartCoreProcessor I) (el : I.Elem) (localIndex : Nat) : F :=
  s.paramValues[(I.index el).paramIdx.toNat + localIndex]?.getD 0

/-- Elements with several params would need a conversion from arrays, and
there is none. -/
def getState (s : SmartCoreProcessor I) (el : I.ParamElem) : Option (StateValue F) :=
  match (List.range (I.count el).numParams).map (s.getParamRaw el) with
  | [raw] => convertState (I.element el) raw
  | _ => none

def setLEDRaw (s : SmartCoreProcessor I) (el : I.Elem) (val : F) (colorIdx : Nat) :
    SmartCoreProcessor I :=
  { s with ledValues := s.ledValues.setIfInBounds ((I.index el).lightIdx.toNat + colorIdx) val }

def setLEDsFrom (s : SmartCoreProcessor I) (el : I.Elem) (i : Nat) : List F → SmartCoreProcessor I
  | [] => s
  | val :: rawValues => (s.setLEDRaw el val i).setLEDsFrom el (i + 1) rawValues

def setLED (s : SmartCoreProcessor I) (el : I.LightElem) (value : LedValue F)
    (overload : (convertLED (I.element el) value).isSome) : SmartCoreProcessor I :=
  s.setLEDsFrom el 0 ((convertLED (I.element el) value).get overload)

def bypassRoute (inputs : Vector (Option F) I.counts.numInputs)
    (outputs : Vector F I.counts.numOutputs) (route : BypassRoute) :
    Vector F I.counts.numOutputs :=
  if route.output.toNat < I.counts.numOutputs ∧ route.input.toNat < I.counts.numInputs then
    outputs.setIfInBounds route.output.toNat ((inputs[route.input.toNat]?.getD none).getD 0)
  else outputs

def handleBypass (s : SmartCoreProcessor I) : SmartCoreProcessor I :=
  { s with outputValues := I.bypassRoutes.foldl (bypassRoute s.inputValues) (.replicate _ 0) }

/-! `CoreProcessor` interface -/

def getOutput (s : SmartCoreProcessor I) (outputId : Int32) : F :=
  s.outputValues[sizeT outputId]?.getD 0

def setInput (s : SmartCoreProcessor I) (inputId : Int32) (val : F) : SmartCoreProcessor I :=
  { s with inputValues := s.inputValues.setIfInBounds (sizeT inputId) (some val) }

def setParam (s : SmartCoreProcessor I) (paramId : Int32) (val : F) : SmartCoreProcessor I :=
  { s with paramValues := s.paramValues.setIfInBounds (sizeT paramId) val }

def getParam (s : SmartCoreProcessor I) (paramId : Int32) : F :=
  s.paramValues[sizeT paramId]?.getD 0

def getLedBrightness (s : SmartCoreProcessor I) (ledId : Int32) : F :=
  s.ledValues[sizeT ledId]?.getD 0

def markAllInputsUnpatched (s : SmartCoreProcessor I) : SmartCoreProcessor I :=
  { s with inputValues := .replicate _ none }

def markInputUnpatched (s : SmartCoreProcessor I) (inputId : Int32) : SmartCoreProcessor I :=
  { s with inputValues := s.inputValues.setIfInBounds (sizeT inputId) none }

/-- An input that is marked patched before any voltage arrives holds 0 V. -/
def markInputPatched (s : SmartCoreProcessor I) (inputId : Int32) : SmartCoreProcessor I :=
  { s with inputValues := Cells.modifyAt s.inputValues (sizeT inputId) fun val =>
      if val.isNone then some 0 else val }

def markAllOutputsUnpatched (s : SmartCoreProcessor I) : SmartCoreProcessor I :=
  { s with outputPatched := .replicate _ false }

def markOutputUnpatched (s : SmartCoreProcessor I) (outputId : Int32) : SmartCoreProcessor I :=
  { s with outputPatched := s.outputPatched.setIfInBounds (sizeT outputId) false }

def markOutputPatched (s : SmartCoreProcessor I) (outputId : Int32) : SmartCoreProcessor I :=
  { s with outputPatched := s.outputPatched.setIfInBounds (sizeT outputId) true }

def host (s : SmartCoreProcessor I) : HostCall F → SmartCoreProcessor I
  | .setParam id val => s.setParam id val
  | .setInput id val => s.setInput id val
  | .markAllInputsUnpatched => s.markAllInputsUnpatched
  | .markInputUnpatched id => s.markInputUnpatched id
  | .markInputPatched id => s.markInputPatched id
  | .markAllOutputsUnpatched => s.markAllOutputsUnpatched
  | .markOutputUnpatched id => s.markOutputUnpatched id
  | .markOutputPatched id => s.markOutputPatched id

def step (s : SmartCoreProcessor I) : ModuleCall I → SmartCoreProcessor I
  | .host call => s.host call
  | .setOutput el val => s.setOutput el val
  | .setLED el value overload => s.setLED el value overload

def run (s : SmartCoreProcessor I) (calls : List (ModuleCall I)) : SmartCoreProcessor I :=
  calls.foldl step s

omit [FloatOps F] in
theorem setLEDsFrom_eq (s : SmartCoreProcessor I) (el : I.Elem) (i : Nat) (raw : List F) :
    s.setLEDsFrom el i raw =
      { s with ledValues := Cells.writeFrom s.ledValues ((I.index el).lightIdx.toNat + i) raw } := by
  induction raw generalizing s i with
  | nil => rfl
  | cons val raw ih => rw [setLEDsFrom, ih]; rfl

theorem outputValues_handleBypass (s : SmartCoreProcessor I) {o : Nat}
    (ho : o < I.counts.numOutputs) :
    s.handleBypass.outputValues[o]?.getD 0 =
      ((History.latest (I.routeInto o) I.bypassRoutes).map fun i =>
        (s.inputValues[i]?.getD none).getD 0).getD 0 := by
  have hmuted := Cells.getD_replicate (n := I.counts.numOutputs) o (0 : F)
  have hstep : ∀ outputs : Vector F I.counts.numOutputs, ∀ route ∈ I.bypassRoutes,
      (bypassRoute s.inputValues outputs route)[o]?.getD 0 =
        ((I.routeInto o route).map fun i => (s.inputValues[i]?.getD none).getD 0).getD
          (outputs[o]?.getD 0) := by
    intro outputs route _
    rw [bypassRoute, Info.routeInto]
    by_cases hc : route.output.toNat = o ∧ route.input.toNat < I.counts.numInputs
    · rw [if_pos hc]
      obtain ⟨rfl, hi⟩ := hc
      rw [if_pos ⟨ho, hi⟩, Cells.getD_set, if_pos ⟨rfl, ho⟩]
      rfl
    · rw [if_neg hc]
      split_ifs with h
      · rw [Cells.getD_set, if_neg fun he => hc ⟨he.1, h.2⟩]
        rfl
      · rfl
  have hrun := History.foldl_latest
    (fun outputs : Vector F I.counts.numOutputs => outputs[o]?.getD 0) hstep (.replicate _ 0)
  rw [hmuted, History.latest_map] at hrun
  exact hrun

omit [FloatOps F] in
theorem isInputPatched_eq (s : SmartCoreProcessor I) (el : I.InputElem) :
    s.isInputPatched el = (s.getInput el).isSome := by
  rw [isInputPatched, getInput]
  cases s.inputValues[(I.index el.1).inputIdx.toNat]? <;> rfl

theorem getState_eq (s : SmartCoreProcessor I) (el : I.ParamElem) :
    s.getState el = convertState (I.element el) (s.getParamRaw el 0) := by
  have hp : 0 < (I.count el).numParams := el.2
  have hone : (I.count el).numParams = 1 := by
    have hle : (I.count el).numParams ≤ 1 := (I.element el).type.numParams_le_one
    omega
  simp [getState, hone]

end SmartCoreProcessor

end PluginSdk
