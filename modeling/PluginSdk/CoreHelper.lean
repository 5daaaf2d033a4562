import PluginSdk.ElementStore

/-! The public id constants of `CoreHelper`, next to the typed accessors of the
processor. A constant whose `requires` clause fails does not exist. -/

namespace PluginSdk

open History ElementStore

namespace CoreHelper

variable {F : Type} (I : Info F) (el : I.Elem)

def paramIndex : Option UInt16 :=
  if (I.count el).numParams > 0 then I.indices[el.val]?.map (·.paramIdx) else none

def paramIdx : Option UInt16 := paramIndex I el

def inputIndex : Option UInt16 :=
  if (I.count el).numInputs > 0 then I.indices[el.val]?.map (·.inputIdx) else none

def inputIdx : Option UInt16 := inputIndex I el

def outputIndex : Option UInt16 :=
  if (I.count el).numOutputs > 0 then I.indices[el.val]?.map (·.outputIdx) else none

def outputIdx : Option UInt16 := outputIndex I el

def firstLightIndex : Option UInt16 :=
  if (I.count el).numLights > 0 then I.indices[el.val]?.map (·.lightIdx) else none

/-- The source takes `output_index` here. -/
def lightIdx : Option UInt16 := outputIndex I el

def displayIndex : Option UInt16 :=
  if (I.count el).numLights > 0 then I.indices[el.val]?.map (·.lightIdx) else none

def displayIdx : Option UInt16 := displayIndex I el

end CoreHelper

/-- A `uint16_t` id, `k` places on, as the `int` argument of an interface call. -/
def intId (id : UInt16) (k : Nat) : Int32 := Int32.ofNat (id.toNat + k)

variable {F : Type} [FloatOps F] {I : Info F}

structure IdsAddressStorage (I : Info F) (el : I.Elem) : Prop where
  param : ∀ h : 0 < (I.count el).numParams,
    CoreHelper.paramIdx I el = some (I.index el).paramIdx ∧
    ∀ (s : SmartCoreProcessor I) (val : F),
      (s.setParam (intId (I.index el).paramIdx 0) val).getState ⟨el, h⟩ =
        convertState (I.element el) val
  input : 0 < (I.count el).numInputs → ∃ h : (I.count el).numInputs = 1,
    CoreHelper.inputIdx I el = some (I.index el).inputIdx ∧
    ∀ (s : SmartCoreProcessor I) (val : F),
      (s.setInput (intId (I.index el).inputIdx 0) val).getInput ⟨el, h⟩ = some val
  output : 0 < (I.count el).numOutputs → ∃ h : (I.count el).numOutputs = 1,
    CoreHelper.outputIdx I el = some (I.index el).outputIdx ∧
    ∀ (s : SmartCoreProcessor I) (val : F) (calls : List (ModuleCall I)),
      (∀ call ∈ calls, outputWrite ⟨el, h⟩ call = none) →
      ((s.setOutput ⟨el, h⟩ val).run calls).getOutput (intId (I.index el).outputIdx 0) = val
  light : ∀ h : 0 < (I.count el).numLights,
    CoreHelper.lightIdx I el = some (I.index el).lightIdx ∧
    ∀ (s : SmartCoreProcessor I) (value : LedValue F)
      (overload : (convertLED (I.element el) value).isSome) (calls : List (ModuleCall I)),
      (∀ call ∈ calls, ledWrite ⟨el, h⟩ call = none) → ∀ k < (I.count el).numLights,
      ((s.setLED ⟨el, h⟩ value overload).run calls).getLedBrightness
        (intId (I.index el).lightIdx k) =
          ((convertLED (I.element el) value).get overload)[k]?.getD 0

theorem sizeT_intId {id : UInt16} {k : Nat} (h : id.toNat + k < 2 ^ 31) :
    sizeT (intId id k) = id.toNat + k := by
  rw [sizeT_eq_iff h, intId, Int32.toInt_ofNat_of_lt h]

omit [FloatOps F] in
theorem indices_map (el : I.Elem) (f : Indices → UInt16) :
    I.indices[el.val]?.map f = some (f (I.index el)) := by
  rw [Info.indices_getElem?, Option.map_some]

theorem param_addressed (el : I.ParamElem) (s : SmartCoreProcessor I) (val : F) :
    (s.setParam (intId (I.index el).paramIdx 0) val).getState el =
      convertState (I.element el) val := by
  have hid : sizeT (intId (I.index el).paramIdx 0) = (I.index el).paramIdx.toNat :=
    sizeT_intId (k := 0) (Info.index_lt_int el.1 .param)
  have hi : (I.index el).paramIdx.toNat < I.counts.numParams := Info.index_lt (k := .param) el.2
  have hv : (s.setParam (intId (I.index el).paramIdx 0) val).getParamRaw el 0 = val := by
    show (s.paramValues.setIfInBounds (sizeT (intId (I.index el).paramIdx 0)) val)[
      (I.index el).paramIdx.toNat]?.getD 0 = val
    rw [hid, Vector.getElem?_setIfInBounds_self_of_lt hi, Option.getD_some]
  rw [SmartCoreProcessor.getState_eq, hv]

omit [FloatOps F] in
theorem input_addressed (el : I.InputElem) (s : SmartCoreProcessor I) (val : F) :
    (s.setInput (intId (I.index el).inputIdx 0) val).getInput el = some val := by
  have hid : sizeT (intId (I.index el).inputIdx 0) = (I.index el).inputIdx.toNat :=
    sizeT_intId (k := 0) (Info.index_lt_int el.1 .input)
  have hi : (I.index el).inputIdx.toNat < I.counts.numInputs := Info.index_lt el.num_pos
  show (s.inputValues.setIfInBounds (sizeT (intId (I.index el).inputIdx 0)) (some val))[
    (I.index el).inputIdx.toNat]?.getD none = some val
  rw [hid, Vector.getElem?_setIfInBounds_self_of_lt hi, Option.getD_some]

theorem output_addressed (hfit : FitsUInt16 I.elements) (el : I.OutputElem)
    (s : SmartCoreProcessor I) (val : F) {calls : List (ModuleCall I)}
    (hcalls : ∀ call ∈ calls, outputWrite el call = none) :
    ((s.setOutput el val).run calls).getOutput (intId (I.index el).outputIdx 0) = val := by
  have hid := sizeT_intId (k := 0) (Info.index_lt_int el.1 .output)
  have hread : ((s.setOutput el val).run calls).getOutput (intId (I.index el).outputIdx 0) =
      ((s.setOutput el val).run calls).abs.output el :=
    congrArg (fun i => ((s.setOutput el val).run calls).outputValues[i]?.getD 0) hid
  rw [hread, SmartCoreProcessor.abs_run hfit, run_output, latest_eq_none hcalls,
    SmartCoreProcessor.abs_setOutput hfit]
  exact Function.update_self _ _ _

theorem leds_addressed (hfit : FitsUInt16 I.elements) (el : I.LightElem)
    (s : SmartCoreProcessor I) (value : LedValue F)
    (overload : (convertLED (I.element el) value).isSome) {calls : List (ModuleCall I)}
    (hcalls : ∀ call ∈ calls, ledWrite el call = none) {k : Nat}
    (hk : k < (I.count el).numLights) :
    ((s.setLED el value overload).run calls).getLedBrightness (intId (I.index el).lightIdx k) =
      ((convertLED (I.element el) value).get overload)[k]?.getD 0 := by
  have hle : (I.index el).lightIdx.toNat + (I.count el).numLights ≤ I.counts.numLights :=
    Info.index_add_le (k := .light) el.2
  have hf : I.counts.numLights ≤ 0xFFFF := hfit .light
  have hid : sizeT (intId (I.index el).lightIdx k) = (I.index el).lightIdx.toNat + k :=
    sizeT_intId (by omega)
  have hread : ((s.setLED el value overload).run calls).getLedBrightness
      (intId (I.index el).lightIdx k) =
      ((s.setLED el value overload).run calls).abs.led el ⟨k, hk⟩ :=
    congrArg (fun i => ((s.setLED el value overload).run calls).ledValues[i]?.getD 0) hid
  rw [hread, SmartCoreProcessor.abs_run hfit, run_led, latest_eq_none hcalls,
    SmartCoreProcessor.abs_setLED hfit]
  exact congrFun (Function.update_self el _ s.abs.led) ⟨k, hk⟩

/-- The constants and the accessors agree exactly for elements without
lights; the light constant of any other element does not exist. -/
theorem idsAddressStorage_iff (hfit : FitsUInt16 I.elements) (el : I.Elem) :
    IdsAddressStorage I el ↔ (I.count el).numLights = 0 := by
  constructor
  · intro h
    by_contra hne
    have hpos : 0 < (I.count el).numLights := Nat.pos_of_ne_zero hne
    have hout : (I.count el).numOutputs = 0 := ElementClass.numOutputs_of_numLights_pos hpos
    have hl := (h.light hpos).1
    simp [CoreHelper.lightIdx, CoreHelper.outputIndex, hout] at hl
  · intro h
    refine ⟨fun hp => ⟨?_, param_addressed ⟨el, hp⟩⟩, fun hp => ?_, fun hp => ?_, fun hp => ?_⟩
    · rw [CoreHelper.paramIdx, CoreHelper.paramIndex, if_pos hp, indices_map]
    · have hle : (I.count el).numInputs ≤ 1 := (I.element el).type.numInputs_le_one
      have hone : (I.count el).numInputs = 1 := by omega
      refine ⟨hone, ?_, input_addressed ⟨el, hone⟩⟩
      rw [CoreHelper.inputIdx, CoreHelper.inputIndex, if_pos hp, indices_map]
    · have hle : (I.count el).numOutputs ≤ 1 := (I.element el).type.numOutputs_le_one
      have hone : (I.count el).numOutputs = 1 := by omega
      refine ⟨hone, ?_, fun s val calls => output_addressed hfit ⟨el, hone⟩ s val⟩
      rw [CoreHelper.outputIdx, CoreHelper.outputIndex, if_pos hp, indices_map]
    · omega

theorem idsAddressStorage_sample : IdsAddressStorage sampleInfo sampleInfo.inJack :=
  (idsAddressStorage_iff sampleInfo.fits sampleInfo.inJack).mpr (by decide)

theorem lightIdx_undefined :
    0 < (sampleInfo.count sampleInfo.light).numLights ∧
    CoreHelper.lightIdx sampleInfo sampleInfo.light = none ∧
    ¬ IdsAddressStorage sampleInfo sampleInfo.light := by
  refine ⟨by decide, by decide, fun h => ?_⟩
  have hl := (h.light (by decide)).1
  exact absurd hl (by decide)

/-- The display constant of an element with lights is the id that the light
constant should have. -/
theorem displayIdx_addresses_leds (hfit : FitsUInt16 I.elements) (el : I.LightElem)
    (s : SmartCoreProcessor I) (value : LedValue F)
    (overload : (convertLED (I.element el) value).isSome) {calls : List (ModuleCall I)}
    (hcalls : ∀ call ∈ calls, ledWrite el call = none) :
    ∃ id, CoreHelper.displayIdx I el = some id ∧ ∀ k < (I.count el).numLights,
      ((s.setLED el value overload).run calls).getLedBrightness (intId id k) =
        ((convertLED (I.element el) value).get overload)[k]?.getD 0 := by
  refine ⟨(I.index el).lightIdx, ?_, fun k hk => leds_addressed hfit el s value overload hcalls hk⟩
  rw [CoreHelper.displayIdx, CoreHelper.displayIndex, if_pos el.2, indices_map]

end PluginSdk
