import PluginSdk.IndexTable
import PluginSdk.StateConversion

/-! What a module declares at compile time, and the calls its processor
receives: those of the host through the `CoreProcessor` interface and those of
the module's own code. -/

namespace PluginSdk

structure BypassRoute where
  input : UInt16
  output : UInt16
  deriving DecidableEq, Repr

structure Info (F : Type) where
  elements : List (Element F)
  bypassRoutes : List BypassRoute := []

namespace Info

variable {F : Type} (I : Info F)

/-- `enum class Elem` names the positions of `Elements`. -/
abbrev Elem := Fin I.elements.length

def counts : Counts := countAll I.elements

def indices : List Indices := getIndices I.elements

def element (el : I.Elem) : Element F := I.elements[el]

def count (el : I.Elem) : Counts := PluginSdk.count (I.element el)

def index (el : I.Elem) : Indices := I.indices[el.val]?.getD noElementIndices

abbrev ParamElem := {el : I.Elem // 0 < (I.count el).numParams}

abbrev LightElem := {el : I.Elem // 0 < (I.count el).numLights}

abbrev InputElem := {el : I.Elem // (I.count el).numInputs = 1}

abbrev OutputElem := {el : I.Elem // (I.count el).numOutputs = 1}

def routeInto (o : Nat) (route : BypassRoute) : Option Nat :=
  if route.output.toNat = o ∧ route.input.toNat < I.counts.numInputs then some route.input.toNat
  else none

theorem elements_getElem? (el : I.Elem) : I.elements[el.val]? = some (I.element el) :=
  List.getElem?_eq_getElem el.isLt

theorem indices_getElem? (el : I.Elem) : I.indices[el.val]? = some (I.index el) := by
  obtain ⟨idx, ht⟩ := getIndices_row (I.elements_getElem? el)
  have ht' : I.indices[el.val]? = some idx := ht
  rw [index, ht', Option.getD_some]

variable {I} {el el' : I.Elem} {k : Kind}

theorem index_add_le (h : 0 < (I.count el).num k) :
    ((I.index el).idx k).toNat + (I.count el).num k ≤ I.counts.num k :=
  idx_add_le_total (I.elements_getElem? el) (I.indices_getElem? el) h

theorem index_lt (h : 0 < (I.count el).num k) : ((I.index el).idx k).toNat < I.counts.num k := by
  have hh := index_add_le h
  omega

theorem index_lt_int (el : I.Elem) (k : Kind) : ((I.index el).idx k).toNat < 2 ^ 31 :=
  lt_trans ((I.index el).idx k).toNat_lt (by decide)

theorem InputElem.num_pos (el : I.InputElem) : 0 < (I.count el.1).num .input := by
  have := el.2
  simp only [Counts.num]
  omega

theorem OutputElem.num_pos (el : I.OutputElem) : 0 < (I.count el.1).num .output := by
  have := el.2
  simp only [Counts.num]
  omega

/-- Ids of one kind are shared neither between elements nor within one. -/
theorem index_inj (hfit : FitsUInt16 I.elements) {i j : Nat} (hi : i < (I.count el).num k)
    (hj : j < (I.count el').num k)
    (h : ((I.index el).idx k).toNat + i = ((I.index el').idx k).toNat + j) : el = el' ∧ i = j := by
  rw [idx_toNat hfit (I.elements_getElem? el) (I.indices_getElem? el) (Nat.zero_lt_of_lt hi),
    idx_toNat hfit (I.elements_getElem? el') (I.indices_getElem? el') (Nat.zero_lt_of_lt hj)] at h
  have hh := Tiling.address_inj (sizes_getElem? (I.elements_getElem? el) k)
    (sizes_getElem? (I.elements_getElem? el') k) hi hj h
  exact ⟨Fin.ext hh.1, hh.2⟩

end Info

inductive HostCall (F : Type)
  | setParam (paramId : Int32) (val : F)
  | setInput (inputId : Int32) (val : F)
  | markAllInputsUnpatched
  | markInputUnpatched (inputId : Int32)
  | markInputPatched (inputId : Int32)
  | markAllOutputsUnpatched
  | markOutputUnpatched (outputId : Int32)
  | markOutputPatched (outputId : Int32)

inductive ModuleCall {F : Type} [FloatOps F] (I : Info F)
  | host (call : HostCall F)
  | setOutput (el : I.OutputElem) (val : F)
  | setLED (el : I.LightElem) (value : LedValue F)
      (overload : (convertLED (I.element el) value).isSome)

namespace HostCall

variable {F : Type}

def inputMark (i : Nat) : HostCall F → Option Bool
  | markAllInputsUnpatched => some false
  | markInputUnpatched id => if sizeT id = i then some false else none
  | markInputPatched id => if sizeT id = i then some true else none
  | _ => none

def outputMark (o : Nat) : HostCall F → Option Bool
  | markAllOutputsUnpatched => some false
  | markOutputUnpatched id => if sizeT id = o then some false else none
  | markOutputPatched id => if sizeT id = o then some true else none
  | _ => none

def paramWrite (p : Nat) : HostCall F → Option F
  | setParam id val => if sizeT id = p then some val else none
  | _ => none

def inputWrite (i : Nat) : HostCall F → Option F
  | setInput id val => if sizeT id = i then some val else none
  | _ => none

end HostCall

namespace ModuleCall

variable {F : Type} [FloatOps F] {I : Info F} {α : Type}

def onHost (f : HostCall F → Option α) : ModuleCall I → Option α
  | host call => f call
  | _ => none

@[simp] theorem onHost_host (f : HostCall F → Option α) (call : HostCall F) :
    (host call : ModuleCall I).onHost f = f call := rfl

@[simp] theorem onHost_setOutput (f : HostCall F → Option α) (el : I.OutputElem) (val : F) :
    (setOutput el val).onHost f = none := rfl

@[simp] theorem onHost_setLED (f : HostCall F → Option α) (el : I.LightElem) (value : LedValue F)
    (overload : (convertLED (I.element el) value).isSome) :
    (setLED el value overload).onHost f = none := rfl

end ModuleCall

def sampleInfo : Info ℚ where
  elements := [.jackInput ⟨0, 0, "", ""⟩, .jackOutput ⟨1, 0, "", ""⟩, .rgbLight ⟨2, 0, "", ""⟩,
    .knob ⟨3, 0, "", ""⟩]
  bypassRoutes := [⟨0, 0⟩]

namespace sampleInfo

def inJack : sampleInfo.InputElem := ⟨⟨0, by decide⟩, by decide⟩

def outJack : sampleInfo.OutputElem := ⟨⟨1, by decide⟩, by decide⟩

def light : sampleInfo.LightElem := ⟨⟨2, by decide⟩, by decide⟩

theorem fits : FitsUInt16 sampleInfo.elements := by
  intro k
  cases k <;> decide

end sampleInfo

end PluginSdk
