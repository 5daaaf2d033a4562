import PluginSdk.Port

/-! The config functions of `rack::engine::Module`. The vectors of quantities
and infos own their objects, so a slot is either null or the object itself.
Indexing outside a vector and writing through a null pointer yield `none`. -/

namespace PluginSdk

/-- Identifies a module by its address, which is what `this` denotes in it. -/
abbrev ModulePtr := Nat

structure ParamQuantity (F : Type) [FloatOps F] where
  module : Option ModulePtr := none
  paramId : Int32 := -1
  minValue : F := 0
  maxValue : F := 1
  defaultValue : F := 0
  name : String := ""
  unit : String := ""
  displayBase : F := 0
  displayMultiplier : F := 1
  displayOffset : F := 0
  displayPrecision : Int32 := 5
  description : String := ""
  resetEnabled : Bool := true
  randomizeEnabled : Bool := true
  smoothEnabled : Bool := false
  snapEnabled : Bool := false
  labels : List String := []

inductive PortType
  | input | output
  deriving DecidableEq, Repr

structure PortInfo where
  module : Option ModulePtr := none
  type : PortType := .input
  portId : Int32 := -1
  name : String := ""
  description : String := ""

structure LightInfo where
  module : Option ModulePtr := none
  lightId : Int32 := -1
  name : String := ""
  description : String := ""

structure ModuleRoute where
  inputId : Int32 := -1
  outputId : Int32 := -1
  deriving DecidableEq, Repr

structure Module (F : Type) [FloatOps F] where
  address : ModulePtr
  params : List F
  inputs : List (Port F)
  outputs : List (Port F)
  lights : List F
  paramQuantities : List (Option (ParamQuantity F))
  inputInfos : List (Option PortInfo)
  outputInfos : List (Option PortInfo)
  lightInfos : List (Option LightInfo)
  bypassRoutes : List ModuleRoute := []

variable {F : Type} [FloatOps F]

namespace Module

/-- `(int)xs.size()` -/
def intSize {α : Type} (xs : List α) : Int32 := Int32.ofNat xs.length

/-- `xs[id] = a`, where the old content of the slot is read first. -/
def replaceAt {α : Type} (xs : List α) (id : Int32) (a : α) : Option (List α) := do
  let _ ← xs[sizeT id]?
  some (xs.set (sizeT id) a)

/-- The returned pointer is given by the slot that owns the object. -/
abbrev SlotPtr := Option Nat

/-- `fresh` is what `new TParamQuantity` builds. -/
def configParam (m : Module F) (fresh : ParamQuantity F) (paramId : Int32)
    (minValue maxValue defaultValue : F) (name : String := "") (unit : String := "")
    (displayBase : F := 0) (displayMultiplier : F := 1) (displayOffset : F := 0) :
    Option (Module F × SlotPtr) :=
  if intSize m.paramQuantities ≤ paramId then some (m, none)
  else do
    let paramQuantities ← replaceAt m.paramQuantities paramId (some { fresh with
      module := some m.address
      paramId, minValue, maxValue, defaultValue, name, unit
      displayBase, displayMultiplier, displayOffset })
    let params ← replaceAt m.params paramId defaultValue
    some ({ m with paramQuantities, params }, some (sizeT paramId))

/-- `sq->field = ..` on the pointer that `configParam` returned. -/
def updateQuantity (result : Module F × SlotPtr) (f : ParamQuantity F → ParamQuantity F) :
    Option (Module F × SlotPtr) := do
  let slot ← result.2
  let old ← result.1.paramQuantities[slot]?
  let quantity ← old
  some ({ result.1 with
    paramQuantities := result.1.paramQuantities.set slot (some (f quantity)) }, result.2)

def configSwitch (m : Module F) (fresh : ParamQuantity F) (paramId : Int32)
    (minValue maxValue defaultValue : F) (name : String := "") (labels : List String := []) :
    Option (Module F × SlotPtr) := do
  let sq ← m.configParam fresh paramId minValue maxValue defaultValue name
  updateQuantity sq fun q => { q with snapEnabled := true, smoothEnabled := false, labels }

def configButton (m : Module F) (fresh : ParamQuantity F) (paramId : Int32) (name : String := "") :
    Option (Module F × SlotPtr) := do
  let sq ← m.configParam fresh paramId 0 1 0 name
  updateQuantity sq fun q =>
    { q with randomizeEnabled := false, smoothEnabled := false, snapEnabled := true }

/-- The body that `configInput`, `configOutput` and `configLight` share. -/
def configInfo {α β : Type} (values : List α) (infos : List (Option β)) (id : Int32) (info : β) :
    Option (List (Option β) × SlotPtr) :=
  if intSize values ≤ id ∨ intSize infos ≤ id then some (infos, none)
  else do
    let infos ← replaceAt infos id (some info)
    some (infos, some (sizeT id))

def configInput (m : Module F) (fresh : PortInfo) (portId : Int32) (name : String := "") :
    Option (Module F × SlotPtr) := do
  let (inputInfos, slot) ← configInfo m.inputs m.inputInfos portId
    { fresh with module := some m.address, type := .input, portId, name }
  some ({ m with inputInfos }, slot)

def configOutput (m : Module F) (fresh : PortInfo) (portId : Int32) (name : String := "") :
    Option (Module F × SlotPtr) := do
  let (outputInfos, slot) ← configInfo m.outputs m.outputInfos portId
    { fresh with module := some m.address, type := .output, portId, name }
  some ({ m with outputInfos }, slot)

def configLight (m : Module F) (fresh : LightInfo) (lightId : Int32) (name : String := "") :
    Option (Module F × SlotPtr) := do
  let (lightInfos, slot) ← configInfo m.lights m.lightInfos lightId
    { fresh with module := some m.address, lightId, name }
  some ({ m with lightInfos }, slot)

/-- What `config` leaves behind: each value has its info slot, and the counts
were given as `int`. -/
structure Sized (m : Module F) : Prop where
  paramQuantities : m.paramQuantities.length = m.params.length
  inputInfos : m.inputInfos.length = m.inputs.length
  outputInfos : m.outputInfos.length = m.outputs.length
  lightInfos : m.lightInfos.length = m.lights.length
  params_lt : m.params.length < 2 ^ 31
  inputs_lt : m.inputs.length < 2 ^ 31
  outputs_lt : m.outputs.length < 2 ^ 31
  lights_lt : m.lights.length < 2 ^ 31

end Module

inductive ConfigCall (F : Type) [FloatOps F]
  | param (fresh : ParamQuantity F) (paramId : Int32) (minValue maxValue defaultValue : F)
      (name unit : String) (displayBase displayMultiplier displayOffset : F)
  | switch (fresh : ParamQuantity F) (paramId : Int32) (minValue maxValue defaultValue : F)
      (name : String) (labels : List String)
  | button (fresh : ParamQuantity F) (paramId : Int32) (name : String)
  | input (fresh : PortInfo) (portId : Int32) (name : String)
  | output (fresh : PortInfo) (portId : Int32) (name : String)
  | light (fresh : LightInfo) (lightId : Int32) (name : String)

def Module.config (m : Module F) : ConfigCall F → Option (Module F × Module.SlotPtr)
  | .param fresh id minValue maxValue defaultValue name unit base multiplier offset =>
    m.configParam fresh id minValue maxValue defaultValue name unit base multiplier offset
  | .switch fresh id minValue maxValue defaultValue name labels =>
    m.configSwitch fresh id minValue maxValue defaultValue name labels
  | .button fresh id name => m.configButton fresh id name
  | .input fresh id name => m.configInput fresh id name
  | .output fresh id name => m.configOutput fresh id name
  | .light fresh id name => m.configLight fresh id name

namespace ConfigCall

def id : ConfigCall F → Int
  | param _ id .. | switch _ id .. | button _ id _ | input _ id _ | output _ id _
  | light _ id _ => id.toInt

def slots (m : Module F) : ConfigCall F → Nat
  | param .. | switch .. | button .. => m.paramQuantities.length
  | input .. => m.inputInfos.length
  | output .. => m.outputInfos.length
  | light .. => m.lightInfos.length

def InRange (m : Module F) (call : ConfigCall F) : Prop := 0 ≤ call.id ∧ call.id < call.slots m

/-- `configSwitch` and `configButton` write through the pointer they get. -/
def UsesPointer : ConfigCall F → Prop
  | switch .. | button .. => True
  | _ => False

/-- No id below zero, and none beyond the end where the pointer is used. -/
def Guarded (m : Module F) (call : ConfigCall F) : Prop :=
  0 ≤ call.id ∧ (call.UsesPointer → call.id < call.slots m)

instance (m : Module F) (call : ConfigCall F) : Decidable (call.InRange m) :=
  inferInstanceAs (Decidable (_ ∧ _))

instance : (call : ConfigCall F) → Decidable call.UsesPointer
  | switch .. | button .. => isTrue trivial
  | param .. | input .. | output .. | light .. => isFalse not_false

instance (m : Module F) (call : ConfigCall F) : Decidable (call.Guarded m) :=
  inferInstanceAs (Decidable (_ ∧ (_ → _)))

def Replaced {α : Type} (xs ys : List α) (i : Nat) (a : α) : Prop :=
  ys.length = xs.length ∧ ys[i]? = some a ∧ ∀ j, j ≠ i → ys[j]? = xs[j]?

def ReplacesParam (m m' : Module F) (i : Nat) (quantity : ParamQuantity F) (value : F) : Prop :=
  ∃ paramQuantities params, m' = { m with paramQuantities, params } ∧
    Replaced m.paramQuantities paramQuantities i (some quantity) ∧ Replaced m.params params i value

def Replaces (m m' : Module F) (i : Nat) : ConfigCall F → Prop
  | param fresh paramId minValue maxValue defaultValue name unit displayBase displayMultiplier
      displayOffset =>
    ReplacesParam m m' i { fresh with
      module := some m.address
      paramId, minValue, maxValue, defaultValue, name, unit
      displayBase, displayMultiplier, displayOffset } defaultValue
  | switch fresh paramId minValue maxValue defaultValue name labels =>
    ReplacesParam m m' i { fresh with
      module := some m.address
      paramId, minValue, maxValue, defaultValue, name, labels
      unit := "", displayBase := 0, displayMultiplier := 1, displayOffset := 0
      snapEnabled := true, smoothEnabled := false } defaultValue
  | button fresh paramId name =>
    ReplacesParam m m' i { fresh with
      module := some m.address
      paramId, name
      minValue := 0, maxValue := 1, defaultValue := 0
      unit := "", displayBase := 0, displayMultiplier := 1, displayOffset := 0
      randomizeEnabled := false, smoothEnabled := false, snapEnabled := true } 0
  | input fresh portId name =>
    ∃ inputInfos, m' = { m with inputInfos } ∧ Replaced m.inputInfos inputInfos i
      (some { fresh with module := some m.address, type := .input, portId, name })
  | output fresh portId name =>
    ∃ outputInfos, m' = { m with outputInfos } ∧ Replaced m.outputInfos outputInfos i
      (some { fresh with module := some m.address, type := .output, portId, name })
  | light fresh lightId name =>
    ∃ lightInfos, m' = { m with lightInfos } ∧ Replaced m.lightInfos lightInfos i
      (some { fresh with module := some m.address, lightId, name })

/-- Out of range nothing happens and null comes back; in range exactly the
slot is replaced and the returned pointer is its object. -/
def Contract (m : Module F) (call : ConfigCall F) : Prop :=
  (¬ call.InRange m → m.config call = some (m, none)) ∧
    (call.InRange m → ∃ m', m.config call = some (m', some call.id.toNat) ∧
      call.Replaces m m' call.id.toNat)

end ConfigCall

namespace Module

open ConfigCall

variable {α β : Type} {xs : List α} {id : Int32} {m : Module F}

theorem intSize_le_iff (h : xs.length < 2 ^ 31) : intSize xs ≤ id ↔ (xs.length : Int) ≤ id.toInt := by
  have hsize : (intSize xs).toInt = xs.length := Int32.toInt_ofNat_of_lt h
  rw [Int32.le_iff_toInt_le, hsize]

theorem sizeT_of_nonneg (h : 0 ≤ id.toInt) : sizeT id = id.toInt.toNat := by
  have hhi := id.toInt_lt
  rw [sizeT_eq_iff (by omega)]
  omega

theorem replaceAt_of_inRange (a : α) (h0 : 0 ≤ id.toInt) (h : id.toInt < xs.length) :
    replaceAt xs id a = some (xs.set id.toInt.toNat a) := by
  have hlt : id.toInt.toNat < xs.length := by omega
  rw [replaceAt, sizeT_of_nonneg h0, List.getElem?_eq_getElem hlt]
  rfl

/-- The cast of a negative id lies beyond every vector. -/
theorem replaceAt_of_neg (a : α) (hlen : xs.length < 2 ^ 31) (h : id.toInt < 0) :
    replaceAt xs id a = none := by
  have hge : xs.length ≤ sizeT id := by
    by_contra hlt
    have hid : id.toInt = sizeT id := (sizeT_eq_iff (by omega)).mp rfl
    omega
  rw [replaceAt, List.getElem?_eq_none hge]
  rfl

theorem replaced_set {i : Nat} (a : α) (h : i < xs.length) : Replaced xs (xs.set i a) i a := by
  refine ⟨List.length_set, ?_, fun j hj => ?_⟩
  · rw [List.getElem?_set_self h]
  · rw [List.getElem?_set_ne hj.symm]

theorem configInfo_of_inRange {infos : List (Option β)} (info : β)
    (hsize : infos.length = xs.length) (hlen : xs.length < 2 ^ 31) (h0 : 0 ≤ id.toInt)
    (h : id.toInt < infos.length) :
    configInfo xs infos id info =
      some (infos.set id.toInt.toNat (some info), some id.toInt.toNat) := by
  have hle : ¬ (intSize xs ≤ id ∨ intSize infos ≤ id) := by
    rw [intSize_le_iff hlen, intSize_le_iff (hsize ▸ hlen)]
    omega
  rw [configInfo, if_neg hle, replaceAt_of_inRange _ h0 h, sizeT_of_nonneg h0]
  rfl

theorem configInfo_of_ge {infos : List (Option β)} (info : β) (hsize : infos.length = xs.length)
    (hlen : xs.length < 2 ^ 31) (h : infos.length ≤ id.toInt) :
    configInfo xs infos id info = some (infos, none) := by
  have hle : intSize infos ≤ id := (intSize_le_iff (hsize ▸ hlen)).mpr h
  rw [configInfo, if_pos (.inr hle)]

theorem configInfo_of_neg {infos : List (Option β)} (info : β) (hsize : infos.length = xs.length)
    (hlen : xs.length < 2 ^ 31) (h : id.toInt < 0) : configInfo xs infos id info = none := by
  have hle : ¬ (intSize xs ≤ id ∨ intSize infos ≤ id) := by
    rw [intSize_le_iff hlen, intSize_le_iff (hsize ▸ hlen)]
    omega
  rw [configInfo, if_neg hle, replaceAt_of_neg _ (hsize ▸ hlen) h]
  rfl

/-! One case for each side of the range, for `configParam` and then for every
entry point. -/

section

variable {fresh : ParamQuantity F} {paramId : Int32} {minValue maxValue defaultValue : F}
  {name unit : String} {displayBase displayMultiplier displayOffset : F}

theorem configParam_of_inRange (hm : m.Sized) (h0 : 0 ≤ paramId.toInt)
    (h : paramId.toInt < m.paramQuantities.length) :
    m.configParam fresh paramId minValue maxValue defaultValue name unit displayBase
        displayMultiplier displayOffset =
      some ({ m with
        paramQuantities := m.paramQuantities.set paramId.toInt.toNat (some { fresh with
          module := some m.address
          paramId, minValue, maxValue, defaultValue, name, unit
          displayBase, displayMultiplier, displayOffset })
        params := m.params.set paramId.toInt.toNat defaultValue }, some paramId.toInt.toNat) := by
  have hlen : m.paramQuantities.length < 2 ^ 31 := hm.paramQuantities ▸ hm.params_lt
  have hle : ¬ intSize m.paramQuantities ≤ paramId := by
    rw [intSize_le_iff hlen]
    omega
  rw [configParam, if_neg hle, replaceAt_of_inRange _ h0 h,
    replaceAt_of_inRange _ h0 (hm.paramQuantities ▸ h), sizeT_of_nonneg h0]
  rfl

theorem configParam_of_ge (hm : m.Sized) (h : m.paramQuantities.length ≤ paramId.toInt) :
    m.configParam fresh paramId minValue maxValue defaultValue name unit displayBase
      displayMultiplier displayOffset = some (m, none) := by
  have hlen : m.paramQuantities.length < 2 ^ 31 := hm.paramQuantities ▸ hm.params_lt
  rw [configParam, if_pos ((intSize_le_iff hlen).mpr h)]

theorem configParam_of_neg (hm : m.Sized) (h : paramId.toInt < 0) :
    m.configParam fresh paramId minValue maxValue defaultValue name unit displayBase
      displayMultiplier displayOffset = none := by
  have hlen : m.paramQuantities.length < 2 ^ 31 := hm.paramQuantities ▸ hm.params_lt
  have hle : ¬ intSize m.paramQuantities ≤ paramId := by
    rw [intSize_le_iff hlen]
    omega
  rw [configParam, if_neg hle, replaceAt_of_neg _ hlen h]
  rfl

end

theorem updateQuantity_set {paramQuantities : List (Option (ParamQuantity F))} {params : List F}
    {i : Nat} (quantity : ParamQuantity F) (f : ParamQuantity F → ParamQuantity F)
    (h : i < paramQuantities.length) :
    updateQuantity ({ m with
        paramQuantities := paramQuantities.set i (some quantity), params }, some i) f =
      some ({ m with paramQuantities := paramQuantities.set i (some (f quantity)), params },
        some i) := by
  simp [updateQuantity, h]

theorem config_of_neg (hm : m.Sized) {call : ConfigCall F} (h : call.id < 0) :
    m.config call = none := by
  cases call with
  | param => exact configParam_of_neg hm h
  | switch => rw [config, configSwitch, configParam_of_neg hm h]; rfl
  | button => rw [config, configButton, configParam_of_neg hm h]; rfl
  | input => rw [config, configInput, configInfo_of_neg _ hm.inputInfos hm.inputs_lt h]; rfl
  | output => rw [config, configOutput, configInfo_of_neg _ hm.outputInfos hm.outputs_lt h]; rfl
  | light => rw [config, configLight, configInfo_of_neg _ hm.lightInfos hm.lights_lt h]; rfl

theorem config_of_ge (hm : m.Sized) {call : ConfigCall F} (h : call.slots m ≤ call.id)
    (hp : ¬ call.UsesPointer) : m.config call = some (m, none) := by
  cases call with
  | param => exact configParam_of_ge hm h
  | switch => exact absurd trivial hp
  | button => exact absurd trivial hp
  | input => rw [config, configInput, configInfo_of_ge _ hm.inputInfos hm.inputs_lt h]; rfl
  | output => rw [config, configOutput, configInfo_of_ge _ hm.outputInfos hm.outputs_lt h]; rfl
  | light => rw [config, configLight, configInfo_of_ge _ hm.lightInfos hm.lights_lt h]; rfl

theorem config_of_ge_pointer (hm : m.Sized) {call : ConfigCall F} (h : call.slots m ≤ call.id)
    (hp : call.UsesPointer) : m.config call = none := by
  cases call with
  | switch => rw [config, configSwitch, configParam_of_ge hm h]; rfl
  | button => rw [config, configButton, configParam_of_ge hm h]; rfl
  | _ => exact absurd hp (by simp [UsesPointer])

theorem replacesParam_set (hm : m.Sized) {i : Nat} (quantity : ParamQuantity F) (value : F)
    (h : i < m.paramQuantities.length) :
    ReplacesParam m { m with
      paramQuantities := m.paramQuantities.set i (some quantity)
      params := m.params.set i value } i quantity value :=
  ⟨_, _, rfl, replaced_set _ h, replaced_set _ (hm.paramQuantities ▸ h)⟩

theorem config_of_inRange (hm : m.Sized) {call : ConfigCall F} (h : call.InRange m) :
    ∃ m', m.config call = some (m', some call.id.toNat) ∧ call.Replaces m m' call.id.toNat := by
  obtain ⟨h0, hlt⟩ := h
  have hi : call.id.toNat < call.slots m := by omega
  cases call with
  | param =>
    exact ⟨_, configParam_of_inRange hm h0 hlt, replacesParam_set hm _ _ hi⟩
  | switch =>
    refine ⟨_, ?_, replacesParam_set hm _ _ hi⟩
    rw [config, configSwitch, configParam_of_inRange hm h0 hlt]
    exact updateQuantity_set _ _ hi
  | button =>
    refine ⟨_, ?_, replacesParam_set hm _ _ hi⟩
    rw [config, configButton, configParam_of_inRange hm h0 hlt]
    exact updateQuantity_set _ _ hi
  | input =>
    refine ⟨_, ?_, _, rfl, replaced_set _ hi⟩
    rw [config, configInput, configInfo_of_inRange _ hm.inputInfos hm.inputs_lt h0 hlt]
    rfl
  | output =>
    refine ⟨_, ?_, _, rfl, replaced_set _ hi⟩
    rw [config, configOutput, configInfo_of_inRange _ hm.outputInfos hm.outputs_lt h0 hlt]
    rfl
  | light =>
    refine ⟨_, ?_, _, rfl, replaced_set _ hi⟩
    rw [config, configLight, configInfo_of_inRange _ hm.lightInfos hm.lights_lt h0 hlt]
    rfl

end Module

/-- The contract holds exactly for the ids that the checks of the entry point
and the use it makes of the pointer leave room for. -/
theorem configContract_iff {m : Module F} (hm : m.Sized) (call : ConfigCall F) :
    call.Contract m ↔ call.Guarded m := by
  rcases lt_or_ge call.id 0 with hneg | h0
  · have hout : ¬ call.InRange m := fun h => absurd h.1 (not_le.mpr hneg)
    refine iff_of_false (fun h => ?_) fun h => absurd h.1 (not_le.mpr hneg)
    have hnull := h.1 hout
    rw [Module.config_of_neg hm hneg] at hnull
    cases hnull
  · rcases lt_or_ge call.id (call.slots m) with hlt | hge
    · exact iff_of_true ⟨fun h => absurd ⟨h0, hlt⟩ h, Module.config_of_inRange hm⟩
        ⟨h0, fun _ => hlt⟩
    · have hout : ¬ call.InRange m := fun h => absurd h.2 (not_lt.mpr hge)
      by_cases hp : call.UsesPointer
      · refine iff_of_false (fun h => ?_) fun h => absurd (h.2 hp) (not_lt.mpr hge)
        have hnull := h.1 hout
        rw [Module.config_of_ge_pointer hm hge hp] at hnull
        cases hnull
      · exact iff_of_true ⟨fun _ => Module.config_of_ge hm hge hp, fun h => absurd h hout⟩
          ⟨h0, fun h => absurd h hp⟩

def sampleModule : Module ℚ where
  address := 0x100
  params := [0]
  inputs := [⟨#v[0, 0, 0, 0], 0⟩]
  outputs := [⟨#v[0, 0, 0, 0], 0⟩]
  lights := []
  paramQuantities := [none]
  inputInfos := [none]
  outputInfos := [none]
  lightInfos := []

theorem sampleModule_sized : sampleModule.Sized := by
  constructor <;> decide

theorem configContract_sample : (ConfigCall.button {} 0 "Trig").Contract sampleModule :=
  (configContract_iff sampleModule_sized (.button {} 0 "Trig")).mpr (by decide)

/-- A negative id passes the check, and `configSwitch` uses the null pointer. -/
theorem configContract_fails :
    ¬ (ConfigCall.input {} (-1) "In").Contract sampleModule ∧
    ¬ (ConfigCall.switch {} 1 0 1 0 "Mode" ["A", "B"]).Contract sampleModule := by
  constructor
  · intro h
    cases h.1 (by decide)
  · intro h
    cases h.1 (by decide)

end PluginSdk
