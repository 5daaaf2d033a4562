import PluginSdk.CoreHelper
import PluginSdk.PartialRun

/-! `SmartCoreProcessorPoly`: jacks carry up to four channels, and the channel
count of a jack is also its patched flag. An operation yields `none` where the
source would index a row of voltages out of range. -/

namespace PluginSdk

abbrev maxPolyChannels : Nat := 4

abbrev Voltages (F : Type) := Vector F maxPolyChannels

variable {F : Type} [FloatOps F]

def Voltages.zero : Voltages F := .replicate _ 0

structure SmartCoreProcessorPoly (I : Info F) where
  paramValues : Vector F I.counts.numParams
  inputValues : Vector (Voltages F) I.counts.numInputs
  inputChannels : Vector Nat I.counts.numInputs
  outputValues : Vector (Voltages F) I.counts.numOutputs
  outputChannels : Vector Nat I.counts.numOutputs
  ledValues : Vector F I.counts.numLights

namespace SmartCoreProcessorPoly

variable {I : Info F}

def init (I : Info F) : SmartCoreProcessorPoly I where
  paramValues := .replicate _ 0
  inputValues := .replicate _ .zero
  inputChannels := .replicate _ 0
  outputValues := .replicate _ .zero
  outputChannels := .replicate _ 0
  ledValues := .replicate _ 0

def inputRow (s : SmartCoreProcessorPoly I) (i : Nat) : Voltages F := s.inputValues[i]?.getD .zero

def inputCount (s : SmartCoreProcessorPoly I) (i : Nat) : Nat := s.inputChannels[i]?.getD 0

def outputRow (s : SmartCoreProcessorPoly I) (o : Nat) : Voltages F := s.outputValues[o]?.getD .zero

def outputCount (s : SmartCoreProcessorPoly I) (o : Nat) : Nat := s.outputChannels[o]?.getD 0

/-! Module interface -/

def setOutput (s : SmartCoreProcessorPoly I) (el : I.OutputElem) (val : F) (chan : UInt32) :
    SmartCoreProcessorPoly I :=
  { s with outputValues := Cells.modifyAt s.outputValues (I.index el).outputIdx.toNat fun row =>
      row.setIfInBounds chan.toNat val }

def getOutputOf (s : SmartCoreProcessorPoly I) (el : I.OutputElem) (chan : UInt32) : F :=
  if (I.index el).outputIdx.toNat < I.counts.numOutputs then
    (s.outputRow (I.index el).outputIdx.toNat)[chan.toNat]?.getD 0
  else 0

def numOutputChannels (s : SmartCoreProcessorPoly I) (el : I.OutputElem) : Nat :=
  s.outputCount (I.index el).outputIdx.toNat

/-- Neither patches nor unpatches: the count moves within `1 .. 4`. -/
def setChannels (s : SmartCoreProcessorPoly I) (el : I.OutputElem) (numChans : UInt32) :
    Option (SmartCoreProcessorPoly I) :=
  let idx := (I.index el).outputIdx.toNat
  if idx < I.counts.numOutputs then
    if s.outputCount idx = 0 then some s
    else do
      let row ← Cells.fill? (s.outputRow idx) numChans.toNat (fun _ => some 0)
        (s.outputCount idx - numChans.toNat)
      some { s with
        outputValues := s.outputValues.setIfInBounds idx row
        outputChannels := s.outputChannels.setIfInBounds idx
          (clampUnsigned numChans.toNat 1 maxPolyChannels) }
  else some s

def isOutputPatched (s : SmartCoreProcessorPoly I) (el : I.OutputElem) : Bool :=
  s.outputCount (I.index el).outputIdx.toNat != 0

/-- The outer `none` is a read beyond the row; the inner one is `nullopt`. -/
def getInput (s : SmartCoreProcessorPoly I) (el : I.InputElem) (chan : UInt32) :
    Option (Option F) :=
  let idx := (I.index el).inputIdx.toNat
  if idx < I.counts.numInputs ∧ chan.toNat < s.inputCount idx then
    (Cells.read? (s.inputRow idx) chan.toNat).map some
  else some none

def numInputChannels (s : SmartCoreProcessorPoly I) (el : I.InputElem) : Nat :=
  s.inputCount (I.index el).inputIdx.toNat

def isInputPatched (s : SmartCoreProcessorPoly I) (el : I.InputElem) : Bool :=
  0 < s.numInputChannels el

def getParamRaw (s : SmartCoreProcessorPoly I) (el : I.Elem) (localIndex : Nat) : F :=
  s.paramValues[(I.index el).paramIdx.toNat + localIndex]?.getD 0

def getState (s : SmartCoreProcessorPoly I) (el : I.ParamElem) : Option (StateValue F) :=
  match (List.range (I.count el).numParams).map (s.getParamRaw el) with
  | [raw] => convertState (I.element el) raw
  | _ => none

def setLEDsFrom (s : SmartCoreProcessorPoly I) (el : I.Elem) (i : Nat) :
    List F → SmartCoreProcessorPoly I
  | [] => s
  | val :: rawValues =>
    { s with ledValues := s.ledValues.setIfInBounds ((I.index el).lightIdx.toNat + i) val
      : SmartCoreProcessorPoly I }.setLEDsFrom el (i + 1) rawValues

def setLED (s : SmartCoreProcessorPoly I) (el : I.LightElem) (value : LedValue F)
    (overload : (convertLED (I.element el) value).isSome) : SmartCoreProcessorPoly I :=
  s.setLEDsFrom el 0 ((convertLED (I.element el) value).get overload)

def bypassRoute (s : SmartCoreProcessorPoly I) (route : BypassRoute) : SmartCoreProcessorPoly I :=
  if route.output.toNat < I.counts.numOutputs ∧ route.input.toNat < I.counts.numInputs then
    { s with
      outputValues := s.outputValues.setIfInBounds route.output.toNat
        (s.inputRow route.input.toNat)
      outputChannels := Cells.modifyAt s.outputChannels route.output.toNat fun channels =>
        if 0 < channels then
          clampUnsigned (s.inputCount route.input.toNat) 1 maxPolyChannels
        else channels }
  else s

def handleBypass (s : SmartCoreProcessorPoly I) : SmartCoreProcessorPoly I :=
  I.bypassRoutes.foldl bypassRoute { s with outputValues := .replicate _ .zero }

/-! `CoreProcessor` interface -/

def getOutput (s : SmartCoreProcessorPoly I) (outputId : Int32) : F :=
  if sizeT outputId < I.counts.numOutputs then (s.outputRow (sizeT outputId))[0] else 0

/-- Only channel 0 is written; the count is left to the marks. -/
def setInput (s : SmartCoreProcessorPoly I) (inputId : Int32) (val : F) :
    SmartCoreProcessorPoly I :=
  { s with inputValues := Cells.modifyAt s.inputValues (sizeT inputId) fun row => row.set 0 val }

def setParam (s : SmartCoreProcessorPoly I) (paramId : Int32) (val : F) :
    SmartCoreProcessorPoly I :=
  { s with paramValues := s.paramValues.setIfInBounds (sizeT paramId) val }

def getParam (s : SmartCoreProcessorPoly I) (paramId : Int32) : F :=
  s.paramValues[sizeT paramId]?.getD 0

def getLedBrightness (s : SmartCoreProcessorPoly I) (ledId : Int32) : F :=
  s.ledValues[sizeT ledId]?.getD 0

def markAllInputsUnpatched (s : SmartCoreProcessorPoly I) : SmartCoreProcessorPoly I :=
  { s with inputChannels := .replicate _ 0, inputValues := .replicate _ .zero }

def markInputUnpatched (s : SmartCoreProcessorPoly I) (inputId : Int32) :
    SmartCoreProcessorPoly I :=
  { s with
    inputChannels := s.inputChannels.setIfInBounds (sizeT inputId) 0
    inputValues := s.inputValues.setIfInBounds (sizeT inputId) .zero }

def markInputPatched (s : SmartCoreProcessorPoly I) (inputId : Int32) :
    SmartCoreProcessorPoly I :=
  if sizeT inputId < I.counts.numInputs ∧ s.inputCount (sizeT inputId) = 0 then
    { s with
      inputChannels := s.inputChannels.setIfInBounds (sizeT inputId) 1
      inputValues := s.inputValues.setIfInBounds (sizeT inputId) .zero }
  else s

def markAllOutputsUnpatched (s : SmartCoreProcessorPoly I) : SmartCoreProcessorPoly I :=
  { s with outputChannels := .replicate _ 0 }

def markOutputUnpatched (s : SmartCoreProcessorPoly I) (outputId : Int32) :
    SmartCoreProcessorPoly I :=
  { s with outputChannels := s.outputChannels.setIfInBounds (sizeT outputId) 0 }

def markOutputPatched (s : SmartCoreProcessorPoly I) (outputId : Int32) :
    SmartCoreProcessorPoly I :=
  { s with outputChannels := Cells.modifyAt s.outputChannels (sizeT outputId) fun channels =>
      if channels = 0 then 1 else channels }

/-- What the host stores through the pointers of `get_poly_input_buffer`. -/
def writeInputBuffer (s : SmartCoreProcessorPoly I) (inputId : Int32) (voltages : Voltages F)
    (channels : Nat) : SmartCoreProcessorPoly I :=
  { s with
    inputValues := s.inputValues.setIfInBounds (sizeT inputId) voltages
    inputChannels := s.inputChannels.setIfInBounds (sizeT inputId) channels }

def host (s : SmartCoreProcessorPoly I) : HostCall F → SmartCoreProcessorPoly I
  | .setParam id val => s.setParam id val
  | .setInput id val => s.setInput id val
  | .markAllInputsUnpatched => s.markAllInputsUnpatched
  | .markInputUnpatched id => s.markInputUnpatched id
  | .markInputPatched id => s.markInputPatched id
  | .markAllOutputsUnpatched => s.markAllOutputsUnpatched
  | .markOutputUnpatched id => s.markOutputUnpatched id
  | .markOutputPatched id => s.markOutputPatched id

end SmartCoreProcessorPoly

inductive PolyCall (I : Info F)
  | host (call : HostCall F)
  | writeInputBuffer (inputId : Int32) (voltages : Voltages F) (channels : Nat)
  | setOutput (el : I.OutputElem) (val : F) (chan : UInt32)
  | setChannels (el : I.OutputElem) (numChans : UInt32)
  | setLED (el : I.LightElem) (value : LedValue F)
      (overload : (convertLED (I.element el) value).isSome)
  | getInput (el : I.InputElem) (chan : UInt32)
  | getOutput (el : I.OutputElem) (chan : UInt32)
  | handleBypass

namespace PolyCall

variable {I : Info F} {α : Type}

def onHost (f : HostCall F → Option α) : PolyCall I → Option α
  | host call => f call
  | _ => none

end PolyCall

namespace SmartCoreProcessorPoly

variable {I : Info F}

def step (s : SmartCoreProcessorPoly I) : PolyCall I → Option (SmartCoreProcessorPoly I)
  | .host call => some (s.host call)
  | .writeInputBuffer id voltages channels => some (s.writeInputBuffer id voltages channels)
  | .setOutput el val chan => some (s.setOutput el val chan)
  | .setChannels el numChans => s.setChannels el numChans
  | .setLED el value overload => some (s.setLED el value overload)
  | .getInput el chan => (s.getInput el chan).map fun _ => s
  | .getOutput _ _ => some s
  | .handleBypass => some s.handleBypass

/-! What each operation does to the count and the voltages of one jack. -/

omit [FloatOps F] in
theorem outputCount_of_le (s : SmartCoreProcessorPoly I) {o : Nat} (h : I.counts.numOutputs ≤ o) :
    s.outputCount o = 0 := by
  rw [outputCount, Vector.getElem?_eq_none h, Option.getD_none]

omit [FloatOps F] in
theorem inputCount_of_le (s : SmartCoreProcessorPoly I) {i : Nat} (h : I.counts.numInputs ≤ i) :
    s.inputCount i = 0 := by
  rw [inputCount, Vector.getElem?_eq_none h, Option.getD_none]

theorem outputRow_of_le (s : SmartCoreProcessorPoly I) {o : Nat} (h : I.counts.numOutputs ≤ o) :
    s.outputRow o = .zero := by
  rw [outputRow, Vector.getElem?_eq_none h, Option.getD_none]

theorem inputRow_of_le (s : SmartCoreProcessorPoly I) {i : Nat} (h : I.counts.numInputs ≤ i) :
    s.inputRow i = .zero := by
  rw [inputRow, Vector.getElem?_eq_none h, Option.getD_none]

@[simp] theorem outputCount_init (o : Nat) : (init I).outputCount o = 0 := Cells.getD_replicate o 0

@[simp] theorem inputCount_init (i : Nat) : (init I).inputCount i = 0 := Cells.getD_replicate i 0

@[simp] theorem outputRow_init (o : Nat) : (init I).outputRow o = .zero :=
  Cells.getD_replicate o Voltages.zero

@[simp] theorem inputRow_init (i : Nat) : (init I).inputRow i = .zero :=
  Cells.getD_replicate i Voltages.zero

def countAfter (mark : Option Bool) (count : Nat) : Nat :=
  match mark with
  | some false => 0
  | some true => if count = 0 then 1 else count
  | none => count

theorem outputCount_host (s : SmartCoreProcessorPoly I) (call : HostCall F) {o : Nat}
    (ho : o < I.counts.numOutputs) :
    (s.host call).outputCount o = countAfter (call.outputMark o) (s.outputCount o) := by
  cases call with
  | markAllOutputsUnpatched => exact Cells.getD_replicate o 0
  | markOutputUnpatched id =>
    refine (Cells.getD_set s.outputChannels (sizeT id) o 0 0).trans ?_
    simp only [HostCall.outputMark, ho, and_true]
    split_ifs <;> rfl
  | markOutputPatched id =>
    refine (Cells.getD_modifyAt s.outputChannels (sizeT id) o _ 0).trans ?_
    simp only [HostCall.outputMark, ho, and_true]
    by_cases hid : sizeT id = o
    · simp only [if_pos hid]
      rfl
    · simp only [if_neg hid]
      rfl
  | markInputPatched id =>
    simp only [host, markInputPatched]
    split_ifs <;> rfl
  | _ => rfl

theorem outputRow_host (s : SmartCoreProcessorPoly I) (call : HostCall F) (o : Nat) :
    (s.host call).outputRow o = s.outputRow o := by
  cases call with
  | markInputPatched id =>
    simp only [host, markInputPatched]
    split_ifs <;> rfl
  | _ => rfl

theorem inputCount_host (s : SmartCoreProcessorPoly I) (call : HostCall F) {i : Nat}
    (hi : i < I.counts.numInputs) :
    (s.host call).inputCount i = countAfter (call.inputMark i) (s.inputCount i) := by
  cases call with
  | markAllInputsUnpatched => exact Cells.getD_replicate i 0
  | markInputUnpatched id =>
    refine (Cells.getD_set s.inputChannels (sizeT id) i 0 0).trans ?_
    simp only [HostCall.inputMark, hi, and_true]
    split_ifs <;> rfl
  | markInputPatched id =>
    simp only [host, markInputPatched, HostCall.inputMark]
    by_cases hid : sizeT id = i
    · subst hid
      by_cases hc : s.inputCount (sizeT id) = 0
      · rw [if_pos ⟨hi, hc⟩, if_pos rfl, countAfter, if_pos hc]
        exact (Cells.getD_set s.inputChannels (sizeT id) _ 1 0).trans (if_pos ⟨rfl, hi⟩)
      · rw [if_neg fun h => hc h.2, if_pos rfl, countAfter, if_neg hc]
    · rw [if_neg hid]
      split_ifs with h
      · exact (Cells.getD_set s.inputChannels (sizeT id) i 1 0).trans (if_neg fun h => hid h.1)
      · rfl
  | _ => rfl

def rowAfter (i : Nat) (call : HostCall F) (count : Nat) (row : Voltages F) : Voltages F :=
  match call.inputMark i with
  | some false => .zero
  | some true => if count = 0 then .zero else row
  | none =>
    match call.inputWrite i with
    | some val => row.set 0 val
    | none => row

theorem inputRow_host (s : SmartCoreProcessorPoly I) (call : HostCall F) {i : Nat}
    (hi : i < I.counts.numInputs) :
    (s.host call).inputRow i = rowAfter i call (s.inputCount i) (s.inputRow i) := by
  cases call with
  | setInput id val =>
    refine (Cells.getD_modifyAt s.inputValues (sizeT id) i _ .zero).trans ?_
    simp only [rowAfter, HostCall.inputMark, HostCall.inputWrite, hi, and_true]
    split_ifs <;> rfl
  | markAllInputsUnpatched => exact Cells.getD_replicate i Voltages.zero
  | markInputUnpatched id =>
    refine (Cells.getD_set s.inputValues (sizeT id) i .zero .zero).trans ?_
    simp only [rowAfter, HostCall.inputMark, HostCall.inputWrite, hi, and_true]
    split_ifs <;> rfl
  | markInputPatched id =>
    simp only [host, markInputPatched, rowAfter, HostCall.inputMark, HostCall.inputWrite]
    by_cases hid : sizeT id = i
    · subst hid
      by_cases hc : s.inputCount (sizeT id) = 0
      · simp only [hi, hc, and_self, if_true]
        exact (Cells.getD_set s.inputValues (sizeT id) _ .zero .zero).trans (if_pos ⟨rfl, hi⟩)
      · simp only [hc, and_false, if_false, if_true]
    · simp only [if_neg hid]
      by_cases h : sizeT id < I.counts.numInputs ∧ s.inputCount (sizeT id) = 0
      · rw [if_pos h]
        exact (Cells.getD_set s.inputValues (sizeT id) i .zero .zero).trans
          (if_neg fun h => hid h.1)
      · rw [if_neg h]
  | _ => rfl

omit [FloatOps F] in
theorem setLEDsFrom_eq (s : SmartCoreProcessorPoly I) (el : I.Elem) (i : Nat) (raw : List F) :
    s.setLEDsFrom el i raw =
      { s with ledValues := Cells.writeFrom s.ledValues ((I.index el).lightIdx.toNat + i) raw } := by
  induction raw generalizing s i with
  | nil => rfl
  | cons val raw ih => rw [setLEDsFrom, ih]; rfl

theorem setChannels_eq {s : SmartCoreProcessorPoly I} (el : I.OutputElem) (numChans : UInt32)
    (h : s.numOutputChannels el ≤ maxPolyChannels) :
    ∃ rows counts, s.setChannels el numChans =
        some { s with outputValues := rows, outputChannels := counts } ∧
      (∀ o, counts[o]?.getD 0 =
        if o = (I.index el).outputIdx.toNat ∧ s.outputCount o ≠ 0 then
          clampUnsigned numChans.toNat 1 maxPolyChannels
        else s.outputCount o) ∧
      ∀ o c, (rows[o]?.getD Voltages.zero)[c]? =
        if o = (I.index el).outputIdx.toNat ∧ numChans.toNat ≤ c ∧ c < s.outputCount o then some 0
        else (s.outputRow o)[c]? := by
  have hi : (I.index el.1).outputIdx.toNat < I.counts.numOutputs := Info.index_lt el.num_pos
  have hle : s.outputCount (I.index el.1).outputIdx.toNat ≤ maxPolyChannels := h
  simp only [setChannels, if_pos hi]
  generalize (I.index el.1).outputIdx.toNat = idx at hi hle ⊢
  by_cases hz : s.outputCount idx = 0
  · refine ⟨s.outputValues, s.outputChannels, if_pos hz, fun o => ?_, fun o c => ?_⟩
    · rw [if_neg fun h => h.2 (h.1 ▸ hz)]
      rfl
    · rw [if_neg ?_]
      · rfl
      · rintro ⟨rfl, _, hc⟩
        omega
  · rw [if_neg hz]
    obtain ⟨row, hrow⟩ : ∃ row, Cells.fill? (s.outputRow idx) numChans.toNat
        (fun _ => some (0 : F)) (s.outputCount idx - numChans.toNat) = some row := by
      refine Cells.fill?_exists_iff.mpr fun i hlo hhi => ⟨by omega, ?_, 0, rfl⟩
      have hh : (maxPolyChannels : Int) = 4 := rfl
      omega
    refine ⟨_, _, by rw [hrow]; rfl, fun o => ?_, fun o c => ?_⟩
    · rw [Cells.getD_set]
      by_cases ho : o = idx
      · subst ho
        rw [if_pos ⟨rfl, hi⟩, if_pos ⟨rfl, hz⟩]
      · rw [if_neg fun h => ho h.1.symm, if_neg fun h => ho h.1]
        rfl
    · rw [Cells.getD_set]
      by_cases ho : o = idx
      · subst ho
        rw [if_pos ⟨rfl, hi⟩, Cells.getElem?_fill? hrow]
        by_cases hc : numChans.toNat ≤ c ∧ c < s.outputCount o
        · rw [if_pos (by omega), if_pos ⟨rfl, hc⟩]
        · rw [if_neg (by omega), if_neg fun h => hc h.2]
      · rw [if_neg fun h => ho h.1.symm, if_neg fun h => ho h.1]
        rfl

theorem foldl_bypassRoute_frame (s : SmartCoreProcessorPoly I) (routes : List BypassRoute) :
    ∃ rows counts, routes.foldl bypassRoute s =
      { s with outputValues := rows, outputChannels := counts } := by
  induction routes generalizing s with
  | nil => exact ⟨s.outputValues, s.outputChannels, rfl⟩
  | cons route routes ih =>
    obtain ⟨rows, counts, hr⟩ := ih (s.bypassRoute route)
    refine ⟨rows, counts, ?_⟩
    rw [List.foldl_cons, hr, bypassRoute]
    split_ifs <;> rfl

theorem outputRow_foldl_bypassRoute (s : SmartCoreProcessorPoly I) (routes : List BypassRoute)
    {o : Nat} (ho : o < I.counts.numOutputs) :
    (routes.foldl bypassRoute s).outputRow o =
      ((History.latest (I.routeInto o) routes).map s.inputRow).getD (s.outputRow o) := by
  induction routes using List.reverseRecOn with
  | nil => rfl
  | append_singleton routes route ih =>
    obtain ⟨rows, counts, hr⟩ := foldl_bypassRoute_frame s routes
    rw [List.foldl_concat, History.latest_concat, Info.routeInto]
    by_cases hc : route.output.toNat = o ∧ route.input.toNat < I.counts.numInputs
    · obtain ⟨rfl, hi⟩ := hc
      rw [bypassRoute, if_pos ⟨ho, hi⟩, if_pos ⟨rfl, hi⟩, hr]
      exact (Cells.getD_set rows _ _ _ _).trans (if_pos ⟨rfl, ho⟩)
    · rw [if_neg hc, Option.none_or, ← ih, bypassRoute]
      split_ifs with h
      · exact (Cells.getD_set _ _ _ _ _).trans (if_neg fun he => hc ⟨he.1, h.2⟩)
      · rfl

theorem outputCount_foldl_bypassRoute (s : SmartCoreProcessorPoly I) (routes : List BypassRoute)
    {o : Nat} (ho : o < I.counts.numOutputs) :
    (routes.foldl bypassRoute s).outputCount o =
      if s.outputCount o = 0 then 0
      else ((History.latest (I.routeInto o) routes).map fun i =>
        clampUnsigned (s.inputCount i) 1 maxPolyChannels).getD (s.outputCount o) := by
  induction routes using List.reverseRecOn with
  | nil =>
    split_ifs with hz
    · exact hz
    · rfl
  | append_singleton routes route ih =>
    obtain ⟨rows, counts, hr⟩ := foldl_bypassRoute_frame s routes
    rw [List.foldl_concat, History.latest_concat, Info.routeInto]
    by_cases hc : route.output.toNat = o ∧ route.input.toNat < I.counts.numInputs
    · rw [if_pos hc]
      obtain ⟨rfl, hi⟩ := hc
      have hin : (routes.foldl bypassRoute s).inputCount = s.inputCount := by rw [hr]; rfl
      have hpos : (routes.foldl bypassRoute s).outputCount route.output.toNat = 0 ↔
          s.outputCount route.output.toNat = 0 := by
        rw [ih]
        split_ifs with hz
        · simp [hz]
        · refine iff_of_false ?_ hz
          cases History.latest (I.routeInto route.output.toNat) routes with
          | none => exact hz
          | some i =>
            have hh := (clampUnsigned_bounds (by decide : 1 ≤ maxPolyChannels) (s.inputCount i)).1
            exact Nat.ne_of_gt hh
      rw [bypassRoute, if_pos ⟨ho, hi⟩, hin]
      refine (Cells.getD_modifyAt _ _ _ _ _).trans ((if_pos ⟨rfl, ho⟩).trans ?_)
      show (if 0 < (routes.foldl bypassRoute s).outputCount route.output.toNat then _
        else (routes.foldl bypassRoute s).outputCount route.output.toNat) = _
      by_cases hz : s.outputCount route.output.toNat = 0
      · rw [hpos.mpr hz, if_neg (Nat.lt_irrefl 0), if_pos hz]
      · rw [if_pos (Nat.pos_of_ne_zero fun h => hz (hpos.mp h)), if_neg hz]
        rfl
    · rw [if_neg hc, Option.none_or, ← ih, bypassRoute]
      split_ifs with h
      · exact (Cells.getD_modifyAt _ _ _ _ _).trans (if_neg fun he => hc ⟨he.1, h.2⟩)
      · rfl

theorem outputRow_handleBypass (s : SmartCoreProcessorPoly I) (o : Nat) :
    s.handleBypass.outputRow o =
      if o < I.counts.numOutputs then
        ((History.latest (I.routeInto o) I.bypassRoutes).map s.inputRow).getD .zero
      else .zero := by
  split_ifs with ho
  · refine (outputRow_foldl_bypassRoute { s with outputValues := .replicate _ .zero }
      I.bypassRoutes ho).trans ?_
    congr 1
    exact Cells.getD_replicate o Voltages.zero
  · exact outputRow_of_le _ (Nat.le_of_not_lt ho)

theorem outputCount_handleBypass (s : SmartCoreProcessorPoly I) (o : Nat) :
    s.handleBypass.outputCount o =
      if s.outputCount o = 0 then 0
      else ((History.latest (I.routeInto o) I.bypassRoutes).map fun i =>
        clampUnsigned (s.inputCount i) 1 maxPolyChannels).getD (s.outputCount o) := by
  by_cases ho : o < I.counts.numOutputs
  · exact outputCount_foldl_bypassRoute { s with outputValues := .replicate _ .zero }
      I.bypassRoutes ho
  · rw [outputCount_of_le _ (Nat.le_of_not_lt ho), if_pos (outputCount_of_le _ (Nat.le_of_not_lt ho))]

theorem handleBypass_frame (s : SmartCoreProcessorPoly I) :
    ∃ rows counts, s.handleBypass = { s with outputValues := rows, outputChannels := counts } := by
  obtain ⟨rows, counts, hr⟩ :=
    foldl_bypassRoute_frame { s with outputValues := .replicate _ .zero } I.bypassRoutes
  exact ⟨rows, counts, hr⟩

end SmartCoreProcessorPoly

end PluginSdk
