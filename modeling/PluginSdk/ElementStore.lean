import PluginSdk.SmartCoreProcessor

/-! The purpose of `SmartCoreProcessor`: every element has values of its own,
and a numbered call reaches the element whose id it names and no other. The
arrays implement this store because the index table tiles the ids. -/

namespace PluginSdk

open History

variable {F : Type} [FloatOps F] {I : Info F}

@[ext] structure ElementStore (I : Info F) where
  param : I.ParamElem → F
  input : I.InputElem → Option F
  output : I.OutputElem → F
  patched : I.OutputElem → Bool
  led : (el : I.LightElem) → Fin (I.count el).numLights → F

namespace ElementStore

def init (I : Info F) : ElementStore I where
  param _ := 0
  input _ := none
  output _ := 0
  patched _ := false
  led _ _ := 0

/-- The value of an input after a call: marks empty it or assume 0 V, writes
replace it. -/
def inputAfter (i : Nat) (call : HostCall F) (val : Option F) : Option F :=
  match call.inputMark i with
  | some false => none
  | some true => some (val.getD 0)
  | none => (call.inputWrite i).or val

def host (t : ElementStore I) (call : HostCall F) : ElementStore I where
  param el := (call.paramWrite (I.index el).paramIdx.toNat).getD (t.param el)
  input el := inputAfter (I.index el).inputIdx.toNat call (t.input el)
  output := t.output
  patched el := (call.outputMark (I.index el).outputIdx.toNat).getD (t.patched el)
  led := t.led

def step (t : ElementStore I) : ModuleCall I → ElementStore I
  | .host call => t.host call
  | .setOutput el val => { t with output := Function.update t.output el val }
  | .setLED el value overload => { t with
      led := Function.update t.led el fun k =>
        ((convertLED (I.element el) value).get overload)[k.val]?.getD 0 }

def run (t : ElementStore I) (calls : List (ModuleCall I)) : ElementStore I := calls.foldl step t

end ElementStore

namespace SmartCoreProcessor

def abs (s : SmartCoreProcessor I) : ElementStore I where
  param el := s.getParamRaw el 0
  input := s.getInput
  output := s.getOutputOf
  patched := s.isOutputPatched
  led el k := s.ledValues[(I.index el).lightIdx.toNat + k.val]?.getD 0

theorem abs_init (I : Info F) : (init I).abs = ElementStore.init I := by
  refine ElementStore.ext ?_ ?_ ?_ ?_ ?_ <;> funext el
  · exact Cells.getD_replicate _ _
  · exact Cells.getD_replicate _ _
  · exact Cells.getD_replicate _ _
  · exact Cells.getD_replicate _ _
  · exact funext fun k => Cells.getD_replicate _ _

theorem abs_host_param (s : SmartCoreProcessor I) (call : HostCall F) (el : I.ParamElem) :
    (s.host call).abs.param el = (s.abs.host call).param el := by
  have hi : (I.index el.1).paramIdx.toNat < I.counts.numParams := Info.index_lt (k := .param) el.2
  cases call with
  | setParam id val =>
    refine (Cells.getD_set s.paramValues (sizeT id) _ val 0).trans ?_
    simp only [ElementStore.host, HostCall.paramWrite, Nat.add_zero, hi, and_true]
    split_ifs <;> rfl
  | _ => rfl

theorem inputValues_host (s : SmartCoreProcessor I) (call : HostCall F) {i : Nat}
    (hi : i < I.counts.numInputs) :
    (s.host call).inputValues[i]?.getD none =
      ElementStore.inputAfter i call (s.inputValues[i]?.getD none) := by
  cases call with
  | setInput id val =>
    refine (Cells.getD_set s.inputValues (sizeT id) i (some val) none).trans ?_
    simp only [ElementStore.inputAfter, HostCall.inputMark, HostCall.inputWrite, hi, and_true]
    split_ifs <;> rfl
  | markInputUnpatched id =>
    refine (Cells.getD_set s.inputValues (sizeT id) i none none).trans ?_
    simp only [ElementStore.inputAfter, HostCall.inputMark, HostCall.inputWrite, hi, and_true]
    split_ifs <;> rfl
  | markAllInputsUnpatched => exact Cells.getD_replicate _ _
  | markInputPatched id =>
    refine (Cells.getD_modifyAt s.inputValues (sizeT id) i _ none).trans ?_
    simp only [ElementStore.inputAfter, HostCall.inputMark, HostCall.inputWrite, hi, and_true]
    by_cases hid : sizeT id = i
    · simp only [if_pos hid]
      cases s.inputValues[i]?.getD none <;> rfl
    · simp only [if_neg hid]
      rfl
  | _ => rfl

theorem outputPatched_host (s : SmartCoreProcessor I) (call : HostCall F) {o : Nat}
    (ho : o < I.counts.numOutputs) :
    (s.host call).outputPatched[o]?.getD false =
      (call.outputMark o).getD (s.outputPatched[o]?.getD false) := by
  cases call with
  | markOutputUnpatched id =>
    refine (Cells.getD_set s.outputPatched (sizeT id) o false false).trans ?_
    simp only [HostCall.outputMark, ho, and_true]
    split_ifs <;> rfl
  | markOutputPatched id =>
    refine (Cells.getD_set s.outputPatched (sizeT id) o true false).trans ?_
    simp only [HostCall.outputMark, ho, and_true]
    split_ifs <;> rfl
  | markAllOutputsUnpatched => exact Cells.getD_replicate _ _
  | _ => rfl

theorem abs_host (s : SmartCoreProcessor I) (call : HostCall F) :
    (s.host call).abs = s.abs.host call := by
  refine ElementStore.ext ?_ ?_ ?_ ?_ ?_ <;> funext el
  · exact abs_host_param s call el
  · exact inputValues_host s call (Info.index_lt el.num_pos)
  · cases call <;> rfl
  · exact outputPatched_host s call (Info.index_lt el.num_pos)
  · cases call <;> rfl

theorem abs_setOutput (hfit : FitsUInt16 I.elements) (s : SmartCoreProcessor I) (el : I.OutputElem)
    (val : F) : (s.setOutput el val).abs = s.abs.step (.setOutput el val) := by
  refine ElementStore.ext rfl rfl (funext fun el' => ?_) rfl rfl
  have hi : (I.index el.1).outputIdx.toNat < I.counts.numOutputs := Info.index_lt el.num_pos
  show (s.outputValues.setIfInBounds (I.index el.1).outputIdx.toNat val)[
    (I.index el'.1).outputIdx.toNat]?.getD 0 = Function.update s.getOutputOf el val el'
  by_cases he : el' = el
  · subst he
    rw [Function.update_self, Vector.getElem?_setIfInBounds_self_of_lt hi, Option.getD_some]
  · have hne : (I.index el.1).outputIdx.toNat ≠ (I.index el'.1).outputIdx.toNat := by
      intro hh
      have hinj := Info.index_inj (i := 0) (j := 0) hfit el.num_pos el'.num_pos hh
      exact he (Subtype.ext hinj.1.symm)
    rw [Function.update_of_ne he, Vector.getElem?_setIfInBounds_ne hne]
    rfl

theorem abs_setLED (hfit : FitsUInt16 I.elements) (s : SmartCoreProcessor I) (el : I.LightElem)
    (value : LedValue F) (overload : (convertLED (I.element el) value).isSome) :
    (s.setLED el value overload).abs = s.abs.step (.setLED el value overload) := by
  have hr := setLEDsFrom_eq s el 0 ((convertLED (I.element el) value).get overload)
  rw [setLED, hr, Nat.add_zero]
  refine ElementStore.ext rfl rfl rfl rfl (funext fun el' => funext fun k => ?_)
  have hlen := convertLED_length (Option.some_get overload).symm
  have hk : k.val < (I.count el'.1).num .light := k.isLt
  have hle := Info.index_add_le (k := .light) el'.2
  show (Cells.writeFrom s.ledValues _ _)[(I.index el'.1).lightIdx.toNat + k.val]?.getD 0 =
    Function.update s.abs.led el _ el' k
  rw [Cells.getElem?_writeFrom]
  have hk' : k.val < (I.count el'.1).numLights := k.isLt
  have hle' : (I.index el'.1).lightIdx.toNat + (I.count el'.1).numLights ≤ I.counts.numLights := hle
  by_cases he : el' = el
  · subst he
    have hlen' : ((convertLED (I.element el') value).get overload).length =
        (I.count el'.1).numLights := hlen
    rw [Function.update_self, if_pos ⟨by omega, by omega, by omega⟩, Nat.add_sub_cancel_left]
  · have hno : ¬ ((I.index el.1).lightIdx.toNat ≤ (I.index el'.1).lightIdx.toNat + k.val ∧
        (I.index el'.1).lightIdx.toNat + k.val < (I.index el.1).lightIdx.toNat +
          ((convertLED (I.element el) value).get overload).length ∧
        (I.index el'.1).lightIdx.toNat + k.val < I.counts.numLights) := by
      rintro ⟨hlo, hhi, _⟩
      rw [hlen] at hhi
      obtain ⟨j, hj⟩ := Nat.exists_eq_add_of_le hlo
      have hjlt : j < (I.count el.1).num .light := by
        show j < (count (I.element el.1)).numLights
        omega
      exact he (Subtype.ext (Info.index_inj hfit hk hjlt hj).1)
    rw [Function.update_of_ne he, if_neg hno]
    rfl

theorem abs_step (hfit : FitsUInt16 I.elements) (s : SmartCoreProcessor I) (call : ModuleCall I) :
    (s.step call).abs = s.abs.step call := by
  cases call with
  | host call => exact abs_host s call
  | setOutput el val => exact abs_setOutput hfit s el val
  | setLED el value overload => exact abs_setLED hfit s el value overload

theorem abs_run (hfit : FitsUInt16 I.elements) (s : SmartCoreProcessor I)
    (calls : List (ModuleCall I)) : (s.run calls).abs = s.abs.run calls := by
  induction calls generalizing s with
  | nil => rfl
  | cons call calls ih =>
    have hh := ih (s.step call)
    rw [abs_step hfit] at hh
    exact hh

end SmartCoreProcessor

namespace ElementStore

def outputWrite (el : I.OutputElem) : ModuleCall I → Option F
  | .setOutput el' val => if el' = el then some val else none
  | _ => none

def ledWrite (el : I.LightElem) : ModuleCall I → Option (List F)
  | .setLED el' value _ => if el' = el then convertLED (I.element el') value else none
  | _ => none

/-- What a history leaves in input `i`: the latest voltage since the input was
last unpatched, or 0 V if it was only marked patched since. -/
def inputSince (i : Nat) (calls : List (ModuleCall I)) : Option F :=
  let recent := since (fun c => c.onHost (·.inputMark i) == some false) calls
  (latest (·.onHost (·.inputWrite i)) recent).or
    (if recent.any (fun c => c.onHost (·.inputMark i) == some true) then some 0 else none)

theorem run_param (t : ElementStore I) (calls : List (ModuleCall I)) (el : I.ParamElem) :
    (t.run calls).param el =
      (latest (·.onHost (·.paramWrite (I.index el).paramIdx.toNat)) calls).getD (t.param el) := by
  refine foldl_latest (fun t : ElementStore I => t.param el) (fun t call _ => ?_) t
  cases call <;> rfl

theorem run_patched (t : ElementStore I) (calls : List (ModuleCall I)) (el : I.OutputElem) :
    (t.run calls).patched el =
      (latest (·.onHost (·.outputMark (I.index el).outputIdx.toNat)) calls).getD
        (t.patched el) := by
  refine foldl_latest (fun t : ElementStore I => t.patched el) (fun t call _ => ?_) t
  cases call <;> rfl

theorem run_output (t : ElementStore I) (calls : List (ModuleCall I)) (el : I.OutputElem) :
    (t.run calls).output el = (latest (outputWrite el) calls).getD (t.output el) := by
  refine foldl_latest (fun t : ElementStore I => t.output el) (fun t call _ => ?_) t
  cases call with
  | setOutput el' val =>
    by_cases he : el' = el
    · subst he
      simp [step, outputWrite]
    · simp [step, outputWrite, he, Function.update_of_ne (Ne.symm he)]
  | _ => rfl

theorem run_led (t : ElementStore I) (calls : List (ModuleCall I)) (el : I.LightElem)
    (k : Fin (I.count el).numLights) :
    (t.run calls).led el k =
      ((latest (ledWrite el) calls).map fun raw => raw[k.val]?.getD 0).getD (t.led el k) := by
  rw [← latest_map]
  refine foldl_latest (fun t : ElementStore I => t.led el k) (fun t call _ => ?_) t
  cases call with
  | setLED el' value overload =>
    by_cases he : el' = el
    · subst he
      obtain ⟨raw, hraw⟩ := Option.isSome_iff_exists.mp overload
      simp [step, ledWrite, hraw]
    · simp [step, ledWrite, he, Function.update_of_ne (Ne.symm he)]
  | _ => rfl

theorem inputSince_concat (i : Nat) (calls : List (ModuleCall I)) (call : HostCall F) :
    inputSince i (calls ++ [.host call]) = inputAfter i call (inputSince i calls) := by
  unfold inputSince inputAfter
  rw [since_concat, ModuleCall.onHost_host]
  cases hm : call.inputMark i with
  | none => cases hw : call.inputWrite i <;> simp [hm, hw]
  | some mark =>
    -- a mark carries no voltage
    have hw : call.inputWrite i = none := by
      cases call <;> first | rfl | cases hm
    cases mark with
    | false => rfl
    | true =>
      cases hv : latest (·.onHost (·.inputWrite i))
          (since (fun c : ModuleCall I => c.onHost (·.inputMark i) == some false) calls) with
      | some v => simp [hm, hw, hv]
      | none =>
        cases ha : (since (fun c : ModuleCall I => c.onHost (·.inputMark i) == some false)
          calls).any (fun c => c.onHost (·.inputMark i) == some true) <;> simp [hm, hw, hv, ha]

theorem run_input (calls : List (ModuleCall I)) (el : I.InputElem) :
    ((init I).run calls).input el = inputSince (I.index el).inputIdx.toNat calls := by
  induction calls using List.reverseRecOn with
  | nil => rfl
  | append_singleton calls call ih =>
    rw [run, List.foldl_concat]
    cases call with
    | host call =>
      rw [inputSince_concat, ← ih]
      rfl
    | setOutput el' val | setLED el' value overload =>
      refine Eq.trans ih ?_
      simp [inputSince]

end ElementStore

open ElementStore in
/-- After any run, what an element reads is decided by the calls that named it
since it was last unpatched: the arrays refine the per-element store. -/
theorem smartCoreProcessor_refines_store (I : Info F) (hfit : FitsUInt16 I.elements)
    (calls : List (ModuleCall I)) :
    ((SmartCoreProcessor.init I).run calls).abs = (ElementStore.init I).run calls ∧
    (∀ el : I.ParamElem, ((SmartCoreProcessor.init I).run calls).getState el =
      convertState (I.element el)
        ((latest (·.onHost (·.paramWrite (I.index el).paramIdx.toNat)) calls).getD 0)) ∧
    (∀ el : I.InputElem,
      ((SmartCoreProcessor.init I).run calls).getInput el =
        inputSince (I.index el).inputIdx.toNat calls ∧
      ((SmartCoreProcessor.init I).run calls).isInputPatched el =
        (((SmartCoreProcessor.init I).run calls).getInput el).isSome) ∧
    (∀ el : I.OutputElem,
      ((SmartCoreProcessor.init I).run calls).isOutputPatched el =
        (latest (·.onHost (·.outputMark (I.index el).outputIdx.toNat)) calls).getD false ∧
      ∀ id : Int32, id.toInt = (I.index el).outputIdx.toNat →
        ((SmartCoreProcessor.init I).run calls).getOutput id =
          (latest (outputWrite el) calls).getD 0) ∧
    ∀ (el : I.LightElem) (k : Nat), k < (I.count el).numLights → ∀ id : Int32,
      id.toInt = ((I.index el).lightIdx.toNat + k : Nat) →
        ((SmartCoreProcessor.init I).run calls).getLedBrightness id =
          ((latest (ledWrite el) calls).bind (·[k]?)).getD 0 := by
  have habs : ((SmartCoreProcessor.init I).run calls).abs = (ElementStore.init I).run calls := by
    rw [SmartCoreProcessor.abs_run hfit, SmartCoreProcessor.abs_init]
  generalize (SmartCoreProcessor.init I).run calls = s at habs
  refine ⟨habs, fun el => ?_, fun el => ⟨?_, ?_⟩, fun el => ⟨?_, fun id hid => ?_⟩,
    fun el k hk id hid => ?_⟩
  · rw [SmartCoreProcessor.getState_eq]
    have hp : s.getParamRaw el 0 = _ :=
      (congrArg (·.param el) habs).trans (run_param (ElementStore.init I) calls el)
    rw [hp]
    rfl
  · exact (congrArg (·.input el) habs).trans (run_input calls el)
  · exact SmartCoreProcessor.isInputPatched_eq s el
  · exact (congrArg (·.patched el) habs).trans (run_patched _ calls el)
  · have hc : s.getOutput id = s.getOutputOf el := by
      rw [SmartCoreProcessor.getOutput, (sizeT_eq_iff (Info.index_lt_int el.1 .output)).mpr hid]
      rfl
    exact hc.trans ((congrArg (·.output el) habs).trans (run_output _ calls el))
  · have hlt : (I.index el).lightIdx.toNat + k < 2 ^ 31 := by
      have hle : (I.index el).lightIdx.toNat + (I.count el).numLights ≤ I.counts.numLights :=
        Info.index_add_le (k := .light) el.2
      have hf : I.counts.numLights ≤ 0xFFFF := hfit .light
      omega
    have hc : s.getLedBrightness id = s.abs.led el ⟨k, hk⟩ := by
      rw [SmartCoreProcessor.getLedBrightness, (sizeT_eq_iff hlt).mpr hid]
      rfl
    rw [hc, habs, run_led]
    cases latest (ledWrite el) calls <;> rfl

theorem smartCoreProcessor_refines_store_sample :
    ((SmartCoreProcessor.init sampleInfo).run [.host (.markInputPatched 0), .host (.setInput 0 3),
      .host (.markInputPatched 0)]).getInput sampleInfo.inJack = some 3 ∧
    ((SmartCoreProcessor.init sampleInfo).run
      [.setLED sampleInfo.light (.floats #v[1, 2, 3]) (by decide)]).getLedBrightness 2 = 3 := by
  have hin := (smartCoreProcessor_refines_store sampleInfo sampleInfo.fits
    [.host (.markInputPatched 0), .host (.setInput 0 3), .host (.markInputPatched 0)]).2.2.1
      sampleInfo.inJack
  have hled := (smartCoreProcessor_refines_store sampleInfo sampleInfo.fits
    [.setLED sampleInfo.light (.floats #v[1, 2, 3]) (by decide)]).2.2.2.2 sampleInfo.light 2
      (by decide) 2 (by decide)
  exact ⟨hin.1, hled⟩

end PluginSdk
