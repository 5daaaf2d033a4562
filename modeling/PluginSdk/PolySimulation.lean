import PluginSdk.PolyChannels

/-! The poly processor simulates the mono one. A mono input value becomes
channel 0 of a row with a positive count, and the patched flag of an output
becomes a positive count. -/

namespace PluginSdk

open History

variable {F : Type} [FloatOps F] {I : Info F}

/-- A call made to both processors; `setChannels` exists only in the poly one. -/
inductive DriverCall (I : Info F)
  | module (call : ModuleCall I)
  | handleBypass
  | setChannels (el : I.OutputElem) (numChans : UInt32)

namespace DriverCall

def onHost {α : Type} (f : HostCall F → Option α) : DriverCall I → Option α
  | module call => call.onHost f
  | _ => none

def stepMono (s : SmartCoreProcessor I) : DriverCall I → SmartCoreProcessor I
  | module call => s.step call
  | handleBypass => s.handleBypass
  | setChannels _ _ => s

def toPoly : DriverCall I → PolyCall I
  | module (.host call) => .host call
  | module (.setOutput el val) => .setOutput el val 0
  | module (.setLED el value overload) => .setLED el value overload
  | handleBypass => .handleBypass
  | setChannels el numChans => .setChannels el numChans

def stepPoly (p : SmartCoreProcessorPoly I) (call : DriverCall I) :
    Option (SmartCoreProcessorPoly I) :=
  p.step call.toPoly

/-- The host sends voltages only to inputs whose latest mark is a patch. -/
def FollowsProtocol (calls : List (DriverCall I)) : DriverCall I → Prop
  | module (.host (.setInput id _)) => latest (·.onHost (·.inputMark (sizeT id))) calls = some true
  | setChannels _ numChans => 1 ≤ numChans.toNat
  | _ => True

end DriverCall

structure PolyAgrees (m : SmartCoreProcessor I) (p : SmartCoreProcessorPoly I) : Prop where
  getOutput : ∀ id, p.getOutput id = m.getOutput id
  getParam : ∀ id, p.getParam id = m.getParam id
  getLedBrightness : ∀ id, p.getLedBrightness id = m.getLedBrightness id
  getOutputOf : ∀ el, p.getOutputOf el 0 = m.getOutputOf el
  getInput : ∀ el, p.getInput el 0 = some (m.getInput el)
  isOutputPatched : ∀ el, p.isOutputPatched el = m.isOutputPatched el
  isInputPatched : ∀ el, p.isInputPatched el = m.isInputPatched el
  getState : ∀ el, p.getState el = m.getState el

structure PolySimulates (m : SmartCoreProcessor I) (p : SmartCoreProcessorPoly I) : Prop where
  params : p.paramValues = m.paramValues
  leds : p.ledValues = m.ledValues
  output : ∀ o, (p.outputRow o)[0] = m.outputValues[o]?.getD 0
  patched : ∀ o, m.outputPatched[o]?.getD false = (p.outputCount o != 0)
  input : ∀ i, m.inputValues[i]?.getD none =
    if p.inputCount i = 0 then none else some (p.inputRow i)[0]
  unpatched_zero : ∀ i, p.inputCount i = 0 → (p.inputRow i)[0] = 0
  count_le : ∀ o, p.outputCount o ≤ maxPolyChannels

namespace PolySimulates

open SmartCoreProcessorPoly

variable {m : SmartCoreProcessor I} {p : SmartCoreProcessorPoly I}

theorem zero_getElem (c : Nat) (h : c < maxPolyChannels) : (Voltages.zero : Voltages F)[c] = 0 := by
  simp [Voltages.zero]

theorem init (I : Info F) :
    PolySimulates (SmartCoreProcessor.init I) (SmartCoreProcessorPoly.init I) where
  params := rfl
  leds := rfl
  output o := by
    rw [outputRow_init, zero_getElem]
    exact (Cells.getD_replicate o 0).symm
  patched o := by
    rw [outputCount_init]
    exact Cells.getD_replicate o false
  input i := by
    rw [inputCount_init, if_pos rfl]
    exact Cells.getD_replicate i none
  unpatched_zero i hi := by rw [inputRow_init, zero_getElem]
  count_le o := by simp

theorem agrees (h : PolySimulates m p) : PolyAgrees m p where
  getOutput id := by
    rw [SmartCoreProcessorPoly.getOutput, SmartCoreProcessor.getOutput]
    split_ifs with hid
    · exact h.output _
    · rw [Vector.getElem?_eq_none (Nat.le_of_not_lt hid), Option.getD_none]
  getParam id := by rw [SmartCoreProcessorPoly.getParam, h.params]; rfl
  getLedBrightness id := by rw [SmartCoreProcessorPoly.getLedBrightness, h.leds]; rfl
  getOutputOf el := by
    have hi : (I.index el.1).outputIdx.toNat < I.counts.numOutputs := Info.index_lt el.num_pos
    rw [SmartCoreProcessorPoly.getOutputOf, if_pos hi, SmartCoreProcessor.getOutputOf, ← h.output]
    rfl
  getInput el := by
    have hi : (I.index el.1).inputIdx.toNat < I.counts.numInputs := Info.index_lt el.num_pos
    rw [SmartCoreProcessor.getInput, h.input]
    split_ifs with hc
    · exact if_neg fun hlt => by simp [hc] at hlt
    · exact if_pos ⟨hi, Nat.pos_of_ne_zero hc⟩
  isOutputPatched el := (h.patched _).symm
  isInputPatched el := by
    rw [SmartCoreProcessor.isInputPatched_eq, SmartCoreProcessor.getInput, h.input]
    simp only [SmartCoreProcessorPoly.isInputPatched, numInputChannels]
    split_ifs with hc
    · simp [hc]
    · simp [Nat.pos_of_ne_zero hc]
  getState el := by
    have hraw : p.getParamRaw el.1 = m.getParamRaw el.1 := by
      funext k
      rw [SmartCoreProcessorPoly.getParamRaw, h.params]
      rfl
    rw [SmartCoreProcessorPoly.getState, hraw]
    rfl

theorem host (h : PolySimulates m p) (call : HostCall F)
    (hpatched : ∀ i < I.counts.numInputs, (call.inputWrite i).isSome → p.inputCount i ≠ 0) :
    PolySimulates (m.host call) (p.host call) where
  params := by
    cases call with
    | setParam id val => exact congrArg (Vector.setIfInBounds · (sizeT id) val) h.params
    | markInputPatched id =>
      simp only [SmartCoreProcessorPoly.host, markInputPatched]
      split_ifs <;> exact h.params
    | _ => exact h.params
  leds := by
    cases call with
    | markInputPatched id =>
      simp only [SmartCoreProcessorPoly.host, markInputPatched]
      split_ifs <;> exact h.leds
    | _ => exact h.leds
  output o := by
    rw [outputRow_host, h.output]
    cases call <;> rfl
  patched o := by
    by_cases ho : o < I.counts.numOutputs
    · rw [SmartCoreProcessor.outputPatched_host m call ho, outputCount_host p call ho, h.patched]
      cases call.outputMark o with
      | none => rfl
      | some mark =>
        cases mark with
        | false => rfl
        | true => by_cases hc : p.outputCount o = 0 <;> simp [countAfter, hc]
    · rw [outputCount_of_le _ (Nat.le_of_not_lt ho),
        Vector.getElem?_eq_none (Nat.le_of_not_lt ho)]
      rfl
  input i := by
    by_cases hi : i < I.counts.numInputs
    · rw [SmartCoreProcessor.inputValues_host m call hi, inputCount_host p call hi,
        inputRow_host p call hi, h.input, ElementStore.inputAfter, rowAfter]
      cases hm : call.inputMark i with
      | none =>
        cases hw : call.inputWrite i with
        | none => rfl
        | some val => simp [countAfter, hpatched i hi (by simp [hw])]
      | some mark =>
        cases mark with
        | false => simp [countAfter]
        | true =>
          by_cases hc : p.inputCount i = 0
          · simp [countAfter, hc, zero_getElem]
          · simp [countAfter, hc]
    · rw [inputCount_of_le _ (Nat.le_of_not_lt hi), if_pos rfl,
        Vector.getElem?_eq_none (Nat.le_of_not_lt hi), Option.getD_none]
  unpatched_zero i hzero := by
    by_cases hi : i < I.counts.numInputs
    · rw [inputCount_host p call hi, countAfter_eq_zero] at hzero
      rw [inputRow_host p call hi, rowAfter]
      rcases hzero with hm | ⟨hm, hc⟩
      · rw [hm]
        exact zero_getElem 0 _
      · cases hw : call.inputWrite i with
        | none => simp [hm, h.unpatched_zero i hc]
        | some val => exact absurd hc (hpatched i hi (by simp [hw]))
    · rw [inputRow_of_le _ (Nat.le_of_not_lt hi), zero_getElem]
  count_le o := outputCount_host_le (h.count_le o) call

theorem setOutput (h : PolySimulates m p) (el : I.OutputElem) (val : F) :
    PolySimulates (m.setOutput el val) (p.setOutput el val 0) where
  params := h.params
  leds := h.leds
  output o := by
    refine Eq.trans ?_ (Cells.getD_set m.outputValues _ o val 0).symm
    show ((Cells.modifyAt p.outputValues (I.index el.1).outputIdx.toNat fun row =>
      row.setIfInBounds 0 val)[o]?.getD Voltages.zero)[0] = _
    rw [Cells.getD_modifyAt]
    by_cases hc : (I.index el.1).outputIdx.toNat = o ∧ o < I.counts.numOutputs
    · rw [if_pos hc, if_pos hc]
      exact Vector.getElem_setIfInBounds_self _
    · rw [if_neg hc, if_neg hc]
      exact h.output o
  patched := h.patched
  input := h.input
  unpatched_zero := h.unpatched_zero
  count_le := h.count_le

theorem setLED (h : PolySimulates m p) (el : I.LightElem) (value : LedValue F)
    (overload : (convertLED (I.element el) value).isSome) :
    PolySimulates (m.setLED el value overload) (p.setLED el value overload) := by
  rw [SmartCoreProcessor.setLED, SmartCoreProcessor.setLEDsFrom_eq, SmartCoreProcessorPoly.setLED,
    SmartCoreProcessorPoly.setLEDsFrom_eq, h.leds]
  exact { h with leds := rfl }

theorem patched_of_iff (h : PolySimulates m p) {q : SmartCoreProcessorPoly I} {o : Nat}
    (hq : q.outputCount o = 0 ↔ p.outputCount o = 0) :
    m.outputPatched[o]?.getD false = (q.outputCount o != 0) := by
  rw [h.patched, Bool.eq_iff_iff]
  simp [hq]

theorem setChannels (h : PolySimulates m p) (el : I.OutputElem) {numChans : UInt32}
    (hone : 1 ≤ numChans.toNat) :
    ∃ q, p.setChannels el numChans = some q ∧ PolySimulates m q := by
  obtain ⟨rows, counts, hq, hcount, hrow⟩ := setChannels_counts el numChans h.count_le
  have hzero : ∀ o : Nat, (rows[o]?.getD Voltages.zero)[0] = (p.outputRow o)[0] := by
    intro o
    have hh := hrow o 0
    rw [if_neg fun hc => by omega] at hh
    exact Option.some.inj hh
  exact ⟨_, hq, { h with
    output := fun o => (hzero o).trans (h.output o)
    patched := fun o => h.patched_of_iff (hcount o).2
    count_le := fun o => (hcount o).1 }⟩

theorem handleBypass (h : PolySimulates m p) :
    PolySimulates m.handleBypass p.handleBypass := by
  obtain ⟨rows, counts, hr⟩ := handleBypass_frame p
  have hout := outputRow_handleBypass p
  have hpatched := fun o => h.patched_of_iff (outputCount_handleBypass_eq_zero p o)
  have hle := fun o => outputCount_handleBypass_le (h.count_le o)
  rw [hr] at hout hpatched hle ⊢
  refine { h with output := fun o => ?_, patched := hpatched, count_le := hle }
  rw [hout]
  split_ifs with ho
  · rw [SmartCoreProcessor.outputValues_handleBypass m ho]
    cases latest (I.routeInto o) I.bypassRoutes with
    | none => exact zero_getElem 0 _
    | some i =>
      by_cases hc : p.inputCount i = 0
      · simp [h.input, hc, h.unpatched_zero i hc]
      · simp [h.input, hc]
  · rw [Vector.getElem?_eq_none (Nat.le_of_not_lt ho), zero_getElem, Option.getD_none]

end PolySimulates

open SmartCoreProcessorPoly

structure SimulatesAfter (calls : List (DriverCall I)) (m : SmartCoreProcessor I)
    (p : SmartCoreProcessorPoly I) : Prop where
  simulates : PolySimulates m p
  marked : ∀ i < I.counts.numInputs,
    latest (·.onHost (·.inputMark i)) calls = some true → p.inputCount i ≠ 0

theorem simulatesAfter_step {calls : List (DriverCall I)} {m : SmartCoreProcessor I}
    {p : SmartCoreProcessorPoly I} {call : DriverCall I} (h : SimulatesAfter calls m p)
    (hcall : DriverCall.FollowsProtocol calls call) :
    ∃ q, DriverCall.stepPoly p call = some q ∧
      SimulatesAfter (calls ++ [call]) (DriverCall.stepMono m call) q := by
  have hkeep : ∀ {q : SmartCoreProcessorPoly I}, q.inputCount = p.inputCount →
      (∀ i, call.onHost (·.inputMark i) = none) → ∀ i < I.counts.numInputs,
      latest (·.onHost (·.inputMark i)) (calls ++ [call]) = some true → q.inputCount i ≠ 0 := by
    intro q hq hnone i hi hm
    rw [latest_concat, hnone, Option.none_or] at hm
    rw [hq]
    exact h.marked i hi hm
  cases call with
  | module call =>
    cases call with
    | host call =>
      refine ⟨_, rfl, h.simulates.host call fun i hi hw => ?_, fun i hi hm => ?_⟩
      · cases call with
        | setInput id val =>
          obtain rfl : sizeT id = i := by
            by_contra hne
            simp [HostCall.inputWrite, hne] at hw
          exact h.marked (sizeT id) hi hcall
        | _ => simp [HostCall.inputWrite] at hw
      · rw [inputCount_host p call hi, ne_eq, countAfter_eq_zero]
        rw [latest_concat] at hm
        change (call.inputMark i).or _ = some true at hm
        rintro (hf | ⟨hn, hz⟩)
        · simp [hf] at hm
        · rw [hn, Option.none_or] at hm
          exact h.marked i hi hm hz
    | setOutput el val =>
      exact ⟨_, rfl, h.simulates.setOutput el val, hkeep rfl fun i => rfl⟩
    | setLED el value overload =>
      refine ⟨_, rfl, h.simulates.setLED el value overload, hkeep ?_ fun i => rfl⟩
      rw [setLED, setLEDsFrom_eq]
      rfl
  | handleBypass =>
    refine ⟨_, rfl, h.simulates.handleBypass, hkeep ?_ fun i => rfl⟩
    obtain ⟨rows, counts, hr⟩ := handleBypass_frame p
    rw [hr]
    rfl
  | setChannels el numChans =>
    obtain ⟨q, hq, hsim⟩ := h.simulates.setChannels el hcall
    obtain ⟨t, ht, hin, _⟩ := setChannels_outputCount el numChans h.simulates.count_le
    obtain rfl : t = q := Option.some.inj (ht.symm.trans hq)
    exact ⟨t, hq, hsim, hkeep hin fun i => rfl⟩

/-- Under the host protocol the two processors agree after every step of a
run, with any `setChannels` calls of at least one channel on the poly side. -/
theorem poly_agrees_with_mono (I : Info F) {calls : List (DriverCall I)}
    (hproto : PartialRun.Follows DriverCall.FollowsProtocol calls) :
    ∀ pre, pre <+: calls → ∃ p, PartialRun.run DriverCall.stepPoly (init I) pre = some p ∧
      PolyAgrees (pre.foldl DriverCall.stepMono (SmartCoreProcessor.init I)) p := by
  rintro pre ⟨post, rfl⟩
  have hinit : SimulatesAfter [] (SmartCoreProcessor.init I) (init I) :=
    ⟨PolySimulates.init I, fun i _ hm => by simp at hm⟩
  obtain ⟨p, hp, h⟩ := PartialRun.run_induction
    (P := fun calls p =>
      SimulatesAfter calls (calls.foldl DriverCall.stepMono (SmartCoreProcessor.init I)) p)
    hinit (fun calls call p h hcall => by
      rw [List.foldl_concat]
      exact simulatesAfter_step h hcall) hproto.of_append
  exact ⟨p, hp, h.simulates.agrees⟩

theorem poly_agrees_with_mono_sample :
    ∃ p, PartialRun.run DriverCall.stepPoly (init sampleInfo)
        [.module (.host (.markInputPatched 0)), .module (.host (.setInput 0 3)), .handleBypass] =
          some p ∧ p.getOutput 0 = 3 := by
  let patched : DriverCall sampleInfo := .module (.host (.markInputPatched 0))
  let written : DriverCall sampleInfo := .module (.host (.setInput 0 3))
  have hproto : PartialRun.Follows DriverCall.FollowsProtocol
      ([] ++ [patched] ++ [written] ++ [.handleBypass]) := by
    rw [PartialRun.follows_concat, PartialRun.follows_concat, PartialRun.follows_concat]
    exact ⟨⟨⟨PartialRun.follows_nil _, trivial⟩, rfl⟩, trivial⟩
  obtain ⟨p, hp, h⟩ := poly_agrees_with_mono sampleInfo hproto _ (List.prefix_refl _)
  exact ⟨p, hp, h.getOutput 0⟩

end PluginSdk
