import PluginSdk.PolyChannels

/-! Voltages above the channel count of a poly output. Lowering a count clears
the channels given up, except when an output is unplugged and when a bypass
copies a poly input to an unplugged output. -/

namespace PluginSdk

open History

variable {F : Type} [FloatOps F] {I : Info F}

namespace Voltages

def ZeroFrom (row : Voltages F) (c : Nat) : Prop :=
  ∀ k, c ≤ k → ∀ h : k < maxPolyChannels, row[k] = 0

theorem zeroFrom_zero (c : Nat) : (zero : Voltages F).ZeroFrom c := by
  intro k _ h
  simp [zero]

theorem ZeroFrom.mono {row : Voltages F} {c d : Nat} (h : row.ZeroFrom c) (hcd : c ≤ d) :
    row.ZeroFrom d :=
  fun k hk => h k (hcd.trans hk)

theorem ZeroFrom.setIfInBounds {row : Voltages F} {c i : Nat} (h : row.ZeroFrom c) (hi : i < c)
    (val : F) : ZeroFrom (Vector.setIfInBounds row i val) c := by
  intro k hk hlt
  have hne : i ≠ k := by omega
  rw [Vector.getElem_setIfInBounds_ne hlt hne]
  exact h k hk hlt

theorem ZeroFrom.setFirst {row : Voltages F} {c : Nat} (h : row.ZeroFrom c) (hc : 0 < c)
    (val : F) : ZeroFrom (Vector.set row 0 val) c := by
  intro k hk hlt
  have hne : 0 ≠ k := by omega
  rw [Vector.getElem_set_ne _ hlt hne]
  exact h k hk hlt

theorem ZeroFrom.clamp {row : Voltages F} {count : Nat} (h : row.ZeroFrom (max 1 count)) :
    row.ZeroFrom (max 1 (clampUnsigned count 1 maxPolyChannels)) := by
  intro k hk hlt
  refine h k ?_ hlt
  rw [clampUnsigned_eq (by decide)] at hk
  omega

end Voltages

namespace SmartCoreProcessorPoly

def OutputTailsZero (s : SmartCoreProcessorPoly I) : Prop :=
  ∀ o, (s.outputRow o).ZeroFrom (max 1 (s.outputCount o))

def InputTailsZero (s : SmartCoreProcessorPoly I) : Prop :=
  ∀ i, (s.inputRow i).ZeroFrom (max 1 (s.inputCount i))

theorem inputTailsZero_host {s : SmartCoreProcessorPoly I} (h : s.InputTailsZero)
    (call : HostCall F) : (s.host call).InputTailsZero := by
  intro i
  by_cases hi : i < I.counts.numInputs
  · rw [inputRow_host s call hi, inputCount_host s call hi, rowAfter]
    cases hm : call.inputMark i with
    | none =>
      cases hw : call.inputWrite i with
      | none => exact h i
      | some val => exact (h i).setFirst (by omega) val
    | some mark =>
      cases mark with
      | false => exact Voltages.zeroFrom_zero _
      | true =>
        by_cases hc : s.inputCount i = 0
        · simp only [hc, if_true]
          exact Voltages.zeroFrom_zero _
        · simp only [hc, if_false, countAfter]
          exact h i
  · rw [inputRow_of_le _ (Nat.le_of_not_lt hi)]
    exact Voltages.zeroFrom_zero _

theorem outputTailsZero_host_iff {s : SmartCoreProcessorPoly I} (h : s.OutputTailsZero)
    (call : HostCall F) :
    (s.host call).OutputTailsZero ↔
      ∀ o, call.outputMark o = some false → (s.outputRow o).ZeroFrom 1 := by
  have hafter : ∀ o < I.counts.numOutputs, (s.host call).outputCount o =
      countAfter (call.outputMark o) (s.outputCount o) := fun o ho => outputCount_host s call ho
  constructor
  · intro ht o hm
    by_cases ho : o < I.counts.numOutputs
    · have hh := ht o
      rw [outputRow_host, hafter o ho, hm] at hh
      exact hh
    · rw [outputRow_of_le _ (Nat.le_of_not_lt ho)]
      exact Voltages.zeroFrom_zero _
  · intro hc o
    by_cases ho : o < I.counts.numOutputs
    · rw [outputRow_host, hafter o ho]
      cases hm : call.outputMark o with
      | none => exact h o
      | some mark =>
        cases mark with
        | false => exact hc o hm
        | true =>
          have hcount := h o
          simp only [countAfter]
          split_ifs with hz
          · rw [hz] at hcount
            exact hcount
          · exact hcount
    · rw [outputRow_of_le _ (Nat.le_of_not_lt ho)]
      exact Voltages.zeroFrom_zero _

theorem outputTailsZero_handleBypass_iff {s : SmartCoreProcessorPoly I}
    (hin : s.InputTailsZero) :
    s.handleBypass.OutputTailsZero ↔
      ∀ o < I.counts.numOutputs, s.outputCount o = 0 →
        ∀ i, latest (I.routeInto o) I.bypassRoutes = some i → (s.inputRow i).ZeroFrom 1 := by
  constructor
  · intro ht o ho hz i hl
    have hh := ht o
    rw [outputRow_handleBypass, outputCount_handleBypass, if_pos ho, if_pos hz, hl] at hh
    exact hh
  · intro hc o
    rw [outputRow_handleBypass, outputCount_handleBypass]
    split_ifs with ho hz
    · cases hl : latest (I.routeInto o) I.bypassRoutes with
      | none => exact Voltages.zeroFrom_zero _
      | some i => exact hc o ho hz i hl
    · cases latest (I.routeInto o) I.bypassRoutes with
      | none => exact Voltages.zeroFrom_zero _
      | some i => exact (hin i).clamp
    · exact Voltages.zeroFrom_zero _
    · exact Voltages.zeroFrom_zero _

theorem outputTailsZero_setChannels {s : SmartCoreProcessorPoly I} (h : s.OutputTailsZero)
    (el : I.OutputElem) (numChans : UInt32) (hle : s.numOutputChannels el ≤ maxPolyChannels) :
    ∃ t, s.setChannels el numChans = some t ∧ t.OutputTailsZero := by
  obtain ⟨rows, counts, ht, hcount, hrow⟩ := setChannels_eq el numChans hle
  refine ⟨_, ht, fun o k hk hlt => ?_⟩
  have hcell := hrow o k
  have hk' : max 1 (counts[o]?.getD 0) ≤ k := hk
  rw [hcount] at hk'
  rw [Vector.getElem?_eq_getElem hlt, Vector.getElem?_eq_getElem hlt] at hcell
  by_cases hc : o = (I.index el).outputIdx.toNat ∧ numChans.toNat ≤ k ∧ k < s.outputCount o
  · rw [if_pos hc] at hcell
    exact Option.some.inj hcell
  · rw [if_neg hc] at hcell
    refine (Option.some.inj hcell).trans (h o k ?_ hlt)
    split_ifs at hk' with hidx
    · -- the requested count is at most `k`, so `k` was not cleared but unused
      have hn : numChans.toNat ≤ k := by
        unfold clampUnsigned at hk'
        split_ifs at hk' <;> omega
      have hunused : ¬ k < s.outputCount o := fun hlt' => hc ⟨hidx.1, hn, hlt'⟩
      omega
    · exact hk'

theorem outputTailsZero_setOutput {s : SmartCoreProcessorPoly I} (h : s.OutputTailsZero)
    (el : I.OutputElem) (val : F) {chan : UInt32}
    (hchan : chan.toNat < max 1 (s.numOutputChannels el)) :
    (s.setOutput el val chan).OutputTailsZero := by
  intro o
  show ((Cells.modifyAt s.outputValues (I.index el.1).outputIdx.toNat fun row =>
    row.setIfInBounds chan.toNat val)[o]?.getD Voltages.zero).ZeroFrom (max 1 (s.outputCount o))
  rw [Cells.getD_modifyAt]
  by_cases hc : (I.index el.1).outputIdx.toNat = o ∧ o < I.counts.numOutputs
  · rw [if_pos hc]
    obtain ⟨rfl, _⟩ := hc
    exact (h _).setIfInBounds hchan val
  · rw [if_neg hc]
    exact h o

theorem inputTailsZero_writeInputBuffer {s : SmartCoreProcessorPoly I} (h : s.InputTailsZero)
    (id : Int32) {voltages : Voltages F} {channels : Nat} (hzero : voltages.ZeroFrom channels) :
    (s.writeInputBuffer id voltages channels).InputTailsZero := by
  intro i
  show ((s.inputValues.setIfInBounds (sizeT id) voltages)[i]?.getD .zero).ZeroFrom
    (max 1 ((s.inputChannels.setIfInBounds (sizeT id) channels)[i]?.getD 0))
  rw [Cells.getD_set, Cells.getD_set]
  split_ifs
  · exact hzero.mono (le_max_right _ _)
  · exact h i

end SmartCoreProcessorPoly

open SmartCoreProcessorPoly

/-- Calls that write only below the count of their jack. -/
def PolyCall.WritesBelowCount (s : SmartCoreProcessorPoly I) : PolyCall I → Prop
  | setOutput el _ chan => chan.toNat < max 1 (s.numOutputChannels el)
  | writeInputBuffer _ voltages channels => voltages.ZeroFrom channels
  | getInput _ chan => chan.toNat < maxPolyChannels
  | _ => True

/-- An output that is unplugged, or bypassed while unplugged, has no voltage
above channel 0. -/
def PolyCall.LeavesMono (s : SmartCoreProcessorPoly I) : PolyCall I → Prop
  | host call => ∀ o, call.outputMark o = some false → (s.outputRow o).ZeroFrom 1
  | handleBypass => ∀ o < I.counts.numOutputs, s.outputCount o = 0 →
      ∀ i, latest (I.routeInto o) I.bypassRoutes = some i → (s.inputRow i).ZeroFrom 1
  | _ => True

structure PolyTails (s : SmartCoreProcessorPoly I) : Prop where
  outputs : s.OutputTailsZero
  inputs : s.InputTailsZero
  count_le : ∀ o, s.outputCount o ≤ maxPolyChannels

theorem polyTails_init : PolyTails (init I) where
  outputs o := by
    rw [outputRow_init]
    exact Voltages.zeroFrom_zero _
  inputs i := by
    rw [inputRow_init]
    exact Voltages.zeroFrom_zero _
  count_le o := by simp

theorem outputTailsZero_step_iff {s : SmartCoreProcessorPoly I} {call : PolyCall I}
    (h : PolyTails s) (hwrite : call.WritesBelowCount s) :
    (∃ t, s.step call = some t ∧ t.OutputTailsZero) ↔ call.LeavesMono s := by
  cases call with
  | host call =>
    simp only [step, Option.some.injEq, exists_eq_left']
    exact outputTailsZero_host_iff h.outputs call
  | writeInputBuffer id voltages channels => exact iff_of_true ⟨_, rfl, h.outputs⟩ trivial
  | setOutput el val chan =>
    exact iff_of_true ⟨_, rfl, outputTailsZero_setOutput h.outputs el val hwrite⟩ trivial
  | setChannels el numChans =>
    exact iff_of_true (outputTailsZero_setChannels h.outputs el numChans (h.count_le _)) trivial
  | setLED el value overload =>
    refine iff_of_true ⟨_, rfl, ?_⟩ trivial
    rw [setLED, setLEDsFrom_eq]
    exact h.outputs
  | getInput el chan =>
    refine iff_of_true ⟨s, ?_, h.outputs⟩ trivial
    rw [step, getInput_of_lt s el hwrite, Option.map_some]
  | getOutput el chan => exact iff_of_true ⟨s, rfl, h.outputs⟩ trivial
  | handleBypass =>
    simp only [step, Option.some.injEq, exists_eq_left']
    exact outputTailsZero_handleBypass_iff h.inputs

theorem polyTails_step {s t : SmartCoreProcessorPoly I} {call : PolyCall I}
    (h : PolyTails s) (hwrite : call.WritesBelowCount s) (ht : s.step call = some t)
    (houts : t.OutputTailsZero) : PolyTails t := by
  cases call with
  | host call =>
    obtain rfl := Option.some.inj ht
    exact ⟨houts, inputTailsZero_host h.inputs call, fun o => outputCount_host_le (h.count_le o) call⟩
  | writeInputBuffer id voltages channels =>
    obtain rfl := Option.some.inj ht
    exact ⟨houts, inputTailsZero_writeInputBuffer h.inputs id hwrite, h.count_le⟩
  | setOutput el val chan =>
    obtain rfl := Option.some.inj ht
    exact ⟨houts, h.inputs, h.count_le⟩
  | setChannels el numChans =>
    obtain ⟨u, hu, hcount, hrow, hout⟩ := setChannels_outputCount el numChans h.count_le
    obtain rfl : u = t := Option.some.inj (hu.symm.trans ht)
    refine ⟨houts, fun i => ?_, fun o => (hout o).1⟩
    rw [hcount, hrow]
    exact h.inputs i
  | setLED el value overload =>
    obtain rfl := Option.some.inj ht
    refine ⟨houts, ?_, ?_⟩
    · rw [setLED, setLEDsFrom_eq]
      exact h.inputs
    · rw [setLED, setLEDsFrom_eq]
      exact h.count_le
  | getInput el chan =>
    rw [step, getInput_of_lt s el hwrite, Option.map_some] at ht
    obtain rfl := Option.some.inj ht
    exact h
  | getOutput el chan =>
    obtain rfl := Option.some.inj ht
    exact h
  | handleBypass =>
    obtain rfl := Option.some.inj ht
    obtain ⟨rows, counts, hr⟩ := handleBypass_frame s
    refine ⟨houts, ?_, fun o => outputCount_handleBypass_le (h.count_le o)⟩
    rw [hr]
    exact h.inputs

/-- Over a whole run no voltage is left above a channel count exactly when no
step unplugs, or bypasses to an unplugged output, a row with several voltages. -/
theorem outputTailsZero_run_iff (I : Info F) {calls : List (PolyCall I)}
    (hwrite : PartialRun.Along step PolyCall.WritesBelowCount (init I) calls) :
    PartialRun.AllSteps step (fun _ _ t => t.OutputTailsZero) (init I) calls ↔
      PartialRun.Along step PolyCall.LeavesMono (init I) calls :=
  PartialRun.allSteps_iff_along (I := PolyTails) (A := PolyCall.WritesBelowCount)
    (C := PolyCall.LeavesMono) (fun _ _ h hw => outputTailsZero_step_iff h hw)
    (fun _ _ _ h hw ht houts => polyTails_step h hw ht houts) polyTails_init hwrite

/-- The count is lowered, which clears channel 2, before the output is unplugged. -/
theorem outputTailsZero_run_sample :
    PartialRun.AllSteps step (fun _ _ t => t.OutputTailsZero) (init sampleInfo)
      [.host (.markOutputPatched 0), .setChannels sampleInfo.outJack 3,
        .setOutput sampleInfo.outJack 7 2, .setChannels sampleInfo.outJack 1,
        .host (.markOutputUnpatched 0)] := by
  have hcells : ∀ k : Fin maxPolyChannels, 1 ≤ (k : Nat) →
      (PartialRun.run step (init sampleInfo) [.host (.markOutputPatched 0),
        .setChannels sampleInfo.outJack 3, .setOutput sampleInfo.outJack 7 2,
        .setChannels sampleInfo.outJack 1]).map (fun s => (s.outputRow 0)[(k : Nat)]) = some 0 := by
    decide
  refine (outputTailsZero_run_iff sampleInfo ?_).mpr ?_
  · refine (PartialRun.along_cons rfl).mpr ⟨trivial, (PartialRun.along_cons rfl).mpr ⟨trivial, ?_⟩⟩
    have hchan : (2 : UInt32).toNat < max 1 3 := by decide
    refine (PartialRun.along_cons rfl).mpr ⟨hchan, ?_⟩
    exact (PartialRun.along_cons rfl).mpr
      ⟨trivial, (PartialRun.along_cons rfl).mpr ⟨trivial, trivial⟩⟩
  · refine (PartialRun.along_cons rfl).mpr ⟨fun o hm => ?_, ?_⟩
    · simp [HostCall.outputMark] at hm
    refine (PartialRun.along_cons rfl).mpr ⟨trivial, (PartialRun.along_cons rfl).mpr ⟨trivial, ?_⟩⟩
    refine (PartialRun.along_cons rfl).mpr ⟨trivial, (PartialRun.along_cons rfl).mpr
      ⟨fun o hm => ?_, trivial⟩⟩
    have ho : o = 0 := by
      by_contra hne
      rw [HostCall.outputMark, if_neg fun he => hne (he.symm.trans rfl)] at hm
      cases hm
    subst ho
    exact fun k hk hlt => Option.some.inj (hcells ⟨k, hlt⟩ hk)

/-- Channel 2 keeps its 7 V when the output is unplugged. Plugged in again and
raised to three channels, the output carries them without having been written. -/
theorem outputTailsZero_run_fails :
    ∃ calls : List (PolyCall sampleInfo),
      PartialRun.Along step PolyCall.WritesBelowCount (init sampleInfo) calls ∧
      (∃ s, PartialRun.run step (init sampleInfo) calls = some s ∧ ¬ s.OutputTailsZero) ∧
      ∃ s, PartialRun.run step (init sampleInfo) (calls ++
        [.host (.markOutputPatched 0), .setChannels sampleInfo.outJack 3]) = some s ∧
        s.getOutputOf sampleInfo.outJack 2 = 7 := by
  refine ⟨[.host (.markOutputPatched 0), .setChannels sampleInfo.outJack 3,
    .setOutput sampleInfo.outJack 7 2, .host (.markOutputUnpatched 0)], ?_,
    ⟨_, rfl, fun h => ?_⟩, ⟨_, rfl, by decide⟩⟩
  · refine (PartialRun.along_cons rfl).mpr ⟨trivial, (PartialRun.along_cons rfl).mpr ⟨trivial, ?_⟩⟩
    have hchan : (2 : UInt32).toNat < max 1 3 := by decide
    exact (PartialRun.along_cons rfl).mpr
      ⟨hchan, (PartialRun.along_cons rfl).mpr ⟨trivial, trivial⟩⟩
  · have hcell := h 0 2 (by decide) (by decide)
    exact absurd hcell (by decide)

end PluginSdk
