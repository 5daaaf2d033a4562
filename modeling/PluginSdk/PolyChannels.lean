import PluginSdk.SmartCoreProcessorPoly

/-! The channel count of a poly jack over a whole run. Only the marks of the
host patch or unpatch an output, and no access leaves a row of voltages. -/

namespace PluginSdk

open History

variable {F : Type} [FloatOps F] {I : Info F}

/-- The host stores no more channels than a row holds. -/
def PolyCall.KeepsCountInRow : PolyCall I → Prop
  | writeInputBuffer _ _ channels => channels ≤ maxPolyChannels
  | _ => True

namespace SmartCoreProcessorPoly

theorem countAfter_le {count : Nat} (h : count ≤ maxPolyChannels) (mark : Option Bool) :
    countAfter mark count ≤ maxPolyChannels := by
  cases mark with
  | none => exact h
  | some mark =>
    cases mark with
    | false => exact Nat.zero_le _
    | true =>
      simp only [countAfter]
      split_ifs
      · decide
      · exact h

theorem outputCount_host_le {s : SmartCoreProcessorPoly I} {o : Nat}
    (h : s.outputCount o ≤ maxPolyChannels) (call : HostCall F) :
    (s.host call).outputCount o ≤ maxPolyChannels := by
  by_cases ho : o < I.counts.numOutputs
  · rw [outputCount_host s call ho]
    exact countAfter_le h _
  · rw [outputCount_of_le _ (Nat.le_of_not_lt ho)]
    exact Nat.zero_le _

theorem inputCount_host_le {s : SmartCoreProcessorPoly I} {i : Nat}
    (h : s.inputCount i ≤ maxPolyChannels) (call : HostCall F) :
    (s.host call).inputCount i ≤ maxPolyChannels := by
  by_cases hi : i < I.counts.numInputs
  · rw [inputCount_host s call hi]
    exact countAfter_le h _
  · rw [inputCount_of_le _ (Nat.le_of_not_lt hi)]
    exact Nat.zero_le _

theorem countAfter_eq_zero (mark : Option Bool) (count : Nat) :
    countAfter mark count = 0 ↔ mark = some false ∨ mark = none ∧ count = 0 := by
  cases mark with
  | none => simp [countAfter]
  | some mark =>
    cases mark with
    | false => simp [countAfter]
    | true =>
      by_cases hc : count = 0
      · simp [countAfter, hc]
      · simp [countAfter, hc]

theorem clampChannels_pos (count : Nat) : clampUnsigned count 1 maxPolyChannels ≠ 0 :=
  Nat.ne_of_gt (clampUnsigned_bounds (by decide) count).1

theorem clampChannels_le (count : Nat) :
    clampUnsigned count 1 maxPolyChannels ≤ maxPolyChannels :=
  (clampUnsigned_bounds (by decide) count).2

theorem outputCount_handleBypass_eq_zero (s : SmartCoreProcessorPoly I) (o : Nat) :
    s.handleBypass.outputCount o = 0 ↔ s.outputCount o = 0 := by
  rw [outputCount_handleBypass]
  split_ifs with hz
  · simp [hz]
  · cases latest (I.routeInto o) I.bypassRoutes with
    | none => rfl
    | some i => exact iff_of_false (clampChannels_pos _) hz

theorem outputCount_handleBypass_le {s : SmartCoreProcessorPoly I} {o : Nat}
    (h : s.outputCount o ≤ maxPolyChannels) : s.handleBypass.outputCount o ≤ maxPolyChannels := by
  rw [outputCount_handleBypass]
  split_ifs
  · exact Nat.zero_le _
  · cases latest (I.routeInto o) I.bypassRoutes with
    | none => exact h
    | some i => exact clampChannels_le _

theorem setChannels_counts {s : SmartCoreProcessorPoly I} (el : I.OutputElem) (numChans : UInt32)
    (h : ∀ o, s.outputCount o ≤ maxPolyChannels) :
    ∃ rows counts, s.setChannels el numChans =
        some { s with outputValues := rows, outputChannels := counts } ∧
      (∀ o : Nat, counts[o]?.getD 0 ≤ maxPolyChannels ∧
        (counts[o]?.getD 0 = 0 ↔ s.outputCount o = 0)) ∧
      ∀ o c, (rows[o]?.getD Voltages.zero)[c]? =
        if o = (I.index el).outputIdx.toNat ∧ numChans.toNat ≤ c ∧ c < s.outputCount o then some 0
        else (s.outputRow o)[c]? := by
  obtain ⟨rows, counts, hs, hcount, hrow⟩ := setChannels_eq el numChans (h _)
  refine ⟨rows, counts, hs, fun o => ?_, hrow⟩
  rw [hcount]
  split_ifs with hc
  · exact ⟨clampChannels_le _, iff_of_false (clampChannels_pos _) hc.2⟩
  · exact ⟨h o, Iff.rfl⟩

theorem setChannels_outputCount {s : SmartCoreProcessorPoly I} (el : I.OutputElem)
    (numChans : UInt32) (h : ∀ o, s.outputCount o ≤ maxPolyChannels) :
    ∃ t, s.setChannels el numChans = some t ∧ t.inputCount = s.inputCount ∧
      t.inputRow = s.inputRow ∧ ∀ o, t.outputCount o ≤ maxPolyChannels ∧
        (t.outputCount o = 0 ↔ s.outputCount o = 0) := by
  obtain ⟨rows, counts, hs, hcount, _⟩ := setChannels_counts el numChans h
  exact ⟨_, hs, rfl, rfl, hcount⟩

theorem getInput_of_lt (s : SmartCoreProcessorPoly I) (el : I.InputElem) {chan : UInt32}
    (h : chan.toNat < maxPolyChannels) :
    s.getInput el chan = some (if chan.toNat < s.numInputChannels el then
      some (s.inputRow (I.index el).inputIdx.toNat)[chan.toNat] else none) := by
  have hi : (I.index el.1).inputIdx.toNat < I.counts.numInputs := Info.index_lt el.num_pos
  by_cases hlt : chan.toNat < s.numInputChannels el
  · rw [getInput, if_pos ⟨hi, hlt⟩, if_pos hlt, Cells.read?, if_pos (Int.natCast_nonneg _),
      Int.toNat_natCast, Vector.getElem?_eq_getElem h]
    rfl
  · rw [if_neg hlt]
    exact if_neg fun hc => hlt hc.2

theorem getInput_eq_none_iff {s : SmartCoreProcessorPoly I} (el : I.InputElem) (chan : UInt32)
    (h : s.numInputChannels el ≤ maxPolyChannels) :
    ∃ val, s.getInput el chan = some val ∧ (val = none ↔ s.numInputChannels el ≤ chan.toNat) := by
  by_cases hrow : chan.toNat < maxPolyChannels
  · refine ⟨_, getInput_of_lt s el hrow, ?_⟩
    split_ifs with hlt
    · exact iff_of_false (by simp) (by omega)
    · exact iff_of_true rfl (by omega)
  · have hlt : ¬ chan.toNat < s.numInputChannels el := by omega
    exact ⟨none, if_neg fun hc => hlt hc.2, iff_of_true rfl (by omega)⟩

end SmartCoreProcessorPoly

open SmartCoreProcessorPoly

structure ChannelCounts (calls : List (PolyCall I)) (s : SmartCoreProcessorPoly I) : Prop where
  input_le : ∀ i, s.inputCount i ≤ maxPolyChannels
  output_le : ∀ o, s.outputCount o ≤ maxPolyChannels
  unpatched : ∀ o < I.counts.numOutputs,
    s.outputCount o = 0 ↔ latest (·.onHost (·.outputMark o)) calls ≠ some true

theorem ChannelCounts.concat {calls : List (PolyCall I)} {s t : SmartCoreProcessorPoly I}
    {call : PolyCall I} (h : ChannelCounts calls s)
    (hmark : ∀ o, call.onHost (·.outputMark o) = none)
    (hin : ∀ i, t.inputCount i ≤ maxPolyChannels)
    (hout : ∀ o, t.outputCount o ≤ maxPolyChannels ∧ (t.outputCount o = 0 ↔ s.outputCount o = 0)) :
    ChannelCounts (calls ++ [call]) t where
  input_le := hin
  output_le o := (hout o).1
  unpatched o ho := by rw [(hout o).2, h.unpatched o ho, latest_concat, hmark, Option.none_or]

theorem channelCounts_init : ChannelCounts [] (init I) where
  input_le i := by simp
  output_le o := by simp
  unpatched o ho := by simp

theorem channelCounts_host {calls : List (PolyCall I)} {s : SmartCoreProcessorPoly I}
    (h : ChannelCounts calls s) (call : HostCall F) :
    ChannelCounts (calls ++ [.host call]) (s.host call) where
  input_le i := inputCount_host_le (h.input_le i) call
  output_le o := outputCount_host_le (h.output_le o) call
  unpatched o ho := by
    have hh := h.unpatched o ho
    rw [outputCount_host s call ho, countAfter_eq_zero, hh, latest_concat]
    show _ ↔ (call.outputMark o).or _ ≠ some true
    cases call.outputMark o with
    | none => simp
    | some mark => cases mark <;> simp

theorem channelCounts_step {calls : List (PolyCall I)} {s : SmartCoreProcessorPoly I}
    {call : PolyCall I} (h : ChannelCounts calls s) (hkeep : call.KeepsCountInRow) :
    ∃ t, s.step call = some t ∧ ChannelCounts (calls ++ [call]) t := by
  have hsame : ∀ o, s.outputCount o ≤ maxPolyChannels ∧
      (s.outputCount o = 0 ↔ s.outputCount o = 0) := fun o => ⟨h.output_le o, Iff.rfl⟩
  cases call with
  | host call => exact ⟨s.host call, rfl, channelCounts_host h call⟩
  | writeInputBuffer id voltages channels =>
    refine ⟨_, rfl, h.concat (fun o => rfl) (fun i => ?_) hsame⟩
    show (s.inputChannels.setIfInBounds (sizeT id) channels)[i]?.getD 0 ≤ maxPolyChannels
    rw [Cells.getD_set]
    split_ifs
    · exact hkeep
    · exact h.input_le i
  | setOutput el val chan => exact ⟨_, rfl, h.concat (fun o => rfl) h.input_le hsame⟩
  | setChannels el numChans =>
    obtain ⟨t, ht, hin, _, hout⟩ := setChannels_outputCount el numChans h.output_le
    exact ⟨t, ht, h.concat (fun o => rfl) (hin ▸ h.input_le) hout⟩
  | setLED el value overload =>
    refine ⟨_, rfl, ?_⟩
    rw [setLED, setLEDsFrom_eq]
    exact h.concat (fun o => rfl) h.input_le hsame
  | getInput el chan =>
    obtain ⟨val, hval, _⟩ := getInput_eq_none_iff el chan (h.input_le _)
    refine ⟨s, ?_, h.concat (fun o => rfl) h.input_le hsame⟩
    rw [step, hval, Option.map_some]
  | getOutput el chan => exact ⟨s, rfl, h.concat (fun o => rfl) h.input_le hsame⟩
  | handleBypass =>
    obtain ⟨rows, counts, hr⟩ := handleBypass_frame s
    refine ⟨_, rfl, h.concat (fun o => rfl) (fun i => ?_) fun o => ?_⟩
    · rw [hr]
      exact h.input_le i
    · exact ⟨outputCount_handleBypass_le (h.output_le o), outputCount_handleBypass_eq_zero s o⟩

/-- Whatever the order of the calls, no access leaves a row, counts stay in
range, and an output is patched exactly when its latest mark says so. -/
theorem channelCounts_run (I : Info F) (calls : List (PolyCall I))
    (hkeep : ∀ call ∈ calls, call.KeepsCountInRow) :
    ∃ s, PartialRun.run step (init I) calls = some s ∧
      (∀ i, s.inputCount i ≤ maxPolyChannels) ∧ (∀ o, s.outputCount o ≤ maxPolyChannels) ∧
      (∀ o < I.counts.numOutputs,
        s.outputCount o = 0 ↔ latest (·.onHost (·.outputMark o)) calls ≠ some true) ∧
      (∀ (el : I.OutputElem) (numChans chan : UInt32) (val : F) (o : Nat),
        (∃ t, s.setChannels el numChans = some t ∧ (t.outputCount o = 0 ↔ s.outputCount o = 0)) ∧
        ((s.setOutput el val chan).outputCount o = 0 ↔ s.outputCount o = 0) ∧
        (s.handleBypass.outputCount o = 0 ↔ s.outputCount o = 0)) ∧
      ∀ (el : I.InputElem) (chan : UInt32), ∃ val, s.getInput el chan = some val ∧
        (val = none ↔ s.numInputChannels el ≤ chan.toNat) := by
  have hok : PartialRun.Follows (fun _ call => call.KeepsCountInRow) calls := by
    intro pre call post he
    exact hkeep call (by simp [he])
  obtain ⟨s, hs, h⟩ := PartialRun.run_induction channelCounts_init
    (fun calls call s h hcall => channelCounts_step h hcall) hok
  refine ⟨s, hs, h.input_le, h.output_le, h.unpatched, fun el numChans chan val o => ?_,
    fun el chan => getInput_eq_none_iff el chan (h.input_le _)⟩
  obtain ⟨t, ht, _, _, hout⟩ := setChannels_outputCount el numChans h.output_le
  exact ⟨⟨t, ht, (hout o).2⟩, Iff.rfl, outputCount_handleBypass_eq_zero s o⟩

theorem channelCounts_run_sample :
    ∃ s, PartialRun.run step (init sampleInfo) [.host (.markOutputPatched 0),
        .setChannels sampleInfo.outJack 0, .writeInputBuffer 0 (.replicate _ 5) 4,
        .host .markAllOutputsUnpatched, .setChannels sampleInfo.outJack 3] = some s ∧
      s.outputCount 0 = 0 := by
  have hkeep : ∀ call ∈ ([.host (.markOutputPatched 0), .setChannels sampleInfo.outJack 0,
      .writeInputBuffer 0 (.replicate _ 5) 4, .host .markAllOutputsUnpatched,
      .setChannels sampleInfo.outJack 3] : List (PolyCall sampleInfo)), call.KeepsCountInRow := by
    simp [PolyCall.KeepsCountInRow]
  obtain ⟨s, hs, _, _, hout, _⟩ := channelCounts_run sampleInfo _ hkeep
  exact ⟨s, hs, (hout 0 (by decide)).mpr (by decide)⟩

end PluginSdk
