import PluginSdk.SmartCoreProcessorPoly

/-! What `handle_bypass` leaves behind. The route list is folded over muted
outputs, so for each output the last route in range decides and all others are
without effect; a second bypass then finds nothing left to change. -/

namespace PluginSdk

variable {F : Type} [FloatOps F] {I : Info F} {o i : Nat}

namespace Info

/-- The last route into output `o` whose ids are in range names input `i`. -/
def LastRoute (I : Info F) (o i : Nat) : Prop :=
  ∃ pre route post, I.bypassRoutes = pre ++ route :: post ∧ I.routeInto o route = some i ∧
    ∀ r ∈ post, I.routeInto o r = none

def Unrouted (I : Info F) (o : Nat) : Prop := ∀ r ∈ I.bypassRoutes, I.routeInto o r = none

omit [FloatOps F] in
theorem LastRoute.latest (h : I.LastRoute o i) :
    History.latest (I.routeInto o) I.bypassRoutes = some i := by
  obtain ⟨pre, route, post, he, hroute, hpost⟩ := h
  have hcons : pre ++ route :: post = (pre ++ [route]) ++ post := by simp
  rw [he, hcons, History.latest_append, History.latest_eq_none hpost, Option.none_or,
    History.latest_concat, hroute, Option.some_or]

omit [FloatOps F] in
theorem Unrouted.latest (h : I.Unrouted o) :
    History.latest (I.routeInto o) I.bypassRoutes = none := History.latest_eq_none h

end Info

namespace SmartCoreProcessor

structure Bypassed (s t : SmartCoreProcessor I) : Prop where
  routed : ∀ (o : Fin I.counts.numOutputs) i, I.LastRoute o i →
    t.outputValues[o] = (s.inputValues[i]?.getD none).getD 0
  unrouted : ∀ o : Fin I.counts.numOutputs, I.Unrouted o → t.outputValues[o] = 0
  inputs : t.inputValues = s.inputValues
  params : t.paramValues = s.paramValues
  leds : t.ledValues = s.ledValues
  patched : t.outputPatched = s.outputPatched

theorem bypassed_handleBypass (s : SmartCoreProcessor I) : Bypassed s s.handleBypass := by
  have hval : ∀ o : Fin I.counts.numOutputs, s.handleBypass.outputValues[o] =
      ((History.latest (I.routeInto o) I.bypassRoutes).map fun i =>
        (s.inputValues[i]?.getD none).getD 0).getD 0 := by
    intro o
    have hh := outputValues_handleBypass s o.isLt
    rw [Vector.getElem?_eq_getElem o.isLt, Option.getD_some] at hh
    exact hh
  refine ⟨fun o i h => ?_, fun o h => ?_, rfl, rfl, rfl, rfl⟩
  · rw [hval, h.latest]
    rfl
  · rw [hval, h.latest]
    rfl

/-- Bypass computes the outputs from the inputs alone. -/
theorem handleBypass_idem (s : SmartCoreProcessor I) :
    s.handleBypass.handleBypass = s.handleBypass := rfl

end SmartCoreProcessor

namespace SmartCoreProcessorPoly

omit [FloatOps F] in
theorem outputCount_fin (s : SmartCoreProcessorPoly I) (o : Fin I.counts.numOutputs) :
    s.outputCount o = s.outputChannels[o] := by
  rw [outputCount, Vector.getElem?_eq_getElem o.isLt, Option.getD_some]
  rfl

theorem outputRow_fin (s : SmartCoreProcessorPoly I) (o : Fin I.counts.numOutputs) :
    s.outputRow o = s.outputValues[o] := by
  rw [outputRow, Vector.getElem?_eq_getElem o.isLt, Option.getD_some]
  rfl

structure Bypassed (s t : SmartCoreProcessorPoly I) : Prop where
  routed : ∀ (o : Fin I.counts.numOutputs) i, I.LastRoute o i → t.outputRow o = s.inputRow i
  unrouted : ∀ o : Fin I.counts.numOutputs, I.Unrouted o → t.outputRow o = .zero
  count_routed : ∀ (o : Fin I.counts.numOutputs) i, I.LastRoute o i → s.outputCount o ≠ 0 →
    t.outputCount o = clampUnsigned (s.inputCount i) 1 maxPolyChannels
  count_unplugged : ∀ o : Fin I.counts.numOutputs, s.outputCount o = 0 → t.outputCount o = 0
  count_unrouted : ∀ o : Fin I.counts.numOutputs, I.Unrouted o → t.outputCount o = s.outputCount o
  inputs : t.inputValues = s.inputValues
  inputChannels : t.inputChannels = s.inputChannels
  params : t.paramValues = s.paramValues
  leds : t.ledValues = s.ledValues

theorem bypassed_handleBypass (s : SmartCoreProcessorPoly I) : Bypassed s s.handleBypass := by
  obtain ⟨rows, counts, hframe⟩ := handleBypass_frame s
  refine ⟨fun o i h => ?_, fun o h => ?_, fun o i h hz => ?_, fun o hz => ?_, fun o h => ?_,
    by rw [hframe], by rw [hframe], by rw [hframe], by rw [hframe]⟩
  · rw [outputRow_handleBypass, if_pos o.isLt, h.latest]
    rfl
  · rw [outputRow_handleBypass, if_pos o.isLt, h.latest]
    rfl
  · rw [outputCount_handleBypass, if_neg hz, h.latest]
    rfl
  · rw [outputCount_handleBypass, if_pos hz]
  · rw [outputCount_handleBypass, h.latest]
    split_ifs with hz
    · exact hz.symm
    · rfl

theorem handleBypass_idem (s : SmartCoreProcessorPoly I) :
    s.handleBypass.handleBypass = s.handleBypass := by
  obtain ⟨rows, counts, hframe⟩ := handleBypass_frame s
  have hin : s.handleBypass.inputRow = s.inputRow := by
    rw [hframe]
    rfl
  have hchan : s.handleBypass.inputCount = s.inputCount := by
    rw [hframe]
    rfl
  have hrow : ∀ o, s.handleBypass.handleBypass.outputRow o = s.handleBypass.outputRow o := by
    intro o
    rw [outputRow_handleBypass, outputRow_handleBypass, hin]
  have hcount : ∀ o, s.handleBypass.handleBypass.outputCount o = s.handleBypass.outputCount o := by
    intro o
    rw [outputCount_handleBypass, outputCount_handleBypass, hchan]
    by_cases hz : s.outputCount o = 0
    · simp only [if_pos hz, if_true]
    · cases hl : History.latest (I.routeInto o) I.bypassRoutes with
      | none => simp only [if_neg hz, Option.map_none, Option.getD_none]
      | some i =>
        have hlo := (clampUnsigned_bounds (by decide : 1 ≤ maxPolyChannels) (s.inputCount i)).1
        have hne : clampUnsigned (s.inputCount i) 1 maxPolyChannels ≠ 0 := by omega
        simp only [if_neg hz, Option.map_some, Option.getD_some, if_neg hne]
  obtain ⟨rows', counts', hframe'⟩ := handleBypass_frame s.handleBypass
  have hrows : rows' = s.handleBypass.outputValues := by
    refine Vector.ext fun o ho => ?_
    have hh := hrow o
    rw [outputRow_fin _ ⟨o, ho⟩, outputRow_fin _ ⟨o, ho⟩, hframe'] at hh
    exact hh
  have hcounts : counts' = s.handleBypass.outputChannels := by
    refine Vector.ext fun o ho => ?_
    have hh := hcount o
    rw [outputCount_fin _ ⟨o, ho⟩, outputCount_fin _ ⟨o, ho⟩, hframe'] at hh
    exact hh
  rw [hframe', hrows, hcounts]

end SmartCoreProcessorPoly

/-- In both classes bypass is the exact routing of the last routes in range,
touches nothing else and is idempotent. -/
theorem handleBypass_exact_routing (I : Info F) :
    (∀ s : SmartCoreProcessor I,
      SmartCoreProcessor.Bypassed s s.handleBypass ∧
        s.handleBypass.handleBypass = s.handleBypass) ∧
    ∀ s : SmartCoreProcessorPoly I,
      SmartCoreProcessorPoly.Bypassed s s.handleBypass ∧
        s.handleBypass.handleBypass = s.handleBypass :=
  ⟨fun s => ⟨s.bypassed_handleBypass, s.handleBypass_idem⟩,
    fun s => ⟨s.bypassed_handleBypass, s.handleBypass_idem⟩⟩

end PluginSdk
