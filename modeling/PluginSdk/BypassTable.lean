import PluginSdk.FirstWins
import PluginSdk.ModuleConfig
import PluginSdk.PartialRun

/-! The bypass routes of `rack::engine::Module`. `configBypass` appends to a
table in which the first route for an output wins. -/

namespace PluginSdk

variable {F : Type} [FloatOps F] {m : Module F} {calls : List ModuleRoute} {call : ModuleRoute}

namespace Module

def configBypass (m : Module F) (inputId outputId : Int32) : Module F :=
  if intSize m.inputs ≤ inputId then m
  else if intSize m.outputs ≤ outputId then m
  else { m with
    bypassRoutes := FirstWins.insert ModuleRoute.outputId m.bypassRoutes ⟨inputId, outputId⟩ }

def configBypasses (m : Module F) (calls : List ModuleRoute) : Module F :=
  calls.foldl (fun m call => m.configBypass call.inputId call.outputId) m

theorem configBypasses_concat (m : Module F) (calls : List ModuleRoute) (call : ModuleRoute) :
    m.configBypasses (calls ++ [call]) =
      (m.configBypasses calls).configBypass call.inputId call.outputId := by
  rw [configBypasses, List.foldl_concat]
  rfl

theorem configBypasses_frame (m : Module F) (calls : List ModuleRoute) :
    m.configBypasses calls = { m with bypassRoutes := (m.configBypasses calls).bypassRoutes } := by
  induction calls using List.reverseRecOn with
  | nil => rfl
  | append_singleton calls call ih =>
    rw [configBypasses_concat, configBypass]
    split_ifs
    · exact ih
    · exact ih
    · rw [ih]

end Module

namespace ModuleRoute

def InRange (m : Module F) (r : ModuleRoute) : Prop :=
  (0 ≤ r.inputId.toInt ∧ r.inputId.toInt < m.inputs.length) ∧
    0 ≤ r.outputId.toInt ∧ r.outputId.toInt < m.outputs.length

/-- What the two size checks let through, negative ids included. -/
def PassesChecks (m : Module F) (r : ModuleRoute) : Prop :=
  r.inputId.toInt < m.inputs.length ∧ r.outputId.toInt < m.outputs.length

theorem InRange.passesChecks {r : ModuleRoute} (h : r.InRange m) : r.PassesChecks m :=
  ⟨h.1.2, h.2.2⟩

end ModuleRoute

def OutputTaken (m : Module F) (calls : List ModuleRoute) (call : ModuleRoute) : Prop :=
  ∃ r ∈ (m.configBypasses calls).bypassRoutes, r.outputId = call.outputId

/-- What the table promises after `call`, made when `calls` had been made. -/
structure BypassStep (m : Module F) (calls : List ModuleRoute) (call : ModuleRoute) : Prop where
  inRange : ∀ r ∈ (m.configBypasses (calls ++ [call])).bypassRoutes, r.InRange m
  outputs_nodup :
    ((m.configBypasses (calls ++ [call])).bypassRoutes.map ModuleRoute.outputId).Nodup
  call_order : (m.configBypasses (calls ++ [call])).bypassRoutes.Sublist (calls ++ [call])
  kept : (m.configBypasses calls).bypassRoutes <+: (m.configBypasses (calls ++ [call])).bypassRoutes
  dropped_iff : call.InRange m →
    ((m.configBypasses (calls ++ [call])).bypassRoutes = (m.configBypasses calls).bypassRoutes ↔
      OutputTaken m calls call)

/-- A call with a negative id is stopped by another check. -/
def BypassGuarded (m : Module F) (calls : List ModuleRoute) (call : ModuleRoute) : Prop :=
  call.PassesChecks m → ¬ OutputTaken m calls call →
    0 ≤ call.inputId.toInt ∧ 0 ≤ call.outputId.toInt

instance (m : Module F) (call : ModuleRoute) : Decidable (call.PassesChecks m) :=
  inferInstanceAs (Decidable (_ ∧ _))

instance (m : Module F) (calls : List ModuleRoute) (call : ModuleRoute) :
    Decidable (OutputTaken m calls call) := inferInstanceAs (Decidable (∃ r ∈ _, _))

instance (m : Module F) (calls : List ModuleRoute) (call : ModuleRoute) :
    Decidable (BypassGuarded m calls call) := inferInstanceAs (Decidable (_ → _ → _))

section

variable (hin : m.inputs.length < 2 ^ 31) (hout : m.outputs.length < 2 ^ 31)
include hin hout

theorem bypassRoutes_of_passesChecks (h : call.PassesChecks m) :
    (m.configBypasses (calls ++ [call])).bypassRoutes =
      FirstWins.insert ModuleRoute.outputId (m.configBypasses calls).bypassRoutes call := by
  have hi : ¬ Module.intSize m.inputs ≤ call.inputId := by
    rw [Module.intSize_le_iff hin]
    exact not_le.mpr h.1
  have ho : ¬ Module.intSize m.outputs ≤ call.outputId := by
    rw [Module.intSize_le_iff hout]
    exact not_le.mpr h.2
  rw [Module.configBypasses_concat, Module.configBypasses_frame, Module.configBypass, if_neg hi,
    if_neg ho]

theorem bypassRoutes_of_not_passesChecks (h : ¬ call.PassesChecks m) :
    (m.configBypasses (calls ++ [call])).bypassRoutes = (m.configBypasses calls).bypassRoutes := by
  rw [Module.configBypasses_concat, Module.configBypasses_frame, Module.configBypass]
  simp only [Module.intSize_le_iff hin, Module.intSize_le_iff hout]
  split_ifs with hi ho
  · rfl
  · rfl
  · exact absurd ⟨not_le.mp hi, not_le.mp ho⟩ h

theorem bypassRoutes_eq_build (hm : m.bypassRoutes = []) :
    (m.configBypasses calls).bypassRoutes =
      FirstWins.build ModuleRoute.outputId (calls.filter (·.PassesChecks m)) := by
  induction calls using List.reverseRecOn with
  | nil => exact hm
  | append_singleton calls call ih =>
    by_cases h : call.PassesChecks m
    · have hkeep : [call].filter (·.PassesChecks m) = [call] := by simp [h]
      rw [bypassRoutes_of_passesChecks hin hout h, ih, List.filter_append, hkeep,
        FirstWins.build_concat]
    · have hskip : [call].filter (·.PassesChecks m) = [] := by simp [h]
      rw [bypassRoutes_of_not_passesChecks hin hout h, ih, List.filter_append, hskip,
        List.append_nil]

theorem bypassRoutes_nodup (hm : m.bypassRoutes = []) :
    ((m.configBypasses calls).bypassRoutes.map ModuleRoute.outputId).Nodup := by
  rw [bypassRoutes_eq_build hin hout hm]
  exact FirstWins.nodup_build _

theorem bypassRoutes_sublist (hm : m.bypassRoutes = []) :
    (m.configBypasses calls).bypassRoutes.Sublist calls := by
  rw [bypassRoutes_eq_build hin hout hm]
  exact (FirstWins.build_sublist _).trans List.filter_sublist

theorem bypassRoutes_prefix (calls : List ModuleRoute) (call : ModuleRoute) :
    (m.configBypasses calls).bypassRoutes <+:
      (m.configBypasses (calls ++ [call])).bypassRoutes := by
  by_cases h : call.PassesChecks m
  · rw [bypassRoutes_of_passesChecks hin hout h]
    exact FirstWins.prefix_insert _ _ _
  · rw [bypassRoutes_of_not_passesChecks hin hout h]

theorem mem_bypassRoutes_concat (h : call.PassesChecks m) (hfree : ¬ OutputTaken m calls call) :
    (m.configBypasses (calls ++ [call])).bypassRoutes =
      (m.configBypasses calls).bypassRoutes ++ [call] := by
  rw [bypassRoutes_of_passesChecks hin hout h]
  exact FirstWins.insert_of_free hfree

theorem inRange_of_guarded (hm : m.bypassRoutes = [])
    (h : PartialRun.Follows (BypassGuarded m) calls) :
    ∀ r ∈ (m.configBypasses calls).bypassRoutes, r.InRange m := by
  induction calls using List.reverseRecOn with
  | nil => simp [Module.configBypasses, hm]
  | append_singleton calls call ih =>
    obtain ⟨hpre, hlast⟩ := PartialRun.follows_concat.mp h
    intro r hr
    by_cases hc : call.PassesChecks m
    · by_cases ht : OutputTaken m calls call
      · rw [bypassRoutes_of_passesChecks hin hout hc, FirstWins.insert_of_taken ht] at hr
        exact ih hpre r hr
      · rw [mem_bypassRoutes_concat hin hout hc ht] at hr
        rcases List.mem_append.mp hr with hr | hr
        · exact ih hpre r hr
        · obtain rfl := List.mem_singleton.mp hr
          obtain ⟨hlo, hlo'⟩ := hlast hc ht
          exact ⟨⟨hlo, hc.1⟩, hlo', hc.2⟩
    · rw [bypassRoutes_of_not_passesChecks hin hout hc] at hr
      exact ih hpre r hr

/-- Over every run, the table keeps all of its promises exactly when no
negative id gets past the size checks and the check for a taken output. -/
theorem bypassTable_run_iff (hm : m.bypassRoutes = []) (calls : List ModuleRoute) :
    PartialRun.Follows (BypassStep m) calls ↔ PartialRun.Follows (BypassGuarded m) calls := by
  constructor
  · intro h pre call post he hc hfree
    have hstep := h pre call post he
    have hmem : call ∈ (m.configBypasses (pre ++ [call])).bypassRoutes := by
      rw [mem_bypassRoutes_concat hin hout hc hfree]
      exact List.mem_append_right _ (List.mem_singleton_self call)
    obtain ⟨⟨hlo, _⟩, hlo', _⟩ := hstep.inRange call hmem
    exact ⟨hlo, hlo'⟩
  · intro h pre call post he
    have hall : PartialRun.Follows (BypassGuarded m) (pre ++ [call] ++ post) := by
      rwa [List.append_assoc, List.singleton_append, ← he]
    have hpre := hall.of_append
    refine ⟨inRange_of_guarded hin hout hm hpre, bypassRoutes_nodup hin hout hm,
      bypassRoutes_sublist hin hout hm, bypassRoutes_prefix hin hout pre call, fun hr => ?_⟩
    rw [bypassRoutes_of_passesChecks hin hout hr.passesChecks]
    exact FirstWins.insert_eq_self_iff

end

theorem bypassTable_run_sample :
    PartialRun.Follows (BypassStep sampleModule) [⟨0, 0⟩, ⟨0, 0⟩, ⟨-1, 0⟩] := by
  refine (bypassTable_run_iff (by decide) (by decide) rfl _).mpr ?_
  have hfirst := PartialRun.follows_concat.mpr
    ⟨PartialRun.follows_nil (BypassGuarded sampleModule),
      (by decide : BypassGuarded sampleModule [] ⟨0, 0⟩)⟩
  have hsecond := PartialRun.follows_concat.mpr
    ⟨hfirst, (by decide : BypassGuarded sampleModule ([] ++ [⟨0, 0⟩]) ⟨0, 0⟩)⟩
  exact PartialRun.follows_concat.mpr ⟨hsecond, by decide⟩

theorem bypassTable_run_fails : ¬ PartialRun.Follows (BypassStep sampleModule) [⟨-1, 0⟩] := by
  intro h
  have hr := (h [] ⟨-1, 0⟩ [] rfl).inRange ⟨-1, 0⟩ (by decide)
  exact absurd hr.1.1 (by decide)

end PluginSdk
