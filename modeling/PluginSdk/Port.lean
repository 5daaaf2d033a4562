import PluginSdk.Primitives
import PluginSdk.Cells
import PluginSdk.PartialRun

/-! `rack::engine::Port`: four voltages and a channel count. An operation that
would read or write a cell beyond the four yields `none`. -/

namespace PluginSdk

abbrev portMaxChannels : Nat := 4

structure Port (F : Type) where
  voltages : Vector F portMaxChannels
  channels : Nat

namespace Port

variable {F : Type} [FloatOps F]

def setVoltage (p : Port F) (v : F) (channel : UInt8) : Option (Port F) :=
  if channel.toNat < portMaxChannels then do
    let voltages ← Cells.write? p.voltages channel.toNat v
    some { p with voltages }
  else some p

def getVoltage (p : Port F) (chan : UInt8) : Option F :=
  if chan.toNat < portMaxChannels then Cells.read? p.voltages chan.toNat else some 0

def isMonophonic (p : Port F) : Bool := p.channels == 1

def getPolyVoltage (p : Port F) (channel : UInt8) : Option F :=
  if p.isMonophonic then p.getVoltage 0 else p.getVoltage channel

/-- The cell that the returned pointer names; it is not read here. -/
def getVoltages (_ : Port F) (firstChannel : UInt8) : Nat :=
  if firstChannel.toNat < portMaxChannels then firstChannel.toNat else 0

/-- The loop reads the source as well, so a source that is too short fails. -/
def writeVoltages (p : Port F) (v : List F) : Option (Port F) := do
  let voltages ← Cells.fill? p.voltages 0 (fun c => v[c.toNat]?) p.channels
  some { p with voltages }

def clearVoltages (p : Port F) : Option (Port F) := do
  let voltages ← Cells.fill? p.voltages 0 (fun _ => some 0) p.channels
  some { p with voltages }

def getVoltageSum (p : Port F) : Option F :=
  (Cells.gather? p.voltages 0 p.channels).map fun voltages => voltages.foldl (· + ·) 0

def getVoltageSimd (p : Port F) (firstChannel : Int32) : Option (List F) :=
  if firstChannel.toInt < portMaxChannels then Cells.gather? p.voltages firstChannel.toInt 4
  else some [0, 0, 0, 0]

def setVoltageSimd (p : Port F) (v : Vector F 4) (firstChannel : Int32) : Option (Port F) :=
  if firstChannel.toInt < portMaxChannels then do
    let voltages ← Cells.fill? p.voltages firstChannel.toInt
      (fun c => v[(c - firstChannel.toInt).toNat]?) 4
    some { p with voltages }
  else some p

def clampChannels (channels : Int) : Nat :=
  if channels < 1 then 1 else if portMaxChannels < channels then portMaxChannels else channels.toNat

/-- The loop that clears the higher channels comes before the clamp. -/
def setChannels (p : Port F) (channels : Int32) : Option (Port F) :=
  if p.channels = 0 then some p
  else do
    let voltages ← Cells.fill? p.voltages channels.toInt (fun _ => some 0)
      (p.channels - channels.toInt).toNat
    some { voltages, channels := clampChannels channels.toInt }

inductive Call (F : Type)
  | setVoltage (v : F) (channel : UInt8)
  | setChannels (channels : Int32)
  | clearVoltages
  | writeVoltages (v : List F)
  | getVoltage (chan : UInt8)
  | getPolyVoltage (channel : UInt8)
  | getVoltages (firstChannel : UInt8)
  | getVoltageSum
  | getVoltageSimd (firstChannel : Int32)
  | setVoltageSimd (v : Vector F 4) (firstChannel : Int32)

def step (p : Port F) : Call F → Option (Port F)
  | .setVoltage v channel => p.setVoltage v channel
  | .setChannels channels => p.setChannels channels
  | .clearVoltages => p.clearVoltages
  | .writeVoltages v => p.writeVoltages v
  | .getVoltage chan => (p.getVoltage chan).map fun _ => p
  | .getPolyVoltage channel => (p.getPolyVoltage channel).map fun _ => p
  | .getVoltages _ => some p
  | .getVoltageSum => p.getVoltageSum.map fun _ => p
  | .getVoltageSimd firstChannel => (p.getVoltageSimd firstChannel).map fun _ => p
  | .setVoltageSimd v firstChannel => p.setVoltageSimd v firstChannel

def SourceLongEnough (p : Port F) : Call F → Prop
  | .writeVoltages v => p.channels ≤ v.length
  | _ => True

structure StepContract (p : Port F) (call : Call F) (q : Port F) : Prop where
  channels_le : q.channels ≤ portMaxChannels
  connected : ∀ channels, call = .setChannels channels → (q.channels = 0 ↔ p.channels = 0)
  cleared : ∀ channels, call = .setChannels channels → p.channels ≠ 0 → ∀ i < portMaxChannels,
    q.voltages[i]? =
      if max channels.toInt 0 ≤ i ∧ i < p.channels then some 0 else p.voltages[i]?

/-- A connected port is not given a negative count, and the lanes of a Simd
access are the whole port or are out of range altogether. -/
def InRange (p : Port F) : Call F → Prop
  | .setChannels channels => p.channels = 0 ∨ 0 ≤ channels.toInt
  | .getVoltageSimd firstChannel | .setVoltageSimd _ firstChannel =>
    firstChannel.toInt = 0 ∨ portMaxChannels ≤ firstChannel.toInt
  | _ => True

variable {p : Port F} {call : Call F}

theorem contract_of_channels {q : Port F} (hp : p.channels ≤ portMaxChannels)
    (hq : q.channels = p.channels) (hcall : ∀ channels, call ≠ .setChannels channels) :
    StepContract p call q where
  channels_le := hq ▸ hp
  connected channels h := absurd h (hcall channels)
  cleared channels h := absurd h (hcall channels)

theorem read_contract_iff {α : Type} (hp : p.channels ≤ portMaxChannels)
    (hcall : ∀ channels, call ≠ .setChannels channels) (r : Option α) :
    (∃ q, r.map (fun _ => p) = some q ∧ StepContract p call q) ↔ ∃ a, r = some a := by
  cases r with
  | none => simp
  | some a => exact iff_of_true ⟨p, rfl, contract_of_channels hp rfl hcall⟩ ⟨a, rfl⟩

theorem write_contract_iff (hp : p.channels ≤ portMaxChannels)
    (hcall : ∀ channels, call ≠ .setChannels channels)
    (w : Option (Vector F portMaxChannels)) :
    (∃ q, (do let voltages ← w; some { p with voltages }) = some q ∧ StepContract p call q) ↔
      ∃ voltages, w = some voltages := by
  cases w with
  | none => simp
  | some voltages =>
    refine iff_of_true ⟨{ p with voltages }, rfl, ?_⟩ ⟨voltages, rfl⟩
    exact contract_of_channels hp rfl hcall

theorem clampChannels_bounds (channels : Int) :
    1 ≤ clampChannels channels ∧ clampChannels channels ≤ portMaxChannels := by
  unfold clampChannels
  split_ifs
  · decide
  · decide
  · omega

theorem getVoltage_succeeds (p : Port F) (chan : UInt8) : ∃ v, p.getVoltage chan = some v := by
  unfold getVoltage
  split_ifs with h
  · exact Cells.read?_exists_iff.mpr ⟨by omega, by omega⟩
  · exact ⟨0, rfl⟩

theorem setChannels_connected_iff {channels : Int32} (hp : p.channels ≤ portMaxChannels)
    (hconn : p.channels ≠ 0) :
    (∃ q, p.setChannels channels = some q ∧ StepContract p (.setChannels channels) q) ↔
      0 ≤ channels.toInt := by
  simp only [setChannels, if_neg hconn]
  constructor
  · rintro ⟨q, hq, _⟩
    obtain ⟨voltages, hv, _⟩ := Option.bind_eq_some_iff.mp hq
    by_contra hneg
    have hfirst := Cells.fill?_exists_iff.mp ⟨voltages, hv⟩ channels.toInt le_rfl (by omega)
    exact hneg hfirst.1
  · intro hpos
    have hcells : ∀ i, channels.toInt ≤ i →
        i < channels.toInt + (p.channels - channels.toInt).toNat →
        0 ≤ i ∧ i < portMaxChannels ∧ ∃ v : F, some 0 = some v :=
      fun i hlo hhi => ⟨by omega, by omega, 0, rfl⟩
    obtain ⟨voltages, hv⟩ := Cells.fill?_exists_iff.mpr hcells
    obtain ⟨hlo, hhi⟩ := clampChannels_bounds channels.toInt
    refine ⟨⟨voltages, clampChannels channels.toInt⟩, by rw [hv]; rfl, hhi, fun n _ => ?_,
      fun n hn _ i hi => ?_⟩
    · exact iff_of_false (Nat.ne_of_gt hlo) hconn
    · obtain rfl := Call.setChannels.inj hn
      rw [Cells.getElem?_fill? hv, max_eq_left hpos]
      by_cases hc : channels.toInt ≤ i ∧ i < p.channels
      · rw [if_pos hc, if_pos ⟨hc.1, by omega⟩]
      · rw [if_neg hc, if_neg (by omega)]

theorem simd_lanes_iff {first : Int} (hfirst : first < portMaxChannels) :
    (∀ i, first ≤ i → i < first + (4 : Nat) → 0 ≤ i ∧ i < portMaxChannels) ↔
      first = 0 ∨ portMaxChannels ≤ first := by
  have hmax : (portMaxChannels : Int) = 4 := rfl
  constructor
  · intro h
    have hlo := h first (by omega) (by omega)
    have hhi := h (first + 3) (by omega) (by omega)
    omega
  · intro h i hlo hhi
    omega

theorem contract_iff_inRange (hp : p.channels ≤ portMaxChannels) (hsource : p.SourceLongEnough call) :
    (∃ q, p.step call = some q ∧ StepContract p call q) ↔ p.InRange call := by
  cases call with
  | setVoltage v channel =>
    simp only [step, setVoltage, InRange]
    split_ifs with h
    · refine (write_contract_iff hp (by simp) _).trans (iff_of_true ?_ trivial)
      exact ⟨_, if_pos ⟨by omega, by omega⟩⟩
    · exact iff_of_true ⟨p, rfl, contract_of_channels hp rfl (by simp)⟩ trivial
  | setChannels channels =>
    by_cases hconn : p.channels = 0
    · refine iff_of_true ⟨p, if_pos hconn, hp, fun _ _ => Iff.rfl, fun _ _ h => absurd hconn h⟩ ?_
      exact Or.inl hconn
    · simp only [step, InRange, hconn, false_or]
      exact setChannels_connected_iff hp hconn
  | clearVoltages =>
    refine (write_contract_iff hp (by simp) _).trans (iff_of_true ?_ trivial)
    exact Cells.fill?_exists_iff.mpr fun i hlo hhi => ⟨hlo, by omega, 0, rfl⟩
  | writeVoltages v =>
    have hlen : p.channels ≤ v.length := hsource
    refine (write_contract_iff hp (by simp) _).trans (iff_of_true ?_ trivial)
    refine Cells.fill?_exists_iff.mpr fun i hlo hhi => ⟨hlo, by omega, ?_⟩
    have hi : i.toNat < v.length := by omega
    exact ⟨v[i.toNat], List.getElem?_eq_getElem hi⟩
  | getVoltage chan =>
    exact (read_contract_iff hp (by simp) _).trans (iff_of_true (p.getVoltage_succeeds chan) trivial)
  | getPolyVoltage channel =>
    refine (read_contract_iff hp (by simp) _).trans (iff_of_true ?_ trivial)
    unfold getPolyVoltage
    split_ifs
    · exact p.getVoltage_succeeds 0
    · exact p.getVoltage_succeeds channel
  | getVoltages firstChannel =>
    exact iff_of_true ⟨p, rfl, contract_of_channels hp rfl (by simp)⟩ trivial
  | getVoltageSum =>
    refine (read_contract_iff hp (by simp) _).trans (iff_of_true ?_ trivial)
    obtain ⟨vs, hvs⟩ : ∃ vs, Cells.gather? p.voltages 0 p.channels = some vs :=
      Cells.gather?_exists_iff.mpr fun i hlo hhi => ⟨hlo, by omega⟩
    exact ⟨_, by rw [getVoltageSum, hvs, Option.map_some]⟩
  | getVoltageSimd firstChannel =>
    refine (read_contract_iff hp (by simp) _).trans ?_
    unfold getVoltageSimd
    split_ifs with hlt
    · exact Cells.gather?_exists_iff.trans (simd_lanes_iff hlt)
    · exact iff_of_true ⟨_, rfl⟩ (Or.inr (Int.not_lt.mp hlt))
  | setVoltageSimd v firstChannel =>
    simp only [step, setVoltageSimd]
    split_ifs with hlt
    · refine (write_contract_iff hp (by simp) _).trans ?_
      refine Cells.fill?_exists_iff.trans (Iff.trans ?_ (simd_lanes_iff hlt))
      refine ⟨fun h i hlo hhi => ⟨(h i hlo hhi).1, (h i hlo hhi).2.1⟩, fun h i hlo hhi => ?_⟩
      have hlane : (i - firstChannel.toInt).toNat < 4 := by omega
      exact ⟨(h i hlo hhi).1, (h i hlo hhi).2, v[(i - firstChannel.toInt).toNat],
        Vector.getElem?_eq_getElem hlane⟩
    · exact iff_of_true ⟨p, rfl, contract_of_channels hp rfl (by simp)⟩
        (Or.inr (Int.not_lt.mp hlt))

/-- A run of calls stays within the four voltages, with every step as promised,
exactly when every argument is in range. -/
theorem contract_run_iff (hp : p.channels ≤ portMaxChannels) {calls : List (Call F)}
    (hsource : PartialRun.Along step SourceLongEnough p calls) :
    PartialRun.AllSteps step StepContract p calls ↔ PartialRun.Along step InRange p calls :=
  PartialRun.allSteps_iff_along (I := fun p => p.channels ≤ portMaxChannels)
    (A := SourceLongEnough) (C := InRange) (fun _ _ hp hs => contract_iff_inRange hp hs)
    (fun _ _ _ _ _ _ hr => hr.channels_le) hp hsource

theorem contract_run_sample :
    PartialRun.AllSteps step StepContract (⟨#v[1, 2, 3, 4], 3⟩ : Port ℚ)
      [.setChannels 1, .getVoltageSimd 0] := by
  have hsource : PartialRun.Along step SourceLongEnough (⟨#v[1, 2, 3, 4], 3⟩ : Port ℚ)
      [.setChannels 1, .getVoltageSimd 0] := by
    refine (PartialRun.along_cons rfl).mpr ⟨trivial, ?_⟩
    exact (PartialRun.along_cons rfl).mpr ⟨trivial, trivial⟩
  refine (contract_run_iff (by decide) hsource).mpr ?_
  refine (PartialRun.along_cons rfl).mpr ⟨Or.inr (by decide), ?_⟩
  exact (PartialRun.along_cons rfl).mpr ⟨Or.inl rfl, trivial⟩

/-- A negative count on a connected port clears cells before the first one, and
four lanes from channel 1 on reach beyond the last one. -/
theorem contract_run_fails :
    (∀ call ∈ ([.setChannels (-1), .setVoltageSimd #v[5, 6, 7, 8] 1, .getVoltageSimd (-4)] :
      List (Call ℚ)), (⟨#v[1, 2, 3, 4], 2⟩ : Port ℚ).step call = none) ∧
    ¬ PartialRun.AllSteps step StepContract (⟨#v[1, 2, 3, 4], 2⟩ : Port ℚ)
      [.setChannels (-1)] := by
  constructor
  · intro call hcall
    simp only [List.mem_cons, List.not_mem_nil, or_false] at hcall
    rcases hcall with rfl | rfl | rfl <;> rfl
  · rintro ⟨q, hq, _⟩
    cases hq

end Port

end PluginSdk
