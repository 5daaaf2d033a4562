import PluginSdk.MidiStream
import PluginSdk.PartialRun

/-! `MidiGenerator` turns gates and voltages into messages and remembers what
it sent last. Each message it emits stands next to the size that was asked for
with `setSize`. -/

namespace PluginSdk

namespace Midi

structure Emission where
  requested : Nat := 3
  message : Message

def Emission.ReportsRequest (e : Emission) : Prop := e.message.getSize = e.requested

structure MidiGenerator (channels : Nat) where
  vels : Vector Int8 channels := .replicate _ 100
  notes : Vector Int8 channels := .replicate _ 60
  gates : Vector Bool channels := .replicate _ false
  keyPressures : Vector Int8 channels := .replicate _ (-1)
  channelPressure : Int8 := -1
  ccs : Vector Int8 128 := .replicate _ (-1)
  pw : Int16 := 0x2000
  clk : Bool := false
  start : Bool := false
  stop : Bool := false
  cont : Bool := false

namespace MidiGenerator

variable {channels : Nat}

def threeBytes (status note value : UInt8) : Emission :=
  { message := ((({} : Message).setStatus status).setNote note).setValue value }

def pressure (note : UInt8) : Emission :=
  { requested := 2, message := ((({} : Message).setSize 2).setStatus 0xD).setNote note }

def realTime (channel : UInt8) : Emission :=
  { requested := 1, message := ((({} : Message).setSize 1).setStatus 0xF).setChannel channel }

def reset (_ : MidiGenerator channels) : MidiGenerator channels := {}

def panic (g : MidiGenerator channels) : MidiGenerator channels × List Emission :=
  (g.reset, (List.range 128).map fun note => threeBytes 0x8 (UInt8.ofNat note) 0)

def setVelocity (g : MidiGenerator channels) (vel : Int8) (c : Fin channels) :
    MidiGenerator channels :=
  { g with vels := g.vels.set c vel }

def setNoteGate (g : MidiGenerator channels) (note : Int8) (gate : Bool) (c : Fin channels) :
    MidiGenerator channels × List Emission :=
  let changedNote := gate && g.gates[c] && note != g.notes[c]
  let enabledGate := gate && !g.gates[c]
  let disabledGate := !gate && g.gates[c]
  let noteOff :=
    if changedNote || disabledGate then
      [threeBytes 0x8 g.notes[c].toUInt8 g.vels[c].toUInt8]
    else []
  let noteOn :=
    if changedNote || enabledGate then [threeBytes 0x9 note.toUInt8 g.vels[c].toUInt8] else []
  ({ g with notes := g.notes.set c note, gates := g.gates.set c gate }, noteOff ++ noteOn)

def setKeyPressure (g : MidiGenerator channels) (val : Int8) (c : Fin channels) :
    MidiGenerator channels × List Emission :=
  if g.keyPressures[c] = val then (g, [])
  else
    ({ g with keyPressures := g.keyPressures.set c val },
      [threeBytes 0xA g.notes[c].toUInt8 val.toUInt8])

def setChannelPressure (g : MidiGenerator channels) (val : Int8) :
    MidiGenerator channels × List Emission :=
  if g.channelPressure = val then (g, [])
  else ({ g with channelPressure := val }, [pressure val.toUInt8])

def setCc (g : MidiGenerator channels) (cc : Int8) (id : Fin 128) :
    MidiGenerator channels × List Emission :=
  if g.ccs[id] = cc then (g, [])
  else ({ g with ccs := g.ccs.set id cc }, [threeBytes 0xB (UInt8.ofNat id) cc.toUInt8])

def setPitchWheel (g : MidiGenerator channels) (pw : Int16) :
    MidiGenerator channels × List Emission :=
  if g.pw = pw then (g, [])
  else
    ({ g with pw }, [threeBytes 0xE (pw &&& 0x7F).toUInt16.toUInt8
      ((pw >>> 7) &&& 0x7F).toUInt16.toUInt8])

def setClock (g : MidiGenerator channels) (clk : Bool) : MidiGenerator channels × List Emission :=
  if g.clk = clk then (g, []) else ({ g with clk }, if clk then [realTime 0x8] else [])

def setStart (g : MidiGenerator channels) (start : Bool) :
    MidiGenerator channels × List Emission :=
  if g.start = start then (g, []) else ({ g with start }, if start then [realTime 0xA] else [])

def setContinue (g : MidiGenerator channels) (cont : Bool) :
    MidiGenerator channels × List Emission :=
  if g.cont = cont then (g, []) else ({ g with cont }, if cont then [realTime 0xB] else [])

def setStop (g : MidiGenerator channels) (stop : Bool) : MidiGenerator channels × List Emission :=
  if g.stop = stop then (g, []) else ({ g with stop }, if stop then [realTime 0xC] else [])

inductive Call (channels : Nat)
  | reset
  | panic
  | setVelocity (vel : Int8) (c : Fin channels)
  | setNoteGate (note : Int8) (gate : Bool) (c : Fin channels)
  | setKeyPressure (val : Int8) (c : Fin channels)
  | setChannelPressure (val : Int8)
  | setCc (cc : Int8) (id : Fin 128)
  | setPitchWheel (pw : Int16)
  | setClock (clk : Bool)
  | setStart (start : Bool)
  | setContinue (cont : Bool)
  | setStop (stop : Bool)

def step (g : MidiGenerator channels) : Call channels → MidiGenerator channels × List Emission
  | .reset => (g.reset, [])
  | .panic => g.panic
  | .setVelocity vel c => (g.setVelocity vel c, [])
  | .setNoteGate note gate c => g.setNoteGate note gate c
  | .setKeyPressure val c => g.setKeyPressure val c
  | .setChannelPressure val => g.setChannelPressure val
  | .setCc cc id => g.setCc cc id
  | .setPitchWheel pw => g.setPitchWheel pw
  | .setClock clk => g.setClock clk
  | .setStart start => g.setStart start
  | .setContinue cont => g.setContinue cont
  | .setStop stop => g.setStop stop

def emitted (g : MidiGenerator channels) : List (Call channels) → List Emission
  | [] => []
  | call :: calls => (g.step call).2 ++ emitted (g.step call).1 calls

def SendsNoPressure (g : MidiGenerator channels) : Call channels → Prop
  | .setChannelPressure val => g.channelPressure = val
  | _ => True

theorem threeBytes_reports {status : UInt8}
    (h : status = 0x8 ∨ status = 0x9 ∨ status = 0xA ∨ status = 0xB ∨ status = 0xE)
    (note value : UInt8) : (threeBytes status note value).ReportsRequest := by
  have hsize : (threeBytes status note value).message.getSize =
      (({} : Message).setStatus status).getSize := Message.getSize_congr (by simp [threeBytes]) rfl
  rw [Emission.ReportsRequest, hsize]
  rcases h with rfl | rfl | rfl | rfl | rfl <;> rfl

theorem realTime_reports {channel : UInt8}
    (h : channel = 0x8 ∨ channel = 0xA ∨ channel = 0xB ∨ channel = 0xC) :
    (realTime channel).ReportsRequest := by
  unfold Emission.ReportsRequest
  rcases h with rfl | rfl | rfl | rfl <;> rfl

theorem pressure_not_reports (val : UInt8) : ¬ (pressure val).ReportsRequest := by
  have hsize : (pressure val).message.getSize = (({} : Message).setStatus 0xD).getSize :=
    Message.getSize_congr (by simp [pressure, Message.setSize]) rfl
  have hone : (({} : Message).setStatus 0xD).getSize = 1 := rfl
  have hrequested : (pressure val).requested = 2 := rfl
  rw [Emission.ReportsRequest, hsize, hone, hrequested]
  decide

theorem reports_ite {c : Prop} [Decidable c] {e : Emission} (h : e.ReportsRequest) :
    ∀ x ∈ (if c then [e] else []), x.ReportsRequest := by
  intro x hx
  split_ifs at hx
  · obtain rfl := List.mem_singleton.mp hx
    exact h
  · simp at hx

theorem step_reports_iff (g : MidiGenerator channels) (call : Call channels) :
    (∀ e ∈ (g.step call).2, e.ReportsRequest) ↔ g.SendsNoPressure call := by
  cases call with
  | reset => exact iff_of_true (by simp [step]) trivial
  | panic =>
    refine iff_of_true (fun e he => ?_) trivial
    obtain ⟨note, _, rfl⟩ := List.mem_map.mp he
    exact threeBytes_reports (by simp) _ _
  | setVelocity vel c => exact iff_of_true (by simp [step]) trivial
  | setNoteGate note gate c =>
    refine iff_of_true (fun e he => ?_) trivial
    rcases List.mem_append.mp he with hoff | hon
    · exact reports_ite (threeBytes_reports (by simp) _ _) e hoff
    · exact reports_ite (threeBytes_reports (by simp) _ _) e hon
  | setKeyPressure val c =>
    refine iff_of_true ?_ trivial
    simp only [step, setKeyPressure]
    split_ifs
    · simp
    · simpa using threeBytes_reports (by simp) _ _
  | setChannelPressure val =>
    simp only [step, setChannelPressure, SendsNoPressure]
    split_ifs with hval
    · simp [hval]
    · simpa [hval] using pressure_not_reports val.toUInt8
  | setCc cc id =>
    refine iff_of_true ?_ trivial
    simp only [step, setCc]
    split_ifs
    · simp
    · simpa using threeBytes_reports (by simp) _ _
  | setPitchWheel pw =>
    refine iff_of_true ?_ trivial
    simp only [step, setPitchWheel]
    split_ifs
    · simp
    · simpa using threeBytes_reports (by simp) _ _
  | setClock clk =>
    refine iff_of_true ?_ trivial
    simp only [step, setClock]
    split_ifs <;> simp [realTime_reports]
  | setStart start =>
    refine iff_of_true ?_ trivial
    simp only [step, setStart]
    split_ifs <;> simp [realTime_reports]
  | setContinue cont =>
    refine iff_of_true ?_ trivial
    simp only [step, setContinue]
    split_ifs <;> simp [realTime_reports]
  | setStop stop =>
    refine iff_of_true ?_ trivial
    simp only [step, setStop]
    split_ifs <;> simp [realTime_reports]

theorem emitted_reports_iff (g : MidiGenerator channels) (calls : List (Call channels)) :
    (∀ e ∈ g.emitted calls, e.ReportsRequest) ↔
      PartialRun.Along (fun g call => some (g.step call).1) SendsNoPressure g calls := by
  induction calls generalizing g with
  | nil => simp [emitted, PartialRun.Along]
  | cons call calls ih =>
    rw [PartialRun.along_cons rfl, emitted, List.forall_mem_append, step_reports_iff, ih]

end MidiGenerator

open MidiGenerator

/-- A stream of channel messages is recovered, and an emitted message reports
the size asked for, exactly where no message with one data byte is involved. -/
theorem midi_sizes_iff (ms : List ChannelVoice) {channels : Nat} (g : MidiGenerator channels)
    (calls : List (Call channels)) :
    (Framing.parse ChannelMessage.next (ChannelVoice.stream ms) =
        some (ms.map ChannelVoice.toChannelMessage) ↔
      ∀ m ∈ ms, ¬ (m.1.getStatus = 0xC ∨ m.1.getStatus = 0xD)) ∧
    ((∀ e ∈ g.emitted calls, e.message.getSize = e.requested) ↔
      PartialRun.Along (fun g call => some (g.step call).1) SendsNoPressure g calls) :=
  ⟨ChannelVoice.parse_stream_iff ms, emitted_reports_iff g calls⟩

/-- A channel pressure message loses its data byte on the wire, and the one
that a generator emits reports size 1 where 2 was asked for. -/
theorem midi_sizes_fail :
    (∃ m : ChannelVoice, m.1 = { bytes := #v[0xD0, 0x40, 0] } ∧
      ChannelVoice.stream [m] = [0xD0] ∧
      Framing.parse ChannelMessage.next (ChannelVoice.stream [m]) = none) ∧
    (({} : MidiGenerator 1).emitted [.setChannelPressure 64]).map
      (fun e => (e.requested, e.message.getSize)) = [(2, 1)] := by
  refine ⟨⟨⟨{ bytes := #v[0xD0, 0x40, 0] }, ?_⟩, rfl, ?_, ?_⟩, ?_⟩
  · exact ⟨by decide, by decide, by decide, by decide⟩
  · decide
  · decide
  · decide

end Midi

end PluginSdk
