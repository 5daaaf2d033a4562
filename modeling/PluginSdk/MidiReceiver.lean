import Mathlib.Tactic.IntervalCases
import PluginSdk.MidiGenerator

/-! A receiver of the bytes that a `MidiGenerator` puts on the wire. The generator
sends nothing that it believes the receiver to know already, so the two must agree
on what was sent. -/

namespace PluginSdk

namespace Midi

/-- What the MIDI standard has a receiver keep of channel messages. -/
structure Receiver where
  held : UInt8 → Bool := fun _ => false
  controls : UInt8 → Option UInt8 := fun _ => none
  pressure : Option UInt8 := none
  pitch : UInt16 := 0x2000

namespace Receiver

def noteOff (r : Receiver) (note : UInt8) : Receiver :=
  { r with held := Function.update r.held note false }

/-- A note that begins with velocity 0 ends instead. -/
def noteOn (r : Receiver) (note velocity : UInt8) : Receiver :=
  { r with held := Function.update r.held note (velocity != 0) }

def controlChange (r : Receiver) (control value : UInt8) : Receiver :=
  { r with controls := Function.update r.controls control (some value) }

def pitchOf (low high : UInt8) : UInt16 := low.toUInt16 ||| (high.toUInt16 <<< 7)

/-- A message that lacks a data byte tells nothing. -/
def receiveBytes (r : Receiver) : List UInt8 → Receiver
  | [status, note, value] =>
    if status >>> 4 = 0x8 then r.noteOff note
    else if status >>> 4 = 0x9 then r.noteOn note value
    else if status >>> 4 = 0xB then r.controlChange note value
    else if status >>> 4 = 0xE then { r with pitch := pitchOf note value }
    else r
  | [status, val] => if status >>> 4 = 0xD then { r with pressure := some val } else r
  | _ => r

def receive (r : Receiver) (m : Message) : Receiver := r.receiveBytes m.wire

theorem receive_of_getSize (r : Receiver) {m : Message} (h : m.getSize = 3) :
    r.receive m =
      if m.getStatus = 0x8 then r.noteOff m.getNote
      else if m.getStatus = 0x9 then r.noteOn m.getNote m.getValue
      else if m.getStatus = 0xB then r.controlChange m.getNote m.getValue
      else if m.getStatus = 0xE then { r with pitch := pitchOf m.getNote m.getValue }
      else r := by
  rw [receive, Message.wire_of_getSize h]
  rfl

theorem receive_of_one_byte (r : Receiver) {m : Message} (h : m.getSize = 1) : r.receive m = r := by
  have hlen : m.wire.length = 1 := m.length_wire.trans h
  obtain ⟨status, hwire⟩ := List.length_eq_one_iff.mp hlen
  rw [receive, hwire]
  rfl

def receiveAll (r : Receiver) (es : List Emission) : Receiver :=
  es.foldl (fun r e => r.receive e.message) r

theorem receiveAll_append (r : Receiver) (es fs : List Emission) :
    r.receiveAll (es ++ fs) = (r.receiveAll es).receiveAll fs := List.foldl_append

theorem receiveAll_ite (r : Receiver) {c : Prop} [Decidable c] (e : Emission) :
    r.receiveAll (if c then [e] else []) = if c then r.receive e.message else r := by
  split_ifs <;> rfl

end Receiver

open Receiver

namespace MidiGenerator

variable {channels : Nat}

def dataByte (x : Int8) : UInt8 := x.toUInt8 &&& 0x7F

/-! What a receiver makes of the messages that the generator builds. -/

theorem getNote_threeBytes (status note value : UInt8) :
    (threeBytes status note value).message.getNote = note &&& 0x7F := by
  simp [threeBytes, Message.getNote, Message.setNote, Message.setValue]

theorem getValue_threeBytes (status note value : UInt8) :
    (threeBytes status note value).message.getValue = value &&& 0x7F := by
  simp [threeBytes, Message.getValue, Message.setValue]

theorem getStatus_threeBytes (status note value : UInt8) :
    (threeBytes status note value).message.getStatus = (status <<< 4) >>> 4 := by
  simp [threeBytes, Message.getStatus, Message.setStatus]

theorem getSize_threeBytes {status : UInt8}
    (h : status = 0x8 ∨ status = 0x9 ∨ status = 0xA ∨ status = 0xB ∨ status = 0xE)
    (note value : UInt8) : (threeBytes status note value).message.getSize = 3 :=
  threeBytes_reports h note value

theorem receive_noteOff (r : Receiver) (note value : UInt8) :
    r.receive (threeBytes 0x8 note value).message = r.noteOff (note &&& 0x7F) := by
  rw [receive_of_getSize r (getSize_threeBytes (by simp) note value), getStatus_threeBytes,
    getNote_threeBytes]
  exact if_pos (by decide)

theorem receive_noteOn (r : Receiver) (note value : UInt8) :
    r.receive (threeBytes 0x9 note value).message =
      r.noteOn (note &&& 0x7F) (value &&& 0x7F) := by
  rw [receive_of_getSize r (getSize_threeBytes (by simp) note value), getStatus_threeBytes,
    getNote_threeBytes, getValue_threeBytes]
  exact (if_neg (by decide)).trans (if_pos (by decide))

theorem receive_keyPressure (r : Receiver) (note value : UInt8) :
    r.receive (threeBytes 0xA note value).message = r := by
  rw [receive_of_getSize r (getSize_threeBytes (by simp) note value), getStatus_threeBytes]
  rw [if_neg (by decide), if_neg (by decide), if_neg (by decide), if_neg (by decide)]

theorem receive_controlChange (r : Receiver) (control value : UInt8) :
    r.receive (threeBytes 0xB control value).message =
      r.controlChange (control &&& 0x7F) (value &&& 0x7F) := by
  rw [receive_of_getSize r (getSize_threeBytes (by simp) control value), getStatus_threeBytes,
    getNote_threeBytes, getValue_threeBytes]
  rw [if_neg (by decide), if_neg (by decide), if_pos (by decide)]

theorem receive_pitch (r : Receiver) (low high : UInt8) :
    r.receive (threeBytes 0xE low high).message =
      { r with pitch := pitchOf (low &&& 0x7F) (high &&& 0x7F) } := by
  rw [receive_of_getSize r (getSize_threeBytes (by simp) low high), getStatus_threeBytes,
    getNote_threeBytes, getValue_threeBytes]
  rw [if_neg (by decide), if_neg (by decide), if_neg (by decide), if_pos (by decide)]

/-- Of a channel pressure message only the status byte is sent. -/
theorem receive_pressure (r : Receiver) (val : UInt8) : r.receive (pressure val).message = r := by
  have hsize : (pressure val).message.getSize = (({} : Message).setStatus 0xD).getSize :=
    Message.getSize_congr (by simp [pressure, Message.setSize]) rfl
  exact receive_of_one_byte r (hsize.trans rfl)

theorem receive_realTime (r : Receiver) {channel : UInt8}
    (h : channel = 0x8 ∨ channel = 0xA ∨ channel = 0xB ∨ channel = 0xC) :
    r.receive (realTime channel).message = r :=
  receive_of_one_byte r (realTime_reports h)

theorem pitch_bits (x : BitVec 16) :
    ((x &&& 0x7F#16).setWidth 8 &&& 0x7F#8).setWidth 16 |||
      ((((x.sshiftRight 7) &&& 0x7F#16).setWidth 8 &&& 0x7F#8).setWidth 16 <<< 7) =
        x &&& 0x3FFF#16 := by
  ext i hi
  interval_cases i <;> simp [BitVec.getElem_sshiftRight]

/-- The two data bytes carry the fourteen low bits of the pitch wheel. -/
theorem pitchOf_bytes (pw : Int16) :
    pitchOf ((pw &&& 0x7F).toUInt16.toUInt8 &&& 0x7F)
      (((pw >>> 7) &&& 0x7F).toUInt16.toUInt8 &&& 0x7F) = pw.toUInt16 &&& 0x3FFF :=
  UInt16.eq_of_toBitVec_eq (pitch_bits pw.toBitVec)

/-! The generator and its receiver. -/

def deliver (s : MidiGenerator channels × Receiver) (call : Call channels) :
    MidiGenerator channels × Receiver :=
  ((s.1.step call).1, s.2.receiveAll (s.1.step call).2)

def session (calls : List (Call channels)) : MidiGenerator channels × Receiver :=
  calls.foldl deliver ({}, {})

abbrev cell {α : Type} {n : Nat} (cells : Vector α n) (c : Fin n) : α := getElem cells c c.isLt

abbrev gateOf (g : MidiGenerator channels) (c : Fin channels) : Bool := cell g.gates c

abbrev noteOf (g : MidiGenerator channels) (c : Fin channels) : Int8 := cell g.notes c

abbrev velocityOf (g : MidiGenerator channels) (c : Fin channels) : Int8 := cell g.vels c

abbrev controlOf (g : MidiGenerator channels) (id : Fin 128) : Int8 := cell g.ccs id

/-- Some channel has its gate open at the note. -/
def Gated (g : MidiGenerator channels) (n : UInt8) : Prop :=
  ∃ c : Fin channels, g.gateOf c = true ∧ n = dataByte (g.noteOf c)

/-- What the receiver knows after a call, told from the values before it. -/
def heardAfter (g : MidiGenerator channels) (r : Receiver) : Call channels → Receiver
  | .panic => { r with held := fun n => r.held n && decide (128 ≤ n.toNat) }
  | .setNoteGate note gate c =>
    let ended := if g.gateOf c = true ∧ ¬ (gate = true ∧ note = g.noteOf c) then
      r.noteOff (dataByte (g.noteOf c)) else r
    if gate = true ∧ ¬ (g.gateOf c = true ∧ note = g.noteOf c) then
      ended.noteOn (dataByte note) (dataByte (g.velocityOf c)) else ended
  | .setCc cc id =>
    if g.controlOf id = cc then r else r.controlChange (UInt8.ofNat id) (dataByte cc)
  | .setPitchWheel pw => if g.pw = pw then r else { r with pitch := pw.toUInt16 &&& 0x3FFF }
  | _ => r

theorem receiveAll_noteOffs (r : Receiver) (notes : List Nat) :
    r.receiveAll (notes.map fun note => threeBytes 0x8 (UInt8.ofNat note) 0) =
      { r with held := fun n =>
          r.held n && decide (n ∉ notes.map fun note => UInt8.ofNat note &&& 0x7F) } := by
  induction notes using List.reverseRecOn with
  | nil => simp [receiveAll]
  | append_singleton notes note ih =>
    rw [List.map_append, receiveAll_append, ih, List.map_singleton]
    simp only [receiveAll, List.foldl_cons, List.foldl_nil, receive_noteOff, noteOff, List.map_append]
    congr 1
    funext n
    by_cases he : n = UInt8.ofNat note &&& 0x7F
    · subst he
      simp
    · rw [Function.update_of_ne he]
      simp [he]

theorem toNat_controlByte (id : Fin 128) : (UInt8.ofNat id).toNat = id :=
  UInt8.toNat_ofNat_of_lt (id.isLt.trans (by decide))

theorem controlByte (id : Fin 128) : UInt8.ofNat id &&& 0x7F = UInt8.ofNat id := by
  apply UInt8.toNat.inj
  rw [UInt8.toNat_and, toNat_controlByte]
  exact (Nat.and_two_pow_sub_one_eq_mod _ 7).trans (Nat.mod_eq_of_lt id.isLt)

theorem mem_allNotes (n : UInt8) :
    n ∈ (List.range 128).map (fun note => UInt8.ofNat note &&& 0x7F) ↔ ¬ 128 ≤ n.toNat := by
  rw [List.mem_map, not_le]
  constructor
  · rintro ⟨note, hnote, rfl⟩
    have hlt := List.mem_range.mp hnote
    rw [controlByte ⟨note, hlt⟩, toNat_controlByte ⟨note, hlt⟩]
    exact hlt
  · intro hn
    refine ⟨n.toNat, List.mem_range.mpr hn, ?_⟩
    rw [controlByte ⟨n.toNat, hn⟩]
    exact UInt8.ofNat_toNat

theorem deliver_eq (s : MidiGenerator channels × Receiver) (call : Call channels) :
    (deliver s call).2 = heardAfter s.1 s.2 call := by
  obtain ⟨g, r⟩ := s
  cases call with
  | reset => rfl
  | panic =>
    simp only [deliver, step, panic, heardAfter, receiveAll_noteOffs, mem_allNotes, not_not]
  | setVelocity vel c => rfl
  | setNoteGate note gate c =>
    simp only [deliver, step, setNoteGate, receiveAll_append, receiveAll_ite, receive_noteOff,
      receive_noteOn, heardAfter, dataByte, gateOf, noteOf, velocityOf, Fin.getElem_fin]
    by_cases hg : g.gates[(c : Nat)] = true <;> cases gate <;>
      by_cases hn : note = g.notes[(c : Nat)] <;> simp [hg, hn]
  | setKeyPressure val c =>
    simp only [deliver, step, setKeyPressure, heardAfter]
    split_ifs
    · rfl
    · simp [receiveAll, receive_keyPressure]
  | setChannelPressure val =>
    simp only [deliver, step, setChannelPressure, heardAfter]
    split_ifs
    · rfl
    · simp [receiveAll, receive_pressure]
  | setCc cc id =>
    simp only [deliver, step, setCc, heardAfter]
    split_ifs
    · rfl
    · simp only [receiveAll, List.foldl_cons, List.foldl_nil, receive_controlChange, controlByte,
        dataByte]
  | setPitchWheel pw =>
    simp only [deliver, step, setPitchWheel, heardAfter]
    split_ifs
    · rfl
    · simp only [receiveAll, List.foldl_cons, List.foldl_nil, receive_pitch, pitchOf_bytes]
  | setClock clk =>
    simp only [deliver, step, setClock, heardAfter]
    split_ifs <;> simp [receiveAll, receive_realTime]
  | setStart start =>
    simp only [deliver, step, setStart, heardAfter]
    split_ifs <;> simp [receiveAll, receive_realTime]
  | setContinue cont =>
    simp only [deliver, step, setContinue, heardAfter]
    split_ifs <;> simp [receiveAll, receive_realTime]
  | setStop stop =>
    simp only [deliver, step, setStop, heardAfter]
    split_ifs <;> simp [receiveAll, receive_realTime]

/-- The notes held are among those gated, and are these exactly when `exact`. -/
structure HeldGated (exact : Prop) (s : MidiGenerator channels × Receiver) : Prop where
  gated_of_held : ∀ n, s.2.held n = true → s.1.Gated n
  held_of_gated : exact → ∀ n, s.1.Gated n → s.2.held n = true
  velocity_ne_zero : exact → ∀ c : Fin channels, dataByte (s.1.velocityOf c) ≠ 0

/-- No two open gates share a note. -/
def Distinct (g : MidiGenerator channels) : Prop :=
  ∀ c c' : Fin channels, g.gateOf c = true → g.gateOf c' = true →
    dataByte (g.noteOf c) = dataByte (g.noteOf c') → c = c'

def Audible : Call channels → Prop
  | .setVelocity vel _ => dataByte vel ≠ 0
  | _ => True

variable {exact : Prop} {s : MidiGenerator channels × Receiver}

theorem gated_setNoteGate (g : MidiGenerator channels) (note : Int8) (gate : Bool)
    (c : Fin channels) (n : UInt8) :
    (g.setNoteGate note gate c).1.Gated n ↔ gate = true ∧ n = dataByte note ∨
      ∃ c' : Fin channels, c' ≠ c ∧ g.gateOf c' = true ∧ n = dataByte (g.noteOf c') := by
  simp only [Gated, setNoteGate]
  constructor
  · rintro ⟨c', hgate, hn⟩
    by_cases he : c' = c
    · subst he
      exact Or.inl (by simpa using And.intro hgate hn)
    · have hne : (c : Nat) ≠ c' := fun hh => he (Fin.ext hh.symm)
      exact Or.inr ⟨c', he, by simpa [Vector.getElem_set, hne] using And.intro hgate hn⟩
  · rintro (⟨hgate, hn⟩ | ⟨c', he, hgate, hn⟩)
    · exact ⟨c, by simpa using And.intro hgate hn⟩
    · have hne : (c : Nat) ≠ c' := fun hh => he (Fin.ext hh.symm)
      exact ⟨c', by simpa [Vector.getElem_set, hne] using And.intro hgate hn⟩

theorem gated_iff (g : MidiGenerator channels) (c : Fin channels) (n : UInt8) :
    g.Gated n ↔ g.gateOf c = true ∧ n = dataByte (g.noteOf c) ∨
      ∃ c' : Fin channels, c' ≠ c ∧ g.gateOf c' = true ∧ n = dataByte (g.noteOf c') := by
  constructor
  · rintro ⟨c', hgate, hn⟩
    by_cases he : c' = c
    · exact Or.inl (he ▸ ⟨hgate, hn⟩)
    · exact Or.inr ⟨c', he, hgate, hn⟩
  · rintro (hh | ⟨c', -, hh⟩)
    · exact ⟨c, hh⟩
    · exact ⟨c', hh⟩

theorem held_setNoteGate (g : MidiGenerator channels) (r : Receiver) (note : Int8) (gate : Bool)
    (c : Fin channels) (n : UInt8) :
    (heardAfter g r (.setNoteGate note gate c)).held n =
      if (gate = true ∧ ¬ (g.gateOf c = true ∧ note = g.noteOf c)) ∧ n = dataByte note then
        dataByte (g.velocityOf c) != 0
      else if (g.gateOf c = true ∧ ¬ (gate = true ∧ note = g.noteOf c)) ∧
          n = dataByte (g.noteOf c) then false
      else r.held n := by
  simp only [heardAfter]
  by_cases hon : gate = true ∧ ¬ (g.gateOf c = true ∧ note = g.noteOf c)
  · by_cases hoff : g.gateOf c = true ∧ ¬ (gate = true ∧ note = g.noteOf c)
    · rw [if_pos hon, if_pos hoff, if_congr (and_iff_right hon) rfl rfl,
        if_congr (and_iff_right hoff) rfl rfl]
      simp only [noteOn, noteOff, Function.update_apply]
    · have hno : ¬ ((g.gateOf c = true ∧ ¬ (gate = true ∧ note = g.noteOf c)) ∧
          n = dataByte (g.noteOf c)) := fun hh => hoff hh.1
      rw [if_pos hon, if_neg hoff, if_congr (and_iff_right hon) rfl rfl, if_neg hno]
      simp only [noteOn, Function.update_apply]
  · by_cases hoff : g.gateOf c = true ∧ ¬ (gate = true ∧ note = g.noteOf c)
    · rw [if_neg hon, if_pos hoff, if_neg fun hh => hon hh.1, if_congr (and_iff_right hoff) rfl rfl]
      simp only [noteOff, Function.update_apply]
    · rw [if_neg hon, if_neg hoff, if_neg fun hh => hon hh.1, if_neg fun hh => hoff hh.1]

theorem HeldGated.setNoteGate (h : HeldGated exact s) (hd : exact → s.1.Distinct) (note : Int8)
    (gate : Bool) (c : Fin channels) : HeldGated exact (deliver s (.setNoteGate note gate c)) := by
  obtain ⟨g, r⟩ := s
  have hheld (n : UInt8) := (congrArg (Receiver.held · n)
    (deliver_eq (g, r) (.setNoteGate note gate c))).trans (held_setNoteGate g r note gate c n)
  have hgated := gated_setNoteGate g note gate c
  refine ⟨fun n hn => ?_, fun he n hn => ?_, h.velocity_ne_zero⟩
  · refine (hgated n).mpr ?_
    rw [hheld n] at hn
    split_ifs at hn with hon hoff
    · exact Or.inl ⟨hon.1.1, hon.2⟩
    · rcases (gated_iff g c n).mp (h.gated_of_held n hn) with ⟨hopen, hold⟩ | hother
      · -- the channel's own note was not ended, so it goes on
        have hsame : gate = true ∧ note = g.noteOf c := by
          by_contra hne
          exact hoff ⟨⟨hopen, hne⟩, hold⟩
        exact Or.inl ⟨hsame.1, hsame.2 ▸ hold⟩
      · exact Or.inr hother
  · rw [hheld n]
    split_ifs with hon hoff
    · exact bne_iff_ne.mpr (h.velocity_ne_zero he c)
    · exfalso
      rcases (hgated n).mp hn with ⟨hgate, hnew⟩ | ⟨c', hne, hopen, hold⟩
      · exact hon ⟨⟨hgate, fun hh => hoff.1.2 ⟨hgate, hh.2⟩⟩, hnew⟩
      · exact hne (hd he c' c hopen hoff.1.1 (hold.symm.trans hoff.2))
    · refine h.held_of_gated he n ((gated_iff g c n).mpr ?_)
      rcases (hgated n).mp hn with ⟨hgate, hnew⟩ | hother
      · have hsame : g.gateOf c = true ∧ note = g.noteOf c := by
          by_contra hne
          exact hon ⟨⟨hgate, hne⟩, hnew⟩
        exact Or.inl ⟨hsame.1, hsame.2 ▸ hnew⟩
      · exact Or.inr hother

theorem HeldGated.frame (h : HeldGated exact s) {t : MidiGenerator channels × Receiver}
    (hheld : t.2.held = s.2.held) (hnotes : t.1.notes = s.1.notes) (hgates : t.1.gates = s.1.gates)
    (hvels : exact → ∀ c : Fin channels, dataByte (t.1.velocityOf c) ≠ 0) : HeldGated exact t := by
  have hgated (n : UInt8) : t.1.Gated n ↔ s.1.Gated n := by
    simp only [Gated, gateOf, noteOf, hnotes, hgates]
  refine ⟨fun n hn => (hgated n).mpr (h.gated_of_held n (hheld ▸ hn)), fun he n hn => ?_, hvels⟩
  rw [hheld]
  exact h.held_of_gated he n ((hgated n).mp hn)

/-- The calls for everything but notes leave the notes, the gates and what is held alone. -/
theorem frame_notes (g : MidiGenerator channels) (r : Receiver) {call : Call channels}
    (hreset : call ≠ .reset) (hpanic : call ≠ .panic)
    (hnote : ∀ note gate c, call ≠ .setNoteGate note gate c) :
    (heardAfter g r call).held = r.held ∧ (g.step call).1.notes = g.notes ∧
      (g.step call).1.gates = g.gates ∧
      ((g.step call).1.vels = g.vels ∨ ∃ vel c, call = .setVelocity vel c) := by
  cases call with
  | reset => exact absurd rfl hreset
  | panic => exact absurd rfl hpanic
  | setVelocity vel c => exact ⟨rfl, rfl, rfl, Or.inr ⟨vel, c, rfl⟩⟩
  | setNoteGate note gate c => exact absurd rfl (hnote note gate c)
  | setKeyPressure val c =>
    simp only [heardAfter, step, setKeyPressure]
    split_ifs <;> simp
  | setChannelPressure val =>
    simp only [heardAfter, step, setChannelPressure]
    split_ifs <;> simp
  | setCc cc id =>
    simp only [heardAfter, step, setCc]
    split_ifs <;> simp [controlChange]
  | setPitchWheel pw =>
    simp only [heardAfter, step, setPitchWheel]
    split_ifs <;> simp
  | setClock clk =>
    simp only [heardAfter, step, setClock]
    split_ifs <;> simp
  | setStart start =>
    simp only [heardAfter, step, setStart]
    split_ifs <;> simp
  | setContinue cont =>
    simp only [heardAfter, step, setContinue]
    split_ifs <;> simp
  | setStop stop =>
    simp only [heardAfter, step, setStop]
    split_ifs <;> simp

theorem not_gated_reset (g : MidiGenerator channels) (n : UInt8) : ¬ g.reset.Gated n := by
  rintro ⟨c, hgate, -⟩
  simp [MidiGenerator.reset] at hgate

theorem dataByte_lt (x : Int8) : (dataByte x).toNat < 128 := by
  rw [dataByte, UInt8.toNat_and]
  exact Nat.lt_of_le_of_lt Nat.and_le_right (by decide)

theorem HeldGated.deliver (h : HeldGated exact s) {call : Call channels} (hreset : call ≠ .reset)
    (hd : exact → s.1.Distinct ∧ Audible call) : HeldGated exact (deliver s call) := by
  by_cases hpanic : call = .panic
  · subst hpanic
    refine ⟨fun n hn => ?_, fun _ n hn => absurd hn (not_gated_reset s.1 n), fun _ c => ?_⟩
    · -- nothing is held beyond the notes that were switched off
      rw [deliver_eq, heardAfter] at hn
      simp only [Bool.and_eq_true, decide_eq_true_eq] at hn
      obtain ⟨c, -, hc⟩ := h.gated_of_held n hn.1
      have hlt := dataByte_lt (s.1.noteOf c)
      rw [← hc] at hlt
      omega
    · simp only [MidiGenerator.deliver, step, panic, MidiGenerator.reset]
      simp [dataByte]
      decide
  by_cases hnote : ∃ note gate c, call = .setNoteGate note gate c
  · obtain ⟨note, gate, c, rfl⟩ := hnote
    exact h.setNoteGate (fun he => (hd he).1) note gate c
  obtain ⟨hheld, hnotes, hgates, hvels⟩ := frame_notes s.1 s.2 hreset hpanic
    fun note gate c he => hnote ⟨note, gate, c, he⟩
  refine h.frame ((congrArg Receiver.held (deliver_eq s call)).trans hheld) hnotes hgates
    fun he c => ?_
  rcases hvels with hvels | ⟨vel, c', rfl⟩
  · show dataByte ((s.1.step call).1.vels[c]) ≠ 0
    rw [hvels]
    exact h.velocity_ne_zero he c
  · have haudible : dataByte vel ≠ 0 := (hd he).2
    show dataByte (s.1.vels.set c' vel)[c] ≠ 0
    by_cases hc : (c' : Nat) = c
    · simpa [hc] using haudible
    · simpa [Vector.getElem_set, hc] using h.velocity_ne_zero he c

theorem heldGated_init : HeldGated exact (({}, {}) : MidiGenerator channels × Receiver) := by
  refine ⟨(fun n hn => by cases hn), fun _ n hn => absurd hn (not_gated_reset {} n), fun _ c => ?_⟩
  simp [dataByte]
  decide

abbrev next (g : MidiGenerator channels) (call : Call channels) :
    Option (MidiGenerator channels) := some (g.step call).1

theorem HeldGated.session (h : HeldGated exact s) {calls : List (Call channels)}
    (hreset : ∀ call ∈ calls, call ≠ .reset)
    (hd : exact → PartialRun.Along next (fun g call => g.Distinct ∧ Audible call) s.1 calls) :
    HeldGated exact (calls.foldl MidiGenerator.deliver s) := by
  induction calls generalizing s with
  | nil => exact h
  | cons call calls ih =>
    refine ih (h.deliver (hreset call List.mem_cons_self) fun he => (hd he).1)
      (fun c hc => hreset c (List.mem_cons_of_mem _ hc)) fun he => ?_
    exact ((PartialRun.along_cons rfl).mp (hd he)).2

/-- No note is left hanging: without a silent `reset`, what the receiver holds is gated. While
no two open gates share a note and no velocity is 0, it holds all that is gated. -/
theorem held_notes_gated {calls : List (Call channels)} (hreset : ∀ call ∈ calls, call ≠ .reset) :
    (∀ n, (session calls).2.held n = true → (session calls).1.Gated n) ∧
      (PartialRun.Along next (fun g call => g.Distinct ∧ Audible call) {} calls →
        ∀ n, (session calls).2.held n = true ↔ (session calls).1.Gated n) := by
  have hinit : HeldGated (PartialRun.Along next (fun g call => g.Distinct ∧ Audible call) {} calls)
      (({}, {}) : MidiGenerator channels × Receiver) := heldGated_init
  have h := hinit.session hreset id
  exact ⟨h.gated_of_held, fun hd n => ⟨h.gated_of_held n, h.held_of_gated hd n⟩⟩

def twoNotes : List (Call 2) := [.setNoteGate 60 true 0, .setNoteGate 64 true 1]

theorem held_notes_gated_twoNotes :
    (session twoNotes).2.held 64 = true ↔ (session twoNotes).1.Gated 64 := by
  have hd : PartialRun.Along next (fun g call => g.Distinct ∧ Audible call) {} twoNotes := by
    rw [twoNotes, PartialRun.along_cons rfl, PartialRun.along_cons rfl]
    refine ⟨⟨?_, trivial⟩, ⟨?_, trivial⟩, trivial⟩ <;>
      unfold Distinct <;> decide
  exact (held_notes_gated (by simp [twoNotes])).2 hd 64

/-- The receiver has the control values that the generator thinks it has sent, and has
heard of no channel pressure. -/
structure Known (s : MidiGenerator channels × Receiver) : Prop where
  control : ∀ id : Fin 128, s.1.controlOf id ≠ -1 →
    s.2.controls (UInt8.ofNat id) = some (dataByte (s.1.controlOf id))
  pressure : s.2.pressure = none

theorem controlByte_inj {id id' : Fin 128} (h : UInt8.ofNat id = UInt8.ofNat id') : id = id' := by
  apply Fin.ext
  rw [← toNat_controlByte id, h, toNat_controlByte]

theorem known_reset (g : MidiGenerator channels) {r : Receiver} (h : r.pressure = none) :
    Known (g.reset, r) := by
  refine ⟨fun id hid => ?_, h⟩
  simp [MidiGenerator.reset] at hid

theorem pressure_heardAfter (g : MidiGenerator channels) (r : Receiver) (call : Call channels) :
    (heardAfter g r call).pressure = r.pressure := by
  cases call with
  | setNoteGate note gate c =>
    simp only [heardAfter]
    split_ifs <;> rfl
  | setCc cc id =>
    simp only [heardAfter]
    split_ifs <;> rfl
  | setPitchWheel pw =>
    simp only [heardAfter]
    split_ifs <;> rfl
  | _ => rfl

theorem Known.frame (h : Known s) {t : MidiGenerator channels × Receiver}
    (hcontrols : t.2.controls = s.2.controls) (hpressure : t.2.pressure = s.2.pressure)
    (hccs : t.1.ccs = s.1.ccs) : Known t := by
  refine ⟨fun id => ?_, hpressure.trans h.pressure⟩
  rw [hcontrols, controlOf, hccs]
  exact h.control id

theorem frame_known (g : MidiGenerator channels) (r : Receiver) {call : Call channels}
    (hreset : call ≠ .reset) (hpanic : call ≠ .panic) (hcc : ∀ cc id, call ≠ .setCc cc id) :
    (heardAfter g r call).controls = r.controls ∧ (g.step call).1.ccs = g.ccs := by
  cases call with
  | reset => exact absurd rfl hreset
  | panic => exact absurd rfl hpanic
  | setVelocity vel c => exact ⟨rfl, rfl⟩
  | setNoteGate note gate c =>
    simp only [heardAfter, step, setNoteGate]
    split_ifs <;> simp [noteOn, noteOff]
  | setKeyPressure val c =>
    simp only [heardAfter, step, setKeyPressure]
    split_ifs <;> simp
  | setChannelPressure val =>
    simp only [heardAfter, step, setChannelPressure]
    split_ifs <;> simp
  | setCc cc id => exact absurd rfl (hcc cc id)
  | setPitchWheel pw =>
    simp only [heardAfter, step, setPitchWheel]
    split_ifs <;> simp
  | setClock clk =>
    simp only [heardAfter, step, setClock]
    split_ifs <;> simp
  | setStart start =>
    simp only [heardAfter, step, setStart]
    split_ifs <;> simp
  | setContinue cont =>
    simp only [heardAfter, step, setContinue]
    split_ifs <;> simp
  | setStop stop =>
    simp only [heardAfter, step, setStop]
    split_ifs <;> simp

theorem deliver_setCc (g : MidiGenerator channels) (r : Receiver) {cc : Int8} {id : Fin 128}
    (hne : g.controlOf id ≠ cc) : deliver (g, r) (.setCc cc id) =
      ((g.setCc cc id).1, r.controlChange (UInt8.ofNat id) (dataByte cc)) := by
  refine Prod.ext rfl ?_
  rw [deliver_eq, heardAfter, if_neg hne]

theorem Known.deliver (h : Known s) (call : Call channels) : Known (deliver s call) := by
  obtain ⟨g, r⟩ := s
  have hheard := deliver_eq (g, r) call
  have hpressure : (MidiGenerator.deliver (g, r) call).2.pressure = none :=
    (congrArg _ hheard).trans ((pressure_heardAfter g r call).trans h.pressure)
  by_cases hreset : call = .reset
  · subst hreset
    exact known_reset g hpressure
  by_cases hpanic : call = .panic
  · subst hpanic
    exact known_reset g hpressure
  by_cases hcc : ∃ cc id, call = .setCc cc id
  · obtain ⟨cc, id, rfl⟩ := hcc
    by_cases hsame : g.controlOf id = cc
    · have hdeliver : MidiGenerator.deliver (g, r) (.setCc cc id) = (g, r) := by
        simp [MidiGenerator.deliver, step, setCc, ← hsame, receiveAll]
      rwa [hdeliver]
    rw [deliver_setCc g r hsame, setCc, if_neg hsame]
    refine ⟨fun id' hid => ?_, h.pressure⟩
    by_cases he : id' = id
    · subst he
      simp [controlChange]
    · have hne : (id : Nat) ≠ id' := fun hh => he (Fin.ext hh.symm)
      have hbyte : UInt8.ofNat id' ≠ UInt8.ofNat id := fun hh => he (controlByte_inj hh)
      have hkept : cell (g.ccs.set id cc) id' = g.controlOf id' := by simp [hne]
      simp only [controlChange, Function.update_of_ne hbyte]
      rw [controlOf, hkept] at hid ⊢
      exact h.control id' hid
  obtain ⟨hc, hccs⟩ := frame_known g r hreset hpanic fun cc id he => hcc ⟨cc, id, he⟩
  exact h.frame ((congrArg _ hheard).trans hc) (hpressure.trans h.pressure.symm) hccs

/-- The wheel of the receiver stands where the generator believes it to be. -/
def PitchKnown (s : MidiGenerator channels × Receiver) : Prop :=
  s.2.pitch = s.1.pw.toUInt16 &&& 0x3FFF

/-- Neither call says that it centres the wheel. -/
def Centred (g : MidiGenerator channels) : Call channels → Prop
  | .reset | .panic => g.pw.toUInt16 &&& 0x3FFF = 0x2000
  | _ => True

theorem pitchKnown_deliver_iff (h : PitchKnown s) (call : Call channels) :
    PitchKnown (deliver s call) ↔ Centred s.1 call := by
  obtain ⟨g, r⟩ := s
  have hpitch : r.pitch = g.pw.toUInt16 &&& 0x3FFF := h
  have hcentre : (0x2000 : Int16).toUInt16 &&& 0x3FFF = 0x2000 := by decide
  rw [PitchKnown, deliver_eq]
  cases call with
  | reset =>
    show r.pitch = (0x2000 : Int16).toUInt16 &&& 0x3FFF ↔ g.pw.toUInt16 &&& 0x3FFF = 0x2000
    rw [hcentre, hpitch]
  | panic =>
    show r.pitch = (0x2000 : Int16).toUInt16 &&& 0x3FFF ↔ g.pw.toUInt16 &&& 0x3FFF = 0x2000
    rw [hcentre, hpitch]
  | setPitchWheel pw =>
    refine iff_of_true ?_ trivial
    simp only [heardAfter, deliver, step, setPitchWheel]
    split_ifs with hsame
    · exact h
    · rfl
  | setVelocity vel c => exact iff_of_true h trivial
  | setNoteGate note gate c =>
    refine iff_of_true (Eq.trans ?_ h) trivial
    simp only [heardAfter]
    split_ifs <;> rfl
  | setKeyPressure val c =>
    refine iff_of_true ?_ trivial
    simp only [heardAfter, deliver, step, setKeyPressure]
    split_ifs <;> exact h
  | setChannelPressure val =>
    refine iff_of_true ?_ trivial
    simp only [heardAfter, deliver, step, setChannelPressure]
    split_ifs <;> exact h
  | setCc cc id =>
    refine iff_of_true ?_ trivial
    simp only [heardAfter, deliver, step, setCc]
    split_ifs <;> exact h
  | setClock clk =>
    refine iff_of_true ?_ trivial
    simp only [heardAfter, deliver, step, setClock]
    split_ifs <;> exact h
  | setStart start =>
    refine iff_of_true ?_ trivial
    simp only [heardAfter, deliver, step, setStart]
    split_ifs <;> exact h
  | setContinue cont =>
    refine iff_of_true ?_ trivial
    simp only [heardAfter, deliver, step, setContinue]
    split_ifs <;> exact h
  | setStop stop =>
    refine iff_of_true ?_ trivial
    simp only [heardAfter, deliver, step, setStop]
    split_ifs <;> exact h

abbrev delivered (s : MidiGenerator channels × Receiver) (call : Call channels) :
    Option (MidiGenerator channels × Receiver) := some (deliver s call)

/-- After every run the receiver has each control value that the generator will not send
again, but no channel pressure, whatever was set. Its pitch wheel is right all along exactly
if the generator was never reset with the wheel off its centre. -/
theorem receiver_in_step (calls : List (Call channels)) :
    ((∀ id : Fin 128, (session calls).1.controlOf id ≠ -1 →
        (session calls).2.controls (UInt8.ofNat id) = some (dataByte ((session calls).1.controlOf id))) ∧
      (session calls).2.pressure = none) ∧
      (PartialRun.AllSteps delivered (fun _ _ t => PitchKnown t)
          (({}, {}) : MidiGenerator channels × Receiver) calls ↔
        PartialRun.Along delivered (fun s call => s.1.Centred call) ({}, {}) calls) := by
  constructor
  · have hknown : Known (session calls) := by
      refine List.foldlRecOn calls _ (known_reset {} rfl) fun s hs call _ => hs.deliver call
    exact ⟨hknown.control, hknown.pressure⟩
  · refine PartialRun.allSteps_iff_along (I := PitchKnown) (A := fun _ _ => True) ?_ ?_ ?_
      (PartialRun.along_of_forall _ (fun _ _ => trivial) _ _)
    · intro s call hs _
      refine Iff.trans ⟨?_, fun hh => ⟨_, rfl, hh⟩⟩ (pitchKnown_deliver_iff hs call)
      rintro ⟨t, ht, hh⟩
      exact Option.some.inj ht ▸ hh
    · exact fun _ _ _ _ _ _ hh => hh
    · show (0x2000 : UInt16) = (0x2000 : Int16).toUInt16 &&& 0x3FFF
      decide

end MidiGenerator

end Midi

end PluginSdk
