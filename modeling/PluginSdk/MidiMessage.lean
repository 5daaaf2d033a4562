import PluginSdk.Framing

/-! `rack::midi::Message`: three bytes and a USB header. The number of bytes
that count is worked out from the first byte and the USB code. -/

namespace PluginSdk

namespace Midi

structure Message where
  bytes : Vector UInt8 3 := .replicate _ 0
  usbCable : BitVec 4 := 0
  usbCode : BitVec 4 := 0
  deriving DecidableEq

namespace Message

def getSize (m : Message) : Nat :=
  -- note on and off, key pressure, control change
  if m.bytes[0] &&& 0xF0 ≤ 0xB0 ∧ m.bytes[0] &&& 0xF0 ≥ 0x80 then 3
  -- program change
  else if m.bytes[0] &&& 0xF0 = 0xC0 then 1
  -- channel pressure
  else if m.bytes[0] &&& 0xF0 = 0xD0 then 1
  -- pitch bend
  else if m.bytes[0] &&& 0xF0 = 0xE0 then 3
  -- system exclusive payload
  else if m.bytes[0] &&& 0x80 = 0 ∧ m.usbCode = 4 then 3
  else if m.bytes[0] &&& 0x80 = 0 ∧ m.usbCode = 5 then 1
  else if m.bytes[0] &&& 0x80 = 0 ∧ m.usbCode = 6 then 2
  else if m.bytes[0] &&& 0x80 = 0 ∧ m.usbCode = 7 then 3
  -- start of a system exclusive message
  else if m.bytes[0] = 0xF0 then
    if m.usbCode = 5 then 1 else if m.usbCode = 6 then 2 else 3
  -- time code, song select
  else if m.bytes[0] = 0xF1 ∨ m.bytes[0] = 0xF3 then 2
  -- tune request, end of a system exclusive message
  else if m.bytes[0] = 0xF6 ∨ m.bytes[0] = 0xF7 then 1
  -- real time
  else if m.bytes[0] ≥ 0xF8 then 1
  else 3

def setSize (m : Message) (_size : Nat) : Message := m

def getChannel (m : Message) : UInt8 := m.bytes[0] &&& 0xF

def setChannel (m : Message) (channel : UInt8) : Message :=
  { m with bytes := m.bytes.set 0 ((m.bytes[0] &&& 0xF0) ||| (channel &&& 0xF)) }

def getStatus (m : Message) : UInt8 := m.bytes[0] >>> 4

def setStatus (m : Message) (status : UInt8) : Message :=
  { m with bytes := m.bytes.set 0 ((m.bytes[0] &&& (0xF : UInt8)) ||| (status <<< 4)) }

def getNote (m : Message) : UInt8 := m.bytes[1]

def setNote (m : Message) (note : UInt8) : Message :=
  { m with bytes := m.bytes.set 1 (note &&& 0x7F) }

def getValue (m : Message) : UInt8 := m.bytes[2]

def setValue (m : Message) (value : UInt8) : Message :=
  { m with bytes := m.bytes.set 2 (value &&& 0x7F) }

def wire (m : Message) : List UInt8 := m.bytes.toList.take m.getSize

theorem forall_byte {p : UInt8 → Prop} (h : ∀ n < 256, p (UInt8.ofNat n)) (b : UInt8) : p b := by
  have hb := h b.toNat b.toNat_lt
  rwa [UInt8.ofNat_toNat] at hb

theorem mask_eq_shift (b : UInt8) : b &&& (0xF0 : UInt8) = (b >>> 4) <<< 4 := by
  revert b
  refine forall_byte ?_
  decide +kernel

theorem toList_bytes (m : Message) : m.bytes.toList = [m.bytes[0], m.bytes[1], m.bytes[2]] := by
  obtain ⟨⟨⟨bytes⟩, hsize⟩, _, _⟩ := m
  match bytes, hsize with
  | [_, _, _], _ => rfl

@[simp] theorem setNote_first (m : Message) (note : UInt8) :
    (m.setNote note).bytes[0] = m.bytes[0] := by
  simp [setNote]

@[simp] theorem setValue_first (m : Message) (value : UInt8) :
    (m.setValue value).bytes[0] = m.bytes[0] := by
  simp [setValue]

theorem getSize_congr {m m' : Message} (hbyte : m.bytes[0] = m'.bytes[0])
    (hcode : m.usbCode = m'.usbCode) : m.getSize = m'.getSize := by
  unfold getSize
  rw [hbyte, hcode]

theorem getSize_of_first {m : Message} (first : UInt8) (code : BitVec 4)
    (hfirst : m.bytes[0] = first) (hcode : m.usbCode = code) :
    m.getSize = ({ bytes := #v[first, 0, 0], usbCode := code } : Message).getSize :=
  getSize_congr hfirst hcode

theorem ite_size {c : Prop} [Decidable c] {a b : Nat} (ha : 1 ≤ a ∧ a ≤ 3) (hb : 1 ≤ b ∧ b ≤ 3) :
    1 ≤ (if c then a else b) ∧ (if c then a else b) ≤ 3 := by
  split_ifs
  · exact ha
  · exact hb

theorem getSize_bounds (m : Message) : 1 ≤ m.getSize ∧ m.getSize ≤ 3 := by
  unfold getSize
  repeat' first | decide | apply ite_size

theorem length_wire (m : Message) : m.wire.length = m.getSize := by
  have hle := m.getSize_bounds.2
  rw [wire, toList_bytes, List.length_take]
  simp only [List.length_cons, List.length_nil]
  omega

theorem wire_ne_nil (m : Message) : m.wire ≠ [] := by
  have hpos := m.getSize_bounds.1
  rw [← List.length_pos_iff, length_wire]
  omega

theorem wire_of_getSize {m : Message} (h : m.getSize = 3) :
    m.wire = [m.bytes[0], m.bytes[1], m.bytes[2]] := by
  rw [wire, toList_bytes, h]
  rfl

theorem getSize_of_status {m : Message} (hlo : 0x8 ≤ m.getStatus) (hhi : m.getStatus ≤ 0xE) :
    m.getSize = if m.getStatus = 0xC ∨ m.getStatus = 0xD then 1 else 3 := by
  have hm : m.bytes[0] &&& (0xF0 : UInt8) = m.getStatus <<< 4 := mask_eq_shift m.bytes[0]
  unfold getSize
  rw [hm]
  generalize m.getStatus = status at hlo hhi
  have hcases : status = 0x8 ∨ status = 0x9 ∨ status = 0xA ∨ status = 0xB ∨ status = 0xC ∨
      status = 0xD ∨ status = 0xE := by grind
  rcases hcases with rfl | rfl | rfl | rfl | rfl | rfl | rfl <;> rfl

theorem masks_of_low (b : UInt8) : b < 0x80 → b &&& 0xF0 < 0x80 ∧ b &&& 0x80 = 0 := by
  revert b
  refine forall_byte ?_
  decide +kernel

theorem getSize_of_payload {m : Message} (h : m.bytes[0] < 0x80) :
    m.getSize = if m.usbCode = 5 then 1 else if m.usbCode = 6 then 2 else 3 := by
  obtain ⟨hlow, hzero⟩ := masks_of_low m.bytes[0] h
  have hmask : ∀ c : UInt8, 0x80 ≤ c → m.bytes[0] &&& 0xF0 ≠ c := by
    intro c hc he
    grind
  have hbyte : ∀ c : UInt8, 0x80 ≤ c → m.bytes[0] ≠ c := by
    intro c hc he
    grind
  have hchannel : ¬ (m.bytes[0] &&& 0xF0 ≤ 0xB0 ∧ m.bytes[0] &&& 0xF0 ≥ 0x80) := by grind
  have hreal : ¬ m.bytes[0] ≥ 0xF8 := by grind
  have hC := hmask 0xC0 (by decide)
  have hD := hmask 0xD0 (by decide)
  have hE := hmask 0xE0 (by decide)
  have hF0 := hbyte 0xF0 (by decide)
  have hF1 := hbyte 0xF1 (by decide)
  have hF3 := hbyte 0xF3 (by decide)
  have hF6 := hbyte 0xF6 (by decide)
  have hF7 := hbyte 0xF7 (by decide)
  rw [getSize, if_neg hchannel, if_neg hC, if_neg hD, if_neg hE]
  simp only [hzero, hF0, hF1, hF3, hF6, hF7, hreal, true_and, or_self, if_false]
  generalize m.usbCode = code
  by_cases h4 : code = 4
  · subst h4
    rfl
  · rw [if_neg h4, ite_self]

end Message

end Midi

end PluginSdk
