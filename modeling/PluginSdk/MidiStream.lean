import PluginSdk.MidiMessage

/-! Channel messages on a serial wire. A receiver knows the length of a message
from its status alone, so it stays in step with the sender only if the sender
writes that many bytes. -/

namespace PluginSdk

namespace Midi

structure ChannelMessage where
  status : UInt8
  channel : UInt8
  data : List UInt8
  deriving DecidableEq

/-- How many data bytes the MIDI standard gives a channel message. -/
def dataLength (status : UInt8) : Nat := if status = 0xC ∨ status = 0xD then 1 else 2

namespace ChannelMessage

def size (m : ChannelMessage) : Nat := 1 + m.data.length

/-- Reads one message; `none` if the stream starts with anything else. -/
def next : List UInt8 → Option (ChannelMessage × List UInt8)
  | [] => none
  | first :: rest =>
    let status := first >>> 4
    let n := dataLength status
    if 0x8 ≤ status ∧ status ≤ 0xE ∧ n ≤ rest.length ∧ ∀ b ∈ rest.take n, b < 0x80 then
      some (⟨status, first &&& 0xF, rest.take n⟩, rest.drop n)
    else none

theorem next_two_bytes {first b c : UInt8} (hlo : (0x8 : UInt8) ≤ first >>> 4)
    (hhi : first >>> 4 ≤ (0xE : UInt8)) (hn : dataLength (first >>> 4) = 2) (hb : b < 0x80)
    (hc : c < 0x80) (rest : List UInt8) :
    next (first :: b :: c :: rest) = some (⟨first >>> 4, first &&& 0xF, [b, c]⟩, rest) := by
  simp [next, hlo, hhi, hn, hb, hc]

theorem length_of_next {bs rest : List UInt8} {m : ChannelMessage} (h : next bs = some (m, rest)) :
    bs.length = m.size + rest.length := by
  cases bs with
  | nil => simp [next] at h
  | cons first bs =>
    simp only [next, Option.ite_none_right_eq_some, Option.some.injEq, Prod.mk.injEq] at h
    obtain ⟨⟨_, _, hn, _⟩, rfl, rfl⟩ := h
    simp only [size, List.length_cons, List.length_take, List.length_drop]
    omega

end ChannelMessage

/-- A status of a channel message, and data bytes without the top bit. -/
def Message.IsChannelVoice (m : Message) : Prop :=
  0x8 ≤ m.getStatus ∧ m.getStatus ≤ 0xE ∧ m.getNote < 0x80 ∧ m.getValue < 0x80

abbrev ChannelVoice := {m : Message // m.IsChannelVoice}

namespace ChannelVoice

def toChannelMessage (m : ChannelVoice) : ChannelMessage :=
  ⟨m.1.getStatus, m.1.getChannel, [m.1.getNote, m.1.getValue].take (dataLength m.1.getStatus)⟩

def OneDataByte (m : ChannelVoice) : Prop := m.1.getStatus = 0xC ∨ m.1.getStatus = 0xD

theorem length_wire_le (m : ChannelVoice) : m.1.wire.length ≤ m.toChannelMessage.size := by
  rw [Message.length_wire, Message.getSize_of_status m.2.1 m.2.2.1, ChannelMessage.size,
    toChannelMessage, dataLength]
  split_ifs <;> simp

theorem length_wire_eq_iff (m : ChannelVoice) :
    m.1.wire.length = m.toChannelMessage.size ↔ ¬ m.OneDataByte := by
  rw [Message.length_wire, Message.getSize_of_status m.2.1 m.2.2.1, ChannelMessage.size,
    toChannelMessage, dataLength, OneDataByte]
  split_ifs with h
  · simp [h]
  · simp [h]

theorem next_wire (m : ChannelVoice) (h : ¬ m.OneDataByte) (rest : List UInt8) :
    ChannelMessage.next (m.1.wire ++ rest) = some (m.toChannelMessage, rest) := by
  obtain ⟨hlo, hhi, h1, h2⟩ := m.2
  have hn : dataLength m.1.getStatus = 2 := if_neg h
  have hsize : m.1.getSize = 3 := (Message.getSize_of_status hlo hhi).trans (if_neg h)
  rw [Message.wire_of_getSize hsize, toChannelMessage, hn]
  exact ChannelMessage.next_two_bytes hlo hhi hn h1 h2 rest

def stream (ms : List ChannelVoice) : List UInt8 := ms.flatMap (·.1.wire)

theorem parse_stream_iff (ms : List ChannelVoice) :
    Framing.parse ChannelMessage.next (stream ms) = some (ms.map toChannelMessage) ↔
      ∀ m ∈ ms, ¬ m.OneDataByte := by
  rw [stream, Framing.parse_flatMap_iff ChannelMessage.size
    (fun bs m rest h => ChannelMessage.length_of_next h) (fun m _ => m.1.wire_ne_nil)
    (fun m _ => m.length_wire_le)
    fun m _ h rest => m.next_wire (m.length_wire_eq_iff.mp h) rest]
  exact forall₂_congr fun m _ => m.length_wire_eq_iff

end ChannelVoice

end Midi

end PluginSdk
