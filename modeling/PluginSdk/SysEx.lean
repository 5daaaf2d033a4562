import PluginSdk.MidiMessage

/-! System exclusive messages in USB packets. The code of a packet says whether
it is the last one and how many of its bytes count; on a serial wire the size
is worked out again from the first byte. -/

namespace PluginSdk

namespace Midi

namespace Message

def startSysEx (m : Message) (payload0 payload1 : UInt8) : Message :=
  { m with usbCode := 0x4, bytes := #v[0xF0, payload0, payload1] }

def continueSysEx (m : Message) (payload0 payload1 payload2 : UInt8) : Message :=
  { m with usbCode := 0x4, bytes := #v[payload0, payload1, payload2] }

def endSysEx (m : Message) : Message := { m with usbCode := 0x5, bytes := #v[0xF7, 0x00, 0x00] }

def endSysEx₁ (m : Message) (payload0 : UInt8) : Message :=
  { m with usbCode := 0x6, bytes := #v[payload0, 0xF7, 0x00] }

def endSysEx₂ (m : Message) (payload0 payload1 : UInt8) : Message :=
  { m with usbCode := 0x7, bytes := #v[payload0, payload1, 0xF7] }

def sysExNoPayload (m : Message) : Message :=
  { m with usbCode := 0x6, bytes := #v[0xF0, 0xF7, 0x00] }

def sysExSingleByte (m : Message) (payload : UInt8) : Message :=
  { m with usbCode := 0x7, bytes := #v[0xF0, payload, 0xF7] }

end Message

namespace SysEx

def continuation (m : Message) : List UInt8 → List Message
  | [] => [m.endSysEx]
  | [b] => [m.endSysEx₁ b]
  | [b, c] => [m.endSysEx₂ b c]
  | b :: c :: d :: rest =>
    m.continueSysEx b c d :: continuation (m.continueSysEx b c d) rest

def packetise (m : Message) : List UInt8 → List Message
  | [] => [m.sysExNoPayload]
  | [b] => [m.sysExSingleByte b]
  | b :: c :: rest => m.startSysEx b c :: continuation (m.startSysEx b c) rest

def framed (payload : List UInt8) : List UInt8 := 0xF0 :: payload ++ [0xF7]

structure IsOpen (m : Message) : Prop where
  code : m.usbCode = 0x4
  size : m.getSize = 3

structure IsFinal (m : Message) : Prop where
  lo : 0x5 ≤ m.usbCode.toNat
  hi : m.usbCode.toNat ≤ 0x7
  size : m.getSize = m.usbCode.toNat - 0x4

/-- Packets of one message that carry `bytes`: all but the last are open. -/
def Carries (packets : List Message) (bytes : List UInt8) : Prop :=
  ∃ init last, packets = init ++ [last] ∧ (∀ m ∈ init, IsOpen m) ∧ IsFinal last ∧
    packets.flatMap (·.wire) = bytes

theorem carries_final {m : Message} {bytes : List UInt8} (code : BitVec 4)
    (hcode : m.usbCode = code) (hlo : 0x5 ≤ code.toNat) (hhi : code.toNat ≤ 0x7)
    (hsize : m.getSize = code.toNat - 0x4) (hbytes : m.bytes.toList.take (code.toNat - 0x4) = bytes) :
    Carries [m] bytes := by
  subst hcode
  refine ⟨[], m, rfl, by simp, ⟨hlo, hhi, hsize⟩, ?_⟩
  rw [List.flatMap_singleton, Message.wire, hsize, hbytes]

theorem Carries.cons {m : Message} {packets : List Message} {bytes : List UInt8}
    (hcode : m.usbCode = 0x4) (hsize : m.getSize = 3) (h : Carries packets bytes) :
    Carries (m :: packets) (m.bytes.toList ++ bytes) := by
  obtain ⟨init, last, rfl, hinit, hlast, hbytes⟩ := h
  refine ⟨m :: init, last, rfl, List.forall_mem_cons.mpr ⟨⟨hcode, hsize⟩, hinit⟩, hlast, ?_⟩
  rw [List.flatMap_cons, hbytes, Message.wire_of_getSize hsize, Message.toList_bytes]

/-- Payload bytes are below `0x80`, so a packet that starts with one has the
size its code says. -/
theorem continuation_carries (m : Message) {payload : List UInt8} (h : ∀ b ∈ payload, b < 0x80) :
    Carries (continuation m payload) (payload ++ [0xF7]) := by
  induction m, payload using continuation.induct with
  | case1 m =>
    have hsize : m.endSysEx.getSize = 1 := Message.getSize_of_first 0xF7 0x5 rfl rfl
    exact carries_final 0x5 rfl (by decide) (by decide) hsize rfl
  | case2 m b =>
    have hb : b < 0x80 := h b (by simp)
    have hsize : (m.endSysEx₁ b).getSize = 2 := Message.getSize_of_payload hb
    exact carries_final 0x6 rfl (by decide) (by decide) hsize rfl
  | case3 m b c =>
    have hb : b < 0x80 := h b (by simp)
    have hsize : (m.endSysEx₂ b c).getSize = 3 := Message.getSize_of_payload hb
    exact carries_final 0x7 rfl (by decide) (by decide) hsize rfl
  | case4 m b c d rest ih =>
    have hb : b < 0x80 := h b (by simp)
    have hsize : (m.continueSysEx b c d).getSize = 3 := Message.getSize_of_payload hb
    exact Carries.cons rfl hsize (ih fun x hx => h x (by simp [hx]))

theorem packetise_carries (m : Message) {payload : List UInt8} (h : ∀ b ∈ payload, b < 0x80) :
    Carries (packetise m payload) (framed payload) := by
  match payload with
  | [] =>
    have hsize : m.sysExNoPayload.getSize = 2 := Message.getSize_of_first 0xF0 0x6 rfl rfl
    exact carries_final 0x6 rfl (by decide) (by decide) hsize rfl
  | [b] =>
    have hsize : (m.sysExSingleByte b).getSize = 3 := Message.getSize_of_first 0xF0 0x7 rfl rfl
    exact carries_final 0x7 rfl (by decide) (by decide) hsize rfl
  | b :: c :: rest =>
    have hrest : ∀ x ∈ rest, x < 0x80 := fun x hx => h x (by simp [hx])
    have hsize : (m.startSysEx b c).getSize = 3 := Message.getSize_of_first 0xF0 0x4 rfl rfl
    exact Carries.cons rfl hsize (continuation_carries (m.startSysEx b c) hrest)

def usbBytes (m : Message) : List UInt8 :=
  m.bytes.toList.take (if m.usbCode = 0x4 then 3 else m.usbCode.toNat - 0x4)

/-- A receiver that looks only at USB codes: the messages of a packet stream. -/
def receive (packets : List Message) : List (List UInt8) :=
  (Framing.groups (·.usbCode != 0x4) packets).map (·.flatMap usbBytes)

theorem IsOpen.usbBytes_eq {m : Message} (h : IsOpen m) : usbBytes m = m.wire := by
  rw [usbBytes, if_pos h.code, Message.wire, h.size]

theorem IsFinal.code_ne {m : Message} (h : IsFinal m) : m.usbCode ≠ 0x4 := by
  intro hc
  have hlo := h.lo
  rw [hc] at hlo
  exact absurd hlo (by decide)

theorem IsFinal.usbBytes_eq {m : Message} (h : IsFinal m) : usbBytes m = m.wire := by
  rw [usbBytes, if_neg h.code_ne, Message.wire, h.size]

theorem receive_carries {packets : List Message} {bytes : List UInt8} (h : Carries packets bytes)
    (later : List Message) : receive (packets ++ later) = bytes :: receive later := by
  obtain ⟨init, last, rfl, hinit, hlast, rfl⟩ := h
  have hopen : ∀ m ∈ init, (m.usbCode != 0x4) = false := by
    intro m hm
    simp [(hinit m hm).code]
  have hfinal : (last.usbCode != 0x4) = true := bne_iff_ne.mpr hlast.code_ne
  have hbytes : (init ++ [last]).flatMap usbBytes = (init ++ [last]).flatMap (·.wire) := by
    refine List.flatMap_congr fun m hm => ?_
    rcases List.mem_append.mp hm with hm | hm
    · exact (hinit m hm).usbBytes_eq
    · obtain rfl := List.mem_singleton.mp hm
      exact hlast.usbBytes_eq
  rw [receive, List.append_assoc, List.singleton_append, Framing.groups_append hopen hfinal,
    List.map_cons, hbytes]
  rfl

/-- Both receivers get the payload back, and the USB one its boundary, from
any prior contents of the message object and whatever packets come later. -/
theorem packetise_round_trip (m : Message) {payload : List UInt8} (h : ∀ b ∈ payload, b < 0x80) :
    (packetise m payload).flatMap (·.wire) = 0xF0 :: payload ++ [0xF7] ∧
    (∃ init last, packetise m payload = init ++ [last] ∧
      (∀ p ∈ init, p.usbCode = 0x4 ∧ p.getSize = 3) ∧
      0x5 ≤ last.usbCode.toNat ∧ last.usbCode.toNat ≤ 0x7 ∧
      last.getSize = last.usbCode.toNat - 0x4) ∧
    ∀ later, receive (packetise m payload ++ later) =
      (0xF0 :: payload ++ [0xF7]) :: receive later := by
  have hcarries := packetise_carries m h
  obtain ⟨init, last, hp, hinit, hlast, hbytes⟩ := packetise_carries m h
  refine ⟨hbytes, ⟨init, last, hp, ?_, hlast.lo, hlast.hi, hlast.size⟩, receive_carries hcarries⟩
  intro p hmem
  exact ⟨(hinit p hmem).code, (hinit p hmem).size⟩

theorem packetise_round_trip_sample :
    receive (packetise { bytes := #v[0x90, 1, 2], usbCode := 0x9 } [4, 5, 6, 7, 8]) =
      [[0xF0, 4, 5, 6, 7, 8, 0xF7]] := by
  have hlow : ∀ b ∈ ([4, 5, 6, 7, 8] : List UInt8), b < 0x80 := by simp
  have hrest := (packetise_round_trip { bytes := #v[0x90, 1, 2], usbCode := 0x9 } hlow).2.2 []
  rw [List.append_nil] at hrest
  exact hrest

end SysEx

end Midi

end PluginSdk
