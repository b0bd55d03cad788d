import FlexLink.Proofs.Wire.Ids
import FlexLink.Proofs.Wire.Runs
import FlexLink.Wire.Datagram

/-! # The bytes of a datagram

Each of the two kinds of datagram is read back as what it was written from.  They are told apart by
their first bytes, so no datagram of packets is taken for a proposal. -/
set_option autoImplicit false
namespace FlexLink

theorem HalfWord.ofBytes_bytes (w : UInt16) :
    ofBytes (UInt8.ofNat (w.toNat / 0x100)) (UInt8.ofNat w.toNat) = w := by
  have := w.toNat_lt
  rw [← UInt16.toNat_inj, ofBytes]
  simp only [UInt16.toNat_ofNat', UInt8.toNat_ofNat']
  omega

namespace Packet

theorem length_bytes (p : Packet) : p.bytes.length = size := rfl

theorem ofBytes_bytes (p : Packet) : ofBytes? p.bytes = some p := by
  simp only [bytes, Word.bytes, List.cons_append, List.nil_append, ofBytes?, Word.ofBytes_bytes]

end Packet

/-- A list that is put together of pieces of one length is cut into those again. -/
theorem chunks_flatten {α : Type} {n : Nat} (positive : n ≠ 0) :
    ∀ pieces : List (List α), (∀ c ∈ pieces, c.length = n) → chunks n pieces.flatten = pieces := by
  intro pieces
  induction pieces with
  | nil =>
      intro _
      exact chunks_nil n
  | cons c cs ih =>
      intro lengths
      obtain ⟨here, others⟩ := List.forall_mem_cons.mp lengths
      have nonempty : c ++ cs.flatten ≠ [] := by
        intro nothing
        rw [(List.append_eq_nil_iff.mp nothing).1] at here
        exact positive here.symm
      rw [List.flatten_cons, chunks_of_ne_nil nonempty positive, ← here, List.take_left,
        List.drop_left, here, ih others]

theorem packets_of_bytes (packets : List Packet) :
    (chunks Packet.size (packets.flatMap Packet.bytes)).filterMap Packet.ofBytes? = packets := by
  have pieces : ∀ c ∈ packets.map Packet.bytes, c.length = Packet.size := by simp [Packet.length_bytes]
  have back : Packet.ofBytes? ∘ Packet.bytes = some := funext Packet.ofBytes_bytes
  rw [List.flatMap_def, chunks_flatten (by decide) _ pieces, List.filterMap_map, back,
    List.filterMap_some]

theorem length_packet_bytes (packets : List Packet) :
    (packets.flatMap Packet.bytes).length = Packet.size * packets.length := by
  induction packets with
  | nil => rfl
  | cons p ps ih =>
      rw [List.flatMap_cons, List.length_append, Packet.length_bytes, ih, List.length_cons,
        Nat.mul_succ, Nat.add_comm]

namespace DataHeader

theorem length_bytes (h : DataHeader) : h.bytes.length = headerSize := rfl

theorem decode_data (h : DataHeader) (packets : List Packet) :
    Datagram.decode (h.bytes ++ packets.flatMap Packet.bytes)
      = .ok (.data h.sequence h.source packets) := by
  have whole : ¬ (h.bytes ++ packets.flatMap Packet.bytes).length < headerSize := by
    rw [List.length_append, h.length_bytes]
    omega
  have payload : (h.bytes ++ packets.flatMap Packet.bytes).drop headerSize
      = packets.flatMap Packet.bytes := List.drop_left' h.length_bytes
  have even : (packets.flatMap Packet.bytes).length % Packet.size = 0 := by
    rw [length_packet_bytes, Nat.mul_mod_right]
  have kind : Negotiation.isNegotiation (h.bytes ++ packets.flatMap Packet.bytes) = false := rfl
  have opens : (h.bytes ++ packets.flatMap Packet.bytes).getD 0 0 = flags := rfl
  have sequence : HalfWord.ofBytes ((h.bytes ++ packets.flatMap Packet.bytes).getD 2 0)
      ((h.bytes ++ packets.flatMap Packet.bytes).getD 3 0) = h.sequence :=
    HalfWord.ofBytes_bytes h.sequence
  have source : Word.ofBytes ((h.bytes ++ packets.flatMap Packet.bytes).getD 8 0)
      ((h.bytes ++ packets.flatMap Packet.bytes).getD 9 0)
      ((h.bytes ++ packets.flatMap Packet.bytes).getD 10 0)
      ((h.bytes ++ packets.flatMap Packet.bytes).getD 11 0) = h.source :=
    Word.ofBytes_bytes h.source
  rw [Datagram.decode, kind, if_neg (by decide), if_neg whole]
  simp only [payload, packets_of_bytes, opens, even, sequence, source, ne_eq, not_true_eq_false,
    if_false]

end DataHeader

namespace Negotiation

theorem decode_bytes (m : Negotiation) : decode m.bytes = .ok m := by
  obtain ⟨version, id, group, channel⟩ := m
  have whole : (bytes ⟨version, id, group, channel⟩).length = size := by
    simp [bytes, EndpointId.toBytes, magic, size]
  have opens : (bytes ⟨version, id, group, channel⟩).take 2 = magic := rfl
  have named : ((bytes ⟨version, id, group, channel⟩).drop 3).take 16 = id.toBytes := by
    simp [bytes, EndpointId.toBytes, magic]
  rw [decode, if_neg (not_not_intro whole), if_neg (not_not_intro opens)]
  simp only [named, EndpointId.ofBytes_toBytes]
  simp [bytes, EndpointId.toBytes, magic]

theorem decode_negotiation (m : Negotiation) : Datagram.decode m.bytes = .ok (.negotiation m) := by
  have kind : isNegotiation m.bytes = true := rfl
  rw [Datagram.decode, if_pos kind, decode_bytes]

end Negotiation

namespace FrameEncoder

theorem decode_encode (e : FrameEncoder) (now : Nat) (frame : List Packet) :
    Datagram.decode (e.encode now frame).2 = .ok (.data e.sequence e.source frame) :=
  DataHeader.decode_data _ frame

theorem length_encode (e : FrameEncoder) (now : Nat) (frame : List Packet) :
    (e.encode now frame).2.length = headerSize + Packet.size * frame.length := by
  rw [encode, List.length_append, DataHeader.length_bytes, length_packet_bytes]

end FrameEncoder
end FlexLink
