import FlexLink.Transport.Inbox
import FlexLink.Wire.Frame

/-! # Packets and their frames

Framing cuts a list of packets and changes nothing else: the frames that leave, and then what
waits, are the packets in their order. -/
set_option autoImplicit false
namespace FlexLink

theorem validMtu_of_le {mtu : Nat} (valid : minMtu ≤ mtu ∧ mtu ≤ maxMtu) : validMtu mtu = .ok mtu := by
  rw [validMtu, if_pos valid]

namespace FramePacker

theorem flatten_push (p : FramePacker) (packet : Packet) :
    (p.push packet).2.toList.flatten ++ (p.push packet).1.pending = p.pending ++ [packet] := by
  by_cases full : p.count = p.capacity
  · rw [push, if_pos full]
    simp [pending]
  · rw [push, if_neg full]
    simp [pending]

theorem flatten_pushAll (p : FramePacker) (packets : List Packet) :
    (p.pushAll packets).2.flatten ++ (p.pushAll packets).1.pending = p.pending ++ packets := by
  induction packets generalizing p with
  | nil => rw [List.append_nil]; rfl
  | cons packet rest ih =>
      have more := ih (p.push packet).1
      have step : p.pushAll (packet :: rest)
          = (((p.push packet).1.pushAll rest).1,
              (p.push packet).2.toList ++ ((p.push packet).1.pushAll rest).2) := rfl
      rw [step, List.flatten_append, List.append_assoc, more, ← List.append_assoc, flatten_push,
        List.append_assoc]
      rfl

theorem flatten_flush (p : FramePacker) : p.flush.2.toList.flatten = p.pending := by
  rw [flush]
  split
  · next none => rw [pending, List.isEmpty_iff.mp none]; rfl
  · simp

theorem flatten_packAll (p : FramePacker) (packets : List Packet) :
    (p.packAll packets).flatten = p.pending ++ packets := by
  rw [packAll, List.flatten_append, flatten_flush, flatten_pushAll]

/-- Under a valid limit every list of packets finds its frames. -/
theorem pack_valid {mtu : Nat} (valid : minMtu ≤ mtu ∧ mtu ≤ maxMtu) (packets : List Packet) :
    ∃ frames, pack mtu packets = .ok frames ∧ frames.flatten = packets := by
  rw [pack, new, frameCapacity, validMtu_of_le valid]
  exact ⟨_, rfl, flatten_packAll _ packets⟩

/-! ## Room -/

structure Fits (p : FramePacker) : Prop where
  counted : p.count = p.waiting.length
  room : p.count ≤ p.capacity
  positive : 0 < p.capacity

theorem Fits.length_pending {p : FramePacker} (fits : p.Fits) : p.pending.length ≤ p.capacity := by
  rw [pending, List.length_reverse, ← fits.counted]
  exact fits.room

theorem Fits.push {p : FramePacker} (fits : p.Fits) (packet : Packet) :
    (p.push packet).1.Fits ∧ (p.push packet).1.capacity = p.capacity ∧
      ∀ frame ∈ (p.push packet).2, frame.length ≤ p.capacity := by
  obtain ⟨counted, room, positive⟩ := fits
  by_cases full : p.count = p.capacity
  · rw [FramePacker.push, if_pos full]
    refine ⟨⟨rfl, positive, positive⟩, rfl, ?_⟩
    rintro frame ⟨⟩
    exact Fits.length_pending ⟨counted, room, positive⟩
  · rw [FramePacker.push, if_neg full]
    refine ⟨⟨congrArg Nat.succ counted, ?_, positive⟩, rfl, ?_⟩
    · show p.count + 1 ≤ p.capacity
      omega
    · rintro frame ⟨⟩

theorem Fits.pushAll {p : FramePacker} (fits : p.Fits) (packets : List Packet) :
    (p.pushAll packets).1.Fits ∧ (p.pushAll packets).1.capacity = p.capacity ∧
      ∀ frame ∈ (p.pushAll packets).2, frame.length ≤ p.capacity := by
  induction packets generalizing p with
  | nil => exact ⟨fits, rfl, fun frame none => absurd none List.not_mem_nil⟩
  | cons packet rest ih =>
      obtain ⟨next, same, first⟩ := fits.push packet
      obtain ⟨last, capacity, frames⟩ := ih next
      refine ⟨last, capacity.trans same, ?_⟩
      intro frame member
      rcases List.mem_append.mp member with here | later
      · exact first frame (Option.mem_toList.mp here)
      · rw [← same]
        exact frames frame later

theorem Fits.packAll {p : FramePacker} (fits : p.Fits) (packets : List Packet) :
    ∀ frame ∈ p.packAll packets, frame.length ≤ p.capacity := by
  obtain ⟨last, capacity, frames⟩ := fits.pushAll packets
  intro frame member
  rcases List.mem_append.mp member with early | final
  · exact frames frame early
  · rw [flush] at final
    split at final
    · cases final
    · rw [List.mem_singleton.mp final, ← capacity]
      exact last.length_pending

/-- A frame and its header are no longer than the limit. -/
theorem length_le_of_mem_pack {mtu : Nat} {packets : List Packet} {frames : List Batch}
    (packed : pack mtu packets = .ok frames) :
    ∀ frame ∈ frames, headerSize + Packet.size * frame.length ≤ mtu := by
  by_cases valid : minMtu ≤ mtu ∧ mtu ≤ maxMtu
  · rw [pack, new, frameCapacity, validMtu_of_le valid] at packed
    have least : headerSize + Packet.size ≤ mtu := valid.1
    simp only [headerSize, Packet.size] at least ⊢
    have fresh : Fits { capacity := (mtu - headerSize) / Packet.size } := by
      refine ⟨rfl, Nat.zero_le _, ?_⟩
      simp only [headerSize, Packet.size]
      omega
    intro frame member
    rw [← Except.ok.inj packed] at member
    have short := fresh.packAll packets frame member
    simp only [headerSize, Packet.size] at short
    omega
  · rw [pack, new, frameCapacity, validMtu, if_neg valid] at packed
    cases packed

/-! ## Several calls -/

/-- The frames of several calls in order; no frame holds packets of two calls. -/
def packCalls (mtu : Nat) (calls : List (List Packet)) : Except TransportError (List Batch) :=
  List.flatten <$> calls.mapM (pack mtu)

theorem packCalls_cons {mtu : Nat} {call : List Packet} {calls : List (List Packet)}
    {first rest : List Batch} (one : pack mtu call = .ok first)
    (others : packCalls mtu calls = .ok rest) :
    packCalls mtu (call :: calls) = .ok (first ++ rest) := by
  rw [packCalls] at others
  cases more : calls.mapM (pack mtu) with
  | error e => rw [more] at others; cases others
  | ok frames =>
      rw [more] at others
      rw [packCalls, List.mapM_cons, one, more, ← Except.ok.inj others]
      rfl

theorem packCalls_valid {mtu : Nat} (valid : minMtu ≤ mtu ∧ mtu ≤ maxMtu)
    (calls : List (List Packet)) :
    ∃ frames, packCalls mtu calls = .ok frames ∧ frames.flatten = calls.flatten := by
  induction calls with
  | nil => exact ⟨[], rfl, rfl⟩
  | cons call calls ih =>
      obtain ⟨first, one, packets⟩ := pack_valid valid call
      obtain ⟨rest, others, more⟩ := ih
      refine ⟨first ++ rest, packCalls_cons one others, ?_⟩
      rw [List.flatten_append, packets, more, List.flatten_cons]

theorem length_le_of_mem_packCalls {mtu : Nat} (valid : minMtu ≤ mtu ∧ mtu ≤ maxMtu)
    {calls : List (List Packet)} {frames : List Batch} (packed : packCalls mtu calls = .ok frames) :
    ∀ frame ∈ frames, headerSize + Packet.size * frame.length ≤ mtu := by
  induction calls generalizing frames with
  | nil =>
      cases packed
      exact fun frame none => absurd none List.not_mem_nil
  | cons call calls ih =>
      obtain ⟨first, one, -⟩ := pack_valid valid call
      obtain ⟨rest, others, -⟩ := packCalls_valid valid calls
      rw [packCalls_cons one others] at packed
      rw [← Except.ok.inj packed]
      intro frame member
      rcases List.mem_append.mp member with here | later
      · exact length_le_of_mem_pack one frame here
      · exact ih others frame later

end FramePacker
end FlexLink
