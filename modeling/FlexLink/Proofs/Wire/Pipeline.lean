import FlexLink.Proofs.Wire.Datagrams
import FlexLink.Proofs.Wire.Framing
import FlexLink.Proofs.Wire.Position

/-! # Texts in datagrams

From texts to packets, frames and numbered datagrams, and back.  Where frames cut the runs does not
matter to an assembler, since a datagram gives it the packets of its frame and nothing else. -/
set_option autoImplicit false
namespace FlexLink

namespace FrameEncoder

/-- The datagrams of frames, the `k`-th one stamped at time `clock k`. -/
def encodeAll (e : FrameEncoder) (clock : Nat → Nat) : List Batch → List (List UInt8)
  | [] => []
  | frame :: rest =>
    (e.encode (clock 0) frame).2 :: (e.encode (clock 0) frame).1.encodeAll (fun k => clock (k + 1)) rest

theorem getElem?_encodeAll (source : UInt32) (epoch : Nat) :
    ∀ (frames : List Batch) (clock : Nat → Nat) (n k : Nat),
      (encodeAll ⟨UInt16.ofNat n, source, epoch⟩ clock frames)[k]?
        = frames[k]?.map fun frame =>
            (encode ⟨UInt16.ofNat (n + k), source, epoch⟩ (clock k) frame).2 := by
  intro frames
  induction frames with
  | nil =>
      intro clock n k
      rfl
  | cons frame rest ih =>
      intro clock n k
      have next : UInt16.ofNat n + 1 = UInt16.ofNat (n + 1) := (UInt16.ofNat_add n 1).symm
      cases k with
      | zero => rfl
      | succ k =>
          have later := ih (fun k => clock (k + 1)) (n + 1) k
          rw [Nat.add_right_comm] at later
          simp only [encodeAll, encode, next, List.getElem?_cons_succ]
          exact later

theorem length_encodeAll (frames : List Batch) :
    ∀ (e : FrameEncoder) (clock : Nat → Nat), (e.encodeAll clock frames).length = frames.length := by
  induction frames with
  | nil =>
      intro e clock
      rfl
  | cons frame rest ih =>
      intro e clock
      simp only [encodeAll, List.length_cons, ih]

theorem mem_encodeAll {clock : Nat → Nat} {frames : List Batch} {data : List UInt8} (e : FrameEncoder)
    (member : data ∈ e.encodeAll clock frames) :
    ∃ frame ∈ frames, data.length = headerSize + Packet.size * frame.length := by
  induction frames generalizing e clock with
  | nil => cases member
  | cons frame rest ih =>
      rcases List.mem_cons.mp member with rfl | later
      · exact ⟨frame, List.mem_cons_self, e.length_encode _ frame⟩
      · obtain ⟨other, inside, length⟩ := ih _ later
        exact ⟨other, List.mem_cons_of_mem _ inside, length⟩

end FrameEncoder

namespace Assembler

/-- Takes in the packets of a datagram.  One that holds none, or cannot be read, is passed over. -/
def onDatagram (a : Assembler) (data : List UInt8) :
    Assembler × List (Except RunError (List UInt8)) :=
  match Datagram.decode data with
  | .ok (.data _ _ packets) => a.pushAll packets
  | _ => (a, [])

def onDatagrams (a : Assembler) :
    List (List UInt8) → Assembler × List (Except RunError (List UInt8))
  | [] => (a, [])
  | data :: rest =>
    (((a.onDatagram data).1.onDatagrams rest).1,
      (a.onDatagram data).2 ++ ((a.onDatagram data).1.onDatagrams rest).2)

theorem onDatagrams_encodeAll (frames : List Batch) :
    ∀ (a : Assembler) (e : FrameEncoder) (clock : Nat → Nat),
      a.onDatagrams (e.encodeAll clock frames) = a.pushAll frames.flatten := by
  induction frames with
  | nil =>
      intro a e clock
      rfl
  | cons frame rest ih =>
      intro a e clock
      have here : a.onDatagram (e.encode (clock 0) frame).2 = a.pushAll frame := by
        rw [onDatagram, FrameEncoder.decode_encode]
      rw [FrameEncoder.encodeAll, onDatagrams, here, ih, List.flatten_cons, pushAll_append]

/-- The runs of many texts, for an assembler that has no run open. -/
theorem pushAll_packAll {a : Assembler} (idle : a.opened = none) :
    ∀ messages : List (Lane × List UInt8), (∀ m ∈ messages, (0 : UInt8) ∉ m.2) →
      a.pushAll (Lane.packAll messages) = (a, messages.map fun m => .ok m.2) := by
  intro messages
  induction messages with
  | nil =>
      intro _
      rfl
  | cons m messages ih =>
      intro free
      obtain ⟨here, others⟩ := List.forall_mem_cons.mp free
      rw [Lane.packAll_cons, pushAll_append, pushAll_pack_idle idle m.1 here, ih others]
      rfl

end Assembler

/-- Texts without zero bytes reach the other side.  However they are grouped into calls and wherever
the limit cuts their runs, the datagrams give an assembler exactly the texts in their order and leave
no run open or given up; none is longer than the limit, and the `k`-th one holds the `k`-th frame under
the number `k` modulo 65536. -/
theorem texts_through_datagrams {mtu : Nat} (valid : minMtu ≤ mtu ∧ mtu ≤ maxMtu)
    (sends : List (List (Lane × List UInt8)))
    (free : ∀ send ∈ sends, ∀ m ∈ send, (0 : UInt8) ∉ m.2)
    (source : UInt32) (epoch : Nat) (clock : Nat → Nat) :
    ∃ frames, FramePacker.packCalls mtu (sends.map Lane.packAll) = .ok frames ∧
      let datagrams := (FrameEncoder.new source epoch).encodeAll clock frames
      let received := Assembler.onDatagrams {} datagrams
      received.2 = sends.flatten.map (fun m => .ok m.2) ∧
      received.1.isIdle = true ∧ received.1.interrupted = 0 ∧
      (∀ data ∈ datagrams, data.length ≤ mtu) ∧
      datagrams.length = frames.length ∧
      ∀ (k : Nat) (data : List UInt8), datagrams[k]? = some data →
        ∃ sequence frame, Datagram.decode data = .ok (.data sequence source frame) ∧
          frames[k]? = some frame ∧ sequence.toNat = k % 65536 := by
  obtain ⟨frames, packed, packets⟩ := FramePacker.packCalls_valid valid (sends.map Lane.packAll)
  refine ⟨frames, packed, ?_⟩
  intro datagrams received
  have taken : received = ({}, sends.flatten.map fun m => .ok m.2) := by
    refine (Assembler.onDatagrams_encodeAll frames {} _ clock).trans ?_
    rw [packets, ← Lane.packAll_flatten]
    refine Assembler.pushAll_packAll rfl _ fun m member => ?_
    obtain ⟨send, inside, here⟩ := List.mem_flatten.mp member
    exact free send inside m here
  have numbered (k : Nat) : datagrams[k]? = frames[k]?.map fun frame =>
      (FrameEncoder.encode ⟨UInt16.ofNat k, source, epoch⟩ (clock k) frame).2 := by
    have place := FrameEncoder.getElem?_encodeAll source epoch frames clock 0 k
    rwa [Nat.zero_add] at place
  rw [taken]
  refine ⟨rfl, rfl, rfl, ?_, ?_, ?_⟩
  · intro data member
    obtain ⟨frame, inside, length⟩ := FrameEncoder.mem_encodeAll _ member
    rw [length]
    exact FramePacker.length_le_of_mem_packCalls valid packed frame inside
  · exact FrameEncoder.length_encodeAll frames _ clock
  · intro k data found
    rw [numbered] at found
    obtain ⟨frame, inside, rfl⟩ := Option.map_eq_some_iff.mp found
    refine ⟨UInt16.ofNat k, frame, ?_, inside, ?_⟩
    · exact FrameEncoder.decode_encode _ _ frame
    · exact UInt16.toNat_ofNat'

def sampleSends : List (List (Lane × List UInt8)) :=
  [[(.base, []), (⟨0xFF, 9⟩, List.replicate 29 97)], [(.base, [98])]]

theorem sample_texts_through_datagrams :
    (minMtu ≤ 45 ∧ 45 ≤ maxMtu) ∧ (∀ send ∈ sampleSends, ∀ m ∈ send, (0 : UInt8) ∉ m.2) ∧
      ∃ frames, FramePacker.packCalls 45 (sampleSends.map Lane.packAll) = .ok frames ∧
        (Assembler.onDatagrams {} ((FrameEncoder.new 7 5).encodeAll (fun k => 5 + k) frames)).2
          = [.ok [], .ok (List.replicate 29 97), .ok [98]] := by
  have valid : minMtu ≤ 45 ∧ 45 ≤ maxMtu := by decide
  have free : ∀ send ∈ sampleSends, ∀ m ∈ send, (0 : UInt8) ∉ m.2 := by decide
  obtain ⟨frames, packed, received, -⟩ :=
    texts_through_datagrams valid sampleSends free 7 5 fun k => 5 + k
  exact ⟨valid, free, frames, packed, received⟩

end FlexLink
