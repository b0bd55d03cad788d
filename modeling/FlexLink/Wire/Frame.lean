import FlexLink.Transport.State

/-! # Frames

Packets leave in frames, as many to a frame as a datagram holds behind its header. -/
set_option autoImplicit false
namespace FlexLink

def frameCapacity (mtu : Nat) : Except TransportError Nat :=
  match validMtu mtu with
  | .ok mtu => .ok ((mtu - headerSize) / Packet.size)
  | .error e => .error e

structure FramePacker where
  capacity : Nat
  /-- Packets of the next frame, newest first. -/
  waiting : List Packet := []
  count : Nat := 0
deriving DecidableEq

namespace FramePacker

def new (mtu : Nat) : Except TransportError FramePacker :=
  match frameCapacity mtu with
  | .ok capacity => .ok { capacity }
  | .error e => .error e

def pending (p : FramePacker) : List Packet := p.waiting.reverse

def isFull (p : FramePacker) : Bool := decide (p.capacity ≤ p.count)

/-- Takes one packet; a frame that has no room for it leaves first. -/
def push (p : FramePacker) (packet : Packet) : FramePacker × Option (List Packet) :=
  if p.count = p.capacity then ({ p with waiting := [packet], count := 1 }, some p.pending)
  else ({ p with waiting := packet :: p.waiting, count := p.count + 1 }, none)

def flush (p : FramePacker) : FramePacker × Option (List Packet) :=
  if p.waiting.isEmpty then (p, none)
  else ({ p with waiting := [], count := 0 }, some p.pending)

def pushAll (p : FramePacker) : List Packet → FramePacker × List (List Packet)
  | [] => (p, [])
  | packet :: rest =>
    let (p, frame) := p.push packet
    let (p, frames) := p.pushAll rest
    (p, frame.toList ++ frames)

def packAll (p : FramePacker) (packets : List Packet) : List (List Packet) :=
  let (p, frames) := p.pushAll packets
  frames ++ p.flush.2.toList

def pack (mtu : Nat) (packets : List Packet) : Except TransportError (List (List Packet)) :=
  match new mtu with
  | .ok p => .ok (p.packAll packets)
  | .error e => .error e

end FramePacker
end FlexLink
