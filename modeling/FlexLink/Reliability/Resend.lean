import FlexLink.Envelope.Control
import FlexLink.Table
import FlexLink.Wire.Packet

/-! # The resend buffer

What was sent is kept under its key until it is acknowledged, so that it can be sent again.  Past
the capacity the oldest key leaves. -/
set_option autoImplicit false
namespace FlexLink

structure ResendBuffer (κ : Type) where
  capacity : Nat
  frames : Table κ (List Packet) := {}
  order : List κ := []

namespace ResendBuffer

variable {κ : Type} [DecidableEq κ]

/-- An empty buffer, which holds one key at least. -/
def new (capacity : Nat) : ResendBuffer κ := { capacity := max capacity 1 }

def size (b : ResendBuffer κ) : Nat := b.frames.size

def evict (b : ResendBuffer κ) : (order : List κ) → ResendBuffer κ
  | [] => { b with order := [] }
  | key :: rest =>
    if b.capacity < b.frames.size then evict { b with frames := b.frames.erase key } rest
    else { b with order := key :: rest }

/-- Keeps frames under a key.  A key that is present keeps its age. -/
def record (b : ResendBuffer κ) (key : κ) (packets : List Packet) : ResendBuffer κ :=
  let order := if b.frames.contains key then b.order else b.order ++ [key]
  evict { b with frames := b.frames.insert key packets } order

def release [ResendKey κ] (b : ResendBuffer κ) (acked : κ) : ResendBuffer κ × Nat :=
  let frames := b.frames.restrict fun key => !ResendKey.covered key acked
  ({ b with frames, order := b.order.filter frames.contains }, b.frames.size - frames.size)

/-- The frames of those keys that are present, in the order asked for. -/
def lookup (b : ResendBuffer κ) (keys : List κ) : List (κ × List Packet) :=
  keys.filterMap fun key => (b.frames.get? key).map fun packets => (key, packets)

end ResendBuffer
end FlexLink
