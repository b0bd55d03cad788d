import FlexLink.Inspect.Wire
import FlexLink.Stream.Receiver

/-! # Streams, inspected

Counters, deliveries and errors of a stream as JSON. -/
set_option autoImplicit false
namespace FlexLink

open Json

def StreamError.kind : StreamError → String
  | .codec _ => "Codec"
  | .transport _ => "Transport"
  | .fragment _ => "Fragment"

instance : ToJson StreamError := ⟨fun e => failure e.kind e.message⟩

instance : ToJson FragmentError := ⟨fun e => toJson (StreamError.fragment e)⟩

instance : ToJson StreamMetrics where
  toJson m := obj [
    ("bytes_sent", m.bytesSent), ("bytes_received", m.bytesReceived),
    ("events_sent", m.eventsSent), ("events_received", m.eventsReceived),
    ("acks_sent", m.acksSent), ("nacks_sent", m.nacksSent), ("retransmits", m.retransmits),
    ("sequence_gaps", m.sequenceGaps), ("fragments_rejected", m.fragmentsRejected)]

instance : ToJson Event := ⟨fun e => .text e.render⟩

instance : ToJson Delivery where
  toJson
    | .event e => obj [("event", e)]
    | .control e => obj [("ctrl", e)]

/-- Ascending numbers as first and last of each unbroken range. -/
def numberRanges : List Nat → List (Nat × Nat)
  | [] => []
  | n :: rest =>
    match numberRanges rest with
    | (first, last) :: more =>
      if first = n + 1 then (n, last) :: more else (n, n) :: (first, last) :: more
    | [] => [(n, n)]

def Reordered.members (out : Reordered) : List (String × Json) := [
  ("ready", out.ready.map fun e => e.seq.toNat),
  ("missing", (numberRanges out.missing).map fun r => [r.1, r.2]),
  ("skipped", out.skipped), ("duplicate", out.duplicate)]

end FlexLink
