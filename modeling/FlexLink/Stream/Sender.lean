import FlexLink.Failure
import FlexLink.Reliability.Endpoint
import FlexLink.Stream.Metrics
import FlexLink.Stream.Pieces
import FlexLink.Transport.Link
import FlexLink.Wire.Frame
import FlexLink.Envelope.Codec
import FlexLink.Stream.Joiner

/-! # Sending a stream

Events are numbered, cut into pieces, kept for sending again and queued.  What is queued leaves in
one call once it fills a frame, so that no run of packets is ever divided between two calls.  The
receiver's control messages release what was kept or have it sent again. -/
set_option autoImplicit false
namespace FlexLink

inductive StreamError where
  | codec (why : CodecError)
  | transport (why : TransportError)
  | fragment (why : FragmentError)
deriving DecidableEq

def StreamError.message : StreamError → String
  | .codec why => s!"stream codec: {why.message}"
  | .transport why => s!"stream transport: {why.message}"
  | .fragment why => s!"fragment: {why.message}"

structure StreamSender where
  lane : Lane
  frameSize : Nat
  maxFragmentBytes : Nat
  reliability : Reliability UInt64
  nextSeq : Nat := 0
  pending : List Packet := []
  metrics : StreamMetrics := {}

namespace StreamSender

def new (mtu : Nat) (lane : Lane) (stream : StreamSettings) (reliability : ReliabilitySettings) :
    Except StreamError StreamSender :=
  match frameCapacity mtu with
  | .error e => .error (.transport e)
  | .ok frameSize =>
    .ok {
      lane
      frameSize
      maxFragmentBytes := stream.maxFragmentBytes
      reliability := .new reliability }

def queue (s : StreamSender) (e : Event) : StreamSender :=
  let seq := UInt64.ofNat s.nextSeq
  let packets := s.lane.encodeEvent { e with seq }
  { s with
    reliability := s.reliability.record seq packets
    pending := s.pending ++ packets
    metrics := s.metrics.eventSent
    nextSeq := s.nextSeq + 1 }

end StreamSender

structure Sending (σ : Type) where
  net : σ
  sender : StreamSender
  returning : Assembler := {}
  listening : Bool := true

namespace Sending

variable {σ : Type}

def listen (i : Inbox) : Except Failure Inbox :=
  i.takeFor "stream sender needs its transport's inbound channel"

def count (w : Sending σ) (f : StreamMetrics → StreamMetrics) : Sending σ :=
  { w with sender := { w.sender with metrics := f w.sender.metrics } }

def transmit (link : Link σ) (w : Sending σ) (packets : List Packet) :
    Sending σ × Except StreamError Unit :=
  match link.send w.net packets with
  | (net, .ok ()) => ({ w with net }.count (·.addBytesSent (packets.length * Packet.size)), .ok ())
  | (net, .error e) => ({ w with net }, .error (.transport e))

def flush (link : Link σ) (w : Sending σ) : Sending σ × Except StreamError Unit :=
  if w.sender.pending.isEmpty then (w, .ok ())
  else transmit link { w with sender := { w.sender with pending := [] } } w.sender.pending

/-- Sends an event and returns the number of its last envelope.  `freshId` names the event if it
has no id and needs one. -/
def send (link : Link σ) (w : Sending σ) (e : Event) (freshId : String) :
    Sending σ × Except StreamError Nat :=
  let sender := (e.pieces w.sender.maxFragmentBytes freshId).foldl StreamSender.queue w.sender
  let w := { w with sender }
  let last := sender.nextSeq - 1
  if sender.pending.length < sender.frameSize then (w, .ok last)
  else
    match flush link w with
    | (w, .ok ()) => (w, .ok last)
    | (w, .error e) => (w, .error e)

def retransmit (link : Link σ) (w : Sending σ) : List (UInt64 × List Packet) → Sending σ
  | [] => w
  | (_, packets) :: rest =>
    match transmit link w packets with
    | (w, .ok ()) => retransmit link (w.count (·.addRetransmits 1)) rest
    | (w, .error _) => retransmit link w rest

def onControl (link : Link σ) (w : Sending σ) (c : Control UInt64) : Sending σ :=
  let (reliability, resends) := w.sender.reliability.handle c
  retransmit link { w with sender := { w.sender with reliability } } resends

/-- Answers one text of the receiver; what is no control message is passed over. -/
def onText (link : Link σ) (w : Sending σ) (text : Except RunError (List UInt8)) : Sending σ :=
  match parseOutcome Event.shape text with
  | .error _ => w
  | .ok e =>
    match Control.ofEvent? e with
    | some c => onControl link w c
    | none => w

def onBatch (link : Link σ) (w : Sending σ) (batch : List Packet) : Sending σ :=
  if w.listening then
    let (returning, texts) := w.returning.pushAll batch
    texts.foldl (onText link)
      ({ w with returning }.count (·.addBytesReceived (batch.length * Packet.size)))
  else w

def stop (w : Sending σ) : Sending σ := { w with listening := false }

end Sending
end FlexLink
