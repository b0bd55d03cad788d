import FlexLink.Stream.Reorder
import FlexLink.Stream.Sender

/-! # Receiving a stream

Events are brought in order, joined and delivered.  Gaps are asked for again as they are found,
and after every so many events everything up to there is acknowledged.  Control messages of the
peer are delivered as they come. -/
set_option autoImplicit false
namespace FlexLink

inductive Delivery where
  | event (e : Event)
  | control (e : Event)
deriving DecidableEq

structure StreamReceiver where
  lane : Lane
  ackEvery : Nat
  reorder : ReorderBuffer
  joiner : Joiner
  sinceAck : Nat := 0
  metrics : StreamMetrics := {}

inductive ReceiverState where
  | running
  | stopped
  /-- Nobody took a delivery. -/
  | deserted
  /-- The sequence numbers ran out. -/
  | exhausted
deriving DecidableEq

structure Receiving (σ : Type) where
  net : σ
  receiver : StreamReceiver
  coming : Assembler := {}
  deliveries : List Delivery := []
  consumed : Bool := true
  state : ReceiverState := .running

namespace StreamReceiver

def new (lane : Lane) (stream : StreamSettings) : StreamReceiver where
  lane
  ackEvery := max stream.ackEvery 1
  reorder := .new stream.maxReorder
  joiner := .new stream.maxFragments

end StreamReceiver

namespace Receiving

variable {σ : Type}

def listen (i : Inbox) : Except StreamError Inbox := i.take.mapError .transport

def count (w : Receiving σ) (f : StreamMetrics → StreamMetrics) : Receiving σ :=
  { w with receiver := { w.receiver with metrics := f w.receiver.metrics } }

/-- Sends a control message to the peer.  A failed call is not tried again. -/
def sendControl (link : Link σ) (w : Receiving σ) (c : Control UInt64) : Receiving σ :=
  let packets := w.receiver.lane.encodeEvent c.toEvent
  match link.send w.net packets with
  | (net, .ok ()) => { w with net }.count (·.addBytesSent (packets.length * Packet.size))
  | (net, .error _) => { w with net }

def deliver (w : Receiving σ) (d : Delivery) : Receiving σ :=
  if w.consumed then { w with deliveries := d :: w.deliveries } else { w with state := .deserted }

def acknowledge (link : Link σ) (w : Receiving σ) (seq : UInt64) : Receiving σ :=
  let sinceAck := w.receiver.sinceAck + 1
  if w.receiver.ackEvery ≤ sinceAck then
    let w := { w with receiver := { w.receiver with sinceAck := 0 } }
    (w.sendControl link (.ofAck seq)).count (·.ackSent)
  else { w with receiver := { w.receiver with sinceAck } }

def onReady (link : Link σ) (w : Receiving σ) (e : Event) : Receiving σ :=
  let (joiner, whole) := w.receiver.joiner.push e
  let w := { w with receiver := { w.receiver with joiner } }
  let w : Receiving σ :=
    match whole with
    | .ok (some whole) => w.deliver (.event whole)
    | .ok none => w
    | .error _ => w.count (·.fragmentRejected)
  if w.state = .running then w.acknowledge link e.seq else w

def onReadyAll (link : Link σ) (w : Receiving σ) : List Event → Receiving σ
  | [] => w
  | e :: rest =>
    let w := w.onReady link e
    if w.state = .running then w.onReadyAll link rest else w

def onEvent (link : Link σ) (w : Receiving σ) (e : Event) : Receiving σ :=
  if e.isControl then w.deliver (.control e)
  else
    let w := w.count (·.eventReceived)
    match w.receiver.reorder.push e with
    | none => { w with state := .exhausted }
    | some (reorder, out) =>
      let w := { w with receiver := { w.receiver with reorder } }
      if out.duplicate then w
      else
        let w :=
          if out.missing.isEmpty then w
          else (w.sendControl link (.ofNack (out.missing.map UInt64.ofNat))).count (·.nackSent)
        let w := if 0 < out.skipped then w.count (·.addSequenceGaps out.skipped) else w
        w.onReadyAll link out.ready

def onText (link : Link σ) (w : Receiving σ)
    (text : Except RunError (List UInt8)) : Receiving σ :=
  match parseOutcome Event.shape text with
  | .error _ => w
  | .ok e => w.onEvent link e

def onTexts (link : Link σ) (w : Receiving σ) :
    List (Except RunError (List UInt8)) → Receiving σ
  | [] => w
  | text :: rest =>
    let w := w.onText link text
    if w.state = .running then w.onTexts link rest else w

def onBatch (link : Link σ) (w : Receiving σ) (batch : List Packet) : Receiving σ :=
  if w.state = .running then
    let (coming, texts) := w.coming.pushAll batch
    ({ w with coming }.count (·.addBytesReceived (batch.length * Packet.size))).onTexts link texts
  else w

def stop (w : Receiving σ) : Receiving σ :=
  if w.state = .running then { w with state := .stopped } else w

/-- Nobody takes deliveries any more; the receiver ends at the next one. -/
def desert (w : Receiving σ) : Receiving σ := { w with consumed := false }

def collect (w : Receiving σ) : Receiving σ × List Delivery :=
  ({ w with deliveries := [] }, w.deliveries.reverse)

end Receiving
end FlexLink
