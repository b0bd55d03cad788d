import FlexLink.Bridge.Router
import FlexLink.Envelope.Codec
import FlexLink.Failure
import FlexLink.Reliability.Endpoint
import FlexLink.Transport.Link

/-! # Serving requests

A bridge reads requests, acknowledges each, has it handled and sends the outcome.  Reading only
notes what is to be done; the tasks are performed on their own, in any order, and a task whose
handler takes its time waits while others go on.  Exactly two replies leave for each request that
is served: the acknowledgement and the final one, which is kept until the peer has it. -/
set_option autoImplicit false
namespace FlexLink

structure Bridge (σ τ ρ : Type) where
  link : Link σ
  journal : Journal τ
  handler : Handler ρ
  lane : Lane

inductive Task where
  | refuse (why : CodecError)
  | resend (found : List (String × List Packet))
  | serve (request : Command)
  /-- To send the outcome of a request, which is there at time `due`. -/
  | conclude (request : Command) (due : Nat) (outcome : Except DispatchError Reply)

structure Serving (σ τ ρ : Type) where
  net : σ
  journal : τ
  /-- What the handler keeps. -/
  desk : ρ
  reliability : Reliability String
  coming : Assembler := {}
  tasks : List Task := []
  ended : Bool := false

def Reply.ofOutcome : Except DispatchError Reply → Reply
  | .ok r => { r with ack := true, success := r.success.or (some true) }
  | .error why => .failed why.message

namespace Serving

variable {σ τ ρ : Type}

def new (net : σ) (journal : τ) (desk : ρ) (settings : ReliabilitySettings) : Serving σ τ ρ :=
  { net, journal, desk, reliability := .new settings }

def listen (i : Inbox) : Except Failure Inbox := i.takeFor "bridge needs the transport's inbound channel"

def add (w : Serving σ τ ρ) (task : Task) : Serving σ τ ρ := { w with tasks := w.tasks ++ [task] }

def onControl (w : Serving σ τ ρ) (envelope : Command) : Serving σ τ ρ :=
  match Control.ofCommand? envelope with
  | none => w
  | some control =>
    let (reliability, found) := w.reliability.handle control
    let w := { w with reliability }
    if found.isEmpty then w else w.add (.resend found)

def onText (now : Nat) (w : Serving σ τ ρ) (text : Except RunError (List UInt8)) : Serving σ τ ρ :=
  match parseOutcome Command.shape text with
  | .error why => w.add (.refuse why)
  | .ok envelope =>
    if envelope.isReply then w
    else if envelope.isControl then w.onControl envelope
    else
      match w.reliability.checkReplay envelope now with
      | (reliability, .accepted) => { w with reliability }.add (.serve envelope)
      | (reliability, .suppressed) => { w with reliability }

def onBatch (w : Serving σ τ ρ) (now : Nat) (batch : List Packet) : Serving σ τ ρ :=
  if w.ended then w
  else
    let (coming, texts) := w.coming.pushAll batch
    texts.foldl (onText now) { w with coming }

def stop (w : Serving σ τ ρ) : Serving σ τ ρ := { w with tasks := [], ended := true }

end Serving

namespace Bridge

variable {σ τ ρ : Type}

/-- Sends packets.  A failed call is not tried again. -/
def send (b : Bridge σ τ ρ) (w : Serving σ τ ρ) (packets : List Packet) : Serving σ τ ρ :=
  { w with net := (b.link.send w.net packets).1 }

def replyPackets (b : Bridge σ τ ρ) (now : Millis) (corr : String) (reply : Reply) : List Packet :=
  b.lane.encode (.ofReply now corr reply)

/-- Records something.  What the journal refuses is served all the same. -/
def note (b : Bridge σ τ ρ) (w : Serving σ τ ρ) (now : Millis) (corr : String) (role : JournalRole)
    (payload : Json) : Serving σ τ ρ :=
  { w with journal := (b.journal.write w.journal now corr role payload).1 }

def acknowledge (b : Bridge σ τ ρ) (w : Serving σ τ ρ) (now : Millis) (request : Command) :
    Serving σ τ ρ :=
  let w := b.note w now request.corr .request request.toJson
  b.send w (b.replyPackets now request.corr .acknowledged)

def handle (b : Bridge σ τ ρ) (w : Serving σ τ ρ) (request : Command) : Serving σ τ ρ × Handling :=
  let (desk, handling) := b.handler.call w.desk request
  ({ w with desk }, handling)

/-- Records the final reply, keeps it for sending again and sends it. -/
def conclude (b : Bridge σ τ ρ) (w : Serving σ τ ρ) (now : Millis) (request : Command)
    (outcome : Except DispatchError Reply) : Serving σ τ ρ :=
  let reply := Reply.ofOutcome outcome
  let w := b.note w now request.corr .response reply.toBody
  let packets := b.replyPackets now request.corr reply
  b.send { w with reliability := w.reliability.record request.corr packets } packets

/-- Performs a task as far as it goes at `time`, and says what is left of it.  Replies are stamped
with `now`.  What the task sends until then leaves without a pause; other tasks come before or after
that. -/
def perform (b : Bridge σ τ ρ) (now : Millis) (time : Nat) (w : Serving σ τ ρ) :
    Task → Serving σ τ ρ × Option Task
  | .refuse why => (b.send w (b.replyPackets now Command.unknownCorr (.failed why.message)), none)
  | .resend found => (found.foldl (fun w (_, packets) => b.send w packets) w, none)
  | .serve request =>
    let (w, handling) := b.handle (b.acknowledge w now request) request
    match handling.result with
    | none => (w, none)
    | some outcome =>
      if handling.delay = 0 then (b.conclude w now request outcome, none)
      else (w, some (.conclude request (time + handling.delay) outcome))
  | .conclude request due outcome =>
    if due ≤ time then (b.conclude w now request outcome, none)
    else (w, some (.conclude request due outcome))

def performAll (b : Bridge σ τ ρ) (now : Millis) (time : Nat) (w : Serving σ τ ρ) :
    List Task → Serving σ τ ρ
  | [] => w
  | task :: rest =>
    let (w, left) := b.perform now time w task
    performAll b now time { w with tasks := w.tasks ++ left.toList } rest

/-- Performs one of the tasks; what is left of it stays in its place. -/
def performAt (b : Bridge σ τ ρ) (now : Millis) (time : Nat) (w : Serving σ τ ρ) (k : Nat) :
    Serving σ τ ρ :=
  match w.tasks[k]? with
  | none => w
  | some task =>
    let (done, left) := b.perform now time w task
    { done with tasks := w.tasks.take k ++ left.toList ++ w.tasks.drop (k + 1) }

def readyAt : Task → Nat
  | .conclude _ due _ => due
  | _ => 0

/-- Performs every task that can go on at `time`, the one that could first first. -/
def settle (b : Bridge σ τ ρ) (now : Millis) (time : Nat) (w : Serving σ τ ρ) : Serving σ τ ρ :=
  b.performAll now time { w with tasks := [] }
    (w.tasks.mergeSort fun s t => decide (readyAt s ≤ readyAt t))

end Bridge
end FlexLink
