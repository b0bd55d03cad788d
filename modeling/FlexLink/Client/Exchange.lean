import FlexLink.Envelope.Codec
import FlexLink.Failure
import FlexLink.Transport.Link

/-! # Exchanges

A client sends a request and gathers the replies to it.  When time runs out after some but not the
final one, it asks once more for that; when it has the final one, it says so. -/
set_option autoImplicit false
namespace FlexLink

structure Outcome where
  corr : String
  replies : List Reply := []

/-- The final reply, which ends the list if it came. -/
def Outcome.final? (o : Outcome) : Option Reply := o.replies.getLast?.filter Reply.isFinal

inductive ExchangeState where
  | waiting
  | finished
  | failed (why : Failure)
deriving DecidableEq

structure Exchange (σ : Type) where
  net : σ
  lane : Lane
  outcome : Outcome
  coming : Assembler := {}
  /-- Whether the final reply has been asked for again. -/
  nacked : Bool := false
  state : ExchangeState := .waiting

namespace Exchange

variable {σ : Type}

/-- Sends an envelope; the exchange goes on as `next` if that succeeds. -/
def sendThen (link : Link σ) (x : Exchange σ) (envelope : Command) (next : ExchangeState) :
    Exchange σ :=
  match link.send x.net (x.lane.encode envelope) with
  | (net, .ok ()) => { x with net, state := next }
  | (net, .error e) => { x with net, state := .failed e.failure }

def begin (link : Link σ) (net : σ) (lane : Lane) (coming : Assembler) (request : Command) :
    Exchange σ :=
  sendThen link { net, lane, coming, outcome := { corr := request.corr } } request .waiting

def replyTo? (corr : String) (text : Except RunError (List UInt8)) : Option Reply :=
  match parseOutcome Command.shape text with
  | .error _ => none
  | .ok envelope => if envelope.corr = corr then envelope.reply? else none

/-- The replies of texts up to the first final one. -/
def gather (corr : String) : List (Except RunError (List UInt8)) → List Reply
  | [] => []
  | text :: rest =>
    match replyTo? corr text with
    | none => gather corr rest
    | some reply => if reply.isFinal then [reply] else reply :: gather corr rest

def onBatch (link : Link σ) (now : Millis) (x : Exchange σ) (batch : List Packet) : Exchange σ :=
  match x.state with
  | .waiting =>
    let (coming, texts) := x.coming.pushAll batch
    let gathered := gather x.outcome.corr texts
    let x := { x with
      coming, outcome := { x.outcome with replies := x.outcome.replies ++ gathered } }
    if gathered.any Reply.isFinal then
      sendThen link x ((Control.ofAck x.outcome.corr).toCommand now) .finished
    else x
  | _ => x

def onDeadline (link : Link σ) (now : Millis) (x : Exchange σ) : Exchange σ :=
  match x.state with
  | .waiting =>
    if x.nacked || x.outcome.replies.isEmpty then { x with state := .finished }
    else
      sendThen link { x with nacked := true } ((Control.ofNack [x.outcome.corr]).toCommand now)
        .waiting
  | _ => x

def onClosed (x : Exchange σ) : Exchange σ :=
  match x.state with
  | .waiting =>
    { x with state := .failed ⟨s!"session closed while waiting for {x.outcome.corr}", []⟩ }
  | _ => x

/-- How the exchange ended; one that still waits has ended as it is. -/
def result (x : Exchange σ) : Except Failure Outcome :=
  match x.state with
  | .failed why => .error why
  | _ => .ok x.outcome

end Exchange
end FlexLink
