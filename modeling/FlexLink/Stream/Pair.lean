import FlexLink.Stream.Receiver

/-! # A stream between two ends

A sender and a receiver joined by a network that keeps the order of what it carries and loses the
calls that it is told to.  After each operation frames are delivered both ways until none is
left. -/
set_option autoImplicit false
namespace FlexLink

structure LossyNet where
  mtu : Nat
  lost : List Nat
  calls : Nat := 0
  frames : List (List Packet) := []

/-- A loss is not noticed by the end that sends. -/
def Link.lossy : Link LossyNet where
  send net packets :=
    let called := { net with calls := net.calls + 1 }
    if net.lost.contains net.calls then (called, .ok ())
    else
      match FramePacker.pack net.mtu packets with
      | .ok frames => ({ called with frames := net.frames ++ frames }, .ok ())
      | .error e => (called, .error e)

structure StreamPair where
  sending : Sending LossyNet
  receiving : Receiving LossyNet

namespace StreamPair

def new (mtu : Nat) (settings : Settings) (lostBySender lostByReceiver : List Nat) :
    Except StreamError StreamPair :=
  match StreamSender.new mtu .base settings.stream settings.reliability with
  | .error e => .error e
  | .ok sender =>
    .ok {
      sending := { net := { mtu, lost := lostBySender }, sender }
      receiving := { net := { mtu, lost := lostByReceiver }, receiver := .new .base settings.stream } }

/-- Delivers the next frame; those for the receiver go first. -/
def deliver? (p : StreamPair) : Option StreamPair :=
  match p.sending.net.frames, p.receiving.net.frames with
  | frame :: rest, _ =>
    some {
      sending := { p.sending with net := { p.sending.net with frames := rest } }
      receiving := p.receiving.onBatch .lossy frame }
  | [], frame :: rest =>
    some {
      sending := p.sending.onBatch .lossy frame
      receiving := { p.receiving with net := { p.receiving.net with frames := rest } } }
  | [], [] => none

def settle : (steps : Nat) → StreamPair → StreamPair
  | 0, p => p
  | steps + 1, p =>
    match p.deliver? with
    | some p => settle steps p
    | none => p

def send (p : StreamPair) (e : Event) (freshId : String) : StreamPair × Except StreamError Nat :=
  let (sending, result) := p.sending.send .lossy e freshId
  ({ p with sending }, result)

def flush (p : StreamPair) : StreamPair × Except StreamError Unit :=
  let (sending, result) := p.sending.flush .lossy
  ({ p with sending }, result)

end StreamPair
end FlexLink
