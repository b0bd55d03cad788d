import FlexLink.Transport.Inbox
import FlexLink.Wire.Frame

/-! # Loopback transports

An endpoint in the same process delivers what it sends, frame by frame, into an inbox: its own, or
that of the endpoint it is paired with. -/
set_option autoImplicit false
namespace FlexLink

structure Loopback where
  mtu : Nat
  target : EndpointId
  state : SessionState
  openedBefore : Bool := false
deriving DecidableEq

inductive SendOutcome where
  | sent
  | blocked
  | failed (why : TransportError)
deriving DecidableEq

namespace Loopback

def new (mtu : Nat) (id target : EndpointId) : Loopback := { mtu, target, state := .new id 0 0 }

def opened (l : Loopback) : Except TransportError Loopback :=
  match frameCapacity l.mtu with
  | .error e => .error e
  | .ok _ =>
    .ok { l with
      state := { l.state with phase := .ready, remoteId := some l.target }
      openedBefore := true }

def closed (l : Loopback) : Loopback :=
  match l.state.phase with
  | .closed => l
  | _ => { l with state := .new l.state.localId 0 0 }

def send (l : Loopback) (i : Inbox) (packets : List Packet) : Inbox × SendOutcome :=
  if l.state.phase ≠ .ready then
    (i, .failed (if l.openedBefore then .sessionClosed else .notConnected))
  else
    match FramePacker.pack l.mtu packets with
    | .error e => (i, .failed e)
    | .ok [] => (i, .sent)
    | .ok frames =>
      match i.reader with
      | .gone => (i, .failed (.send "loopback receiver dropped"))
      | _ =>
        match i.offerAll frames with
        | (i, []) => (i, .sent)
        | (i, _) => (i, .blocked)

end Loopback
end FlexLink
