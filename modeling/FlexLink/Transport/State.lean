import FlexLink.Transport.Address
import FlexLink.Wire.Packet

/-! # Transports

What a transport of packets tells about itself, and how it fails. -/
set_option autoImplicit false
namespace FlexLink

/-- The name of an endpoint: sixteen bytes, compared from the first one. -/
structure EndpointId where
  bytes : Vector UInt8 16
deriving DecidableEq

namespace EndpointId

def ofBytes (bytes : List UInt8) : EndpointId := ⟨Vector.ofFn fun i => bytes.getD i 0⟩

def toBytes (id : EndpointId) : List UInt8 := id.bytes.toList

def render (id : EndpointId) : String := Hex.encode id.toBytes

instance : LT EndpointId := ⟨fun a b => a.toBytes < b.toBytes⟩

instance (a b : EndpointId) : Decidable (a < b) := inferInstanceAs (Decidable (a.toBytes < b.toBytes))

end EndpointId

inductive SocketOp where
  | bind
  | listen
  | connect
deriving DecidableEq

def SocketOp.name : SocketOp → String
  | .bind => "bind"
  | .listen => "listen"
  | .connect => "connect"

/-- Bytes in front of the packets of a data datagram. -/
def headerSize : Nat := 12

/-- The smallest datagram limit, which fits a header and one packet. -/
def minMtu : Nat := headerSize + Packet.size

def maxMtu : Nat := 65507

inductive TransportError where
  | socket (op : SocketOp) (why : String)
  | send (why : String)
  | notConnected
  | sessionClosed
  | negotiationTimeout (ms : Nat)
  | invalidMtu (mtu : Nat)
  | receiverTaken
deriving DecidableEq

def TransportError.message : TransportError → String
  | .socket op why => s!"{op.name} failed: {why}"
  | .send why => s!"send failed: {why}"
  | .notConnected => "transport not connected"
  | .sessionClosed => "session closed"
  | .negotiationTimeout ms => s!"negotiation timed out after {ms} ms"
  | .invalidMtu mtu => s!"mtu {mtu} outside {minMtu}..={maxMtu}"
  | .receiverTaken => "inbound receiver already taken"

/-- A datagram limit that fits at least one packet and is no larger than a datagram can be. -/
def validMtu (mtu : Nat) : Except TransportError Nat :=
  if minMtu ≤ mtu ∧ mtu ≤ maxMtu then .ok mtu else .error (.invalidMtu mtu)

def inboundCapacity : Nat := 256

inductive Phase where
  | closed
  | opening
  | ready
deriving DecidableEq

def Phase.name : Phase → String
  | .closed => "Closed"
  | .opening => "Opening"
  | .ready => "Ready"

def protocolVersion : UInt8 := 1

structure SessionState where
  phase : Phase
  localId : EndpointId
  remoteId : Option EndpointId
  version : UInt8
  group : UInt8
  channel : UInt8
  peer : Option SocketAddress
deriving DecidableEq

namespace SessionState

def new (localId : EndpointId) (group channel : UInt8) : SessionState :=
  ⟨.closed, localId, none, protocolVersion, group, channel, none⟩

def isReady (s : SessionState) : Bool := s.phase == .ready

def isNegotiated (s : SessionState) : Bool := s.remoteId.isSome

end SessionState
end FlexLink
