import FlexLink.Discovery.Registry
import FlexLink.Session.Negotiate
import FlexLink.Session.Options
import FlexLink.Transport.Inbox
import FlexLink.Transport.Link
import FlexLink.Wire.Frame

/-! # Sessions

A session sends packets to one peer in datagrams and puts what comes back into its inbox.  Opening
it binds a socket, finds the peer and waits for the peer's proposal; a session that cannot be
opened is as it was before.  What the network does is given from outside. -/
set_option autoImplicit false
namespace FlexLink

namespace IPAddress

def toLoopback : IPAddress → IPAddress
  | .v4 _ => .v4 .loopback
  | .v6 _ => .v6 .loopback

end IPAddress

namespace SocketAddress

/-- The address under which a socket bound to `a` reaches itself. -/
def toSelf (a : SocketAddress) : SocketAddress :=
  if a.ip.isUnspecified then { ip := a.ip.toLoopback, port := a.port } else a

def reaches (peer a : SocketAddress) : Bool :=
  peer.port == a.port && (peer.ip == a.ip || peer.ip.isLoopback && a.ip.isUnspecified)

end SocketAddress

structure OpeningNet where
  bound : Except String SocketAddress
  listening : Except String Unit := .ok ()
  discovered : Option SocketAddress := none
  connected : SocketAddress → Except String Unit
  /-- Datagrams that come in time, each with the time it comes at. -/
  arrivals : List (Nat × List UInt8) := []

structure DatagramSocket (σ : Type) where
  send : σ → List UInt8 → σ × Except String Unit

structure OpenSession where
  encoder : FrameEncoder
  throttle : ReplyThrottle
  negotiates : Bool
deriving DecidableEq

structure Session where
  options : SessionOptions
  state : SessionState
  localAddress : Option SocketAddress := none
  inbox : Inbox := {}
  feeding : Bool := true
  dropped : Nat := 0
  registry : Registry := {}
  running : Option OpenSession := none
  accepting : Bool := false
  openedBefore : Bool := false

namespace Session

/-- Milliseconds between answers to a peer that is known. -/
def replyInterval : Nat := 125

/-- Milliseconds between proposals to a peer that has not answered. -/
def retryInterval : Nat := 250

def new (options : SessionOptions) (id : EndpointId) : Session :=
  { options, state := .new id options.group options.channel }

def localId (s : Session) : EndpointId := s.state.localId

def proposal (s : Session) : Proposal :=
  ⟨s.options.protocolVersion, s.options.group, s.options.channel⟩

def proposalDatagram (s : Session) : List UInt8 := (s.proposal.message s.localId).bytes

def isNegotiating (s : Session) : Bool :=
  s.running.any (·.negotiates) && !s.state.isNegotiated

/-- Makes known what is known of a session that is not open. -/
def reset (s : Session) : Session :=
  { s with
    state := .new s.localId s.options.group s.options.channel
    localAddress := none }

def stop (s : Session) : Session := { s with accepting := false, running := none }

def deliver (s : Session) (packets : List Packet) : Session :=
  if packets.isEmpty then s
  else
    match s.inbox.reader with
    | .gone => s
    | _ =>
      match s.inbox.offer packets with
      | some inbox => { s with inbox }
      | none => { s with dropped := s.dropped + 1 }

/-- Takes a datagram in at time `now`, and gives the answer to it, if there is one.  What cannot be
read is passed over. -/
def receive (s : Session) (now : Nat) (data : List UInt8) : Session × Option (List UInt8) :=
  match s.running, Datagram.decode data with
  | none, _ => (s, none)
  | some _, .error _ => (s, none)
  | some _, .ok (.data _ _ packets) => (s.deliver packets, none)
  | some running, .ok (.negotiation m) =>
    let (state, learned) := s.state.learn s.proposal m
    let (throttle, due) := running.throttle.shouldReply learned now
    ({ s with state, running := some { running with throttle } },
      if due then some s.proposalDatagram else none)

/-- The peer: the one that is set, or one that was discovered, or the session itself. -/
def peerFrom (s : Session) (bound : SocketAddress) (discovered : Option SocketAddress) :
    SocketAddress :=
  match s.options.peerAddress with
  | some peer => peer
  | none => (if s.options.enableDiscovery then discovered else none).getD bound.toSelf

/-- Begins to exchange datagrams with a peer.  An inbox that has ended is replaced. -/
def attach (s : Session) (now : Nat) (bound peer : SocketAddress) : Session :=
  let toSelf := peer.reaches bound
  { s with
    state := { s.state with
      peer := some peer
      remoteId := if toSelf then some s.localId else s.state.remoteId }
    inbox := if s.feeding then s.inbox else {}
    feeding := true
    running := some {
      encoder := .new s.localId.source now
      throttle := { interval := replyInterval }
      negotiates := s.options.enableNegotiation && !toSelf }
    accepting := true }

/-- Waits for the peer's proposal, if the session negotiates; one that needs a proposal stops without. -/
def awaitPeer (s : Session) (arrivals : List (Nat × List UInt8)) :
    Session × Except TransportError Unit :=
  if s.isNegotiating then
    let s := arrivals.foldl (fun s (time, data) => (s.receive time data).1) s
    if s.isNegotiating && s.options.requireNegotiation then
      (s.stop, .error (.negotiationTimeout s.options.negotiationTimeoutMs))
    else (s, .ok ())
  else (s, .ok ())

def start (s : Session) (now : Nat) (net : OpeningNet) : Session × Except TransportError Unit :=
  match net.bound with
  | .error why => (s, .error (.socket .bind why))
  | .ok bound =>
    let s := { s with localAddress := some bound }
    match if s.options.enableDiscovery then net.listening else .ok () with
    | .error why => (s, .error (.socket .listen why))
    | .ok () =>
      let peer := s.peerFrom bound net.discovered
      match net.connected peer with
      | .error why => (s, .error (.socket .connect why))
      | .ok () => (s.attach now bound peer).awaitPeer net.arrivals

def opened (s : Session) (now : Nat) (net : OpeningNet) : Session × Except TransportError Unit :=
  if s.running.isSome then (s, .ok ())
  else
    match frameCapacity s.options.mtu with
    | .error e => (s, .error e)
    | .ok _ =>
      match { s with state := { s.state with phase := .opening } }.start now net with
      | (s, .ok ()) =>
        ({ s with state := { s.state with phase := .ready }, openedBefore := true }, .ok ())
      | (s, .error e) => (s.reset, .error e)

def closed (s : Session) : Session :=
  if s.running.isSome then { s.stop.reset with feeding := false } else s

variable {σ : Type}

def sendFrames (socket : DatagramSocket σ) (now : Nat) (encoder : FrameEncoder) (net : σ) :
    List (List Packet) → FrameEncoder × σ × Except TransportError Unit
  | [] => (encoder, net, .ok ())
  | frame :: rest =>
    let (encoder, data) := encoder.encode now frame
    match socket.send net data with
    | (net, .ok ()) => sendFrames socket now encoder net rest
    | (net, .error why) => (encoder, net, .error (.send why))

def send (socket : DatagramSocket σ) (now : Nat) (s : Session) (net : σ) (packets : List Packet) :
    (Session × σ) × Except TransportError Unit :=
  if !s.accepting then
    ((s, net), .error (if s.openedBefore then .sessionClosed else .notConnected))
  else if packets.isEmpty then ((s, net), .ok ())
  else
    match s.running with
    | none => ((s, net), .error .sessionClosed)
    | some running =>
      match FramePacker.pack s.options.mtu packets with
      | .error e => ((s, net), .error e)
      | .ok frames =>
        let (encoder, net, result) := sendFrames socket now running.encoder net frames
        (({ s with running := some { running with encoder } }, net), result)

def link (socket : DatagramSocket σ) (now : Nat) : Link (Session × σ) where
  send s packets := send socket now s.1 s.2 packets

def take (s : Session) : Session × Except TransportError Unit :=
  match s.inbox.take with
  | .ok inbox => ({ s with inbox }, .ok ())
  | .error e => (s, .error e)

end Session
end FlexLink
