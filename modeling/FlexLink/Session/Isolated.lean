import FlexLink.Session.Basic
import FlexLink.SystemError

/-! # A host without routes

What a session meets on a host whose only interface, the loopback one, is down: sockets can be
bound to many addresses, but none of them reaches anything. -/
set_option autoImplicit false
namespace FlexLink

namespace IPv4

def isMulticast (ip : IPv4) : Bool := 224 ≤ ip.a && ip.a < 240

end IPv4

namespace IPv6

def firstGroup (ip : IPv6) : UInt16 := ip.groups.toList.headD 0

def isMulticast (ip : IPv6) : Bool := (0xFF00 : UInt16) ≤ ip.firstGroup

def isLinkLocal (ip : IPv6) : Bool := ip.firstGroup &&& 0xFFC0 == 0xFE80

def reach (ip : IPv6) : UInt16 := ip.firstGroup &&& 0x000F

/-- Whether the address means something only together with an interface: one of a link, or a
multicast address that does not reach beyond one. -/
def needsScope (ip : IPv6) : Bool :=
  ip.isLinkLocal || ip.isMulticast && (ip.reach == 1 || ip.reach == 2)

end IPv6

namespace Isolated

def interface : UInt32 := 1

def bindFault? (a : SocketAddress) : Option SystemError :=
  match a.ip with
  | .v4 _ => none
  | .v6 ip =>
    if ip.needsScope && a.scope = 0 then some .invalidArgument
    else if ip.needsScope && a.scope ≠ interface then some .noDevice
    else if ip.isUnspecified || ip.isMulticast || ip.mapped?.isSome then none
    else some .addressNotAvailable

/-- Whether an address lacks the interface that it needs.  A socket that is bound to one takes
that one, and no other. -/
def lacksScope (bound : IPv6) (peer : SocketAddress) (ip : IPv6) : Bool :=
  if bound.needsScope then ip.needsScope && peer.scope ≠ 0 && peer.scope ≠ interface
  else ip.needsScope && peer.scope = 0

/-- Why a socket does not reach a peer, which none does. -/
def connectFault (bound peer : SocketAddress) : SystemError :=
  match bound.ip, peer.ip with
  | .v4 _, .v4 _ => .networkUnreachable
  | .v4 _, .v6 _ => .familyNotSupported
  | .v6 b, .v4 _ => if b.isMulticast then .familyNotSupported else .networkUnreachable
  | .v6 b, .v6 p =>
    if lacksScope b peer p then .invalidArgument
    else if b.mapped?.isSome || p.mapped?.isSome then .networkUnreachable
    else .addressNotAvailable

def carry (source target : SocketAddress) (_ : List UInt8) : Except SystemError (List UInt8) :=
  .error (connectFault source target)

def joinFault (group : IPv4) : SystemError :=
  if group.isMulticast then .noDevice else .invalidArgument

end Isolated

/-- What a session with the given options meets.  A port that is left open becomes `port`. -/
def OpeningNet.isolated (options : SessionOptions) (port : UInt16) : OpeningNet :=
  let bind := options.bindAddress
  let bound := if bind.port = 0 then { bind with port } else bind
  { bound :=
      match Isolated.bindFault? bind with
      | some why => .error why.message
      | none => .ok bound
    listening := .error <|
      "IP_ADD_MEMBERSHIP: " ++ (Isolated.joinFault options.discovery.multicastAddress).message
    connected := fun peer => .error (Isolated.connectFault bound peer).message }

end FlexLink
