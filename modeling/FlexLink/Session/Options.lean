import FlexLink.Settings.Load
import FlexLink.Text.Blank
import FlexLink.Transport.State

/-! # Session options

The settings of a session with its addresses read and its limits checked. -/
set_option autoImplicit false
namespace FlexLink

structure DiscoveryOptions where
  multicastAddress : IPv4 := ⟨239, 255, 77, 77⟩
  port : UInt16 := 5008
  announceIntervalSecs : Nat := 2
  peerTtlSecs : Nat := 10
  waitMs : Nat := 1500
deriving DecidableEq

structure SessionOptions where
  localName : String := "flexmidi"
  bindAddress : SocketAddress
  peerAddress : Option SocketAddress
  mtu : Nat := 1500
  enableDiscovery : Bool
  enableNegotiation : Bool := true
  negotiationTimeoutMs : Nat := 2000
  requireNegotiation : Bool := false
  protocolVersion : UInt8 := 1
  group : UInt8 := 0
  channel : UInt8 := 0
  discovery : DiscoveryOptions := {}
deriving DecidableEq

namespace SessionOptions

def required {α : Type} (name value : String) : Option α → Except SettingsError α
  | some v => .ok v
  | none => .error (.invalidValue name value)

def peer? (value : String) : Except SettingsError (Option SocketAddress) :=
  let address := Text.trim value
  if address.isEmpty then .ok none
  else (required "session.peer_addr" value (SocketAddress.parse? address)).map some

/-- The options of settings; of several faults the first in order counts. -/
def ofSettings (settings : Settings) : Except SettingsError SessionOptions := do
  let s := settings.session
  let d := settings.discovery
  let bindAddress ← required "session.bind_addr" s.bindAddress (SocketAddress.parse? s.bindAddress)
  let peerAddress ← peer? s.peerAddress
  let multicastAddress ←
    required "discovery.multicast_addr" d.multicastAddress (IPv4.parse? d.multicastAddress)
  let mtu ←
    match validMtu s.mtu with
    | .ok mtu => pure mtu
    | .error e => throw (.invalidValue "session.mtu" e.message)
  return {
    localName := s.localName
    bindAddress
    peerAddress
    mtu
    enableDiscovery := s.enableDiscovery
    enableNegotiation := s.enableNegotiation
    negotiationTimeoutMs := s.negotiationTimeoutMs
    requireNegotiation := s.requireNegotiation
    protocolVersion := .ofNat s.protocolVersion
    group := .ofNat s.group
    channel := .ofNat s.channel
    discovery := {
      multicastAddress
      port := .ofNat d.port
      announceIntervalSecs := d.announceIntervalSecs
      peerTtlSecs := d.peerTtlSecs
      waitMs := d.waitMs } }

def pointToPoint (bindAddress : SocketAddress) (peerAddress : Option SocketAddress) :
    SessionOptions :=
  { bindAddress, peerAddress, enableDiscovery := false }

end SessionOptions
end FlexLink
