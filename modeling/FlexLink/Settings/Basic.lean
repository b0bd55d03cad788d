import FlexLink.Settings.Environment

/-! # Settings

What can be configured, with the values that hold where nothing is configured. -/
set_option autoImplicit false
namespace FlexLink

structure SessionSettings where
  localName : String := "flexmidi"
  bindAddress : String := "0.0.0.0:5004"
  /-- The peer; empty for one that is discovered. -/
  peerAddress : String := ""
  mtu : Nat := 1500
  enableDiscovery : Bool := true
  enableNegotiation : Bool := true
  negotiationTimeoutMs : Nat := 2000
  requireNegotiation : Bool := false
  protocolVersion : Nat := 1
  group : Nat := 0
  channel : Nat := 0
deriving DecidableEq

structure DiscoverySettings where
  multicastAddress : String := "239.255.77.77"
  port : Nat := 5008
  announceIntervalSecs : Nat := 2
  peerTtlSecs : Nat := 10
  waitMs : Nat := 1500
deriving DecidableEq

structure ReliabilitySettings where
  replayWindowMs : Nat := 60000
  maxReplayEntries : Nat := 100000
  maxBuffered : Nat := 512
deriving DecidableEq

structure BridgeSettings where
  journalDirectory : String
deriving DecidableEq

structure StreamSettings where
  maxFragmentBytes : Nat := 256
  ackEvery : Nat := 16
  maxReorder : Nat := 64
  maxFragments : Nat := 1024
deriving DecidableEq

structure Settings where
  session : SessionSettings := {}
  discovery : DiscoverySettings := {}
  reliability : ReliabilitySettings := {}
  bridge : BridgeSettings
  stream : StreamSettings := {}
deriving DecidableEq

def Settings.standard (env : Environment) : Settings := { bridge := ⟨env.journalDirectory⟩ }

end FlexLink
