import FlexLink.Inspect.Wire
import FlexLink.Session.Options

/-! # Settings, inspected

Settings and the options that follow from them as JSON. -/
set_option autoImplicit false
namespace FlexLink

open Json

def SettingsError.kind : SettingsError → String
  | .unreadable .. => "ReadFailed"
  | .malformed _ => "ParseFailed"
  | .unwritable _ => "WriteFailed"
  | .invalidValue .. => "InvalidValue"

/-- What a file says depends on the host, so only the kind of its error is shown. -/
instance : ToJson SettingsError where
  toJson
    | .invalidValue name value =>
      let e := SettingsError.invalidValue name value
      failure e.kind e.message
    | e => obj [("error", e.kind)]

instance : ToJson Toml.Node where
  toJson
    | .text s => s
    | .integer i => i.toNat
    | .bool b => b
    | _ => .null

instance : ToJson Settings where
  toJson s := obj (s.toTables.map fun part =>
    (part.1, obj (part.2.map fun setting => (setting.1, toJson setting.2))))

instance : ToJson DiscoveryOptions where
  toJson d := obj [
    ("multicast_addr", d.multicastAddress.render), ("port", d.port),
    ("announce_secs", d.announceIntervalSecs), ("ttl_secs", d.peerTtlSecs), ("wait_ms", d.waitMs)]

instance : ToJson SessionOptions where
  toJson o := obj [
    ("local_name", o.localName), ("bind_addr", o.bindAddress), ("peer_addr", o.peerAddress),
    ("mtu", o.mtu), ("enable_discovery", o.enableDiscovery),
    ("enable_negotiation", o.enableNegotiation),
    ("negotiation_timeout_ms", o.negotiationTimeoutMs),
    ("require_negotiation", o.requireNegotiation), ("protocol_version", o.protocolVersion),
    ("group", o.group), ("channel", o.channel), ("discovery", o.discovery)]

def Toml.Node.ofJson : Json → Toml.Node
  | .text s => .text s
  | .bool b => .bool b
  | .number (.integer i) => .integer i.val
  | _ => .fraction

def Settings.readJson (s : Settings) : Json → Option Settings
  | .object sections =>
    let part : Json → Toml.Node
      | .object ms => .table .header (ms.map fun m => (m.1, .ofJson m.2))
      | v => .ofJson v
    readDocument (sections.map fun m => (m.1, part m.2)) s
  | _ => none

end FlexLink
