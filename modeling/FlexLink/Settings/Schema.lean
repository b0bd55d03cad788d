import FlexLink.Settings.Basic
import FlexLink.Toml.Value
import FlexLink.Number.Text

/-! # The schema of the settings

Each setting has a name, a place in the settings and a way to read it from a document and from a
variable, so that the document, the variables and the written defaults agree on names and order. -/
set_option autoImplicit false
namespace FlexLink

open Toml (Node)

structure Setting (σ : Type) where
  key : String
  ofNode : Node → σ → Option σ
  ofText : String → σ → Option σ
  toNode : σ → Node

namespace Setting

variable {σ : Type}

def text (key : String) (get : σ → String) (set : String → σ → σ) : Setting σ where
  key := key
  ofNode
    | .text s, part => some (set s part)
    | _, _ => none
  ofText s part := some (set s part)
  toNode part := .text (get part)

/-- A switch; in a variable, all but two words turn it off. -/
def switch (key : String) (get : σ → Bool) (set : Bool → σ → σ) : Setting σ where
  key := key
  ofNode
    | .bool b, part => some (set b part)
    | _, _ => none
  ofText s part := some (set (s == "true" || s == "1") part)
  toNode part := .bool (get part)

/-- A natural number in decimal, perhaps behind a plus sign. -/
def naturalOfText? (text : String) : Option Nat :=
  let digits :=
    match text.toList with
    | '+' :: rest => rest
    | chars => chars
  if digits.isEmpty then none
  else (digits.mapM decimalValue?).map fun values => values.foldl (fun n d => n * 10 + d) 0

def count (bits : Nat) (key : String) (get : σ → Nat) (set : Nat → σ → σ) : Setting σ where
  key := key
  ofNode
    | .integer i, part =>
      if 0 ≤ i ∧ i < twoTo bits then some (set i.toNat part) else none
    | _, _ => none
  ofText s part :=
    match naturalOfText? s with
    | some n => if n < twoTo bits then some (set n part) else none
    | none => none
  toNode part := .integer (get part)

end Setting

def SessionSettings.schema : List (Setting SessionSettings) := [
  .text "local_name" (·.localName) (fun x s => { s with localName := x }),
  .text "bind_addr" (·.bindAddress) (fun x s => { s with bindAddress := x }),
  .text "peer_addr" (·.peerAddress) (fun x s => { s with peerAddress := x }),
  .count 64 "mtu" (·.mtu) (fun x s => { s with mtu := x }),
  .switch "enable_discovery" (·.enableDiscovery) (fun x s => { s with enableDiscovery := x }),
  .switch "enable_negotiation" (·.enableNegotiation) (fun x s => { s with enableNegotiation := x }),
  .count 64 "negotiation_timeout_ms" (·.negotiationTimeoutMs)
    (fun x s => { s with negotiationTimeoutMs := x }),
  .switch "require_negotiation" (·.requireNegotiation)
    (fun x s => { s with requireNegotiation := x }),
  .count 8 "protocol_version" (·.protocolVersion) (fun x s => { s with protocolVersion := x }),
  .count 8 "group" (·.group) (fun x s => { s with group := x }),
  .count 8 "channel" (·.channel) (fun x s => { s with channel := x })]

def DiscoverySettings.schema : List (Setting DiscoverySettings) := [
  .text "multicast_addr" (·.multicastAddress) (fun x s => { s with multicastAddress := x }),
  .count 16 "port" (·.port) (fun x s => { s with port := x }),
  .count 64 "announce_interval_secs" (·.announceIntervalSecs)
    (fun x s => { s with announceIntervalSecs := x }),
  .count 64 "peer_ttl_secs" (·.peerTtlSecs) (fun x s => { s with peerTtlSecs := x }),
  .count 64 "discovery_wait_ms" (·.waitMs) (fun x s => { s with waitMs := x })]

def ReliabilitySettings.schema : List (Setting ReliabilitySettings) := [
  .count 64 "replay_window_ms" (·.replayWindowMs) (fun x s => { s with replayWindowMs := x }),
  .count 64 "max_replay_entries" (·.maxReplayEntries) (fun x s => { s with maxReplayEntries := x }),
  .count 64 "max_buffered" (·.maxBuffered) (fun x s => { s with maxBuffered := x })]

def BridgeSettings.schema : List (Setting BridgeSettings) := [
  .text "journal_dir" (·.journalDirectory) (fun x s => { s with journalDirectory := x })]

def StreamSettings.schema : List (Setting StreamSettings) := [
  .count 64 "max_fragment_bytes" (·.maxFragmentBytes) (fun x s => { s with maxFragmentBytes := x }),
  .count 64 "ack_every" (·.ackEvery) (fun x s => { s with ackEvery := x }),
  .count 64 "max_reorder" (·.maxReorder) (fun x s => { s with maxReorder := x }),
  .count 32 "max_fragments" (·.maxFragments) (fun x s => { s with maxFragments := x })]

namespace Setting

def within {σ τ : Type} (get : τ → σ) (set : σ → τ → τ) (s : Setting σ) : Setting τ where
  key := s.key
  ofNode node whole := (s.ofNode node (get whole)).map fun part => set part whole
  ofText text whole := (s.ofText text (get whole)).map fun part => set part whole
  toNode whole := s.toNode (get whole)

end Setting

structure SettingsSection where
  name : String
  settings : List (Setting Settings)

namespace Settings

def sections : List SettingsSection := [
  ⟨"session", SessionSettings.schema.map (.within (·.session) fun x s => { s with session := x })⟩,
  ⟨"discovery",
    DiscoverySettings.schema.map (.within (·.discovery) fun x s => { s with discovery := x })⟩,
  ⟨"reliability",
    ReliabilitySettings.schema.map (.within (·.reliability) fun x s => { s with reliability := x })⟩,
  ⟨"bridge", BridgeSettings.schema.map (.within (·.bridge) fun x s => { s with bridge := x })⟩,
  ⟨"stream", StreamSettings.schema.map (.within (·.stream) fun x s => { s with stream := x })⟩]

/-- Members of a section; unknown names are passed over. -/
def readMembers (settings : List (Setting Settings)) : Toml.Members → Settings → Option Settings
  | [], s => some s
  | (key, node) :: rest, s =>
    match settings.find? (·.key == key) with
    | none => readMembers settings rest s
    | some setting => (setting.ofNode node s).bind (readMembers settings rest)

/-- Values of a section in the order of its settings; those left out keep their defaults and those
over are passed over. -/
def readItems : List (Setting Settings) → List Node → Settings → Option Settings
  | setting :: settings, node :: nodes, s => (setting.ofNode node s).bind (readItems settings nodes)
  | _, _, s => some s

/-- A section, by names or by order.  A date is a table that names no setting. -/
def readSection (settings : List (Setting Settings)) (s : Settings) : Node → Option Settings
  | .table _ ms => readMembers settings ms s
  | .array nodes => readItems settings nodes s
  | .tables items => readItems settings (items.reverse.map (.table .header)) s
  | .date => some s
  | _ => none

def readDocument : Toml.Members → Settings → Option Settings
  | [], s => some s
  | (name, node) :: rest, s =>
    match sections.find? (·.name == name) with
    | none => readDocument rest s
    | some part => (readSection part.settings s node).bind (readDocument rest)

def toTables (s : Settings) : List (String × Toml.Members) :=
  sections.map fun part => (part.name, part.settings.map fun setting => (setting.key, setting.toNode s))

end Settings
end FlexLink
