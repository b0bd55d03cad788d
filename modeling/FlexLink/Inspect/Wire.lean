import FlexLink.Discovery.Registry
import FlexLink.Envelope.Codec
import FlexLink.Json.Encode
import FlexLink.Session.Negotiate

/-! # The wire, inspected

Packets, datagrams and announcements as JSON, with what they mean beside what they hold. -/
set_option autoImplicit false
namespace FlexLink

open Json

def WireError.kind : WireError → String
  | .notFlexData _ => "NotFlexData"
  | .unknownForm _ => "UnknownFlexForm"
  | .badLength .. => "BadLength"
  | .badMagic => "BadMagic"
  | .badHeader _ => "BadHeader"

def CodecError.kind : CodecError → String
  | .encoding _ => "EncodingFailed"
  | .decoding _ => "DecodingFailed"

def TransportError.kind : TransportError → String
  | .socket .. => "Socket"
  | .send _ => "Send"
  | .notConnected => "NotConnected"
  | .sessionClosed => "SessionClosed"
  | .negotiationTimeout _ => "NegotiationTimeout"
  | .invalidMtu _ => "InvalidMtu"
  | .receiverTaken => "ReceiverTaken"

instance : ToJson WireError := ⟨fun e => failure e.kind e.message⟩

instance : ToJson CodecError := ⟨fun e => failure e.kind e.message⟩

instance : ToJson RunError := ⟨fun e => toJson (CodecError.decoding (.run e))⟩

instance : ToJson Json.Error := ⟨fun e => failure "Json" e.message⟩

/-- What a socket says depends on the host, so only what it was asked is shown. -/
instance : ToJson TransportError where
  toJson
    | .socket op why => obj [("error", (TransportError.socket op why).kind), ("op", op.name)]
    | e => failure e.kind e.message

instance : ToJson Packet := ⟨fun p => .text (Hex.encode p.bytes)⟩

instance : ToJson EndpointId := ⟨fun id => .text id.render⟩

instance : ToJson SocketAddress := ⟨fun a => .text a.render⟩

def FlexAddress.name : FlexAddress → String
  | .channel => "Channel"
  | .group => "Group"

instance : ToJson FlexPacket where
  toJson p := obj [
    ("group", p.group), ("form", p.form.name), ("address", p.address.name), ("channel", p.channel),
    ("status_bank", p.statusBank), ("status", p.status),
    ("payload", Hex.encode p.payload.toList), ("text", Hex.encode p.text), ("is_text", p.isText)]

def Negotiation.members (m : Negotiation) : List (String × Json) :=
  [("version", m.version), ("endpoint_id", m.endpoint), ("group", m.group), ("channel", m.channel)]

instance : ToJson Negotiation := ⟨fun m => obj m.members⟩

instance : ToJson Datagram where
  toJson
    | .data sequence source packets =>
      obj [("kind", "data"), ("sequence", sequence), ("ssrc", source), ("packets", packets)]
    | .negotiation m => obj (("kind", "negotiation") :: m.members)

instance : ToJson Announcement where
  toJson a := obj [
    ("hex", Hex.encode a.bytes), ("endpoint_id", a.endpoint), ("port", a.port),
    ("version", a.version), ("flags", a.flags), ("name", a.name), ("rtp_midi", a.isRtpMidi)]

instance : ToJson Peer where
  toJson p := obj [
    ("id", p.endpoint), ("name", p.name), ("addr", p.address), ("version", p.version)]

instance : ToJson Registry := ⟨fun r => toJson r.peers⟩

/-- A remote id that is our own shows as such. -/
instance : ToJson SessionState where
  toJson s := obj [
    ("phase", s.phase.name),
    ("remote", s.remoteId.map fun id => if id = s.localId then "self" else id.render),
    ("version", s.version), ("group", s.group), ("channel", s.channel), ("ready", s.isReady),
    ("negotiated", s.isNegotiated), ("has_peer", s.peer.isSome)]

end FlexLink
