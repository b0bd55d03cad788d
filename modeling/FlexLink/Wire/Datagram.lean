import FlexLink.Transport.State

/-! # Datagrams

Two kinds of datagram cross a session: data, a header of twelve bytes and whole packets, and
negotiation, 21 bytes that open with `MC`.  Data opens with `0x80`, so the kinds never meet. -/
set_option autoImplicit false
namespace FlexLink

structure Negotiation where
  version : UInt8
  endpoint : EndpointId
  group : UInt8
  channel : UInt8
deriving DecidableEq

namespace Negotiation

def magic : List UInt8 := [0x4D, 0x43]

def size : Nat := 21

def bytes (m : Negotiation) : List UInt8 :=
  magic ++ [m.version] ++ m.endpoint.toBytes ++ [m.group, m.channel]

def isNegotiation (data : List UInt8) : Bool := data.take 2 == magic

def decode (data : List UInt8) : Except WireError Negotiation :=
  if data.length ≠ size then .error (.badLength .negotiation data.length size)
  else if data.take 2 ≠ magic then .error .badMagic
  else
    let field (i : Nat) := data.getD i 0
    .ok ⟨field 2, .ofBytes ((data.drop 3).take 16), field 19, field 20⟩

end Negotiation

structure DataHeader where
  sequence : UInt16
  /-- Milliseconds since the sender started, modulo `2 ^ 32`. -/
  timestamp : UInt32
  source : UInt32
deriving DecidableEq

namespace DataHeader

def flags : UInt8 := 0x80

def payloadType : UInt8 := 0x61

def bytes (h : DataHeader) : List UInt8 :=
  [flags, payloadType] ++ HalfWord.bytes h.sequence ++ Word.bytes h.timestamp ++ Word.bytes h.source

end DataHeader

inductive Datagram where
  | data (sequence : UInt16) (source : UInt32) (packets : List Packet)
  | negotiation (message : Negotiation)
deriving DecidableEq

namespace Datagram

/-- Classifies and reads a datagram.  Payload type and timestamp may be anything. -/
def decode (data : List UInt8) : Except WireError Datagram :=
  if Negotiation.isNegotiation data then
    match Negotiation.decode data with
    | .ok m => .ok (.negotiation m)
    | .error e => .error e
  else if data.length < headerSize then .error (.badLength .data data.length headerSize)
  else
    let field (i : Nat) := data.getD i 0
    let payload := data.drop headerSize
    if field 0 ≠ DataHeader.flags then .error (.badHeader (field 0))
    else if payload.length % Packet.size ≠ 0 then
      .error (.badLength .payload payload.length (payload.length - payload.length % Packet.size))
    else
      .ok (.data (HalfWord.ofBytes (field 2) (field 3))
        (Word.ofBytes (field 8) (field 9) (field 10) (field 11))
        ((chunks Packet.size payload).filterMap Packet.ofBytes?))

end Datagram

/-- The source number of an endpoint: its four words, each bit counted modulo two. -/
def EndpointId.source (id : EndpointId) : UInt32 :=
  let word (b : List UInt8) : UInt32 := Word.ofBytes (b.getD 0 0) (b.getD 1 0) (b.getD 2 0) (b.getD 3 0)
  (chunks 4 id.toBytes).foldl (fun sum bytes => sum ^^^ word bytes) 0

structure FrameEncoder where
  sequence : UInt16
  source : UInt32
  epoch : Nat
deriving DecidableEq

namespace FrameEncoder

def new (source : UInt32) (now : Nat) : FrameEncoder := ⟨0, source, now⟩

/-- The datagram of a frame at time `now`; sequence numbers start again behind the last one. -/
def encode (e : FrameEncoder) (now : Nat) (frame : List Packet) : FrameEncoder × List UInt8 :=
  let header : DataHeader := ⟨e.sequence, UInt32.ofNat (now - e.epoch), e.source⟩
  ({ e with sequence := e.sequence + 1 }, header.bytes ++ frame.flatMap Packet.bytes)

end FrameEncoder
end FlexLink
