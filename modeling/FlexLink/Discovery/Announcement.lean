import FlexLink.Digest.Blake3
import FlexLink.Text.Utf8
import FlexLink.Transport.State

/-! # Announcements

An endpoint tells its neighbours who it is in 84 bytes: the hash of its service, its id, its port,
its protocol version, a reserved byte and its name in 32 bytes, padded with zeros. -/
set_option autoImplicit false
namespace FlexLink

def serviceHash (service : List UInt8) : List UInt8 := Blake3.hash service

def rtpMidiService : String := "_rtp-midi._udp"

def rtpMidiHash : List UInt8 := serviceHash (Utf8.encode rtpMidiService)

structure Announcement where
  service : List UInt8
  endpoint : EndpointId
  port : UInt16
  version : UInt8
  flags : UInt8
  nameBytes : List UInt8
deriving DecidableEq

namespace Announcement

def nameSize : Nat := 32

def size : Nat := 84

/-- The announcement of an RTP-MIDI endpoint; a long name loses whole characters at its end. -/
def new (endpoint : EndpointId) (port : UInt16) (version : UInt8) (name : String) : Announcement :=
  let kept := String.ofList (Utf8.takeChars nameSize name.toList)
  ⟨rtpMidiHash, endpoint, port, version, 0, padZeros nameSize (Utf8.encode kept)⟩

def bytes (a : Announcement) : List UInt8 :=
  a.service ++ a.endpoint.toBytes ++ HalfWord.bytes a.port ++ [a.version, a.flags] ++ a.nameBytes

def ofBytes? (data : List UInt8) : Option Announcement :=
  if data.length ≠ size then none
  else
    let field (i : Nat) := data.getD i 0
    some ⟨data.take 32, .ofBytes ((data.drop 32).take 16), HalfWord.ofBytes (field 48) (field 49),
      field 50, field 51, data.drop 52⟩

/-- The name up to the first zero. -/
def name (a : Announcement) : String := Utf8.decodeLossy (a.nameBytes.takeWhile (· != 0))

def isRtpMidi (a : Announcement) : Bool := a.service == rtpMidiHash

end Announcement
end FlexLink
