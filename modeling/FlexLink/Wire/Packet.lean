import FlexLink.Wire.Bytes
import FlexLink.Wire.Error

/-! # Packets

A universal MIDI packet of 128 bits is four words.  A Flex Data packet carries twelve bytes of
payload behind one word of addressing:

`type(4) | group(4) | form(2) | address(2) | channel(4) | status bank(8) | status(8)`. -/
set_option autoImplicit false
namespace FlexLink

structure Packet where
  word0 : UInt32
  word1 : UInt32
  word2 : UInt32
  word3 : UInt32
deriving DecidableEq, Inhabited

namespace Packet

def size : Nat := 16

def words (p : Packet) : List UInt32 := [p.word0, p.word1, p.word2, p.word3]

def ofWords? : List UInt32 → Option Packet
  | [a, b, c, d] => some ⟨a, b, c, d⟩
  | _ => none

def bytes (p : Packet) : List UInt8 :=
  Word.bytes p.word0 ++ Word.bytes p.word1 ++ Word.bytes p.word2 ++ Word.bytes p.word3

def ofBytes? : List UInt8 → Option Packet
  | [a0, a1, a2, a3, b0, b1, b2, b3, c0, c1, c2, c3, d0, d1, d2, d3] =>
    some ⟨Word.ofBytes a0 a1 a2 a3, Word.ofBytes b0 b1 b2 b3, Word.ofBytes c0 c1 c2 c3,
      Word.ofBytes d0 d1 d2 d3⟩
  | _ => none

/-- The top four bits. -/
def messageType (p : Packet) : UInt8 := UInt8.ofNat (p.word0.toNat / 0x10000000)

/-- The four bits below the message type. -/
def group (p : Packet) : UInt8 := UInt8.ofNat (p.word0.toNat / 0x1000000 % 16)

end Packet

/-- Where a packet stands in the run of packets that carries one text. -/
inductive FlexForm where
  | whole
  | start
  | middle
  | last
deriving DecidableEq

namespace FlexForm

def code : FlexForm → Nat
  | .whole => 0
  | .start => 1
  | .middle => 2
  | .last => 3

def ofCode (n : UInt8) : Except WireError FlexForm :=
  if n = 0 then .ok .whole
  else if n = 1 then .ok .start
  else if n = 2 then .ok .middle
  else if n = 3 then .ok .last
  else .error (.unknownForm n)

def name : FlexForm → String
  | .whole => "Complete"
  | .start => "Start"
  | .middle => "Continue"
  | .last => "End"

end FlexForm

inductive FlexAddress where
  | channel
  | group
deriving DecidableEq

def FlexAddress.code : FlexAddress → Nat
  | .channel => 0
  | .group => 1

/-- A Flex Data packet by its fields; only the low four bits of group and channel travel. -/
structure FlexPacket where
  group : UInt8
  form : FlexForm
  address : FlexAddress
  channel : UInt8
  statusBank : UInt8
  status : UInt8
  payload : Vector UInt8 12
deriving DecidableEq

namespace FlexPacket

def messageType : UInt8 := 0xD

def payloadSize : Nat := 12

/-- Status bank and status of packets that carry text. -/
def textBank : UInt8 := 1

def textStatus : UInt8 := 1

def header (p : FlexPacket) : UInt32 :=
  UInt32.ofNat (messageType.toNat * 0x10000000 + p.group.toNat % 16 * 0x1000000 + p.form.code * 0x400000
    + p.address.code * 0x100000 + p.channel.toNat % 16 * 0x10000 + p.statusBank.toNat * 0x100
    + p.status.toNat)

def toPacket (p : FlexPacket) : Packet :=
  let b := p.payload
  ⟨p.header, Word.ofBytes b[0] b[1] b[2] b[3], Word.ofBytes b[4] b[5] b[6] b[7],
    Word.ofBytes b[8] b[9] b[10] b[11]⟩

def payloadOf (a b c : UInt32) : Vector UInt8 12 :=
  let byte (w : UInt32) (unit : Nat) := UInt8.ofNat (w.toNat / unit)
  #v[byte a 0x1000000, byte a 0x10000, byte a 0x100, byte a 1,
    byte b 0x1000000, byte b 0x10000, byte b 0x100, byte b 1,
    byte c 0x1000000, byte c 0x10000, byte c 0x100, byte c 1]

/-- The fields of a Flex Data packet.  Every address but zero means the group. -/
def ofPacket (p : Packet) : Except WireError FlexPacket :=
  if p.messageType ≠ messageType then .error (.notFlexData p.messageType)
  else
    let header := p.word0.toNat
    match FlexForm.ofCode (UInt8.ofNat (header / 0x400000 % 4)) with
    | .error e => .error e
    | .ok form =>
      .ok {
        group := p.group
        form
        address := if header / 0x100000 % 4 = 0 then .channel else .group
        channel := UInt8.ofNat (header / 0x10000 % 16)
        statusBank := UInt8.ofNat (header / 0x100)
        status := UInt8.ofNat header
        payload := payloadOf p.word1 p.word2 p.word3 }

/-- The payload without the zeros that pad it. -/
def text (p : FlexPacket) : List UInt8 := stripZeros p.payload.toList

def isText (p : FlexPacket) : Bool := p.statusBank == textBank && p.status == textStatus

end FlexPacket
end FlexLink
