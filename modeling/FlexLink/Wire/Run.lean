import FlexLink.Wire.Packet

/-! # Text runs

A text of up to twelve bytes travels in one complete packet, a longer one in a start packet,
continuation packets and an end packet of twelve bytes each, the last one padded with zeros.
An assembler takes packets one at a time and gives back the texts; packets say only where in a
run they stand, so a run whose end is missing is given up when the next one starts. -/
set_option autoImplicit false
namespace FlexLink

/-- The group and channel that packets are addressed to, four bits each. -/
structure Lane where
  group : UInt8
  channel : UInt8
deriving DecidableEq

namespace Lane

def of (group channel : UInt8) : Lane := ⟨group &&& 0x0F, channel &&& 0x0F⟩

def base : Lane := ⟨0, 0⟩

def packet (lane : Lane) (form : FlexForm) (chunk : List UInt8) : Packet :=
  let bytes := padZeros 12 chunk
  FlexPacket.toPacket {
    group := lane.group
    form
    address := .group
    channel := lane.channel
    statusBank := FlexPacket.textBank
    status := FlexPacket.textStatus
    payload := Vector.ofFn fun i => bytes.getD i 0 }

def packRest (lane : Lane) : List (List UInt8) → List Packet
  | [] => []
  | [last] => [lane.packet .last last]
  | chunk :: rest => lane.packet .middle chunk :: lane.packRest rest

def pack (lane : Lane) (text : List UInt8) : List Packet :=
  if text.length ≤ FlexPacket.payloadSize then [lane.packet .whole text]
  else
    match chunks FlexPacket.payloadSize text with
    | [] => []
    | first :: rest => lane.packet .start first :: lane.packRest rest

end Lane

inductive RunError where
  | notFlex (why : WireError)
  | notText (bank status : UInt8)
  | continueWithoutStart
  | endWithoutStart
deriving DecidableEq

def RunError.message : RunError → String
  | .notFlex why => why.message
  | .notText bank status =>
    s!"not a text message (bank 0x{hexText 2 bank.toNat}, status 0x{hexText 2 status.toNat})"
  | .continueWithoutStart => "continue without start"
  | .endWithoutStart => "end without start"

structure Assembler where
  /-- The chunks of the run that is open, newest first. -/
  opened : Option (List (List UInt8)) := none
  interrupted : Nat := 0
deriving DecidableEq

namespace Assembler

abbrev Outcome := Option (Except RunError (List UInt8))

def isIdle (a : Assembler) : Bool := a.opened.isNone

def restart (a : Assembler) : Assembler :=
  match a.opened with
  | some _ => ⟨none, a.interrupted + 1⟩
  | none => a

def pushText (a : Assembler) (form : FlexForm) (chunk : List UInt8) : Assembler × Outcome :=
  match form with
  | .whole => (a.restart, some (.ok chunk))
  | .start => ({ a.restart with opened := some [chunk] }, none)
  | .middle =>
    match a.opened with
    | some done => ({ a with opened := some (chunk :: done) }, none)
    | none => (a, some (.error .continueWithoutStart))
  | .last =>
    match a.opened with
    | some done => ({ a with opened := none }, some (.ok (chunk :: done).reverse.flatten))
    | none => (a, some (.error .endWithoutStart))

/-- One packet.  A packet that is no text leaves the open run as it is. -/
def push (a : Assembler) (p : Packet) : Assembler × Outcome :=
  match FlexPacket.ofPacket p with
  | .error why => (a, some (.error (.notFlex why)))
  | .ok flex =>
    if flex.isText then a.pushText flex.form flex.text
    else (a, some (.error (.notText flex.statusBank flex.status)))

def pushAll (a : Assembler) : List Packet → Assembler × List (Except RunError (List UInt8))
  | [] => (a, [])
  | p :: rest =>
    let (a, outcome) := a.push p
    let (a, outcomes) := a.pushAll rest
    (a, outcome.toList ++ outcomes)

def texts (packets : List Packet) : List (List UInt8) :=
  (pushAll {} packets).2.filterMap Except.toOption

end Assembler
end FlexLink
