import FlexLink.Wire.Run
import FlexLink.Envelope.Control

/-! # Envelopes in packets

An envelope travels as the run of packets of its JSON text. -/
set_option autoImplicit false
namespace FlexLink

inductive DecodeFault where
  | run (why : RunError)
  | severalMessages
  | incomplete
  | text (why : Utf8.Error)
  | json (why : Json.Error)
deriving DecidableEq

def DecodeFault.message : DecodeFault → String
  | .run why => why.message
  | .severalMessages => "more than one message in run"
  | .incomplete => "incomplete flex data run"
  | .text why => why.message
  | .json why => why.message

inductive CodecError where
  | encoding (why : String)
  | decoding (why : DecodeFault)
deriving DecidableEq

def CodecError.message : CodecError → String
  | .encoding why => s!"encoding failed: {why}"
  | .decoding why => s!"decoding failed: {why.message}"

namespace Lane

def encodeText (lane : Lane) (text : String) : List Packet := lane.pack (Utf8.encode text)

def encode (lane : Lane) (command : Command) : List Packet := lane.encodeText command.render

def encodeEvent (lane : Lane) (event : Event) : List Packet := lane.encodeText event.render

end Lane

def parseText {α : Type} (shape : Json.Shape α) (bytes : List UInt8) : Except CodecError α :=
  match Utf8.decode bytes with
  | .error why => .error (.decoding (.text why))
  | .ok text =>
    match shape.parse text with
    | .error why => .error (.decoding (.json why))
    | .ok v => .ok v

def parseOutcome {α : Type} (shape : Json.Shape α) :
    Except RunError (List UInt8) → Except CodecError α
  | .error why => .error (.decoding (.run why))
  | .ok bytes => parseText shape bytes

/-- The one text that packets carry; a second outcome is refused whatever it is. -/
def soleText (a : Assembler) (found : Option (List UInt8)) :
    List Packet → Except DecodeFault (List UInt8)
  | [] =>
    match found with
    | some text => .ok text
    | none => .error .incomplete
  | p :: rest =>
    match a.push p with
    | (a, none) => soleText a found rest
    | (a, some outcome) =>
      if found.isSome then .error .severalMessages
      else
        match outcome with
        | .error why => .error (.run why)
        | .ok text => soleText a (some text) rest

def decodeRun {α : Type} (shape : Json.Shape α) (packets : List Packet) : Except CodecError α :=
  match soleText {} none packets with
  | .error why => .error (.decoding why)
  | .ok bytes => parseText shape bytes

def decode (packets : List Packet) : Except CodecError Command := decodeRun Command.shape packets

def decodeEvent (packets : List Packet) : Except CodecError Event := decodeRun Event.shape packets

end FlexLink
