import FlexLink.Text.Quoted
import FlexLink.Number.Text

/-! # Why wire data is refused -/
set_option autoImplicit false
namespace FlexLink

inductive Measured where
  | negotiation
  | data
  | payload
deriving DecidableEq

def Measured.name : Measured → String
  | .negotiation => "negotiation"
  | .data => "data"
  | .payload => "data payload"

inductive WireError where
  | notFlexData (messageType : UInt8)
  | unknownForm (form : UInt8)
  | badLength (what : Measured) (actual expected : Nat)
  | badMagic
  | badHeader (byte : UInt8)
deriving DecidableEq

def hexText (width n : Nat) : String := String.ofList (padLeft '0' width (Text.hexDigits n))

def WireError.message : WireError → String
  | .notFlexData messageType => s!"not a flex data packet (message type 0x{hexText 1 messageType.toNat})"
  | .unknownForm form => s!"unknown flex form: 0x{hexText 1 form.toNat}"
  | .badLength what actual expected =>
    s!"{what.name} datagram has {actual} bytes, expected {expected}"
  | .badMagic => "bad negotiation magic"
  | .badHeader byte => s!"unexpected datagram header byte: 0x{hexText 2 byte.toNat}"

end FlexLink
