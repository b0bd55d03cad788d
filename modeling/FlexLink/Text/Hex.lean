/-! # Hexadecimal bytes

Two lowercase digits a byte, most significant first. -/
set_option autoImplicit false
namespace FlexLink.Hex

def digit (n : Nat) : Char :=
  if n < 10 then Char.ofNat ('0'.toNat + n) else Char.ofNat ('a'.toNat + n - 10)

def value? (c : Char) : Option Nat :=
  if '0' ≤ c ∧ c ≤ '9' then some (c.toNat - '0'.toNat)
  else if 'a' ≤ c ∧ c ≤ 'f' then some (c.toNat - 'a'.toNat + 10)
  else if 'A' ≤ c ∧ c ≤ 'F' then some (c.toNat - 'A'.toNat + 10)
  else none

def encodeByte (b : UInt8) : List Char := [digit (b.toNat / 16), digit (b.toNat % 16)]

def encodeChars (bytes : List UInt8) : List Char := bytes.flatMap encodeByte

def encode (bytes : List UInt8) : String := String.ofList (encodeChars bytes)

/-- Reads pairs of digits; an odd digit or another character refuses the whole text. -/
def decodeChars : List Char → Option (List UInt8)
  | [] => some []
  | [_] => none
  | a :: b :: rest => do
    let high ← value? a
    let low ← value? b
    let bytes ← decodeChars rest
    return UInt8.ofNat (16 * high + low) :: bytes

def decode? (text : String) : Option (List UInt8) := decodeChars text.toList

end FlexLink.Hex
