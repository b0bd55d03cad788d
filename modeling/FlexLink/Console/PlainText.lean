/-! # Text without control sequences

Text that is meant for a terminal can hold control characters, and sequences that begin with the
escape character.  Anywhere else only the characters that can be read are left of it, and the
blank ones among the control characters.

Each character is passed or held back by the place it stands at: in the text or in a sequence of
one of four kinds.  A blank control character inside an escape sequence or a command is passed, and
with it all that can be read up to the next character that cannot; only then the sequence goes
on. -/
set_option autoImplicit false
namespace FlexLink.PlainText

inductive Place where
  | text
  | escape
  | escapeTail
  | command
  | system
  | device
  | deviceParameters
  | deviceTail
  | string
deriving DecidableEq

def isIntermediate (b : UInt8) : Bool := 0x20 ≤ b && b ≤ 0x2F

def isParameter (b : UInt8) : Bool := 0x30 ≤ b && b ≤ 0x3F

/-- Parameters that may only come first. -/
def isPrivate (b : UInt8) : Bool := 0x3C ≤ b && b ≤ 0x3F

def isFinal (b : UInt8) : Bool := 0x40 ≤ b && b ≤ 0x7E

def isEscapeFinal (b : UInt8) : Bool := 0x30 ≤ b && b ≤ 0x7E

/-- The place behind a byte that is held back. -/
def Place.next (place : Place) (b : UInt8) : Place :=
  if b = 0x18 || b = 0x1A then .text
  else if b = 0x1B then .escape
  else
    match place with
    | .text => .text
    | .escape =>
      if b = 0x5B then .command
      else if b = 0x5D then .system
      else if b = 0x50 then .device
      else if b = 0x58 || b = 0x5E || b = 0x5F then .string
      else if isIntermediate b then .escapeTail
      else if isEscapeFinal b then .text
      else .escape
    | .escapeTail => if isEscapeFinal b then .text else .escapeTail
    | .command => if isFinal b then .text else .command
    | .system => if b = 0x07 then .text else .system
    | .device =>
      if isFinal b then .string
      else if isParameter b then .deviceParameters
      else if isIntermediate b then .deviceTail
      else .device
    | .deviceParameters =>
      if isFinal b || isPrivate b then .string
      else if isIntermediate b then .deviceTail
      else .deviceParameters
    | .deviceTail => if isFinal b || isParameter b then .string else .deviceTail
    | .string => if b = 0x9C then .text else .string

def Place.passesBlanks : Place → Bool
  | .escape | .escapeTail | .command => true
  | _ => false

def isBlankControl (c : Char) : Bool := c == '\t' || c == '\n' || c == '\x0c' || c == '\r'

def isReadable (c : Char) : Bool := (' ' ≤ c && c ≠ '\x7f') || isBlankControl c

structure Scan where
  place : Place := .text
  passing : Bool := false
deriving DecidableEq

/-- The state behind a character, and whether that character is passed.  A character beyond ASCII
that is passed ends a sequence. -/
def Scan.step (s : Scan) (c : Char) : Scan × Bool :=
  if (s.passing || s.place = .text) && isReadable c then
    ({ place := if c.toNat < 0x80 then s.place else .text, passing := true }, true)
  else if s.place.passesBlanks && isBlankControl c then ({ s with passing := true }, true)
  else ({ place := (String.utf8EncodeChar c).foldl Place.next s.place }, false)

def passed (s : Scan) : List Char → List Char
  | [] => []
  | c :: rest =>
    match s.step c with
    | (s, true) => c :: passed s rest
    | (s, false) => passed s rest

end FlexLink.PlainText

namespace FlexLink

/-- What is left of a text where no terminal is. -/
def plainText (text : String) : String := String.ofList (PlainText.passed {} text.toList)

end FlexLink
