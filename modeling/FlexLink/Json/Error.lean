import FlexLink.Json.Printer
import FlexLink.Text.Quoted
import FlexLink.Text.Utf8

/-! # Why a text is not the JSON that was asked for

A cause is a rule that the text or the value breaks.  A fault in a text also says how many bytes
were still unread where it was found, which `place` turns into a line and a column. -/
set_option autoImplicit false
namespace FlexLink.Json

inductive Found where
  | null
  | bool (b : Bool)
  | integer (i : Int)
  | real (x : Binary64)
  | text (s : String)
  | sequence
  | map
deriving DecidableEq

def Found.describe : Found → String
  | .null => "null"
  | .bool b => s!"boolean `{String.ofList (boolChars b)}`"
  | .integer i => s!"integer `{String.ofList (decimalInt i)}`"
  | .real x => s!"floating point `{String.ofList (x.write .interchange)}`"
  | .text s => s!"string {Text.quote s}"
  | .sequence => "sequence"
  | .map => "map"

/-- What an already read value would be found as. -/
def found : Json → Found
  | .null => .null
  | .bool b => .bool b
  | .number (.integer i) => .integer i.val
  | .number (.real x) => .real x
  | .text s => .text s
  | .array _ => .sequence
  | .object _ => .map

inductive Cause where
  | endInValue
  | endInString
  | endInList
  | endInObject
  | expectedValue
  | expectedIdent
  | expectedColon
  | expectedListEnd
  | expectedObjectEnd
  | nameNotString
  | trailingComma
  | trailingCharacters
  | invalidNumber
  | numberOutOfRange
  | invalidEscape
  | controlCharacter
  | loneSurrogate
  | endOfEscape
  | tooDeep
  | wrongType (found : Found) (expected : String)
  | wrongValue (found : Found) (expected : String)
  | wrongLength (length : Nat) (expected : String)
  | missingField (name : String)
  | duplicateField (name : String)
  | unknownVariant (name : String) (expected : List String)
deriving DecidableEq

def alternatives : List String → String
  | [] => "nothing"
  | [a] => s!"`{a}`"
  | [a, b] => s!"`{a}` or `{b}`"
  | names => "one of " ++ ", ".intercalate (names.map fun n => s!"`{n}`")

def Cause.message : Cause → String
  | .endInValue => "EOF while parsing a value"
  | .endInString => "EOF while parsing a string"
  | .endInList => "EOF while parsing a list"
  | .endInObject => "EOF while parsing an object"
  | .expectedValue => "expected value"
  | .expectedIdent => "expected ident"
  | .expectedColon => "expected `:`"
  | .expectedListEnd => "expected `,` or `]`"
  | .expectedObjectEnd => "expected `,` or `\x7d`"
  | .nameNotString => "key must be a string"
  | .trailingComma => "trailing comma"
  | .trailingCharacters => "trailing characters"
  | .invalidNumber => "invalid number"
  | .numberOutOfRange => "number out of range"
  | .invalidEscape => "invalid escape"
  | .controlCharacter => "control character (\\u0000-\\u001F) found while parsing a string"
  | .loneSurrogate => "lone leading surrogate in hex escape"
  | .endOfEscape => "unexpected end of hex escape"
  | .tooDeep => "recursion limit exceeded"
  | .wrongType found expected => s!"invalid type: {found.describe}, expected {expected}"
  | .wrongValue found expected => s!"invalid value: {found.describe}, expected {expected}"
  | .wrongLength length expected => s!"invalid length {length}, expected {expected}"
  | .missingField name => s!"missing field `{name}`"
  | .duplicateField name => s!"duplicate field `{name}`"
  | .unknownVariant name expected =>
    s!"unknown variant `{name}`, expected {alternatives expected}"

/-- A broken rule, and how many bytes of the text were unread there. -/
structure Fault where
  cause : Cause
  unread : Nat
deriving DecidableEq

structure Place where
  line : Nat
  column : Nat
deriving DecidableEq

/-- Where a reader stands after `index` bytes, from the given place on. -/
def placeFrom (place : Place) (index : Nat) : List Char → Place
  | [] => place
  | c :: rest =>
    if index < Utf8.width c then ⟨place.line, place.column + index⟩
    else
      placeFrom (if c = '\n' then ⟨place.line + 1, 0⟩ else ⟨place.line, place.column + Utf8.width c⟩)
        (index - Utf8.width c) rest

structure Error where
  cause : Cause
  place : Option Place
deriving DecidableEq

def Error.message (e : Error) : String :=
  match e.place with
  | none => e.cause.message
  | some p => s!"{e.cause.message} at line {p.line} column {p.column}"

def Fault.inText (f : Fault) (text : List Char) : Error :=
  ⟨f.cause, some (placeFrom ⟨1, 0⟩ (Utf8.size text - f.unread) text)⟩

end FlexLink.Json
