import FlexLink.Json.Value

/-! # Written JSON

The compact form: no blanks, object members in their order, and in strings only quotes,
backslashes and control characters escaped. -/
set_option autoImplicit false
namespace FlexLink.Json

def lowHex (n : Nat) : Char :=
  if n < 10 then Char.ofNat ('0'.toNat + n) else Char.ofNat ('a'.toNat + n - 10)

def escapeChar (c : Char) : List Char :=
  if c = '"' then ['\\', '"']
  else if c = '\\' then ['\\', '\\']
  else if c = '\x08' then ['\\', 'b']
  else if c = '\x0c' then ['\\', 'f']
  else if c = '\n' then ['\\', 'n']
  else if c = '\r' then ['\\', 'r']
  else if c = '\t' then ['\\', 't']
  else if c < ' ' then ['\\', 'u', '0', '0', lowHex (c.toNat / 16), lowHex (c.toNat % 16)]
  else [c]

def stringChars (s : String) : List Char := '"' :: s.toList.flatMap escapeChar ++ ['"']

/-- A real number, or `null` for one that has no decimal. -/
def realChars (x : Binary64) : List Char :=
  if x.isFinite then x.write .interchange else ['n', 'u', 'l', 'l']

def Number.chars : Number → List Char
  | .integer i => decimalInt i.val
  | .real x => realChars x

def boolChars (b : Bool) : List Char :=
  if b then ['t', 'r', 'u', 'e'] else ['f', 'a', 'l', 's', 'e']

mutual

def chars : Json → List Char
  | .null => ['n', 'u', 'l', 'l']
  | .bool b => boolChars b
  | .number n => n.chars
  | .text s => stringChars s
  | .array [] => ['[', ']']
  | .array (v :: rest) => '[' :: chars v ++ itemChars rest
  | .object [] => ['\x7b', '\x7d']
  | .object ((n, v) :: rest) => '\x7b' :: stringChars n ++ ':' :: chars v ++ memberChars rest

/-- The items behind the first one, each after a comma, and the closing bracket. -/
def itemChars : List Json → List Char
  | [] => [']']
  | v :: rest => ',' :: chars v ++ itemChars rest

def memberChars : List (String × Json) → List Char
  | [] => ['\x7d']
  | (n, v) :: rest => ',' :: stringChars n ++ ':' :: chars v ++ memberChars rest

end

def render (v : Json) : String := String.ofList v.chars

/-- The compact text of a record: its members in the order given, absent ones left out. -/
def recordChars (members : List (String × Option (List Char))) : List Char :=
  let written := members.filterMap fun m => m.2.map fun value => stringChars m.1 ++ ':' :: value
  '\x7b' :: (written.intersperse [',']).flatten ++ ['\x7d']

end FlexLink.Json
