import FlexLink.Journal.Entry
import FlexLink.Number.Text
import FlexLink.Text.Hex
import FlexLink.Text.Utf8

/-! # File names of records

A record lies in a file named after its correlation and its role.  A correlation that is no plain
name is written in hexadecimal, so none can point outside the directory. -/
set_option autoImplicit false
namespace FlexLink.RecordFile

def isPlainChar (c : Char) : Bool := c.isAlphanum || c == '-' || c == '_'

/-- The longest correlation that may be written as it is. -/
def maxPlainSize : Nat := 128

def isPlain (corr : String) : Bool :=
  !corr.isEmpty && decide (corr.utf8ByteSize ≤ maxPlainSize) && corr.toList.all isPlainChar

def stem (corr : String) : String :=
  if isPlain corr then corr else "x-" ++ Hex.encode (Utf8.encode corr)

def name (corr : String) (role : JournalRole) : String := s!"{stem corr}.{role.name}.json"

/-- The name of a record that is being written, the `n`-th one of its process. -/
def draftName (corr : String) (role : JournalRole) (process n : Nat) : String :=
  let digits (n : Nat) : String := String.ofList (decimalDigits n)
  s!"{stem corr}.{role.name}.tmp{digits process}-{digits n}"

def maxSize : Nat := 255

/-- The part of a name after its last dot, unless that dot begins the name. -/
def extension? (name : String) : Option String :=
  let reversed := name.toList.reverse
  match reversed.dropWhile (· ≠ '.') with
  | _ :: _ :: _ => some (String.ofList (reversed.takeWhile (· ≠ '.')).reverse)
  | _ => none

def isRecord (name : String) : Bool := extension? name == some "json"

end FlexLink.RecordFile
