import FlexLink.Toml.Value
import FlexLink.Number.Text

/-! # Writing settings documents

A document is written as one block a table, a line a key.  A text is written in the plainest form
that needs no escapes: between double quotes, between single quotes, between three double quotes,
between three single quotes. -/
set_option autoImplicit false
namespace FlexLink.Toml

def longestRun (c : Char) : (current best : Nat) → List Char → Nat
  | current, best, [] => max current best
  | current, best, d :: rest =>
    if d = c then longestRun c (current + 1) best rest else longestRun c 0 (max current best) rest

/-- A control character that no form can hold as it is. -/
def needsCode (c : Char) : Bool := (c < ' ' && c != '\t' && c != '\n') || c == '\x7f'

def codeDigit (n : Nat) : Char :=
  if n < 10 then Char.ofNat ('0'.toNat + n) else Char.ofNat ('A'.toNat + n - 10)

/-- A character between double quotes; `quotes` of them may stand in a row and line ends may stand
as they are if there are `lines`.  `run` counts the quotes right before it. -/
def escapeChars (lines : Bool) (quotes : Nat) : (run : Nat) → List Char → List Char
  | _, [] => []
  | run, c :: rest =>
    if c = '"' then
      if run < quotes then '"' :: escapeChars lines quotes (run + 1) rest
      else '\\' :: '"' :: escapeChars lines quotes 0 rest
    else
      let written : List Char :=
        if c = '\x08' then ['\\', 'b']
        else if c = '\t' then ['\\', 't']
        else if c = '\n' then if lines then ['\n'] else ['\\', 'n']
        else if c = '\x0c' then ['\\', 'f']
        else if c = '\r' then ['\\', 'r']
        else if c = '\\' then ['\\', '\\']
        else if needsCode c then
          ['\\', 'u', '0', '0', codeDigit (c.toNat / 16), codeDigit (c.toNat % 16)]
        else [c]
      written ++ escapeChars lines quotes 0 rest

def writeText (text : List Char) : List Char :=
  let coded := text.any needsCode
  let escaped := text.contains '\\'
  let lines := text.contains '\n'
  let doubles := longestRun '"' 0 0 text
  let singles := longestRun '\x27' 0 0 text
  let opening : List Char := if lines then ['\n'] else []
  let three (c : Char) : List Char := [c, c, c]
  if !coded && !escaped && doubles = 0 && !lines then ['"'] ++ escapeChars false 0 0 text ++ ['"']
  else if !coded && singles = 0 && !lines then ['\x27'] ++ text ++ ['\x27']
  else if !coded && !escaped && doubles ≤ 2 then
    three '"' ++ opening ++ escapeChars true 2 0 text ++ three '"'
  else if !coded && singles ≤ 2 then three '\x27' ++ opening ++ text ++ three '\x27'
  else if lines then three '"' ++ opening ++ escapeChars true 2 0 text ++ three '"'
  else ['"'] ++ escapeChars false 0 0 text ++ ['"']

/-- A value of one line; settings have no others. -/
def writeValue : Node → List Char
  | .text s => writeText s.toList
  | .integer i => decimalInt i
  | .bool true => ['t', 'r', 'u', 'e']
  | .bool false => ['f', 'a', 'l', 's', 'e']
  | _ => []

def writeTable (name : String) (ms : Members) : List Char :=
  ['['] ++ name.toList ++ [']', '\n']
    ++ ms.flatMap fun m => m.1.toList ++ [' ', '=', ' '] ++ writeValue m.2 ++ ['\n']

def writeTables (tables : List (String × Members)) : String :=
  String.ofList (['\n'].intercalate (tables.map fun t => writeTable t.1 t.2))

end FlexLink.Toml
