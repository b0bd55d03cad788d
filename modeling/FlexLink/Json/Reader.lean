import FlexLink.Json.Error
import FlexLink.Text.Hex

/-! # Reading JSON text

A reader takes the unread characters and returns what it read with the characters behind it.
Nesting is bounded: `depth` is the number of brackets that may still be opened, plus one, and it
is what the recursion descends on.  A fault stands either at the characters that are read
(`stop`) or at the next byte (`stopAtNext`). -/
set_option autoImplicit false
namespace FlexLink.Json.Reader

abbrev Read (α : Type) := Except Fault (α × List Char)

def yields {α β : Type} (f : α → β) : Read α → Read β
  | .ok (v, rest) => .ok (f v, rest)
  | .error fault => .error fault

/-- Brackets that may be open at once, plus one. -/
def depthLimit : Nat := 128

def stop {α : Type} (cause : Cause) (unread : List Char) : Except Fault α :=
  .error ⟨cause, Utf8.size unread⟩

/-- A fault at the next byte, which counts as read if there is one. -/
def stopAtNext {α : Type} (cause : Cause) (unread : List Char) : Except Fault α :=
  .error ⟨cause, Utf8.size unread - 1⟩

def isBlank (c : Char) : Bool := c == ' ' || c == '\n' || c == '\t' || c == '\r'

def skipBlanks (text : List Char) : List Char := text.dropWhile isBlank

def word : List Char → List Char → Except Fault (List Char)
  | [], rest => .ok rest
  | _ :: _, [] => stop .endInValue []
  | e :: es, c :: rest => if c = e then word es rest else stopAtNext .expectedIdent (c :: rest)

def wordAs {α : Type} (v : α) (letters rest : List Char) : Read α :=
  match word letters rest with
  | .ok rest => .ok (v, rest)
  | .error fault => .error fault

/-! ## Strings -/

/-- The fault of a text that does not begin with four hexadecimal digits: four bytes are read
before they are refused. -/
def badQuad {α : Type} (text : List Char) : Except Fault α :=
  if 4 ≤ Utf8.size text then .error ⟨.invalidEscape, Utf8.size text - 4⟩ else stop .endInString []

def hexQuad (text : List Char) : Except Fault (Nat × List Char) :=
  match text with
  | a :: b :: c :: d :: rest =>
    match Hex.value? a, Hex.value? b, Hex.value? c, Hex.value? d with
    | some a, some b, some c, some d => .ok (((a * 16 + b) * 16 + c) * 16 + d, rest)
    | _, _, _, _ => badQuad text
  | _ => badQuad text

/-- The second half of a character outside the basic plane, whose first half is `high`. -/
def lowSurrogate (high : Nat) : List Char → Except Fault Char
  | [] => stop .endInString []
  | '\\' :: [] => stop .endInString []
  | '\\' :: 'u' :: rest => do
    let (n, unread) ← hexQuad rest
    if 0xDC00 ≤ n ∧ n ≤ 0xDFFF then
      return Char.ofNat ((high - 0xD800) * 1024 + (n - 0xDC00) + 0x10000)
    else stop .loneSurrogate unread
  | '\\' :: c :: rest => stopAtNext .endOfEscape (c :: rest)
  | c :: rest => stopAtNext .endOfEscape (c :: rest)

/-- The character that an escape stands for and how many characters it has behind the backslash. -/
def escape : List Char → Except Fault (Char × Nat)
  | [] => stop .endInString []
  | '"' :: _ => .ok ('"', 1)
  | '\\' :: _ => .ok ('\\', 1)
  | '/' :: _ => .ok ('/', 1)
  | 'b' :: _ => .ok ('\x08', 1)
  | 'f' :: _ => .ok ('\x0c', 1)
  | 'n' :: _ => .ok ('\n', 1)
  | 'r' :: _ => .ok ('\r', 1)
  | 't' :: _ => .ok ('\t', 1)
  | 'u' :: rest => do
    let (n, unread) ← hexQuad rest
    if 0xDC00 ≤ n ∧ n ≤ 0xDFFF then stop .loneSurrogate unread
    else if 0xD800 ≤ n ∧ n ≤ 0xDBFF then
      let c ← lowSurrogate n unread
      return (c, 11)
    else return (Char.ofNat n, 5)
  | c :: rest => stopAtNext .invalidEscape (c :: rest)

/-- A string behind its opening quote, up to and with the closing one.  The first `skip`
characters belong to the escape before them. -/
def stringFrom (done : List Char) : (skip : Nat) → List Char → Read (List Char)
  | _, [] => stop .endInString []
  | skip + 1, _ :: rest => stringFrom done skip rest
  | 0, c :: rest =>
    if c = '"' then .ok (done.reverse, rest)
    else if c = '\\' then
      match escape rest with
      | .ok (e, used) => stringFrom (e :: done) used rest
      | .error fault => .error fault
    else if c < ' ' then stop .controlCharacter rest
    else stringFrom (c :: done) 0 rest

def string (text : List Char) : Read String := yields String.ofList (stringFrom [] 0 text)

/-! ## Numbers -/

def isDigit (c : Char) : Bool := '0' ≤ c && c ≤ '9'

def digitValue (c : Char) : Nat := c.toNat - '0'.toNat

/-- `n * 10 ^ e` as the nearest number to the nearest number to `n`, scaled by one rounded
product or quotient with a power of ten, or by several where one does not reach. -/
def scaleReal : (steps : Nat) → Binary64 → Int → Option Binary64
  | 0, _, _ => none
  | steps + 1, x, e =>
    if e.natAbs ≤ 308 then
      if 0 ≤ e then
        let y := x.mul (.powerOfTen e.toNat)
        if y.isInfinite then none else some y
      else some (x.div (.powerOfTen (-e).toNat))
    else if x.isZero then some x
    else if 0 ≤ e then none
    else scaleReal steps (x.div (.powerOfTen 308)) (e + 308)

def real (negative : Bool) (n : Nat) (e : Int) (rest : List Char) : Read Number :=
  match scaleReal (e.natAbs / 308 + 2) (.ofInt n) e with
  | some x => .ok (.real (if negative then x.negate else x), rest)
  | none => stop .numberOutOfRange rest

/-- Digits that keep the number within 64 bits; the rest starts with a digit only if it does not. -/
def fittingDigits (n count : Nat) : List Char → Nat × Nat × List Char
  | [] => (n, count, [])
  | c :: rest =>
    if isDigit c ∧ n * 10 + digitValue c < 0x10000000000000000 then
      fittingDigits (n * 10 + digitValue c) (count + 1) rest
    else (n, count, c :: rest)

def extraDigits (count : Nat) : List Char → Nat × List Char
  | [] => (count, [])
  | c :: rest => if isDigit c then extraDigits (count + 1) rest else (count, c :: rest)

def exponentDigits (negative positiveExponent : Bool) (n : Nat) (start : Int) (e : Nat) :
    List Char → Read Number
  | [] => real negative n (if positiveExponent then start + e else start - e) []
  | c :: rest =>
    if isDigit c then
      let e := e * 10 + digitValue c
      if 0x80000000 ≤ e then
        if n ≠ 0 ∧ positiveExponent then stop .numberOutOfRange rest
        else .ok (.real (.zero negative), (extraDigits 0 rest).2)
      else exponentDigits negative positiveExponent n start e rest
    else real negative n (if positiveExponent then start + e else start - e) (c :: rest)

def exponent (negative : Bool) (n : Nat) (start : Int) (text : List Char) : Read Number :=
  let (positive, digits) :=
    match text with
    | '+' :: rest => (true, rest)
    | '-' :: rest => (false, rest)
    | rest => (true, rest)
  match digits with
  | [] => stop .endInValue []
  | c :: rest =>
    if isDigit c then exponentDigits negative positive n start (digitValue c) rest
    else stopAtNext .invalidNumber (c :: rest)

/-- An exponent, if one follows, on a number that is real without it. -/
def realTail (negative : Bool) (n : Nat) (start : Int) : List Char → Read Number
  | 'e' :: rest => exponent negative n start rest
  | 'E' :: rest => exponent negative n start rest
  | rest => real negative n start rest

/-- The digits behind the point; those past 64 bits are left out. -/
def fraction (negative : Bool) (n : Nat) (start : Int) (text : List Char) : Read Number :=
  match fittingDigits n 0 text with
  | (n, count, []) =>
    if count = 0 then stop .endInValue [] else realTail negative n (start - count) []
  | (n, count, c :: rest) =>
    if isDigit c then realTail negative n (start - count) (extraDigits 0 (c :: rest)).2
    else if count = 0 then stopAtNext .invalidNumber (c :: rest)
    else realTail negative n (start - count) (c :: rest)

/-- What follows the whole part of a number that fits in 64 bits. -/
def numberTail (negative : Bool) (n : Nat) : List Char → Read Number
  | '.' :: rest => fraction negative n 0 rest
  | 'e' :: rest => exponent negative n 0 rest
  | 'E' :: rest => exponent negative n 0 rest
  | rest =>
    match if negative ∧ n = 0 then none else WideInt.ofInt? (if negative then -n else n) with
    | some i => .ok (.integer i, rest)
    | none => .ok (.real ((Binary64.ofInt n).negate), rest)

/-- What follows the digits of a whole part that does not fit. -/
def longTail (negative : Bool) (n : Nat) (text : List Char) : Read Number :=
  match extraDigits 0 text with
  | (count, '.' :: rest) => fraction negative n count rest
  | (count, rest) => realTail negative n count rest

def number (negative : Bool) : List Char → Read Number
  | [] => stop .endInValue []
  | '0' :: c :: rest =>
    if isDigit c then stopAtNext .invalidNumber (c :: rest) else numberTail negative 0 (c :: rest)
  | '0' :: [] => numberTail negative 0 []
  | c :: rest =>
    if isDigit c then
      match fittingDigits (digitValue c) 0 rest with
      | (n, _, []) => numberTail negative n []
      | (n, _, d :: rest) =>
        if isDigit d then longTail negative n (d :: rest) else numberTail negative n (d :: rest)
    else stopAtNext .invalidNumber (c :: rest)

/-! ## Values -/

inductive Turn where
  | close (rest : List Char)
  | item (text : List Char)

def listTurn (first : Bool) (text : List Char) : Except Fault Turn :=
  match skipBlanks text with
  | [] => stop .endInList []
  | c :: rest =>
    if c = ']' then .ok (.close rest)
    else if first then .ok (.item (c :: rest))
    else if c = ',' then
      match skipBlanks rest with
      | [] => stop .endInValue []
      | d :: rest => if d = ']' then stopAtNext .trailingComma (d :: rest) else .ok (.item (d :: rest))
    else stopAtNext .expectedListEnd (c :: rest)

/-- The comma, brace or quote before a member; an item starts behind the quote of its name. -/
def objectTurn (first : Bool) (text : List Char) : Except Fault Turn :=
  match skipBlanks text with
  | [] => stop .endInObject []
  | c :: rest =>
    if c = '\x7d' then .ok (.close rest)
    else if first then
      if c = '"' then .ok (.item rest) else stopAtNext .nameNotString (c :: rest)
    else if c = ',' then
      match skipBlanks rest with
      | [] => stop .endInValue []
      | d :: rest =>
        if d = '"' then .ok (.item rest)
        else if d = '\x7d' then stopAtNext .trailingComma (d :: rest)
        else stopAtNext .nameNotString (d :: rest)
    else stopAtNext .expectedObjectEnd (c :: rest)

def colon (text : List Char) : Except Fault (List Char) :=
  match skipBlanks text with
  | [] => stop .endInObject []
  | c :: rest => if c = ':' then .ok rest else stopAtNext .expectedColon (c :: rest)

/-- Items up to the closing bracket.  Each takes a character at least, so `fuel` characters last. -/
def items {α : Type} (one : List Char → Read α) (done : List α) : (fuel : Nat) → (first : Bool) →
    List Char → Read (List α)
  | 0, _, source => stop .endInList source
  | fuel + 1, first, source =>
    match listTurn first source with
    | .error fault => .error fault
    | .ok (.close rest) => .ok (done.reverse, rest)
    | .ok (.item source) =>
      match one source with
      | .error fault => .error fault
      | .ok (v, rest) => items one (v :: done) fuel false rest

def members (one : List Char → Read Json) (done : List (String × Json)) : (fuel : Nat) →
    (first : Bool) → List Char → Read (List (String × Json))
  | 0, _, source => stop .endInObject source
  | fuel + 1, first, source =>
    match objectTurn first source with
    | .error fault => .error fault
    | .ok (.close rest) => .ok (done.reverse, rest)
    | .ok (.item source) =>
      match string source with
      | .error fault => .error fault
      | .ok (name, rest) =>
        match colon rest with
        | .error fault => .error fault
        | .ok rest =>
          match one rest with
          | .error fault => .error fault
          | .ok (v, rest) => members one ((name, v) :: done) fuel false rest

def value : (depth : Nat) → List Char → Read Json
  | 0, source => stopAtNext .tooDeep source
  | depth + 1, source =>
    match skipBlanks source with
    | [] => stop .endInValue []
    | c :: rest =>
      if c = 'n' then wordAs .null ['u', 'l', 'l'] rest
      else if c = 't' then wordAs (.bool true) ['r', 'u', 'e'] rest
      else if c = 'f' then wordAs (.bool false) ['a', 'l', 's', 'e'] rest
      else if c = '-' then yields .number (number true rest)
      else if isDigit c then yields .number (number false (c :: rest))
      else if c = '"' then yields .text (string rest)
      else if c = '[' then
        if depth = 0 then stopAtNext .tooDeep (c :: rest)
        else yields .array (items (value depth) [] (rest.length + 1) true rest)
      else if c = '\x7b' then
        if depth = 0 then stopAtNext .tooDeep (c :: rest)
        else yields .ofMembers (members (value depth) [] (rest.length + 1) true rest)
      else stopAtNext .expectedValue (c :: rest)

def finish (text : List Char) : Except Fault Unit :=
  match skipBlanks text with
  | [] => .ok ()
  | c :: rest => stopAtNext .trailingCharacters (c :: rest)

def whole {α : Type} (reader : List Char → Read α) (text : List Char) : Except Error α :=
  match reader text with
  | .error fault => .error (fault.inText text)
  | .ok (v, rest) =>
    match finish rest with
    | .error fault => .error (fault.inText text)
    | .ok () => .ok v

end FlexLink.Json.Reader

def FlexLink.Json.parse (text : String) : Except FlexLink.Json.Error FlexLink.Json :=
  FlexLink.Json.Reader.whole (FlexLink.Json.Reader.value FlexLink.Json.Reader.depthLimit) text.toList
