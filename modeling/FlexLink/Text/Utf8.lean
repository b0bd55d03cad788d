import FlexLink.Number.Text

/-! # UTF-8

Bytes are decoded one scalar value at a time.  Where the bytes are malformed, the flaw is the
longest start of a well-formed sequence, or one byte if there is none; `decode` refuses at the
first flaw and `decodeLossy` writes one replacement character for each. -/
set_option autoImplicit false
namespace FlexLink.Utf8

def encode (text : String) : List UInt8 := text.toUTF8.toList

def width (c : Char) : Nat := c.utf8Size

def size (text : List Char) : Nat := text.foldl (fun n c => n + width c) 0

def isContinuation (b : UInt8) : Bool := 0x80 ≤ b && b ≤ 0xBF

inductive Front where
  /-- A character and how many bytes after the first belong to it. -/
  | scalar (c : Char) (more : Nat)
  /-- A malformed sequence and how many bytes after the first belong to it. -/
  | flaw (more : Nat)
  /-- The start of a sequence that the bytes end inside. -/
  | cut
deriving DecidableEq, Repr

def low (b : UInt8) : Nat := b.toNat % 64

/-- The second byte of a three-byte sequence excludes overlong forms and surrogates. -/
def secondOfThree (lead b : UInt8) : Bool :=
  if lead = 0xE0 then 0xA0 ≤ b && b ≤ 0xBF
  else if lead = 0xED then 0x80 ≤ b && b ≤ 0x9F
  else isContinuation b

/-- The second byte of a four-byte sequence excludes overlong forms and values past the last scalar. -/
def secondOfFour (lead b : UInt8) : Bool :=
  if lead = 0xF0 then 0x90 ≤ b && b ≤ 0xBF
  else if lead = 0xF4 then 0x80 ≤ b && b ≤ 0x8F
  else isContinuation b

def front (lead : UInt8) (rest : List UInt8) : Front :=
  if lead < 0x80 then .scalar (Char.ofNat lead.toNat) 0
  else if lead < 0xC2 then .flaw 0
  else if lead < 0xE0 then
    match rest with
    | [] => .cut
    | b :: _ =>
      if isContinuation b then .scalar (Char.ofNat ((lead.toNat - 0xC0) * 64 + low b)) 1
      else .flaw 0
  else if lead < 0xF0 then
    match rest with
    | [] => .cut
    | b :: rest =>
      if secondOfThree lead b then
        match rest with
        | [] => .cut
        | c :: _ =>
          if isContinuation c then
            .scalar (Char.ofNat ((lead.toNat - 0xE0) * 4096 + low b * 64 + low c)) 2
          else .flaw 1
      else .flaw 0
  else if lead < 0xF5 then
    match rest with
    | [] => .cut
    | b :: rest =>
      if secondOfFour lead b then
        match rest with
        | [] => .cut
        | c :: rest =>
          if isContinuation c then
            match rest with
            | [] => .cut
            | d :: _ =>
              if isContinuation d then
                .scalar (Char.ofNat
                  ((lead.toNat - 0xF0) * 262144 + low b * 4096 + low c * 64 + low d)) 3
              else .flaw 2
          else .flaw 1
      else .flaw 0
  else .flaw 0

/-- Why bytes are not UTF-8, and how many well-formed bytes stand before the flaw. -/
inductive Error where
  | malformed (length : Nat) (index : Nat)
  | incomplete (index : Nat)
deriving DecidableEq, Repr

def Error.message : Error → String
  | .malformed length index =>
    s!"invalid utf-8 sequence of {length} bytes from index {index}"
  | .incomplete index => s!"incomplete utf-8 byte sequence from index {index}"

/-- Decodes from byte `index` on, behind the characters `done`, newest first.  The first `skip`
bytes belong to the character before them. -/
def decodeFrom (index : Nat) (done : List Char) : (skip : Nat) → List UInt8 → Except Error (List Char)
  | _, [] => .ok done.reverse
  | skip + 1, _ :: rest => decodeFrom (index + 1) done skip rest
  | 0, b :: rest =>
    match front b rest with
    | .scalar c more => decodeFrom (index + 1) (c :: done) more rest
    | .flaw more => .error (.malformed (more + 1) index)
    | .cut => .error (.incomplete index)

def decodeChars (bytes : List UInt8) : Except Error (List Char) := decodeFrom 0 [] 0 bytes

def decode (bytes : List UInt8) : Except Error String := String.ofList <$> decodeChars bytes

def replacement : Char := '\ufffd'

def decodeLossyFrom (done : List Char) : (skip : Nat) → List UInt8 → List Char
  | _, [] => done.reverse
  | skip + 1, _ :: rest => decodeLossyFrom done skip rest
  | 0, b :: rest =>
    match front b rest with
    | .scalar c more => decodeLossyFrom (c :: done) more rest
    | .flaw more => decodeLossyFrom (replacement :: done) more rest
    | .cut => (replacement :: done).reverse

/-- Decodes every byte string, one replacement character for each malformed sequence. -/
def decodeLossy (bytes : List UInt8) : String := String.ofList (decodeLossyFrom [] 0 bytes)

/-- The longest start of the text made of whole characters that takes at most `budget` bytes. -/
def takeChars (budget : Nat) : List Char → List Char
  | [] => []
  | c :: rest => if width c ≤ budget then c :: takeChars (budget - width c) rest else []

end FlexLink.Utf8
