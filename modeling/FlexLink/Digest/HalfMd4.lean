/-! # Half MD4

A digest of names by the three rounds of MD4, each over eight words and of eight steps.  A name is
taken in 32 bytes at a time.  The words of a block are filled up with the number of bytes that are
left of the name, and bytes count as signed numbers. -/
set_option autoImplicit false
namespace FlexLink.HalfMd4

structure State where
  a : UInt32
  b : UInt32
  c : UInt32
  d : UInt32
deriving DecidableEq

def State.start : State := ⟨0x67452301, 0xEFCDAB89, 0x98BADCFE, 0x10325476⟩

def State.add (s t : State) : State := ⟨s.a + t.a, s.b + t.b, s.c + t.c, s.d + t.d⟩

def rotateLeft (w : UInt32) (n : UInt32) : UInt32 := (w <<< n) ||| (w >>> (32 - n))

/-- One round: how three words are combined, what is added, the order of the words of the block
and the four rotations that take turns. -/
structure Round where
  combine : UInt32 → UInt32 → UInt32 → UInt32
  added : UInt32
  order : List (Fin 8)
  rotations : List UInt32

def choose (x y z : UInt32) : UInt32 := z ^^^ (x &&& (y ^^^ z))

def majority (x y z : UInt32) : UInt32 := (x &&& y) + ((x ^^^ y) &&& z)

def parity (x y z : UInt32) : UInt32 := x ^^^ y ^^^ z

def rounds : List Round := [
  ⟨choose, 0, [0, 1, 2, 3, 4, 5, 6, 7], [3, 7, 11, 19]⟩,
  ⟨majority, 0x5A827999, [1, 3, 5, 7, 0, 2, 4, 6], [3, 5, 9, 13]⟩,
  ⟨parity, 0x6ED9EBA1, [3, 7, 2, 6, 1, 5, 0, 4], [3, 9, 11, 15]⟩]

/-- Changes one word by the others and one of the block; the next step is for the word before. -/
def Round.step (r : Round) (s : State) (word rotation : UInt32) : State :=
  ⟨s.d, rotateLeft (s.a + r.combine s.b s.c s.d + (word + r.added)) rotation, s.b, s.c⟩

abbrev Block := Vector UInt32 8

def Round.run (r : Round) (block : Block) (s : State) : State :=
  (r.order.zip (r.rotations ++ r.rotations)).foldl (fun s (i, n) => r.step s block[i] n) s

def State.absorb (s : State) (block : Block) : State :=
  s.add (rounds.foldl (fun s r => r.run block s) s)

/-- A byte as a signed number of 32 bits. -/
def signed (b : UInt8) : UInt32 :=
  if b < 0x80 then .ofNat b.toNat else .ofNat b.toNat - 0x100

def filling (n : Nat) : UInt32 :=
  let twice := UInt32.ofNat n ||| (UInt32.ofNat n <<< 8)
  twice ||| (twice <<< 16)

/-- The first 32 bytes of what is left of a name, as words. -/
def blockOf (bytes : List UInt8) : Block :=
  Vector.ofFn fun i =>
    ((bytes.drop (4 * i.val)).take 4).foldl (fun w b => (w <<< 8) + signed b) (filling bytes.length)

def State.absorbAll (s : State) (bytes : List UInt8) : State :=
  if 32 < bytes.length then (s.absorb (blockOf bytes)).absorbAll (bytes.drop 32)
  else s.absorb (blockOf bytes)
termination_by bytes.length
decreasing_by simp only [List.length_drop]; omega

def digest (bytes : List UInt8) : State := State.start.absorbAll bytes

end FlexLink.HalfMd4
