/-! # Words and byte strings

Integers cross the wire with their most significant byte first. -/
set_option autoImplicit false
namespace FlexLink

namespace Word

/-- The four bytes of a word, most significant first. -/
def bytes (w : UInt32) : List UInt8 :=
  [UInt8.ofNat (w.toNat / 0x1000000), UInt8.ofNat (w.toNat / 0x10000), UInt8.ofNat (w.toNat / 0x100),
    UInt8.ofNat w.toNat]

def ofBytes (a b c d : UInt8) : UInt32 :=
  UInt32.ofNat (a.toNat * 0x1000000 + b.toNat * 0x10000 + c.toNat * 0x100 + d.toNat)

end Word

namespace HalfWord

def bytes (w : UInt16) : List UInt8 := [UInt8.ofNat (w.toNat / 0x100), UInt8.ofNat w.toNat]

def ofBytes (a b : UInt8) : UInt16 := UInt16.ofNat (a.toNat * 0x100 + b.toNat)

end HalfWord

/-- A list in pieces of `n`, the last one perhaps shorter. -/
def chunks {α : Type} (n : Nat) (l : List α) : List (List α) :=
  if _stop : l = [] ∨ n = 0 then []
  else l.take n :: chunks n (l.drop n)
termination_by l.length
decreasing_by
  have : l.length ≠ 0 := fun e => _stop (.inl (List.length_eq_zero_iff.1 e))
  simp only [List.length_drop]
  omega

/-- A byte string of `n` bytes: as much as fits, then zeros. -/
def padZeros (n : Nat) (bytes : List UInt8) : List UInt8 :=
  bytes.take n ++ List.replicate (n - bytes.length) 0

/-- The byte string without the zeros at its end. -/
def stripZeros (bytes : List UInt8) : List UInt8 := (bytes.reverse.dropWhile (· == 0)).reverse

end FlexLink
