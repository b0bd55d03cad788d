import FlexLink.Number.Power

/-! # 64-bit binary floating point

A number is held as its bit pattern.  Its magnitude is `significand * 2 ^ scale`, and every
operation that rounds goes through `ofQuotient`, which picks the nearest representable number
of an exact quotient and sends a tie to the even neighbour. -/
set_option autoImplicit false
namespace FlexLink

/-- A 64-bit binary floating-point number, by its bits: sign, eleven exponent bits, 52 fraction bits. -/
structure Binary64 where
  bits : UInt64
deriving DecidableEq, Inhabited, Repr

namespace Binary64

/-- The exponent field that marks infinities and NaN. -/
def specialExponent : Nat := 2047

def infinityBits : Nat := specialExponent * 0x10000000000000

def signBits (negative : Bool) : Nat := if negative then 0x8000000000000000 else 0

def ofMagnitude (negative : Bool) (magnitude : Nat) : Binary64 :=
  ⟨UInt64.ofNat (signBits negative + magnitude)⟩

def infinity (negative : Bool) : Binary64 := ofMagnitude negative infinityBits

def nan : Binary64 := ofMagnitude false (infinityBits + 0x8000000000000)

def zero (negative : Bool) : Binary64 := ofMagnitude negative 0

/-- The 63 bits below the sign; they order non-negative numbers. -/
def magnitude (x : Binary64) : Nat := x.bits.toNat % 0x8000000000000000

def isNegative (x : Binary64) : Bool := 0x8000000000000000 ≤ x.bits.toNat

def exponentField (x : Binary64) : Nat := x.magnitude / 0x10000000000000

def fractionField (x : Binary64) : Nat := x.magnitude % 0x10000000000000

def isFinite (x : Binary64) : Bool := x.exponentField < specialExponent

def isNaN (x : Binary64) : Bool := infinityBits < x.magnitude

def isInfinite (x : Binary64) : Bool := x.magnitude == infinityBits

def isZero (x : Binary64) : Bool := x.magnitude == 0

/-- Normal numbers have a leading one that the fraction field leaves out. -/
def significand (x : Binary64) : Nat :=
  if x.exponentField = 0 then x.fractionField else 0x10000000000000 + x.fractionField

/-- A finite number is `significand * 2 ^ scale` up to its sign. -/
def scale (x : Binary64) : Int := max (x.exponentField : Int) 1 - 1075

/-- `n / d` rounded to the nearest integer, a tie to the even one. -/
def roundDiv (n d : Nat) : Nat :=
  let q := n / d
  let r := n % d
  if d < 2 * r ∨ (d = 2 * r ∧ q % 2 = 1) then q + 1 else q

/-- The exponent `e` with `2 ^ e ≤ n / d < 2 ^ (e + 1)`, for positive `n` and `d`. -/
def binaryExponent (n d : Nat) : Int :=
  let e := (n.log2 : Int) - (d.log2 : Int)
  let reaches := if 0 ≤ e then decide (d * twoTo e.toNat ≤ n) else decide (d ≤ n * twoTo (-e).toNat)
  if reaches then e else e - 1

/-- The number nearest to `n / d`, a tie to the even significand, infinity past the largest one. -/
def ofQuotient (negative : Bool) (n d : Nat) : Binary64 :=
  if n = 0 then zero negative
  else
    let q := max (binaryExponent n d - 52) (-1074)
    let m := if 0 ≤ q then roundDiv n (d * twoTo q.toNat) else roundDiv (n * twoTo (-q).toNat) d
    let bits := if m < 0x10000000000000 then m else (q + 1075).toNat * 0x10000000000000 + (m - 0x10000000000000)
    ofMagnitude negative (min bits infinityBits)

def ofScaled (negative : Bool) (n : Nat) (e : Int) : Binary64 :=
  if 0 ≤ e then ofQuotient negative (n * twoTo e.toNat) 1
  else ofQuotient negative n (twoTo (-e).toNat)

def ofInt (i : Int) : Binary64 := ofQuotient (i < 0) i.natAbs 1

def powerOfTen (k : Nat) : Binary64 := ofQuotient false (tenTo k) 1

def mul (x y : Binary64) : Binary64 :=
  let negative := x.isNegative != y.isNegative
  if x.isNaN || y.isNaN then nan
  else if x.isInfinite || y.isInfinite then
    if x.isZero || y.isZero then nan else infinity negative
  else ofScaled negative (x.significand * y.significand) (x.scale + y.scale)

/-- Quotient of finite numbers by a finite one other than zero, rounded once. -/
def div (x y : Binary64) : Binary64 :=
  let negative := x.isNegative != y.isNegative
  let e := x.scale - y.scale
  if 0 ≤ e then ofQuotient negative (x.significand * twoTo e.toNat) y.significand
  else ofQuotient negative x.significand (y.significand * twoTo (-e).toNat)

/-- Signed rank: larger numbers rank higher and both zeros rank alike. -/
def rank (x : Binary64) : Int := if x.isNegative then -(x.magnitude : Int) else x.magnitude

/-- Arithmetic equality: NaN equals nothing, the two zeros are equal. -/
def same (x y : Binary64) : Bool := !x.isNaN && !y.isNaN && x.rank == y.rank

def less (x y : Binary64) : Bool := !x.isNaN && !y.isNaN && decide (x.rank < y.rank)

/-- `x` brought into `[low, high]`; NaN stays NaN. -/
def clamp (x low high : Binary64) : Binary64 :=
  let raised := if x.less low then low else x
  if high.less raised then high else raised

def negate (x : Binary64) : Binary64 := ofMagnitude (!x.isNegative) x.magnitude

end Binary64
end FlexLink
