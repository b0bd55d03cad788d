import FlexLink.Number.Shortest

/-! # Written numbers

Integers in decimal and hexadecimal, and floating-point numbers in the two styles that the
library writes: the shortest text that reads back, and a fixed number of whole units. -/
set_option autoImplicit false
namespace FlexLink

def decimalDigits (n : Nat) : List Char := Nat.toDigits 10 n

def decimalInt (i : Int) : List Char :=
  if i < 0 then '-' :: decimalDigits i.natAbs else decimalDigits i.natAbs

def decimalValue? (c : Char) : Option Nat :=
  if '0' ≤ c ∧ c ≤ '9' then some (c.toNat - '0'.toNat) else none

/-- `text` with `fill` in front until it has `width` characters. -/
def padLeft (fill : Char) (width : Nat) (text : List Char) : List Char :=
  List.replicate (width - text.length) fill ++ text

def padRight (fill : Char) (width : Nat) (text : List Char) : List Char :=
  text ++ List.replicate (width - text.length) fill

structure RealStyle where
  /-- The smallest decimal exponent written positionally. -/
  lowest : Int
  /-- The first decimal exponent above those written positionally. -/
  ceiling : Int
  positiveMark : List Char
  negativeMark : List Char
  wholeMark : List Char

/-- Real numbers are positional from `0.00001` up to `10 ^ 16` and always show that they are real. -/
def RealStyle.interchange : RealStyle := ⟨-5, 16, ['e', '+'], ['e', '-'], ['.', '0']⟩

namespace Decimal

def leading (x : Decimal) : Int := x.exponent + (decimalDigits x.digits).length - 1

def pointed : List Char → List Char
  | [] => []
  | [d] => [d]
  | d :: ds => d :: '.' :: ds

def write (style : RealStyle) (x : Decimal) : List Char :=
  let ds := decimalDigits x.digits
  let e := x.leading
  if style.lowest ≤ e ∧ e < style.ceiling then
    if e < 0 then ['0', '.'] ++ List.replicate (-e - 1).toNat '0' ++ ds
    else
      let whole := (e + 1).toNat
      if ds.length ≤ whole then ds ++ List.replicate (whole - ds.length) '0' ++ style.wholeMark
      else ds.take whole ++ '.' :: ds.drop whole
  else if e < 0 then pointed ds ++ style.negativeMark ++ decimalDigits (-e).toNat
  else pointed ds ++ style.positiveMark ++ decimalDigits e.toNat

end Decimal

namespace Binary64

/-- The sign and the shortest digits of a finite number. -/
def write (style : RealStyle) (x : Binary64) : List Char :=
  (if x.isNegative then ['-'] else []) ++ x.shortest.write style

/-- The nearest whole number, a tie to the even one, with the sign of `x` even when it is zero. -/
def writeWhole (x : Binary64) : List Char :=
  if x.isNaN then ['N', 'a', 'N']
  else
    (if x.isNegative then ['-'] else [])
      ++ if x.isInfinite then ['i', 'n', 'f']
        else if 0 ≤ x.scale then decimalDigits (x.significand * twoTo x.scale.toNat)
        else decimalDigits (roundDiv x.significand (twoTo (-x.scale).toNat))

end Binary64
end FlexLink
