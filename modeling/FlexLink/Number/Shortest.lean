import FlexLink.Number.Binary64

/-! # Shortest decimal of a binary number

Among the decimals that round to a given number, `shortest` takes one with the fewest digits,
and of those the nearest.  Only the two neighbours of the number on each decimal grid have to
be tried: if any point of a grid rounds to the number, one of its neighbours does. -/
set_option autoImplicit false
namespace FlexLink

structure Decimal where
  digits : Nat
  exponent : Int
deriving DecidableEq, Repr

namespace Decimal

/-- Digits without trailing zeros; the exponent makes up for them. -/
def trim : Nat → Decimal → Decimal
  | 0, x => x
  | fuel + 1, x =>
    if x.digits ≠ 0 ∧ x.digits % 10 = 0 then trim fuel ⟨x.digits / 10, x.exponent + 1⟩ else x

end Decimal

namespace Binary64

def decimalLe (a : Nat) (s : Int) (b : Nat) (q : Int) : Bool :=
  decide (a * tenTo s.toNat * twoTo (-q).toNat ≤ b * twoTo q.toNat * tenTo (-s).toNat)

def decimalGe (a : Nat) (s : Int) (b : Nat) (q : Int) : Bool :=
  decide (b * twoTo q.toNat * tenTo (-s).toNat ≤ a * tenTo s.toNat * twoTo (-q).toNat)

/-- The exponent `p` with `10 ^ p ≤ x < 10 ^ (p + 1)`, for a positive `x`. -/
def decimalExponent (x : Binary64) : Int :=
  let guess := ((x.significand.log2 : Int) + x.scale) * 1233 / 4096
  if !decimalLe 1 guess x.significand x.scale then guess - 1
  else if decimalLe 1 (guess + 1) x.significand x.scale then guess + 1
  else guess

/-- Four times the significand, and the ends of the interval that rounds to the number. -/
structure Interval where
  low : Nat
  middle : Nat
  high : Nat
  /-- The ends round to an even significand. -/
  closed : Bool
  /-- All three are in units of `2 ^ scale`. -/
  scale : Int

/-- The gap below a power of two is half as wide as the gap above it. -/
def interval (x : Binary64) : Interval :=
  let m := x.significand
  let low := if x.fractionField = 0 ∧ 1 < x.exponentField then 4 * m - 1 else 4 * m - 2
  ⟨low, 4 * m, 4 * m + 2, m % 2 == 0, x.scale - 2⟩

namespace Interval

def contains (i : Interval) (digits : Nat) (exponent : Int) : Bool :=
  if i.closed then
    decimalGe digits exponent i.low i.scale && decimalLe digits exponent i.high i.scale
  else
    !decimalLe digits exponent i.low i.scale && !decimalGe digits exponent i.high i.scale

/-- The middle rounded down to a multiple of `10 ^ exponent`. -/
def floor (i : Interval) (exponent : Int) : Nat :=
  (i.middle * twoTo i.scale.toNat * tenTo (-exponent).toNat)
    / (tenTo exponent.toNat * twoTo (-i.scale).toNat)

/-- Whether the grid point after `floor` is nearer to the middle, a tie to the even one. -/
def prefersNext (i : Interval) (floor : Nat) (exponent : Int) : Bool :=
  let midpoint := 2 * floor + 1
  if decimalLe midpoint exponent (2 * i.middle) i.scale then
    if decimalGe midpoint exponent (2 * i.middle) i.scale then floor % 2 == 1 else true
  else false

/-- The grid point of spacing `10 ^ exponent` that rounds to the number, the nearer of two. -/
def onGrid (i : Interval) (exponent : Int) : Option Decimal :=
  let down := i.floor exponent
  let up := down + 1
  match i.contains down exponent && down != 0, i.contains up exponent with
  | true, true => some ⟨if i.prefersNext down exponent then up else down, exponent⟩
  | true, false => some ⟨down, exponent⟩
  | false, true => some ⟨up, exponent⟩
  | false, false => none

def search (i : Interval) : Nat → Int → Option Decimal
  | 0, _ => none
  | tries + 1, exponent =>
    match i.onGrid exponent with
    | some d => some d
    | none => search i tries (exponent - 1)

end Interval

/-- The shortest decimal that reads back as the finite number `x`, without its sign. -/
def shortest (x : Binary64) : Decimal :=
  if x.isZero then ⟨0, 0⟩
  else
    let i := x.interval
    match i.search 18 x.decimalExponent with
    | some d => d.trim 20
    | none => ⟨x.significand, x.scale⟩

end Binary64
end FlexLink
