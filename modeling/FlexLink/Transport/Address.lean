import FlexLink.Text.Hex
import FlexLink.Text.Quoted
import FlexLink.Number.Text

/-! # Socket addresses

Internet addresses of both versions with a port, read and written in their usual text forms.
Readers take characters and return what is left behind the longest form they find. -/
set_option autoImplicit false
namespace FlexLink

structure IPv4 where
  a : UInt8
  b : UInt8
  c : UInt8
  d : UInt8
deriving DecidableEq, Inhabited

structure IPv6 where
  groups : Vector UInt16 8
deriving DecidableEq

inductive IPAddress where
  | v4 (ip : IPv4)
  | v6 (ip : IPv6)
deriving DecidableEq

/-- An address and a port; `scope` names the interface of a version 6 address, 0 for none. -/
structure SocketAddress where
  ip : IPAddress
  port : UInt16
  scope : UInt32 := 0
deriving DecidableEq

namespace IPv4

def loopback : IPv4 := ⟨127, 0, 0, 1⟩

def isUnspecified (ip : IPv4) : Bool := ip == ⟨0, 0, 0, 0⟩

def isLoopback (ip : IPv4) : Bool := ip.a == 127

def render (ip : IPv4) : String := s!"{ip.a}.{ip.b}.{ip.c}.{ip.d}"

end IPv4

namespace IPv6

def loopback : IPv6 := ⟨#v[0, 0, 0, 0, 0, 0, 0, 1]⟩

def isUnspecified (ip : IPv6) : Bool := ip.groups.toList.all (· == 0)

def isLoopback (ip : IPv6) : Bool := ip == loopback

/-- The version 4 address that the last two groups map, if the others say so. -/
def mapped? (ip : IPv6) : Option IPv4 :=
  if (ip.groups.toList.take 5).all (· == 0) && ip.groups[5] == 0xFFFF then
    let byte (w : UInt16) (unit : Nat) := UInt8.ofNat (w.toNat / unit)
    some ⟨byte ip.groups[6] 0x100, byte ip.groups[6] 1, byte ip.groups[7] 0x100,
      byte ip.groups[7] 1⟩
  else none

/-- Start and length of the first longest run of zero groups, from group `i` on. -/
def zeroRun : (i current : Nat) → (best : Nat × Nat) → List UInt16 → Nat × Nat
  | _, _, best, [] => best
  | i, current, best, g :: rest =>
    if g = 0 then
      let current := current + 1
      zeroRun (i + 1) current (if best.2 < current then (i + 1 - current, current) else best) rest
    else zeroRun (i + 1) 0 best rest

def groupsText (groups : List UInt16) : String :=
  ":".intercalate (groups.map fun g => String.ofList (Text.hexDigits g.toNat))

/-- The first longest run of two or more zero groups is left out. -/
def render (ip : IPv6) : String :=
  match ip.mapped? with
  | some v4 => s!"::ffff:{v4.render}"
  | none =>
    let groups := ip.groups.toList
    let (start, length) := zeroRun 0 0 (0, 0) groups
    if 1 < length then
      groupsText (groups.take start) ++ "::" ++ groupsText (groups.drop (start + length))
    else groupsText groups

end IPv6

namespace IPAddress

def isUnspecified : IPAddress → Bool
  | .v4 ip => ip.isUnspecified
  | .v6 ip => ip.isUnspecified

def isLoopback : IPAddress → Bool
  | .v4 ip => ip.isLoopback
  | .v6 ip => ip.isLoopback

def render : IPAddress → String
  | .v4 ip => ip.render
  | .v6 ip => ip.render

end IPAddress

namespace SocketAddress

def render (s : SocketAddress) : String :=
  match s.ip with
  | .v4 ip => s!"{ip.render}:{s.port}"
  | .v6 ip => if s.scope = 0 then s!"[{ip.render}]:{s.port}" else s!"[{ip.render}%{s.scope}]:{s.port}"

end SocketAddress

namespace Address

abbrev Parse (α : Type) := List Char → Option (α × List Char)

def literal (c : Char) : Parse Unit
  | d :: rest => if d = c then some ((), rest) else none
  | [] => none

def digit? (base : Nat) (c : Char) : Option Nat := (Hex.value? c).filter (· < base)

/-- All digits that stand next, with their number and value. -/
def digits (base count value : Nat) : List Char → Nat × Nat × List Char
  | [] => (count, value, [])
  | c :: rest =>
    match digit? base c with
    | some d => digits base (count + 1) (value * base + d) rest
    | none => (count, value, c :: rest)

/-- A number below `bound`, of at most `most` digits if that is given. -/
def number (base bound : Nat) (most : Option Nat) (zeros : Bool) : Parse Nat := fun source =>
  match digits base 0 0 source with
  | (count, value, rest) =>
    if count == 0 || most.any (fun m => decide (m < count)) || decide (bound ≤ value) then none
    else if !zeros && source.head? == some '0' && 1 < count then none
    else some (value, rest)

def octet : Parse UInt8 := fun source =>
  (number 10 256 (some 3) false source).map fun (n, rest) => (UInt8.ofNat n, rest)

def behind {α : Type} (c : Char) (p : Parse α) : Parse α := fun source => do
  let (_, rest) ← literal c source
  p rest

def ipv4 : Parse IPv4 := fun source => do
  let (a, rest) ← octet source
  let (b, rest) ← behind '.' octet rest
  let (c, rest) ← behind '.' octet rest
  let (d, rest) ← behind '.' octet rest
  return (⟨a, b, c, d⟩, rest)

def group : Parse UInt16 := fun source =>
  (number 16 65536 (some 4) true source).map fun (n, rest) => (UInt16.ofNat n, rest)

/-- Up to `room` groups, and whether the last two came from a version 4 address. -/
def groups : (room : Nat) → (first : Bool) → List Char → List UInt16 × Bool × List Char
  | 0, _, source => ([], false, source)
  | room + 1, first, source =>
    let ahead {α : Type} (p : Parse α) : Option (α × List Char) :=
      if first then p source else behind ':' p source
    let embedded := if room = 0 then none else ahead ipv4
    match embedded with
    | some (ip, rest) => ([HalfWord ip.a ip.b, HalfWord ip.c ip.d], true, rest)
    | none =>
      match ahead group with
      | some (g, rest) =>
        let (gs, v4, rest) := groups room false rest
        (g :: gs, v4, rest)
      | none => ([], false, source)
where
  HalfWord (high low : UInt8) : UInt16 := UInt16.ofNat (high.toNat * 256 + low.toNat)

def ipv6 : Parse IPv6 := fun source => do
  let (head, v4, rest) := groups 8 true source
  if head.length = 8 then return (make head, rest)
  else if v4 then none
  else
    let (_, rest) ← literal ':' rest
    let (_, rest) ← literal ':' rest
    let (tail, _, rest) := groups (7 - head.length) true rest
    return (make (head ++ List.replicate (8 - head.length - tail.length) 0 ++ tail), rest)
where
  make (gs : List UInt16) : IPv6 := ⟨Vector.ofFn fun i => gs.getD i 0⟩

def port : Parse UInt16 := fun source => do
  let (n, rest) ← behind ':' (number 10 65536 none true) source
  return (UInt16.ofNat n, rest)

def socketV4 : Parse SocketAddress := fun source => do
  let (ip, rest) ← ipv4 source
  let (port, rest) ← port rest
  return ({ ip := .v4 ip, port }, rest)

def socketV6 : Parse SocketAddress := fun source => do
  let (_, rest) ← literal '[' source
  let (ip, rest) ← ipv6 rest
  let (scope, rest) := (behind '%' (number 10 (0x100000000) none true) rest).getD (0, rest)
  let (_, rest) ← literal ']' rest
  let (port, rest) ← port rest
  return ({ ip := .v6 ip, port, scope := UInt32.ofNat scope }, rest)

def whole {α : Type} (p : Parse α) (source : String) : Option α :=
  match p source.toList with
  | some (v, []) => some v
  | _ => none

end Address

def IPv4.parse? (source : String) : Option IPv4 := Address.whole Address.ipv4 source

def SocketAddress.parse? (source : String) : Option SocketAddress :=
  Address.whole (fun chars => Address.socketV4 chars <|> Address.socketV6 chars) source

end FlexLink
