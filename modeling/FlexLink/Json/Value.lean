import FlexLink.Number.Text

/-! # JSON values

The free-form part of an envelope.  Numbers are integers while they fit in 64 bits and binary
floating point otherwise; an object is its members in ascending order of their names, each name
once, so that equal values have one written form. -/
set_option autoImplicit false
namespace FlexLink

structure WideInt where
  val : Int
  lower : -0x8000000000000000 ≤ val
  upper : val < 0x10000000000000000
deriving DecidableEq

namespace WideInt

def ofUInt64 (n : UInt64) : WideInt :=
  ⟨n.toNat, by omega, by have := n.toNat_lt; omega⟩

def ofInt64 (i : Int64) : WideInt :=
  ⟨i.toInt, i.le_toInt, by have := i.toInt_lt; omega⟩

def ofInt? (i : Int) : Option WideInt :=
  if h : -0x8000000000000000 ≤ i ∧ i < 0x10000000000000000 then some ⟨i, h.1, h.2⟩ else none

def toUInt64? (i : WideInt) : Option UInt64 :=
  if 0 ≤ i.val then some (UInt64.ofNat i.val.toNat) else none

def toInt64? (i : WideInt) : Option Int64 :=
  if i.val < 0x8000000000000000 then some (Int64.ofInt i.val) else none

def toUInt32? (i : WideInt) : Option UInt32 :=
  if 0 ≤ i.val ∧ i.val < 0x100000000 then some (UInt32.ofNat i.val.toNat) else none

end WideInt

inductive Json.Number where
  | integer (i : WideInt)
  | real (x : Binary64)
deriving DecidableEq

namespace Json.Number

def toBinary64 : Number → Binary64
  | .integer i => Binary64.ofInt i.val
  | .real x => x

/-- Integers compare as integers and reals as reals; an integer never equals a real. -/
def same : Number → Number → Bool
  | .integer i, .integer j => i == j
  | .real x, .real y => x.same y
  | _, _ => false

end Json.Number

inductive Json where
  | null
  | bool (b : Bool)
  | number (n : Json.Number)
  | text (s : String)
  | array (items : List Json)
  | object (members : List (String × Json))
deriving Inhabited

namespace Json

def ofUInt64 (n : UInt64) : Json := .number (.integer (.ofUInt64 n))

def ofInt64 (i : Int64) : Json := .number (.integer (.ofInt64 i))

/-- A member added at its place in the order; a member of the same name is replaced. -/
def insertMember (name : String) (value : Json) : List (String × Json) → List (String × Json)
  | [] => [(name, value)]
  | (n, v) :: rest =>
    if name < n then (name, value) :: (n, v) :: rest
    else if name = n then (name, value) :: rest
    else (n, v) :: insertMember name value rest

/-- The object with the given members, the last of each name. -/
def ofMembers (members : List (String × Json)) : Json :=
  .object (members.foldl (fun sorted m => insertMember m.1 m.2 sorted) [])

def get? (name : String) : Json → Option Json
  | .object members => members.lookup name
  | _ => none

def asText? : Json → Option String
  | .text s => some s
  | _ => none

def asBool? : Json → Option Bool
  | .bool b => some b
  | _ => none

def asBinary64? : Json → Option Binary64
  | .number n => some n.toBinary64
  | _ => none

def isNull : Json → Bool
  | .null => true
  | _ => false

mutual

/-- Equality of values, which differs from identity on real numbers only. -/
def same : Json → Json → Bool
  | .null, .null => true
  | .bool a, .bool b => a == b
  | .number a, .number b => a.same b
  | .text a, .text b => a == b
  | .array a, .array b => sameItems a b
  | .object a, .object b => sameMembers a b
  | _, _ => false

def sameItems : List Json → List Json → Bool
  | [], [] => true
  | a :: as, b :: bs => same a b && sameItems as bs
  | _, _ => false

def sameMembers : List (String × Json) → List (String × Json) → Bool
  | [], [] => true
  | (m, a) :: as, (n, b) :: bs => m == n && same a b && sameMembers as bs
  | _, _ => false

end

mutual

def depth : Json → Nat
  | .array items => depthItems items + 1
  | .object members => depthMembers members + 1
  | _ => 0

def depthItems : List Json → Nat
  | [] => 0
  | v :: rest => max (depth v) (depthItems rest)

def depthMembers : List (String × Json) → Nat
  | [] => 0
  | (_, v) :: rest => max (depth v) (depthMembers rest)

end

def Ascending : List (String × Json) → Prop
  | [] => True
  | (n, _) :: rest => (∀ m ∈ rest, n < m.1) ∧ Ascending rest

mutual

/-- Every object of the value has its members in order, each name once. -/
def Canonical : Json → Prop
  | .array items => CanonicalItems items
  | .object members => Ascending members ∧ CanonicalMembers members
  | _ => True

def CanonicalItems : List Json → Prop
  | [] => True
  | v :: rest => Canonical v ∧ CanonicalItems rest

def CanonicalMembers : List (String × Json) → Prop
  | [] => True
  | (_, v) :: rest => Canonical v ∧ CanonicalMembers rest

end

mutual

def Integral : Json → Prop
  | .number (.real _) => False
  | .array items => IntegralItems items
  | .object members => IntegralMembers members
  | _ => True

def IntegralItems : List Json → Prop
  | [] => True
  | v :: rest => Integral v ∧ IntegralItems rest

def IntegralMembers : List (String × Json) → Prop
  | [] => True
  | (_, v) :: rest => Integral v ∧ IntegralMembers rest

end

end Json
end FlexLink
