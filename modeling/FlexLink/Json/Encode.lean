import FlexLink.Json.Value

/-! # Values as JSON

How values of the library look from outside: numbers as numbers, texts as texts, an absent value
as `null`, and an outcome as its value or its error. -/
set_option autoImplicit false
namespace FlexLink

class ToJson (α : Type) where
  toJson : α → Json

export ToJson (toJson)

namespace Json

def obj (members : List (String × Json)) : Json := .ofMembers members

def failure (kind message : String) : Json := obj [("error", .text kind), ("message", .text message)]

def ofNat (n : Nat) : Json :=
  match WideInt.ofInt? n with
  | some i => .number (.integer i)
  | none => .null

end Json

section Instances

variable {α β : Type}

instance : ToJson Json := ⟨id⟩

instance : ToJson String := ⟨.text⟩

instance : ToJson Bool := ⟨.bool⟩

instance : ToJson Unit := ⟨fun _ => .text "ok"⟩

instance : ToJson Nat := ⟨.ofNat⟩

instance : ToJson UInt8 := ⟨fun n => .ofNat n.toNat⟩

instance : ToJson UInt16 := ⟨fun n => .ofNat n.toNat⟩

instance : ToJson UInt32 := ⟨fun n => .ofNat n.toNat⟩

instance : ToJson UInt64 := ⟨fun n => .ofNat n.toNat⟩

instance [ToJson α] : ToJson (List α) := ⟨fun xs => .array (xs.map toJson)⟩

instance [ToJson α] : ToJson (Option α) where
  toJson
    | some v => toJson v
    | none => .null

instance [ToJson α] [ToJson β] : ToJson (Except α β) where
  toJson
    | .ok v => toJson v
    | .error e => toJson e

end Instances

/-- A value may stand where JSON is wanted. -/
scoped instance Json.encoded {α : Type} [ToJson α] : CoeOut α Json := ⟨toJson⟩

end FlexLink
