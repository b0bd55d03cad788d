import FlexLink.Transport.State

/-! # The ids of endpoints

An id is its sixteen bytes, and ids are in a strict order, the order of their bytes. -/
set_option autoImplicit false
namespace FlexLink.EndpointId

variable {a b c : EndpointId}

theorem ofBytes_toBytes (id : EndpointId) : ofBytes id.toBytes = id := by
  obtain ⟨bytes⟩ := id
  simp only [ofBytes, toBytes, EndpointId.mk.injEq]
  ext i inside
  simp

theorem toBytes_ofBytes {raw : List UInt8} (whole : raw.length = 16) :
    (ofBytes raw).toBytes = raw := by
  apply List.ext_getElem
  · rw [toBytes, Vector.length_toList, whole]
  · intro i _ inside
    simp [toBytes, ofBytes, inside]

theorem toBytes_injective : Function.Injective toBytes := by
  intro a b same
  rw [← ofBytes_toBytes a, ← ofBytes_toBytes b, same]

theorem lt_irrefl (a : EndpointId) : ¬ a < a := List.lt_irrefl a.toBytes

theorem lt_trans (first : a < b) (second : b < c) : a < c := by
  have below : a.toBytes < b.toBytes := first
  exact List.lt_trans below second

theorem not_lt_of_lt (before : a < b) : ¬ b < a := by
  intro after
  exact lt_irrefl a (lt_trans before after)

theorem lt_of_not_lt (different : a ≠ b) (after : ¬ a < b) : b < a := by
  apply Classical.byContradiction
  intro before
  exact different (toBytes_injective (List.le_antisymm before after))

end FlexLink.EndpointId
