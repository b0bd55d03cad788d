import FlexLink.Journal.Entry
import FlexLink.Proofs.Json.Records

/-! # Records come back from their text -/
set_option autoImplicit false
namespace FlexLink

open Json

theorem JournalRole.readsBack (role : JournalRole) (depth : Nat) :
    shape.ReadsBack depth role (stringChars role.name) := by
  intro rest _
  have quoted : Reader.skipBlanks ('"' :: (role.name.toList.flatMap escapeChar ++ '"' :: rest))
      = '"' :: (role.name.toList.flatMap escapeChar ++ '"' :: rest) := Reader.skipBlanks_cons rfl
  have known : ofNameOrFail role.name = .ok role := by cases role <;> rfl
  have own : shape.read = read := rfl
  rw [Reader.stringChars_append, own, read, quoted]
  simp only [if_true, Reader.string_escaped, Reader.checked, known]

namespace JournalEntry

/-- Whether the written record is read back: its payload is in order, holds integers only and is
not nested deeper than the reader goes. -/
structure Lasting (payload : Json) : Prop where
  canonical : payload.Canonical
  integral : payload.Integral
  shallow : payload.depth ≤ 126

theorem readsBack (e : JournalEntry) (canonical : e.payload.Canonical)
    (integral : e.payload.Integral) {depth : Nat} (shallow : e.payload.depth + 1 < depth) :
    shape.ReadsBack depth e (recordChars [("corr", some (stringChars e.corr)),
      ("role", some (stringChars e.role.name)), ("ts", some (decimalDigits e.ts.toNat)),
      ("payload", some e.payload.chars)]) := by
  have fills : record.Fills (depth - 1) record.blank
      [("corr", some (stringChars e.corr)), ("role", some (stringChars e.role.name)),
        ("ts", some (decimalDigits e.ts.toNat)), ("payload", some e.payload.chars)]
      ⟨some e.corr, some e.role, some e.ts, some e.payload⟩ := by
    refine .typed rfl rfl (Shape.readsBack_text _ e.corr) ?_
    refine .typed rfl rfl (e.role.readsBack _) ?_
    refine .typed rfl rfl (Shape.readsBack_uint64 _ e.ts) ?_
    refine .typed rfl rfl (Shape.readsBack_any ?_ canonical integral) (.nil _)
    exact Nat.lt_sub_of_add_lt shallow
  exact Record.readsBack_recordChars (by omega) fills rfl

theorem parse_render (e : JournalEntry) (lasting : Lasting e.payload) :
    shape.parse e.render = .ok e :=
  Shape.parse_of_readsBack (e.readsBack lasting.canonical lasting.integral
    (Nat.lt_succ_of_le (Nat.succ_le_succ lasting.shallow)))

end JournalEntry
end FlexLink
