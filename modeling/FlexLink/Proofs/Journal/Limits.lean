import FlexLink.Proofs.Journal.Entries
import FlexLink.Proofs.Json.Depth

/-! # Records that are too deep

A record is one bracket around its payload.  So the reader, which opens so many brackets and no more,
takes back the payloads that stay one below that, and none that goes further: a deeper reader would read
the record that was written, and what this one reads is never so deep. -/
set_option autoImplicit false
namespace FlexLink

open Json

theorem JournalRole.deepens : shape.Deepens := by
  intro depth source found same
  have own : shape.read = read := rfl
  rw [own, read] at same ⊢
  split at same
  · cases same
  · next c rest solid =>
      by_cases quote : c = '"'
      · rw [if_pos quote] at same ⊢
        exact same
      · by_cases brace : c = '\x7b'
        · rw [if_neg quote, if_pos brace] at same ⊢
          split at same
          · cases same
          · next deep =>
              rw [if_neg (fun flat => deep (Nat.le_of_succ_le flat))]
              exact same
        · rw [if_neg quote, if_neg brace] at same ⊢
          exact same

namespace JournalEntry

theorem deepens : shape.Deepens := by
  apply Record.deepens
  refine List.forall_mem_cons.mpr ⟨Field.deepens_typed Shape.deepens_text, ?_⟩
  refine List.forall_mem_cons.mpr ⟨Field.deepens_typed JournalRole.deepens, ?_⟩
  refine List.forall_mem_cons.mpr ⟨Field.deepens_typed Shape.deepens_uint64, ?_⟩
  exact List.forall_mem_singleton.mpr (Field.deepens_typed Shape.deepens_any)

/-- What is known of a payload that was read. -/
theorem within_of_read {depth : Nat} {source rest : List Char} {e : JournalEntry}
    (read : shape.read (depth + 1) source = .ok (e, rest)) : Within depth e.payload := by
  let P (draft : Draft) : Prop := ∀ v, draft.payload = some v → Within depth v
  have keeps : ∀ f ∈ record.fields, f.Keeps depth P := by
    refine List.forall_mem_cons.mpr ⟨Field.keeps_typed fun _ _ _ _ known _ => known, ?_⟩
    refine List.forall_mem_cons.mpr ⟨Field.keeps_typed fun _ _ _ _ known _ => known, ?_⟩
    refine List.forall_mem_cons.mpr ⟨Field.keeps_typed fun _ _ _ _ known _ => known, ?_⟩
    refine List.forall_mem_singleton.mpr (Field.keeps_typed fun draft source x rest _ same => ?_)
    intro v payload
    cases payload
    exact Reader.value_ok same
  have blank : P record.blank := fun v none => by cases none
  obtain ⟨draft, known, made⟩ := Record.read_ok blank keeps read
  obtain ⟨corr, role, ts, payload⟩ := draft
  cases corr <;> cases role <;> cases ts <;> cases payload <;> cases made
  exact known _ rfl

/-- A record is read back if its payload stays below the depth, and cannot be read at all if not. -/
theorem parse_render_deep (e : JournalEntry) (canonical : e.payload.Canonical)
    (integral : e.payload.Integral) (deep : 126 < e.payload.depth) :
    ∃ why, shape.parse e.render = .error why := by
  cases parsed : shape.parse e.render with
  | error why => exact ⟨why, rfl⟩
  | ok found =>
      obtain ⟨rest, read⟩ := Shape.parse_ok parsed
      have further := deepens.le (show Reader.depthLimit ≤ e.payload.depth + 2 by
        show 128 ≤ _; omega) _ _ read
      have back := e.readsBack canonical integral (Nat.lt_succ_self (e.payload.depth + 1)) []
        (fun _ none => by cases none)
      rw [List.append_nil] at back
      rw [render, String.toList_ofList, back] at further
      cases further
      have shallow := (within_of_read (show shape.read (127 + 1) _ = _ from read)).shallow
      exact absurd shallow (by omega)

end JournalEntry
end FlexLink
