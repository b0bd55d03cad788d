import FlexLink.Proofs.Tables
import FlexLink.Reliability.Resend

/-! # The resend buffer as a list

A resend buffer is a list of frames under different keys, oldest first, `holding`: its queue names
the keys of its table in their order.  Recording under a new key appends and drops what is too much
from the front, an acknowledgement filters, and what is asked for is looked up. -/
set_option autoImplicit false
namespace FlexLink

namespace ResendBuffer

variable {κ : Type} {capacity : Nat} {entries : List (κ × List Packet)}

def holding (capacity : Nat) (entries : List (κ × List Packet)) : ResendBuffer κ :=
  ⟨capacity, ⟨entries⟩, entries.map (·.1)⟩

theorem new_eq_holding (capacity : Nat) :
    (new capacity : ResendBuffer κ) = holding (max capacity 1) [] := rfl

variable [DecidableEq κ]

/-- What is too much leaves from the front. -/
theorem evict_eq_holding (different : (entries.map (·.1)).Nodup) (order : List κ) :
    evict ⟨capacity, ⟨entries⟩, order⟩ (entries.map (·.1))
      = holding capacity (entries.drop (entries.length - capacity)) := by
  induction entries with
  | nil => rw [List.map_nil, evict, List.drop_nil, holding, List.map_nil]
  | cons e rest ih =>
      obtain ⟨key, packets⟩ := e
      obtain ⟨first, others⟩ := List.nodup_cons.mp different
      rw [List.map_cons, evict, List.length_cons]
      by_cases full : capacity < rest.length + 1
      · have oldest : (rest.length + 1) - capacity = (rest.length - capacity) + 1 := by omega
        refine (if_pos full).trans ?_
        simp only [Table.erase_head first]
        rw [ih others, oldest, List.drop_succ_cons]
      · have none : (rest.length + 1) - capacity = 0 := by omega
        rw [none]
        exact if_neg full

/-- Frames under a new key. -/
theorem record_holding {key : κ} (different : (entries.map (·.1)).Nodup)
    (absent : key ∉ entries.map (·.1)) (packets : List Packet) :
    (holding capacity entries).record key packets
      = holding capacity
          ((entries ++ [(key, packets)]).drop (entries.length + 1 - capacity)) := by
  have new : (holding capacity entries).frames.contains key = false := by
    refine Bool.eq_false_iff.mpr fun known => absent ?_
    exact (Table.contains_iff _ key).mp known
  have unlike : ((entries ++ [(key, packets)]).map (·.1)).Nodup := by
    rw [List.map_append]
    exact Table.nodup_snoc different absent
  rw [record, new]
  simp only [holding, Table.insert, Table.put_of_notMem absent]
  have grown : evict ⟨capacity, _, entries.map (·.1)⟩ _ = _ := evict_eq_holding unlike _
  rw [List.map_append, List.map_singleton, List.length_append, List.length_singleton] at grown
  exact grown

/-- Other frames under a key that is there. -/
theorem record_holding_of_mem {key : κ} (different : (entries.map (·.1)).Nodup)
    (room : entries.length ≤ capacity) (present : key ∈ entries.map (·.1))
    (packets : List Packet) :
    (holding capacity entries).record key packets
      = holding capacity (Table.put key packets entries) := by
  have known : (holding capacity entries).frames.contains key = true :=
    (Table.contains_iff _ key).mpr present
  have keys : (Table.put key packets entries).map (·.1) = entries.map (·.1) :=
    Table.keys_put_of_mem present packets
  have distinct : ((Table.put key packets entries).map (·.1)).Nodup := by rwa [keys]
  have size : (Table.put key packets entries).length = entries.length := by
    simpa using congrArg List.length keys
  rw [record, known]
  simp only [holding, Table.insert, if_true]
  have same : evict ⟨capacity, _, entries.map (·.1)⟩ _ = _ :=
    evict_eq_holding distinct _
  rw [keys, size, Nat.sub_eq_zero_of_le room, List.drop_zero] at same
  exact same.trans (by rw [holding])

variable [ResendKey κ]

theorem release_holding (acked : κ) :
    ((holding capacity entries).release acked).1
      = holding capacity (entries.filter fun e => !ResendKey.covered e.1 acked) := by
  -- A key stays in the queue exactly if its entry stays in the table.
  have order : (entries.map (·.1)).filter
        (Table.contains ⟨entries.filter fun e => !ResendKey.covered e.1 acked⟩)
      = (entries.filter fun e => !ResendKey.covered e.1 acked).map (·.1) := by
    rw [List.filter_map]
    refine congrArg _ (List.filter_congr fun e member => ?_)
    rw [Function.comp_apply, Bool.eq_iff_iff, Table.contains_iff, Table.keys, List.mem_map]
    constructor
    · rintro ⟨x, stays, same⟩
      rw [← same]
      exact (List.mem_filter.mp stays).2
    · intro stays
      exact ⟨e, List.mem_filter.mpr ⟨member, stays⟩, rfl⟩
  simp only [release, holding, Table.restrict, order]

/-- Those that an acknowledgement covers are counted. -/
theorem length_release_holding (acked : κ) :
    ((holding capacity entries).release acked).2
      = entries.countP fun e => ResendKey.covered e.1 acked := by
  have parts : entries.length = entries.countP (fun e => ResendKey.covered e.1 acked)
      + entries.countP fun e => !ResendKey.covered e.1 acked := by
    simpa using List.length_eq_countP_add_countP (l := entries) fun e => ResendKey.covered e.1 acked
  show entries.length - (entries.filter fun e => !ResendKey.covered e.1 acked).length = _
  rw [← List.countP_eq_length_filter]
  omega

omit [ResendKey κ] in
theorem lookup_frames (b : ResendBuffer κ) (keys : List κ) :
    (b.lookup keys).map (·.2) = keys.filterMap b.frames.get? := by
  induction keys with
  | nil => rfl
  | cons key rest ih =>
      rw [lookup] at ih ⊢
      rw [List.filterMap_cons, List.filterMap_cons]
      cases b.frames.get? key with
      | none => exact ih
      | some packets => exact congrArg (packets :: ·) ih

omit [ResendKey κ] in
theorem lookup_keys (b : ResendBuffer κ) (keys : List κ) :
    (b.lookup keys).map (·.1) = keys.filter b.frames.contains := by
  induction keys with
  | nil => rfl
  | cons key rest ih =>
    rw [lookup] at ih ⊢
    rw [List.filterMap_cons, List.filter_cons, ← ih]
    cases found : b.frames.get? key with
    | none =>
      have absent : b.frames.contains key = false := by
        rw [Bool.eq_false_iff, ne_eq, Table.contains_iff, ← Table.get?_eq_none_iff]
        exact found
      simp [absent]
    | some packets =>
      have present : b.frames.contains key = true := by
        rw [Table.contains_iff, Table.mem_keys_iff]
        exact ⟨packets, found⟩
      simp [present]

omit [ResendKey κ] in
/-- What is found was asked for, in that order. -/
theorem lookup_keys_sublist (b : ResendBuffer κ) (keys : List κ) :
    ((b.lookup keys).map (·.1)).Sublist keys := by
  rw [lookup_keys]
  exact List.filter_sublist

/-! ## One key of any buffer -/

section OneKey

variable {b : ResendBuffer κ} {key : κ} {packets found : List Packet}

omit [ResendKey κ] in
theorem get?_of_evict (order : List κ) (kept : (b.evict order).frames.get? key = some found) :
    b.frames.get? key = some found := by
  induction order generalizing b with
  | nil => exact kept
  | cons oldest rest ih =>
      rw [evict] at kept
      split at kept
      · have before := ih kept
        rw [Table.get?_erase] at before
        split at before
        · cases before
        · exact before
      · exact kept

omit [ResendKey κ] in
/-- If there is room for what was recorded, it is there. -/
theorem eq_of_get?_record (kept : (b.record key packets).frames.get? key = some found) :
    found = packets := by
  have before := get?_of_evict _ kept
  rw [Table.get?_insert, if_pos rfl] at before
  exact (Option.some.inj before).symm

theorem get?_release (acked : κ) : (b.release acked).1.frames.get? key
    = if ResendKey.covered key acked then none else b.frames.get? key := by
  show (b.frames.restrict _).get? key = _
  rw [Table.get?_restrict]
  cases ResendKey.covered key acked <;> rfl

end OneKey

end ResendBuffer
end FlexLink
