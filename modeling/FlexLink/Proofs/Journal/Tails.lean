import FlexLink.Journal.Memory
import FlexLink.Proofs.Journal.WriteOnce
import FlexLink.Proofs.Tables
import Mathlib.Data.List.Nodup
import Mathlib.Data.List.Pairwise

/-! # The last records of two journals

A journal in memory gives its records back in the order they were written.  A directory does not know
that order: its files come in any order, and all that a record tells is the millisecond and the role,
so it sorts by these.  The two agree, whatever the order of the files, just where the records ascend in
them already. -/
set_option autoImplicit false
namespace FlexLink

theorem not_swapped {α : Type} {xs : List α} {a b : α} (different : xs.Nodup)
    (one : [a, b].Sublist xs) (other : [b, a].Sublist xs) : False := by
  induction xs with
  | nil => cases one
  | cons x xs ih =>
      obtain ⟨new, rest⟩ := List.nodup_cons.mp different
      cases one with
      | cons _ later =>
          cases other with
          | cons _ later' => exact ih rest later later'
          | cons_cons _ single => exact new (later.subset (by simp))
      | cons_cons _ single =>
          cases other with
          | cons _ later' => exact new (later'.subset (by simp))
          | cons_cons _ single' => exact new (single.subset (by simp))

theorem lastOf_length {α : Type} (xs : List α) : lastOf xs.length xs = xs := by
  rw [lastOf, Nat.sub_self, List.drop_zero]

theorem Listing.sorted_perm {α : Type} (files : List (String × α)) :
    (Listing.sorted files).Perm files := by
  have shuffled := (List.mergeSort_perm (files.map fun file => (Place.ofName file.1, file))
    fun x y => x.1.atMost y.1).map Prod.snd
  rw [List.map_map] at shuffled
  exact shuffled.trans (.of_eq (List.map_id files))

namespace JournalEntry

/-- Whether the millisecond and the role tell that one record is older than another. -/
def Before (a b : JournalEntry) : Prop :=
  a.ts < b.ts ∨ a.ts = b.ts ∧ a.role = .request ∧ b.role = .response

instance (a b : JournalEntry) : Decidable (a.Before b) := inferInstanceAs (Decidable (_ ∨ _))

def moment (e : JournalEntry) : Nat := 2 * e.ts.toNat + if e.role = .response then 1 else 0

theorem before_iff (a b : JournalEntry) : a.Before b ↔ a.moment < b.moment := by
  rw [Before, moment, moment, UInt64.lt_iff_toNat_lt, ← UInt64.toNat_inj]
  cases a.role <;> cases b.role <;> simp <;> omega

end JournalEntry

/-- A journal that takes all records in turn, and the first refusal if it does not. -/
def Journal.writeAll {τ : Type} (j : Journal τ) (s : τ) : List JournalEntry → Except JournalError τ
  | [] => .ok s
  | e :: rest =>
    match j.write s e.ts e.corr e.role e.payload with
    | (next, .ok ()) => j.writeAll next rest
    | (_, .error why) => .error why

theorem Journal.writeAll_cons {τ : Type} {j : Journal τ} {s after : τ} {e : JournalEntry}
    {rest : List JournalEntry} (taken : j.writeAll s (e :: rest) = .ok after) :
    ∃ next, j.write s e.ts e.corr e.role e.payload = (next, .ok ()) ∧
      j.writeAll next rest = .ok after := by
  rw [writeAll] at taken
  cases written : j.write s e.ts e.corr e.role e.payload with
  | mk next result =>
      rw [written] at taken
      cases result with
      | ok => exact ⟨next, rfl, taken⟩
      | error why => cases taken

namespace JournalDirectory

open JournalEntry

/-! ## The order of records -/

theorem precedes_iff (a b : JournalEntry) : precedes a b = true ↔ a.moment ≤ b.moment := by
  rw [precedes, moment, moment]
  cases a.role <;> cases b.role <;>
    simp [UInt64.lt_iff_toNat_lt, ← UInt64.toNat_inj] <;> omega

theorem ts_le_of_precedes {a b : JournalEntry} (first : precedes a b = true) : a.ts ≤ b.ts := by
  rw [precedes_iff, moment, moment] at first
  rw [UInt64.le_iff_toNat_le]
  split at first <;> split at first <;> omega

theorem precedes_total (a b : JournalEntry) : (precedes a b || precedes b a) = true := by
  rw [Bool.or_eq_true, precedes_iff, precedes_iff]
  exact Nat.le_total _ _

theorem precedes_trans (a b c : JournalEntry) (first : precedes a b = true)
    (second : precedes b c = true) : precedes a c = true := by
  rw [precedes_iff] at first second ⊢
  exact Nat.le_trans first second

/-- Where the clock does not go back, an arrangement changes nothing of the times. -/
theorem map_ts_mergeSort {records writes : List JournalEntry} (same : records.Perm writes)
    (clock : writes.Pairwise fun a b => a.ts ≤ b.ts) :
    (records.mergeSort precedes).map (·.ts) = writes.map (·.ts) := by
  have sorted := List.pairwise_mergeSort precedes_trans precedes_total records
  refine List.Perm.eq_of_pairwise (fun _ _ _ _ => UInt64.le_antisymm)
    (List.pairwise_map.mpr (sorted.imp ts_le_of_precedes)) (List.pairwise_map.mpr clock) ?_
  exact ((List.mergeSort_perm records precedes).trans same).map _

/-- Records that ascend are the only arrangement of themselves. -/
theorem mergeSort_of_ascending {records writes : List JournalEntry} (same : records.Perm writes)
    (ascending : writes.Pairwise Before) : records.mergeSort precedes = writes := by
  have apart : writes.Pairwise fun a b => a.moment ≠ b.moment :=
    ascending.imp fun before => Nat.ne_of_lt ((before_iff _ _).mp before)
  have sorted : writes.Pairwise fun a b => precedes a b = true :=
    ascending.imp fun before => (precedes_iff _ _).mpr (Nat.le_of_lt ((before_iff _ _).mp before))
  -- no two records are of one moment, so only one arrangement goes up
  refine List.Perm.eq_of_pairwise ?_ (List.pairwise_mergeSort precedes_trans precedes_total records)
    sorted ((List.mergeSort_perm records precedes).trans same)
  intro a b left right le ge
  rw [precedes_iff] at le ge
  rw [List.mem_mergeSort, same.mem_iff] at left
  by_contra unlike
  have symmetric : Std.Symm fun a b : JournalEntry => a.moment ≠ b.moment := ⟨fun _ _ => Ne.symm⟩
  exact apart.forall left right unlike (Nat.le_antisymm le ge)

/-- An arrangement leaves what is of one moment as it was.  So what comes in the opposite order is only
put right where the records ascend. -/
theorem ascending_of_mergeSort {writes : List JournalEntry} (different : writes.Nodup)
    (restored : writes.reverse.mergeSort precedes = writes) : writes.Pairwise Before := by
  refine List.pairwise_iff_forall_sublist.mpr fun {a b} one => ?_
  rw [before_iff]
  by_contra late
  -- the arrangement is stable: `b` stays before `a`, as it came, and also stands behind it
  have other : [b, a].Sublist (writes.reverse.mergeSort precedes) :=
    List.pair_sublist_mergeSort precedes_trans precedes_total
      ((precedes_iff b a).mpr (Nat.le_of_not_lt late)) one.reverse
  rw [restored] at other
  exact not_swapped different one other

/-! ## Both journals after the same writes -/

variable {d after : JournalDirectory} {log writes : List JournalEntry} {e : JournalEntry}

def fileOf (e : JournalEntry) : String × FileNode := (e.file, .text e.render)

theorem files_fileOf (log : List JournalEntry) : (log.map fileOf).map (·.1) = log.map file := by
  rw [List.map_map]
  rfl

def Holds (d : JournalDirectory) (log : List JournalEntry) : Prop := d.files = some ⟨log.map fileOf⟩

theorem Holds.node_eq_none (holds : d.Holds log) {name : String} :
    d.node? name = none ↔ name ∉ log.map file := by
  rw [node?, holds, ← files_fileOf]
  exact Table.get?_eq_none_iff _ _

/-- A write that is taken adds its record to the end. -/
theorem Holds.write (holds : d.Holds log)
    (taken : d.write e.ts e.corr e.role e.payload = (after, .ok ())) :
    e.file ∉ log.map file ∧ after.Holds (log ++ [e]) := by
  have absent : d.node? e.file = none := by
    rw [← Option.not_isSome_iff_eq_none]
    intro present
    rw [write_of_present present] at taken
    cases taken
  have new := holds.node_eq_none.mp absent
  let draft := RecordFile.draftName e.corr e.role d.process d.drafts
  have free : draft ∉ log.map file := by
    intro member
    obtain ⟨other, -, same⟩ := List.mem_map.mp member
    exact RecordFile.draftName_ne_name e.corr other.corr e.role other.role d.process d.drafts same.symm
  cases fit : fits draft with
  | false =>
      rw [write_of_unfit holds absent fit] at taken
      cases taken
  | true =>
      rw [write_of_absent holds absent fit (holds.node_eq_none.mpr free)] at taken
      cases taken
      rw [← files_fileOf] at free new
      refine ⟨files_fileOf log ▸ new, ?_⟩
      rw [Holds, Table.erase_of_notMem free, Table.insert, List.map_append]
      exact congrArg (fun entries => some (Table.mk entries)) (Table.put_of_notMem new)

end JournalDirectory

namespace MemoryJournal

variable {j : MemoryJournal} {log : List JournalEntry} {e : JournalEntry}

def Holds (j : MemoryJournal) (log : List JournalEntry) : Prop :=
  j.records = ⟨log.map fun e => ((e.corr, e.role), e)⟩

/-- What is new by its file is new. -/
theorem Holds.write (holds : j.Holds log) (new : e.file ∉ log.map (·.file)) :
    ∃ next : MemoryJournal, j.write e.ts e.corr e.role e.payload = (next, .ok ()) ∧
      next.Holds (log ++ [e]) := by
  have absent : (e.corr, e.role) ∉ (log.map fun e => ((e.corr, e.role), e)).map (·.1) := by
    rw [List.map_map]
    intro member
    obtain ⟨other, old, same⟩ := List.mem_map.mp member
    refine new (List.mem_map.mpr ⟨other, old, ?_⟩)
    have corr : other.corr = e.corr := congrArg Prod.fst same
    have role : other.role = e.role := congrArg Prod.snd same
    rw [JournalEntry.file, JournalEntry.file, corr, role]
  have unread : j.read e.corr e.role = none := by
    rw [read, holds]
    exact (Table.get?_eq_none_iff _ _).mpr absent
  refine ⟨_, by rw [MemoryJournal.write, unread], ?_⟩
  show j.records.insert (e.corr, e.role) e = _
  rw [holds, Table.insert, Table.put_of_notMem absent, List.map_append]
  rfl

theorem Holds.tail (holds : j.Holds log) (n : Nat) : j.tail n = lastOf n log := by
  have entries : (log.map fun e => ((e.corr, e.role), e)).map (·.2) = log := by
    rw [List.map_map]
    exact List.map_id log
  rw [MemoryJournal.tail, holds, entries]

end MemoryJournal

namespace JournalDirectory

open JournalEntry

variable {d after : JournalDirectory} {log writes : List JournalEntry}

/-- Whatever a directory takes, a journal in memory takes as well. -/
theorem Holds.writeAll {j : MemoryJournal} (holds : d.Holds log) (memory : j.Holds log)
    (different : (log.map file).Nodup) (taken : Journal.directory.writeAll d writes = .ok after) :
    ((log ++ writes).map file).Nodup ∧ after.Holds (log ++ writes) ∧
      ∃ last : MemoryJournal, Journal.memory.writeAll j writes = .ok last ∧
        last.Holds (log ++ writes) := by
  induction writes generalizing d j log with
  | nil =>
      cases taken
      rw [List.append_nil]
      exact ⟨different, holds, j, rfl, memory⟩
  | cons e rest ih =>
      obtain ⟨next, written, later⟩ := Journal.writeAll_cons taken
      obtain ⟨new, held⟩ := holds.write written
      obtain ⟨more, took, kept⟩ := memory.write new
      have apart : ((log ++ [e]).map file).Nodup := by
        rw [List.map_append]
        exact Table.nodup_snoc different new
      obtain ⟨all, files, last, others, held'⟩ := ih held kept apart later
      rw [List.append_assoc] at all files held'
      refine ⟨all, files, last, ?_, held'⟩
      have first : Journal.memory.write j e.ts e.corr e.role e.payload = (more, .ok ()) := took
      rw [Journal.writeAll, first]
      exact others

theorem filterMap_record? (lasting : ∀ e ∈ writes, Lasting e.payload) :
    (writes.map fileOf).filterMap record? = writes := by
  induction writes with
  | nil => rfl
  | cons e rest ih =>
      obtain ⟨here, others⟩ := List.forall_mem_cons.mp lasting
      have ours : RecordFile.isRecord e.file = true := RecordFile.isRecord_name e.corr e.role
      have read : record? (fileOf e) = some e := by
        rw [fileOf, record?, if_pos ours, e.parse_render here]
        rfl
      rw [List.map_cons, List.filterMap_cons_some read, ih others]

/-- The records that are found are those of the list, in whatever order the files are. -/
theorem records_perm (lasting : ∀ e ∈ writes, Lasting e.payload) {listed : List (String × FileNode)}
    (same : listed.Perm (writes.map fileOf)) : (listed.filterMap record?).Perm writes := by
  have mapped := same.filterMap record?
  rw [filterMap_record? lasting] at mapped
  exact mapped

theorem Holds.tail (holds : d.Holds log) (n : Nat) :
    d.tail n = .ok (lastRecords n (Listing.sorted (log.map fileOf))) := by
  rw [JournalDirectory.tail, holds]

/-- Both journals took the same records, by a clock that does not go back.  The one in memory gives the
last of them in the order they were written.  The directory gives the last of some arrangement of them,
in whatever order it lists its files: the milliseconds are the same place by place, and a request is
not behind a response of its millisecond.  They always agree where every record is in a later
millisecond than the one before it or is a response in that of a request before it, and only there. -/
theorem tails_agree (fresh : d.files = some {}) (lasting : ∀ e ∈ writes, Lasting e.payload)
    (clock : writes.Pairwise fun a b => a.ts ≤ b.ts)
    (taken : Journal.directory.writeAll d writes = .ok after) :
    ∃ (files : Table String FileNode) (memory : MemoryJournal),
      after.files = some files ∧ Journal.memory.writeAll {} writes = .ok memory ∧
      (∀ n, memory.tail n = lastOf n writes) ∧
      (∀ listed : List (String × FileNode), listed.Perm files.entries →
        ∃ arranged : List JournalEntry, arranged.Perm writes ∧
          arranged.map (·.ts) = writes.map (·.ts) ∧ arranged.Pairwise (fun a b => ¬ b.Before a) ∧
          ∀ n, lastRecords n listed = lastOf n arranged) ∧
      ((∀ listed : List (String × FileNode), listed.Perm files.entries →
          ∀ n, lastRecords n listed = memory.tail n) ↔ writes.Pairwise Before) ∧
      ∃ listed : List (String × FileNode), listed.Perm files.entries ∧
        ∀ n, after.tail n = .ok (lastRecords n listed) := by
  have empty : Holds d [] := fresh
  have blank : MemoryJournal.Holds {} [] := rfl
  obtain ⟨different, held, memory, took, kept⟩ := empty.writeAll blank List.nodup_nil taken
  rw [List.nil_append] at different held kept
  refine ⟨_, memory, held, took, kept.tail, ?_, ⟨?_, ?_⟩,
    ⟨Listing.sorted (writes.map fileOf), Listing.sorted_perm _, held.tail⟩⟩
  · intro listed same
    have arranged := records_perm lasting same
    refine ⟨_, (List.mergeSort_perm _ precedes).trans arranged, map_ts_mergeSort arranged clock,
      ?_, fun n => rfl⟩
    refine (List.pairwise_mergeSort precedes_trans precedes_total _).imp fun {a b} first => ?_
    rw [before_iff]
    exact Nat.not_lt_of_le ((precedes_iff a b).mp first)
  · intro agree
    -- a directory that lists its files backward, asked for all of them
    refine ascending_of_mergeSort (List.Nodup.of_map file different) ?_
    have backward := agree (writes.map fileOf).reverse (List.reverse_perm _) writes.length
    rw [kept.tail, lastOf_length, lastRecords, List.filterMap_reverse, filterMap_record? lasting]
      at backward
    have long : (writes.reverse.mergeSort precedes).length = writes.length := by
      rw [List.length_mergeSort, List.length_reverse]
    rw [← long, lastOf_length] at backward
    exact backward
  · intro ascending listed same n
    rw [kept.tail, lastRecords, mergeSort_of_ascending (records_perm lasting same) ascending]

def response : JournalEntry := ⟨"b", .response, 5, .null⟩

def request : JournalEntry := ⟨"a", .request, 5, .null⟩

theorem lasting_both : Lasting response.payload ∧ Lasting request.payload :=
  ⟨⟨trivial, trivial, by decide⟩, ⟨trivial, trivial, by decide⟩⟩

/-- Written in the order that a directory gives them. -/
theorem tails_of_request_and_response :
    ∃ (after : JournalDirectory) (files : Table String FileNode) (memory : MemoryJournal),
      Journal.directory.writeAll { path := "journal", process := 7 } [request, response] = .ok after ∧
      after.files = some files ∧ Journal.memory.writeAll {} [request, response] = .ok memory ∧
      memory.tail 1 = [response] ∧
      ∀ listed : List (String × FileNode), listed.Perm files.entries →
        ∀ n, lastRecords n listed = memory.tail n := by
  obtain ⟨after, taken⟩ : ∃ after,
      Journal.directory.writeAll { path := "journal", process := 7 } [request, response]
        = .ok after := ⟨_, rfl⟩
  have lasting : ∀ e ∈ [request, response], Lasting e.payload :=
    List.forall_mem_cons.mpr ⟨lasting_both.2, List.forall_mem_singleton.mpr lasting_both.1⟩
  obtain ⟨files, memory, standing, took, order, -, agree, -⟩ :=
    tails_agree rfl lasting (by decide) taken
  exact ⟨after, files, memory, taken, standing, took, order 1, agree.mpr (by decide)⟩

/-- Written the other way round: the directory still puts the request first. -/
theorem request_listed_before_older_response :
    ∃ (after : JournalDirectory) (memory : MemoryJournal),
      (∀ e ∈ [response, request], Lasting e.payload) ∧
      RecordFile.stem response.corr ≠ RecordFile.stem request.corr ∧ response.ts ≤ request.ts ∧
      Journal.directory.writeAll { path := "journal", process := 7 } [response, request] = .ok after ∧
      Journal.memory.writeAll {} [response, request] = .ok memory ∧
      memory.tail 2 = [response, request] ∧ after.tail 2 = .ok [request, response] := by
  obtain ⟨after, taken⟩ : ∃ after,
      Journal.directory.writeAll { path := "journal", process := 7 } [response, request]
        = .ok after := ⟨_, rfl⟩
  have lasting : ∀ e ∈ [response, request], Lasting e.payload :=
    List.forall_mem_cons.mpr ⟨lasting_both.1, List.forall_mem_singleton.mpr lasting_both.2⟩
  have empty : Holds { path := "journal", process := 7 } [] := rfl
  have blank : MemoryJournal.Holds {} [] := rfl
  obtain ⟨-, held, memory, took, kept⟩ := empty.writeAll blank List.nodup_nil taken
  have arranged := (records_perm lasting (Listing.sorted_perm _)).trans (.swap request response [])
  refine ⟨after, memory, lasting, by decide, by decide, taken, took, kept.tail 2, ?_⟩
  rw [held.tail 2, lastRecords, List.nil_append, mergeSort_of_ascending arranged (by decide)]
  rfl

end JournalDirectory
end FlexLink
