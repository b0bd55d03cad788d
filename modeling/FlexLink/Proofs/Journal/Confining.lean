import FlexLink.Proofs.Journal.WriteOnce
import FlexLink.Proofs.Json.Scalars
import Mathlib.Data.List.TakeWhile

/-! # Files that stay in their directory

A path is walked component by component (`Path.components`).  What a correlation makes of a file name is
one component that leads into the directory, whatever the correlation holds, and so is the draft's name.
The two differ in their extension: a draft has one that no record has, so it is never taken for one. -/
set_option autoImplicit false
namespace FlexLink

namespace Path

/-- The steps of a path.  An empty one and a single dot lead nowhere. -/
def components (path : List Char) : List (List Char) :=
  (path.splitOn '/').filter fun part => part ≠ [] ∧ part ≠ ['.']

/-- Whether a name is a single step to something in a directory, and not to the directory itself or out
of it. -/
structure IsComponent (name : List Char) : Prop where
  some : name ≠ []
  single : '/' ∉ name
  unended : '\x00' ∉ name
  inside : name ≠ ['.'] ∧ name ≠ ['.', '.']

/-- A path with another extension: what stands behind the last dot of its last step, unless that step
begins with the dot. -/
def withExtension (path extension : List Char) : List Char :=
  let reversed := path.reverse
  match (reversed.takeWhile (· ≠ '/')).dropWhile (· ≠ '.') with
  | _ :: c :: stem => (c :: stem ++ reversed.dropWhile (· ≠ '/')).reverse ++ '.' :: extension
  | _ => path ++ '.' :: extension

theorem components_append (path rest : List Char) :
    components (path ++ '/' :: rest) = components path ++ components rest := by
  have split : (path ++ '/' :: rest).splitOn '/' = path.splitOn '/' ++ rest.splitOn '/' :=
    List.splitOnP_append_cons path rest rfl
  rw [components, split, List.filter_append]
  rfl

theorem components_slash (path : List Char) : components (path ++ ['/']) = components path := by
  rw [components_append]
  exact List.append_nil _

theorem IsComponent.components {name : List Char} (component : IsComponent name) :
    components name = [name] := by
  rw [Path.components, List.splitOn_eq_singleton component.single]
  exact List.filter_cons_of_pos (decide_eq_true ⟨component.some, component.inside.1⟩)

/-! ## Names in a directory -/

inductive Front (directory : List Char) : List Char → Prop where
  /-- The empty path is no directory, and names stand alone. -/
  | none (empty : directory = []) : Front directory []
  | slash {path : List Char} (same : components path = components directory) :
      Front directory (path ++ ['/'])

section Front

variable {directory front name : List Char}

theorem Front.components (stands : Front directory front) (component : IsComponent name) :
    components (front ++ name) = components directory ++ [name] := by
  cases stands with
  | none empty =>
      rw [empty]
      exact component.components
  | slash same =>
      rw [List.append_assoc, List.singleton_append, components_append, same, component.components]

/-- The last step of a path and what stands in front of it. -/
theorem Front.last (stands : Front directory front) (single : '/' ∉ name) :
    (front ++ name).reverse.takeWhile (· ≠ '/') = name.reverse ∧
      (front ++ name).reverse.dropWhile (· ≠ '/') = front.reverse := by
  have free : '/' ∉ name.reverse := fun member => single (List.mem_reverse.mp member)
  cases stands with
  | none =>
      have plain : ∀ d ∈ name.reverse, decide (d ≠ '/') = true := fun d member =>
        decide_eq_true (ne_of_mem_of_not_mem member free)
      rw [List.nil_append]
      exact ⟨List.takeWhile_eq_self_iff.mpr plain, List.dropWhile_eq_nil_iff.mpr plain⟩
  | slash =>
      rw [List.reverse_append, List.reverse_append, List.reverse_singleton, List.singleton_append]
      exact ⟨RecordFile.takeWhile_upTo free _, RecordFile.dropWhile_upTo free _⟩

theorem Front.withExtension {stem last extension : List Char} (stands : Front directory front)
    (some : stem ≠ []) (single : '/' ∉ stem ++ '.' :: last) (plain : '.' ∉ last) :
    withExtension (front ++ (stem ++ '.' :: last)) extension = front ++ (stem ++ '.' :: extension) := by
  obtain ⟨taken, left⟩ := stands.last single
  have dotted : (stem ++ '.' :: last).reverse.dropWhile (· ≠ '.') = '.' :: stem.reverse := by
    rw [List.reverse_append, List.reverse_cons, List.append_assoc, List.singleton_append]
    exact RecordFile.dropWhile_upTo (fun member => plain (List.mem_reverse.mp member)) _
  obtain ⟨c, rest, nonempty⟩ := List.exists_cons_of_ne_nil (List.reverse_ne_nil_iff.mpr some)
  rw [Path.withExtension, taken, left, dotted, nonempty]
  dsimp only
  rw [← nonempty, List.reverse_append, List.reverse_reverse, List.reverse_reverse, List.append_assoc]

end Front

/-- A name does not replace the directory, which one that begins with a slash would do. -/
theorem exists_front (directory : String) : ∃ front, Front directory.toList front ∧
    ∀ name : String, '/' ∉ name.toList →
      (Environment.within directory name).toList = front ++ name.toList := by
  have relative {name : String} (single : '/' ∉ name.toList) : name.startsWith "/" = false := by
    rw [Bool.eq_false_iff]
    intro begins
    have slash : "/".toList <+: name.toList := String.startsWith_string_iff.mp begins
    exact single (slash.subset List.mem_cons_self)
  by_cases empty : directory.isEmpty = true
  · refine ⟨[], .none ?_, fun name single => ?_⟩
    · rw [String.isEmpty_iff.mp empty]
      rfl
    · rw [Environment.within, relative single, if_neg Bool.false_ne_true, if_pos empty]
      rfl
  · by_cases ends : directory.endsWith "/" = true
    · have suffix : ['/'] <:+ directory.toList := by
        rw [← String.endsWith_toSlice, String.Slice.endsWith_string_iff, String.copy_toSlice] at ends
        exact ends
      obtain ⟨path, same⟩ := suffix
      refine ⟨path ++ ['/'], .slash ?_, fun name single => ?_⟩
      · rw [← same, components_slash]
      · rw [Environment.within, relative single, if_neg Bool.false_ne_true, if_neg empty,
          if_pos ends, String.toList_append, same]
    · refine ⟨directory.toList ++ ['/'], .slash rfl, fun name single => ?_⟩
      rw [Environment.within, relative single, if_neg Bool.false_ne_true, if_neg empty, if_neg ends,
        String.toList_append, String.toList_append]
      rfl

end Path

namespace RecordFile

/-! ## The names of a record -/

def Safe (c : Char) : Prop :=
  'a' ≤ c ∧ c ≤ 'z' ∨ 'A' ≤ c ∧ c ≤ 'Z' ∨ '0' ≤ c ∧ c ≤ '9' ∨ c = '-' ∨ c = '_' ∨ c = '.'

instance (c : Char) : Decidable (Safe c) := inferInstanceAs (Decidable (_ ∨ _))

theorem safe_of_all {text : List Char} (all : text.all (fun c => decide (Safe c)) = true) :
    ∀ c ∈ text, Safe c :=
  fun c member => of_decide_eq_true (List.all_eq_true.mp all c member)

theorem safe_of_isPlainChar {c : Char} (plain : isPlainChar c = true) : Safe c := by
  have kinds : isPlainChar c = (decide ('A' ≤ c ∧ c ≤ 'Z') || decide ('a' ≤ c) && decide (c ≤ 'z') ||
      decide ('0' ≤ c) && decide (c ≤ '9') || c == '-' || c == '_') := rfl
  simp only [kinds, Bool.or_eq_true, Bool.and_eq_true, decide_eq_true_eq, beq_iff_eq] at plain
  rcases plain with (((upper | lower) | digit) | dash) | underscore
  · exact .inr (.inl upper)
  · exact .inl lower
  · exact .inr (.inr (.inl digit))
  · exact .inr (.inr (.inr (.inl dash)))
  · exact .inr (.inr (.inr (.inr (.inl underscore))))

theorem safe_of_isDigit {c : Char} (digit : Json.Reader.isDigit c = true) : Safe c := by
  rw [Json.Reader.isDigit, Bool.and_eq_true, decide_eq_true_eq, decide_eq_true_eq] at digit
  exact .inr (.inr (.inl digit))

def draftExtension (process n : Nat) : List Char :=
  "tmp".toList ++ (decimalDigits process ++ '-' :: decimalDigits n)

variable {corr : String} {role : JournalRole} {process n : Nat}

theorem draftName_eq_base : (draftName corr role process n).toList
    = base corr role ++ '.' :: draftExtension process n := by
  rw [toList_draftName, base, draftExtension, List.append_assoc, List.append_assoc]
  rfl

theorem safe_base : ∀ c ∈ base corr role, Safe c := by
  have behind : ∀ c ∈ '.' :: role.name.toList, Safe c := safe_of_all (by cases role <;> decide)
  intro c member
  rcases List.mem_append.mp member with stem | rest
  · exact safe_of_isPlainChar (isPlainChar_stem stem)
  · exact behind c rest

theorem safe_draftExtension : ∀ c ∈ draftExtension process n, Safe c := by
  have front : ∀ c ∈ "tmp".toList, Safe c := safe_of_all (by decide)
  have digits {m : Nat} : ∀ c ∈ decimalDigits m, Safe c := fun c member =>
    safe_of_isDigit (Json.Reader.isDigit_of_mem_decimalDigits member)
  rw [draftExtension, List.forall_mem_append, List.forall_mem_append, List.forall_mem_cons]
  exact ⟨front, digits, by decide, digits⟩

theorem safe_name : ∀ c ∈ (name corr role).toList, Safe c := by
  have json : ∀ c ∈ '.' :: "json".toList, Safe c := safe_of_all (by decide)
  rw [name_eq_base, List.forall_mem_append]
  exact ⟨safe_base, json⟩

theorem safe_draftName : ∀ c ∈ (draftName corr role process n).toList, Safe c := by
  rw [draftName_eq_base, List.forall_mem_append, List.forall_mem_cons]
  exact ⟨safe_base, by decide, safe_draftExtension⟩

/-- A role is no dot, so neither are the names that hold one. -/
theorem isComponent_of_base {last : List Char} (safe : ∀ c ∈ base corr role ++ last, Safe c) :
    Path.IsComponent (base corr role ++ last) := by
  have letter : 'e' ∈ base corr role ++ last := by
    refine List.mem_append_left last (List.mem_append_right _ (List.mem_cons_of_mem _ ?_))
    cases role <;> decide
  refine ⟨List.ne_nil_of_mem letter, fun member => ?_, fun member => ?_, fun dot => ?_, fun dots => ?_⟩
  · exact absurd (safe '/' member) (by decide)
  · exact absurd (safe '\x00' member) (by decide)
  · rw [dot] at letter
    exact absurd letter (by decide)
  · rw [dots] at letter
    exact absurd letter (by decide)

theorem isComponent_name : Path.IsComponent (name corr role).toList := by
  have safe := @safe_name corr role
  rw [name_eq_base] at safe ⊢
  exact isComponent_of_base safe

theorem isComponent_draftName : Path.IsComponent (draftName corr role process n).toList := by
  have safe := @safe_draftName corr role process n
  rw [draftName_eq_base] at safe ⊢
  exact isComponent_of_base safe

/-! ## Their extensions -/

theorem dot_notMem_draftExtension : '.' ∉ draftExtension process n := by
  intro member
  have digits {m : Nat} : '.' ∉ decimalDigits m := fun digit =>
    absurd (Json.Reader.isDigit_of_mem_decimalDigits digit) (by decide)
  rcases List.mem_append.mp member with tmp | rest
  · exact absurd tmp (by decide)
  · rcases List.mem_append.mp rest with digit | rest
    · exact digits digit
    · exact digits ((List.mem_cons.mp rest).resolve_left (by decide))

theorem extension?_draftName :
    extension? (draftName corr role process n) = some (String.ofList (draftExtension process n)) :=
  extension?_of_dot draftName_eq_base base_ne_nil dot_notMem_draftExtension

theorem extension?_draftName_ne : extension? (draftName corr role process n) ≠ some "json" := by
  rw [extension?_draftName]
  intro same
  have chars : draftExtension process n = "json".toList := by
    rw [← Option.some.inj same, String.toList_ofList]
  cases chars

end RecordFile

namespace JournalDirectory

open RecordFile

theorem pathOf_eq (d : JournalDirectory) : ∃ front, Path.Front d.path.toList front ∧
    ∀ name : String, '/' ∉ name.toList → (d.pathOf name).toList = front ++ name.toList :=
  Path.exists_front d.path

/-- The path of a single step in the directory. -/
theorem components_pathOf (d : JournalDirectory) {name : String}
    (component : Path.IsComponent name.toList) :
    Path.components (d.pathOf name).toList = Path.components d.path.toList ++ [name.toList] := by
  obtain ⟨front, stands, path⟩ := d.pathOf_eq
  rw [path name component.single]
  exact stands.components component

theorem pathOf_draftName (d : JournalDirectory) (corr : String) (role : JournalRole)
    (process n : Nat) : (d.pathOf (draftName corr role process n)).toList
      = Path.withExtension (d.pathOf (name corr role)).toList (draftExtension process n) := by
  obtain ⟨front, stands, path⟩ := d.pathOf_eq
  have single := (@isComponent_name corr role).single
  rw [path _ isComponent_draftName.single, path _ single]
  rw [name_eq_base] at single ⊢
  rw [draftName_eq_base, stands.withExtension base_ne_nil single (by decide)]

/-- Only what could be a record is looked at. -/
theorem lastRecords_filter {draft : String} (apart : extension? draft ≠ some "json") (k : Nat)
    (listed : List (String × FileNode)) :
    lastRecords k (listed.filter fun file => file.1 ≠ draft) = lastRecords k listed := by
  have passed (node : FileNode) : record? (draft, node) = none := by
    cases node with
    | folder => rfl
    | text content => exact if_neg (by rwa [isRecord, beq_iff_eq])
  have same : (listed.filter fun file => file.1 ≠ draft).filterMap record?
      = listed.filterMap record? := by
    rw [List.filterMap_filter]
    refine congrArg (List.filterMap · listed) (funext ?_)
    rintro ⟨name, node⟩
    by_cases own : name = draft
    · rw [own, passed, ite_self]
    · exact if_pos (decide_eq_true own)
  rw [lastRecords, lastRecords, same]

/-- A write changes what stands under the two names of its record and nothing else. -/
theorem node?_write_elsewhere (d : JournalDirectory) (now : Millis) (corr : String)
    (role : JournalRole) (payload : Json) {other : String} (record : other ≠ name corr role)
    (draft : other ≠ draftName corr role d.process d.drafts) :
    (d.write now corr role payload).1.node? other = d.node? other := by
  rcases d.write_cases now corr role payload with ⟨n, why, same⟩ | ⟨files, standing, -, -, same⟩
  · rw [same]
    rfl
  · rw [same]
    show ((files.erase _).insert _ _).get? other = _
    rw [Table.get?_insert, if_neg record, Table.get?_erase, if_neg draft, node?, standing]
    rfl

/-- The two file names that a write uses, whatever the correlation is. -/
theorem record_files_confined (d : JournalDirectory) (corr : String) (role : JournalRole)
    (process n : Nat) :
    let final := name corr role
    let draft := draftName corr role process n
    (∀ file ∈ [final, draft], Path.IsComponent file.toList ∧ (∀ c ∈ file.toList, Safe c) ∧
      Path.components (d.pathOf file).toList = Path.components d.path.toList ++ [file.toList]) ∧
    (d.pathOf draft).toList = Path.withExtension (d.pathOf final).toList (draftExtension process n) ∧
    extension? final = some "json" ∧ extension? draft ≠ some "json" ∧
    (∀ k listed, lastRecords k (listed.filter fun file => file.1 ≠ draft) = lastRecords k listed) ∧
    (∀ corr' role', draft ≠ name corr' role') ∧
    ∀ now payload other, other ≠ final → other ≠ draftName corr role d.process d.drafts →
      (d.write now corr role payload).1.node? other = d.node? other := by
  intro final draft
  refine ⟨List.forall_mem_cons.mpr ⟨?_, List.forall_mem_singleton.mpr ?_⟩, ?_, extension?_name,
    extension?_draftName_ne, lastRecords_filter extension?_draftName_ne, fun corr' role' => ?_,
    fun now payload _ => d.node?_write_elsewhere now corr role payload⟩
  · exact ⟨isComponent_name, safe_name, d.components_pathOf isComponent_name⟩
  · exact ⟨isComponent_draftName, safe_draftName, d.components_pathOf isComponent_draftName⟩
  · exact d.pathOf_draftName corr role process n
  · exact draftName_ne_name corr corr' role role' process n

end JournalDirectory
end FlexLink
