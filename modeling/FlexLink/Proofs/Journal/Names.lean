import FlexLink.Journal.FileName
import FlexLink.Proofs.Text.Hex

/-! # Which records share a file

The name of a record's file tells its role, and it tells the stem of its correlation.  Stems are
different for correlations of one kind: plain names are kept, and the others are written in
hexadecimal.  But a coded correlation can be a plain name as well, and then that name `Mimics` the
correlation that it codes. -/
set_option autoImplicit false
namespace FlexLink.RecordFile

/-- Whether `a` is a plain name and the coded form of `b`, which is none. -/
def Mimics (a b : String) : Prop := isPlain a = true ∧ isPlain b = false ∧ a = stem b

instance (a b : String) : Decidable (Mimics a b) := inferInstanceAs (Decidable (_ ∧ _ ∧ _))

def SharesFile (a b : String) : Prop := a = b ∨ Mimics a b ∨ Mimics b a

instance (a b : String) : Decidable (SharesFile a b) := inferInstanceAs (Decidable (_ ∨ _ ∨ _))

/-! ## Stems -/

theorem stem_of_plain {corr : String} (plain : isPlain corr = true) : stem corr = corr :=
  if_pos plain

theorem stem_of_coded {corr : String} (coded : isPlain corr = false) :
    stem corr = "x-" ++ Hex.encode (Utf8.encode corr) := by
  rw [stem, coded]
  rfl

theorem stem_injOn_coded {a b : String} (coded : isPlain a = false) (coded' : isPlain b = false)
    (same : stem a = stem b) : a = b := by
  rw [stem_of_coded coded, stem_of_coded coded'] at same
  have digits := congrArg String.toList same
  rw [String.toList_append, String.toList_append] at digits
  have bytes := Hex.encode_injective (String.toList_inj.mp (List.append_cancel_left digits))
  exact Utf8.encode_injective bytes

theorem stem_eq_iff (a b : String) : stem a = stem b ↔ SharesFile a b := by
  constructor
  · intro same
    cases plain : isPlain a <;> cases plain' : isPlain b
    · exact .inl (stem_injOn_coded plain plain' same)
    · rw [stem_of_plain plain'] at same
      exact .inr (.inr ⟨plain', plain, same.symm⟩)
    · rw [stem_of_plain plain] at same
      exact .inr (.inl ⟨plain, plain', same⟩)
    · rw [stem_of_plain plain, stem_of_plain plain'] at same
      exact .inl same
  · rintro (same | ⟨plain, -, same⟩ | ⟨plain, -, same⟩)
    · rw [same]
    · rw [stem_of_plain plain, same]
    · rw [stem_of_plain plain, same]

theorem isPlainChar_digit : ∀ n < 16, isPlainChar (Hex.digit n) = true := by decide

theorem isPlainChar_stem {corr : String} {c : Char} (member : c ∈ (stem corr).toList) :
    isPlainChar c = true := by
  cases plain : isPlain corr with
  | true =>
    rw [stem_of_plain plain] at member
    rw [isPlain, Bool.and_eq_true] at plain
    exact List.all_eq_true.mp plain.2 c member
  | false =>
    rw [stem_of_coded plain, String.toList_append, List.mem_append] at member
    rcases member with mark | digits
    · rcases List.mem_cons.mp mark with rfl | mark
      · decide
      · rw [List.mem_singleton.mp mark]
        decide
    · obtain ⟨n, small, rfl⟩ := Hex.mem_encode digits
      exact isPlainChar_digit n small

theorem dot_notMem_stem (corr : String) : '.' ∉ (stem corr).toList := by
  intro member
  have plain := isPlainChar_stem member
  revert plain
  decide

/-! ## Names -/

/-- What stands in front of the first dot and what stands behind it. -/
theorem split_at_dot {front front' back back' : List Char} (free : '.' ∉ front)
    (free' : '.' ∉ front') (same : front ++ '.' :: back = front' ++ '.' :: back') :
    front = front' ∧ back = back' := by
  induction front generalizing front' with
  | nil =>
    cases front' with
    | nil => exact ⟨rfl, (List.cons.inj same).2⟩
    | cons c front' =>
      obtain ⟨dot, -⟩ := List.cons.inj same
      exact absurd (dot ▸ List.mem_cons_self) free'
  | cons c front ih =>
    cases front' with
    | nil =>
      obtain ⟨dot, -⟩ := List.cons.inj same
      exact absurd (dot ▸ List.mem_cons_self) free
    | cons c' front' =>
      obtain ⟨rfl, rest⟩ := List.cons.inj same
      obtain ⟨rfl, rfl⟩ := ih (fun member => free (List.mem_cons_of_mem c member))
        (fun member => free' (List.mem_cons_of_mem c member)) rest
      exact ⟨rfl, rfl⟩

theorem toList_name (corr : String) (role : JournalRole) :
    (name corr role).toList = (stem corr).toList ++ '.' :: (role.name.toList ++ ".json".toList) := by
  have text : name corr role = stem corr ++ "." ++ role.name ++ ".json" := rfl
  simp [text, String.toList_append]

theorem toList_draftName (corr : String) (role : JournalRole) (process n : Nat) :
    (draftName corr role process n).toList
      = (stem corr).toList ++ '.' :: (role.name.toList ++ ".tmp".toList
          ++ (decimalDigits process ++ '-' :: decimalDigits n)) := by
  have text : draftName corr role process n = stem corr ++ "." ++ role.name ++ ".tmp"
      ++ String.ofList (decimalDigits process) ++ "-" ++ String.ofList (decimalDigits n) := rfl
  simp [text, String.toList_append]

theorem name_eq_iff (a b : String) (role role' : JournalRole) :
    name a role = name b role' ↔ SharesFile a b ∧ role = role' := by
  rw [← stem_eq_iff]
  constructor
  · intro same
    have chars := congrArg String.toList same
    rw [toList_name, toList_name] at chars
    obtain ⟨stems, rest⟩ := split_at_dot (dot_notMem_stem a) (dot_notMem_stem b) chars
    refine ⟨String.toList_inj.mp stems, ?_⟩
    revert rest
    cases role <;> cases role' <;> decide
  · rintro ⟨stems, rfl⟩
    simp only [name, stems]

/-! ## Extensions -/

section Marks

variable {c : Char} {front : List Char}

theorem takeWhile_upTo (free : c ∉ front) (rest : List Char) :
    (front ++ c :: rest).takeWhile (· ≠ c) = front := by
  have plain : ∀ d ∈ front, decide (d ≠ c) = true := fun d member =>
    decide_eq_true fun same => free (same ▸ member)
  rw [List.takeWhile_append_of_pos plain, List.takeWhile_cons_of_neg (by simp), List.append_nil]

theorem dropWhile_upTo (free : c ∉ front) (rest : List Char) :
    (front ++ c :: rest).dropWhile (· ≠ c) = c :: rest := by
  have plain : ∀ d ∈ front, decide (d ≠ c) = true := fun d member =>
    decide_eq_true fun same => free (same ▸ member)
  rw [List.dropWhile_append_of_pos plain, List.dropWhile_cons_of_neg (by simp)]

end Marks

theorem extension?_of_dot {text : String} {front last : List Char}
    (dotted : text.toList = front ++ '.' :: last) (some : front ≠ []) (plain : '.' ∉ last) :
    extension? text = Option.some (String.ofList last) := by
  have free : '.' ∉ last.reverse := fun member => plain (List.mem_reverse.mp member)
  have reversed : text.toList.reverse = last.reverse ++ '.' :: front.reverse := by
    rw [dotted, List.reverse_append, List.reverse_cons, List.append_assoc, List.singleton_append]
  obtain ⟨c, rest, nonempty⟩ := List.exists_cons_of_ne_nil (List.reverse_ne_nil_iff.mpr some)
  rw [extension?, reversed, dropWhile_upTo free, takeWhile_upTo free, nonempty, List.reverse_reverse]

def base (corr : String) (role : JournalRole) : List Char :=
  (stem corr).toList ++ '.' :: role.name.toList

theorem base_ne_nil {corr : String} {role : JournalRole} : base corr role ≠ [] :=
  List.append_ne_nil_of_right_ne_nil _ (List.cons_ne_nil _ _)

theorem name_eq_base {corr : String} {role : JournalRole} :
    (name corr role).toList = base corr role ++ '.' :: "json".toList := by
  rw [toList_name, base, List.append_assoc]
  rfl

theorem extension?_name {corr : String} {role : JournalRole} :
    extension? (name corr role) = some "json" :=
  extension?_of_dot name_eq_base base_ne_nil (by decide)

theorem isRecord_name (corr : String) (role : JournalRole) : isRecord (name corr role) = true := by
  rw [isRecord, extension?_name]
  rfl

/-- A draft never stands where a record does. -/
theorem draftName_ne_name (a b : String) (role role' : JournalRole) (process n : Nat) :
    draftName a role process n ≠ name b role' := by
  intro same
  have chars := congrArg String.toList same
  rw [toList_name, toList_draftName] at chars
  obtain ⟨-, rest⟩ := split_at_dot (dot_notMem_stem a) (dot_notMem_stem b) chars
  cases role <;> cases role' <;> simp [JournalRole.name] at rest

end FlexLink.RecordFile
