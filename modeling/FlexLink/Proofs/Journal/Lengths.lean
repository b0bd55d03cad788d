import FlexLink.Proofs.Journal.WriteOnce
import FlexLink.Proofs.Json.Scalars

/-! # How long the names of records are

A plain correlation has at most 128 bytes, and the names made of it fit.  Any other is coded with two
digits for each of its bytes, also one that is not plain for its length alone.  So there are correlations
whose records no directory takes, and they are just the coded ones of too many bytes. -/
set_option autoImplicit false
namespace FlexLink

namespace Hex

theorem size_encode (bytes : List UInt8) : (encode bytes).utf8ByteSize = 2 * bytes.length := by
  have narrow : ∀ n < 16, Utf8.width (digit n) = 1 := by decide
  have all : ∀ c ∈ encodeChars bytes, Utf8.width c = 1 := by
    intro c member
    obtain ⟨n, small, rfl⟩ := mem_encode (by rwa [encode, String.toList_ofList])
    exact narrow n small
  have two : ∀ b ∈ bytes, (encodeByte b).length = 2 := fun _ _ => rfl
  rw [encode, Utf8.utf8ByteSize_ofList, Utf8.size_of_narrow all, encodeChars, List.length_flatMap,
    List.map_congr_left two, List.map_const', List.sum_replicate_nat, Nat.mul_comm]

end Hex

theorem size_decimalDigits (n : Nat) :
    (String.ofList (decimalDigits n)).utf8ByteSize = (decimalDigits n).length := by
  rw [Utf8.utf8ByteSize_ofList]
  refine Utf8.size_of_narrow fun c member => Char.utf8Size_eq_one_iff.mpr ?_
  have digit := Json.Reader.isDigit_of_mem_decimalDigits member
  rw [Json.Reader.isDigit, Bool.and_eq_true, decide_eq_true_eq, decide_eq_true_eq] at digit
  exact Nat.le_trans digit.2 (by decide)

theorem length_decimalDigits_le {n k : Nat} (positive : 0 < k) (small : n < Nat.pow 10 k) :
    (decimalDigits n).length ≤ k :=
  (Nat.length_toDigits_le_iff (by decide) positive).mpr small

namespace RecordFile

variable {corr : String} {role : JournalRole} {process n : Nat}

theorem size_stem_of_plain (plain : isPlain corr = true) : (stem corr).utf8ByteSize ≤ 128 := by
  rw [stem_of_plain plain]
  rw [isPlain, Bool.and_eq_true, Bool.and_eq_true] at plain
  exact of_decide_eq_true plain.1.2

theorem size_stem_of_coded (coded : isPlain corr = false) :
    (stem corr).utf8ByteSize = 2 + 2 * corr.utf8ByteSize := by
  rw [stem_of_coded coded, String.utf8ByteSize_append, Hex.size_encode, Utf8.length_encode]
  rfl

theorem size_name (corr : String) (role : JournalRole) :
    (name corr role).utf8ByteSize = (stem corr).utf8ByteSize + role.name.utf8ByteSize + 6 := by
  have whole : name corr role = stem corr ++ "." ++ role.name ++ ".json" := rfl
  have json : ".json".utf8ByteSize = 5 := by decide
  have dot : ".".utf8ByteSize = 1 := by decide
  rw [whole]
  simp only [String.utf8ByteSize_append, json, dot]
  omega

theorem size_draftName (corr : String) (role : JournalRole) (process n : Nat) :
    (draftName corr role process n).utf8ByteSize
      = (stem corr).utf8ByteSize + role.name.utf8ByteSize
        + ((decimalDigits process).length + (decimalDigits n).length) + 6 := by
  have whole : draftName corr role process n = stem corr ++ "." ++ role.name ++ ".tmp"
      ++ String.ofList (decimalDigits process) ++ "-" ++ String.ofList (decimalDigits n) := rfl
  have tmp : ".tmp".utf8ByteSize = 4 := by decide
  have dot : ".".utf8ByteSize = 1 := by decide
  have dash : "-".utf8ByteSize = 1 := by decide
  rw [whole]
  simp only [String.utf8ByteSize_append, size_decimalDigits, tmp, dot, dash]
  omega

/-- Where a draft's name fits, so does the record's. -/
theorem size_name_le (corr : String) (role : JournalRole) (process n : Nat) :
    (name corr role).utf8ByteSize ≤ (draftName corr role process n).utf8ByteSize := by
  rw [size_name, size_draftName]
  omega

/-- Whether a correlation is short enough for names with `more` bytes for a number. -/
def Short (corr : String) (role : JournalRole) (more : Nat) : Prop :=
  isPlain corr = true ∨ 2 * corr.utf8ByteSize + role.name.utf8ByteSize + more ≤ 247

instance (corr : String) (role : JournalRole) (more : Nat) : Decidable (Short corr role more) :=
  inferInstanceAs (Decidable (_ ∨ _))

theorem size_role_le (role : JournalRole) : role.name.utf8ByteSize ≤ 8 := by
  cases role <;> decide

/-- With no more bytes than numbers of 32 and 64 bits have digits. -/
theorem short_iff {more : Nat} (few : more ≤ 30) :
    Short corr role more ↔ (stem corr).utf8ByteSize + role.name.utf8ByteSize + more + 6 ≤ 255 := by
  have role := size_role_le role
  cases plain : isPlain corr with
  | true =>
      have stem := size_stem_of_plain plain
      exact ⟨fun _ => by omega, fun _ => .inl plain⟩
  | false =>
      rw [Short, plain, size_stem_of_coded plain, or_iff_right Bool.false_ne_true]
      omega

end RecordFile

namespace JournalDirectory

open RecordFile

variable {d : JournalDirectory} {corr : String} {role : JournalRole}

theorem fits_name_iff : fits (name corr role) = true ↔ Short corr role 0 := by
  rw [fits, decide_eq_true_iff, size_name, short_iff (Nat.zero_le 30)]
  rfl

theorem fits_draftName_iff {process n : Nat} (wide : process < UInt32.size) (counted : n < UInt64.size) :
    fits (draftName corr role process n) = true
      ↔ Short corr role ((decimalDigits process).length + (decimalDigits n).length) := by
  have ten : (decimalDigits process).length ≤ 10 :=
    length_decimalDigits_le (by decide) (Nat.lt_trans wide (by decide))
  have twenty : (decimalDigits n).length ≤ 20 :=
    length_decimalDigits_le (by decide) (Nat.lt_trans counted (by decide))
  rw [fits, decide_eq_true_iff, size_draftName, short_iff (Nat.add_le_add ten twenty)]
  rfl

/-! ## Directories that hold nothing but files -/

structure HoldsFiles (d : JournalDirectory) : Prop where
  stands : d.files.isSome = true
  files : ∀ name, d.node? name ≠ some .folder

theorem HoldsFiles.write (holds : d.HoldsFiles) (now : Millis) (corr : String) (role : JournalRole)
    (payload : Json) : (d.write now corr role payload).1.HoldsFiles := by
  rcases d.write_cases now corr role payload with ⟨n, why, same⟩ | ⟨files, standing, -, -, same⟩
  · rw [same]
    exact ⟨holds.stands, holds.files⟩
  · rw [same]
    refine ⟨rfl, fun other folder => ?_⟩
    have found : ((files.erase _).insert _ _).get? other = some .folder := folder
    rw [Table.get?_insert, Table.get?_erase] at found
    have before := holds.files other
    rw [node?, standing] at before
    split at found
    · cases found
    · split at found
      · cases found
      · exact before found

theorem HoldsFiles.record (holds : d.HoldsFiles) (log : List JournalEntry) (call : Journal.Call) :
    (Journal.directory.record (d, log) call).1.HoldsFiles := by
  cases call with
  | read _ _ => exact holds
  | write now corr role payload =>
      have next := holds.write now corr role payload
      have own : Journal.directory.write d now corr role payload
          = d.write now corr role payload := rfl
      rw [Journal.record, own]
      cases written : d.write now corr role payload with
      | mk after result =>
          rw [written] at next
          cases result <;> exact next

theorem HoldsFiles.records (holds : d.HoldsFiles) (log : List JournalEntry)
    (calls : List Journal.Call) :
    (calls.foldl Journal.directory.record (d, log)).1.HoldsFiles := by
  induction calls generalizing d log with
  | nil => exact holds
  | cons call calls ih => exact ih (holds.record log call) _

theorem HoldsFiles.write_cases (holds : d.HoldsFiles) (absent : d.node? (name corr role) = none)
    (now : Millis) (payload : Json) :
    (fits (draftName corr role d.process d.drafts) = true →
      (d.write now corr role payload).2 = .ok ()) ∧
    (fits (draftName corr role d.process d.drafts) = false →
      d.write now corr role payload
        = ({ d with drafts := d.drafts + 1 },
            .error (.io (d.pathOf (draftName corr role d.process d.drafts))
              SystemError.nameTooLong.message))) := by
  obtain ⟨files, standing⟩ := Option.isSome_iff_exists.mp holds.stands
  refine ⟨fun fit => ?_, write_of_unfit standing absent⟩
  rw [write_of_fit standing absent fit (holds.files _)]

/-- A directory of files, after any calls, and a record that it has not yet.  The name of the record fits
just where its correlation is short; the record is taken just where the correlation is short with the
number of its draft.  What is not taken is refused for the length of its name, and no file is changed. -/
theorem written_unless_coded_long (holds : d.HoldsFiles) (past : List Journal.Call) (corr : String)
    (role : JournalRole) :
    let s := (Journal.directory.recorded d past).1
    let digits := (decimalDigits s.process).length + (decimalDigits s.drafts).length
    s.node? (name corr role) = none → s.process < UInt32.size → s.drafts < UInt64.size →
      (fits (name corr role) = true ↔ Short corr role 0) ∧
      ∀ now payload,
        ((s.write now corr role payload).2 = .ok () ↔ Short corr role digits) ∧
        (¬ Short corr role digits →
          s.write now corr role payload
            = ({ s with drafts := s.drafts + 1 },
                .error (.io (s.pathOf (draftName corr role s.process s.drafts))
                  SystemError.nameTooLong.message))) := by
  intro s digits absent wide counted
  have kept : s.HoldsFiles := holds.records [] past
  have fit : fits (draftName corr role s.process s.drafts) = true ↔ Short corr role digits :=
    fits_draftName_iff wide counted
  refine ⟨fits_name_iff, fun now payload => ?_⟩
  obtain ⟨taken, refused⟩ := kept.write_cases absent now payload
  have long (unfit : ¬ Short corr role digits) :=
    refused (Bool.eq_false_iff.mpr (mt fit.mp unfit))
  refine ⟨⟨fun written => ?_, fun short => taken (fit.mpr short)⟩, long⟩
  refine Decidable.byContradiction fun unfit => ?_
  rw [long unfit] at written
  cases written

def emptyJournal : JournalDirectory := { path := "journal", process := 7 }

theorem holdsFiles_emptyJournal : emptyJournal.HoldsFiles := ⟨rfl, fun _ folder => by cases folder⟩

/-- A path for a correlation is coded, and short. -/
theorem path_written : emptyJournal.HoldsFiles ∧
    emptyJournal.node? (name "../../etc/passwd" .request) = none ∧ 7 < UInt32.size ∧
    0 < UInt64.size ∧ (emptyJournal.write 5 "../../etc/passwd" .request .null).2 = .ok () := by
  have wide : 7 < UInt32.size := by decide
  have counted : 0 < UInt64.size := by decide
  have law := written_unless_coded_long holdsFiles_emptyJournal [] "../../etc/passwd" .request
  obtain ⟨-, written⟩ := law rfl wide counted
  exact ⟨holdsFiles_emptyJournal, rfl, wide, counted, (written 5 .null).1.mpr (.inr (by decide))⟩

def letters (n : Nat) : String := String.ofList (List.replicate n 'a')

theorem size_letters (n : Nat) : (letters n).utf8ByteSize = n := by
  have narrow : ∀ c ∈ List.replicate n 'a', Utf8.width c = 1 := by
    intro c member
    rw [List.eq_of_mem_replicate member]
    rfl
  rw [letters, Utf8.utf8ByteSize_ofList, Utf8.size_of_narrow narrow, List.length_replicate]

/-- A correlation of letters that is one too long to be plain has no record. -/
theorem letters_not_written :
    emptyJournal.node? (name (letters 129) .request) = none ∧
      fits (name (letters 129) .request) = false ∧
      (emptyJournal.write 5 (letters 129) .request .null).2 ≠ .ok () := by
  have coded : isPlain (letters 129) = false := by
    rw [isPlain, size_letters]
    simp [maxPlainSize]
  have long {more : Nat} : ¬ Short (letters 129) .request more := by
    rw [Short, coded, size_letters]
    rintro (plain | few)
    · cases plain
    · omega
  refine ⟨rfl, Bool.eq_false_iff.mpr (mt fits_name_iff.mp long), fun written => ?_⟩
  have unfit : fits (draftName (letters 129) .request 7 0) = false :=
    Bool.eq_false_iff.mpr (mt (fits_draftName_iff (by decide) (by decide)).mp long)
  rw [(holdsFiles_emptyJournal.write_cases rfl 5 .null).2 unfit] at written
  cases written

end JournalDirectory
end FlexLink
