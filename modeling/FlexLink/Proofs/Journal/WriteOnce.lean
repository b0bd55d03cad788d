import FlexLink.Journal.Directory
import FlexLink.Proofs.Journal.Entries
import FlexLink.Proofs.Journal.Names

/-! # A directory takes one record for each file

`recorded` runs a journal through calls and lists the records that it took.  A directory `Keeps` such
a list: its files are the texts of those records, each under its own name, whatever drafts were begun
in between.  So a write is refused and a read is answered by the list alone. -/
set_option autoImplicit false
namespace FlexLink

namespace JournalEntry

def file (e : JournalEntry) : String := RecordFile.name e.corr e.role

/-- Whether a record stands where that of the given correlation and role would. -/
def StandsFor (e : JournalEntry) (corr : String) (role : JournalRole) : Prop :=
  e.role = role ∧ RecordFile.SharesFile e.corr corr

instance (e : JournalEntry) (corr : String) (role : JournalRole) : Decidable (e.StandsFor corr role) :=
  inferInstanceAs (Decidable (_ ∧ _))

theorem file_eq_iff (e : JournalEntry) (corr : String) (role : JournalRole) :
    e.file = RecordFile.name corr role ↔ e.StandsFor corr role := by
  rw [file, RecordFile.name_eq_iff, StandsFor, and_comm]

end JournalEntry

namespace Journal

inductive Call where
  | write (now : Millis) (corr : String) (role : JournalRole) (payload : Json)
  | read (corr : String) (role : JournalRole)

def Call.Lasting : Call → Prop
  | .write _ _ _ payload => JournalEntry.Lasting payload
  | .read _ _ => True

def Call.WritesTo (corr : String) (role : JournalRole) : Call → Prop
  | .write now corr' role' payload => JournalEntry.StandsFor ⟨corr', role', now, payload⟩ corr role
  | .read _ _ => False

variable {τ : Type}

/-- A journal after a call, and the records that it took so far. -/
def record (j : Journal τ) : τ × List JournalEntry → Call → τ × List JournalEntry
  | (s, log), .write now corr role payload =>
    match j.write s now corr role payload with
    | (next, .ok ()) => (next, log ++ [⟨corr, role, now, payload⟩])
    | (next, .error _) => (next, log)
  | state, .read _ _ => state

def recorded (j : Journal τ) (s : τ) (calls : List Call) : τ × List JournalEntry :=
  calls.foldl j.record (s, [])

theorem recorded_append (j : Journal τ) (s : τ) (calls more : List Call) :
    j.recorded s (calls ++ more) = more.foldl j.record (j.recorded s calls) :=
  List.foldl_append

section Writes

variable {j : Journal τ} {s next : τ} {log : List JournalEntry} {now : Millis} {corr : String}
  {role : JournalRole} {payload : Json}

theorem record_of_ok (written : j.write s now corr role payload = (next, .ok ())) :
    j.record (s, log) (.write now corr role payload)
      = (next, log ++ [⟨corr, role, now, payload⟩]) := by
  rw [record, written]

theorem record_of_error {why : JournalError}
    (refused : j.write s now corr role payload = (next, .error why)) :
    j.record (s, log) (.write now corr role payload) = (next, log) := by
  rw [record, refused]

end Writes

/-- Calls that write elsewhere leave the records of a file as they are. -/
theorem find?_record {j : Journal τ} {corr : String} {role : JournalRole} {call : Call}
    (elsewhere : ¬ call.WritesTo corr role) (state : τ × List JournalEntry) :
    (j.record state call).2.find? (fun e => decide (e.StandsFor corr role))
      = state.2.find? fun e => decide (e.StandsFor corr role) := by
  obtain ⟨s, log⟩ := state
  cases call with
  | read corr' role' => rfl
  | write now corr' role' payload =>
    have other : ¬ JournalEntry.StandsFor ⟨corr', role', now, payload⟩ corr role := elsewhere
    rw [record]
    split
    · simp only [List.find?_append, List.find?_singleton, decide_eq_false other]
      simp
    · rfl

theorem find?_records {j : Journal τ} {corr : String} {role : JournalRole} {calls : List Call}
    (elsewhere : ∀ call ∈ calls, ¬ call.WritesTo corr role) (state : τ × List JournalEntry) :
    (calls.foldl j.record state).2.find? (fun e => decide (e.StandsFor corr role))
      = state.2.find? fun e => decide (e.StandsFor corr role) := by
  induction calls generalizing state with
  | nil => rfl
  | cons call calls ih =>
    obtain ⟨here, later⟩ := List.forall_mem_cons.mp elsewhere
    rw [List.foldl_cons, ih later, find?_record here]

end Journal

namespace JournalDirectory

variable {d : JournalDirectory} {log : List JournalEntry} {corr : String} {role : JournalRole}
  {now : Millis} {payload : Json}

/-! ## One write -/

theorem write_of_present (present : (d.node? (RecordFile.name corr role)).isSome = true) :
    d.write now corr role payload = (d, .error (.alreadyWritten corr role)) := by
  rw [write]
  exact if_pos present

/-- A draft that the system does not take leaves the files as they are. -/
theorem write_of_unfit {files : Table String FileNode} (standing : d.files = some files)
    (absent : d.node? (RecordFile.name corr role) = none)
    (unfit : fits (RecordFile.draftName corr role d.process d.drafts) = false) :
    d.write now corr role payload
      = ({ d with drafts := d.drafts + 1 },
          .error (.io (d.pathOf (RecordFile.draftName corr role d.process d.drafts))
            SystemError.nameTooLong.message)) := by
  have taken : (d.node? (RecordFile.name corr role)).isSome = false := by rw [absent]; rfl
  rw [write]
  simp only [taken, addFile, standing, unfit]
  rfl

theorem write_of_fit {files : Table String FileNode} (standing : d.files = some files)
    (absent : d.node? (RecordFile.name corr role) = none)
    (fit : fits (RecordFile.draftName corr role d.process d.drafts) = true)
    (free : d.node? (RecordFile.draftName corr role d.process d.drafts) ≠ some .folder) :
    d.write now corr role payload
      = ({ d with
            files := some ((files.erase (RecordFile.draftName corr role d.process d.drafts)).insert
              (RecordFile.name corr role) (.text (JournalEntry.mk corr role now payload).render))
            drafts := d.drafts + 1 }, .ok ()) := by
  have taken : (d.node? (RecordFile.name corr role)).isSome = false := by rw [absent]; rfl
  have vacant : node? { d with drafts := d.drafts + 1 }
      (RecordFile.draftName corr role d.process d.drafts) ≠ some .folder := free
  rw [write]
  simp only [taken, addFile, standing, fit]
  exact if_neg (standing ▸ vacant)

theorem write_of_absent {files : Table String FileNode} (standing : d.files = some files)
    (absent : d.node? (RecordFile.name corr role) = none)
    (fit : fits (RecordFile.draftName corr role d.process d.drafts) = true)
    (free : d.node? (RecordFile.draftName corr role d.process d.drafts) = none) :
    d.write now corr role payload
      = ({ d with
            files := some ((files.erase (RecordFile.draftName corr role d.process d.drafts)).insert
              (RecordFile.name corr role) (.text (JournalEntry.mk corr role now payload).render))
            drafts := d.drafts + 1 }, .ok ()) :=
  write_of_fit standing absent fit (by rw [free]; simp)

/-- All that a write can do: it is refused and touches no file, or it adds its record. -/
theorem write_cases (d : JournalDirectory) (now : Millis) (corr : String) (role : JournalRole)
    (payload : Json) :
    (∃ n why, d.write now corr role payload = ({ d with drafts := n }, .error why)) ∨
      ∃ files, d.files = some files ∧ d.node? (RecordFile.name corr role) = none ∧
        fits (RecordFile.draftName corr role d.process d.drafts) = true ∧
        d.write now corr role payload
          = ({ d with
                files := some ((files.erase (RecordFile.draftName corr role d.process d.drafts)).insert
                  (RecordFile.name corr role) (.text (JournalEntry.mk corr role now payload).render))
                drafts := d.drafts + 1 }, .ok ()) := by
  by_cases present : (d.node? (RecordFile.name corr role)).isSome = true
  · exact .inl ⟨d.drafts, _, write_of_present present⟩
  · have absent := Option.not_isSome_iff_eq_none.mp present
    rw [write, if_neg present, addFile]
    -- from here on a refusal has used up the number of a draft
    cases standing : d.files with
    | none => exact .inl ⟨d.drafts + 1, _, rfl⟩
    | some files =>
        dsimp only
        cases fit : fits (RecordFile.draftName corr role d.process d.drafts) with
        | false => exact .inl ⟨d.drafts + 1, _, rfl⟩
        | true =>
            rw [if_neg (by decide)]
            split
            · exact .inl ⟨d.drafts + 1, _, rfl⟩
            · exact .inr ⟨files, rfl, absent, rfl, rfl⟩

/-! ## What the files hold -/

/-- The files of the directory are those of the records in the list, the first of each file. -/
structure Keeps (d : JournalDirectory) (log : List JournalEntry) : Prop where
  present : d.files.isSome = true
  node : ∀ name, d.node? name = (log.find? fun e => decide (e.file = name)).map (.text ·.render)
  lasting : ∀ e ∈ log, JournalEntry.Lasting e.payload

namespace Keeps

variable {call : Journal.Call}

theorem nil (fresh : d.files = some {}) : d.Keeps [] where
  present := by rw [fresh]; rfl
  node name := by rw [node?, fresh]; rfl
  lasting e none := by cases none

theorem node_isSome (keeps : d.Keeps log) :
    (d.node? (RecordFile.name corr role)).isSome = true ↔ ∃ e ∈ log, e.StandsFor corr role := by
  rw [keeps.node, Option.isSome_map, List.find?_isSome]
  simp only [decide_eq_true_eq, JournalEntry.file_eq_iff]

theorem node_draft (keeps : d.Keeps log) (corr : String) (role : JournalRole) (n : Nat) :
    d.node? (RecordFile.draftName corr role d.process n) = none := by
  rw [keeps.node, Option.map_eq_none_iff, List.find?_eq_none]
  intro e _ same
  exact RecordFile.draftName_ne_name corr e.corr role e.role d.process n (of_decide_eq_true same).symm

/-- Only the files matter, not how many drafts were begun. -/
theorem drafts (keeps : d.Keeps log) (n : Nat) : Keeps { d with drafts := n } log where
  present := keeps.present
  node := keeps.node
  lasting := keeps.lasting

theorem add {files : Table String FileNode} (keeps : d.Keeps log) (standing : d.files = some files)
    (lasting : JournalEntry.Lasting payload) (n : Nat)
    (fresh : ∀ e ∈ log, ¬ e.StandsFor corr role) :
    Keeps
      { d with
        files := some ((files.erase (RecordFile.draftName corr role d.process n)).insert
          (RecordFile.name corr role) (.text (JournalEntry.mk corr role now payload).render))
        drafts := n + 1 }
      (log ++ [⟨corr, role, now, payload⟩]) where
  present := rfl
  node name := by
    have before : files.get? name
        = (log.find? fun e => decide (e.file = name)).map (.text ·.render) := by
      rw [← keeps.node name, node?, standing]
      rfl
    show ((files.erase _).insert _ _).get? name = _
    rw [Table.get?_insert, Table.get?_erase, before, List.find?_append]
    by_cases here : name = RecordFile.name corr role
    · have none : log.find? (fun e => decide (e.file = name)) = none := by
        rw [List.find?_eq_none]
        intro e member same
        rw [decide_eq_true_eq, here, JournalEntry.file_eq_iff] at same
        exact fresh e member same
      rw [if_pos here, none, List.find?_singleton, if_pos]
      · rfl
      · rw [here]
        exact decide_eq_true rfl
    · have other : decide (RecordFile.name corr role = name) = false :=
        decide_eq_false (Ne.symm here)
      have unsaid : [JournalEntry.mk corr role now payload].find? (fun e => decide (e.file = name))
          = none := by
        rw [List.find?_singleton, JournalEntry.file, other]
        rfl
      rw [if_neg here, unsaid, Option.or_none]
      split
      · next drafted =>
        have free := keeps.node_draft corr role n
        rw [keeps.node, ← drafted] at free
        exact free.symm
      · rfl
  lasting e member := by
    rcases List.mem_append.mp member with old | new
    · exact keeps.lasting e old
    · rw [List.mem_singleton.mp new]
      exact lasting

theorem record (keeps : d.Keeps log) (lasting : call.Lasting) :
    Keeps (Journal.directory.record (d, log) call).1 (Journal.directory.record (d, log) call).2 := by
  cases call with
  | read corr role => exact keeps
  | write now corr role payload =>
    obtain ⟨files, standing⟩ := Option.isSome_iff_exists.mp keeps.present
    by_cases present : (d.node? (RecordFile.name corr role)).isSome = true
    · rw [Journal.record_of_error (write_of_present present)]
      exact keeps
    · have absent := Option.not_isSome_iff_eq_none.mp present
      have fresh : ∀ e ∈ log, ¬ e.StandsFor corr role := by
        intro e member stands
        exact present (keeps.node_isSome.mpr ⟨e, member, stands⟩)
      cases fit : fits (RecordFile.draftName corr role d.process d.drafts) with
      | false =>
        rw [Journal.record_of_error (write_of_unfit standing absent fit)]
        exact keeps.drafts _
      | true =>
        rw [Journal.record_of_ok (write_of_absent standing absent fit (keeps.node_draft _ _ _))]
        exact keeps.add standing lasting _ fresh

theorem records {calls : List Journal.Call} (keeps : d.Keeps log)
    (lasting : ∀ call ∈ calls, call.Lasting) :
    Keeps (calls.foldl Journal.directory.record (d, log)).1
      (calls.foldl Journal.directory.record (d, log)).2 := by
  induction calls generalizing d log with
  | nil => exact keeps
  | cons call calls ih =>
    obtain ⟨here, later⟩ := List.forall_mem_cons.mp lasting
    exact ih (keeps.record here) later

/-! ## What a directory answers -/

theorem write_eq_of_present (keeps : d.Keeps log) (stands : ∃ e ∈ log, e.StandsFor corr role) :
    d.write now corr role payload = (d, .error (.alreadyWritten corr role)) :=
  write_of_present (keeps.node_isSome.mpr stands)

theorem write_ok_iff (keeps : d.Keeps log)
    (fit : fits (RecordFile.draftName corr role d.process d.drafts) = true) :
    (d.write now corr role payload).2 = .ok () ↔ ∀ e ∈ log, ¬ e.StandsFor corr role := by
  constructor
  · intro written e member stands
    rw [keeps.write_eq_of_present ⟨e, member, stands⟩] at written
    cases written
  · intro fresh
    obtain ⟨files, standing⟩ := Option.isSome_iff_exists.mp keeps.present
    have absent : d.node? (RecordFile.name corr role) = none := by
      rw [← Option.not_isSome_iff_eq_none, keeps.node_isSome]
      rintro ⟨e, member, stands⟩
      exact fresh e member stands
    rw [write_of_absent standing absent fit (keeps.node_draft _ _ _)]

theorem read_eq (keeps : d.Keeps log) (fit : fits (RecordFile.name corr role) = true) :
    d.read corr role = .ok (log.find? fun e => decide (e.StandsFor corr role)) := by
  have node := keeps.node (RecordFile.name corr role)
  simp only [JournalEntry.file_eq_iff] at node
  rw [read]
  simp only [fit, Bool.not_true, Bool.and_false, Bool.false_eq_true, if_false, node]
  cases found : log.find? fun e => decide (e.StandsFor corr role) with
  | none => rfl
  | some e =>
    have lasting := keeps.lasting e (List.mem_of_find?_eq_some found)
    simp only [Option.map_some, e.parse_render lasting]

end Keeps

/-- A directory is a map that is written once under the file of each correlation and role.  A write
succeeds where no record stands for its correlation and role and is refused without a change where one
does; a read finds the first such record, whatever is written to other files later.  The files of two
correlations are the same where one of them mimics the other, and only there. -/
theorem one_record_per_file {past : List Journal.Call} (fresh : d.files = some {})
    (lasting : ∀ call ∈ past, call.Lasting) (corr : String) (role : JournalRole) :
    let s := Journal.directory.recorded d past
    (∀ now payload, fits (RecordFile.draftName corr role s.1.process s.1.drafts) = true →
      ((s.1.write now corr role payload).2 = .ok () ↔ ∀ e ∈ s.2, ¬ e.StandsFor corr role)) ∧
    (∀ now payload, (∃ e ∈ s.2, e.StandsFor corr role) →
      s.1.write now corr role payload = (s.1, .error (.alreadyWritten corr role))) ∧
    (fits (RecordFile.name corr role) = true →
      ∀ later : List Journal.Call, (∀ call ∈ later, call.Lasting ∧ ¬ call.WritesTo corr role) →
        (Journal.directory.recorded d (past ++ later)).1.read corr role
          = .ok (s.2.find? fun e => decide (e.StandsFor corr role))) := by
  intro s
  have keeps : s.1.Keeps s.2 := (Keeps.nil fresh).records lasting
  refine ⟨fun now payload => keeps.write_ok_iff, fun now payload => keeps.write_eq_of_present, ?_⟩
  intro fit later elsewhere
  have onward := keeps.records fun call member => (elsewhere call member).1
  rw [Journal.recorded_append, onward.read_eq fit,
    Journal.find?_records fun call member => (elsewhere call member).2]

theorem stem_dots : RecordFile.stem ".." = "x-2e2e" := by
  rw [RecordFile.stem_of_coded (by decide), Utf8.encode_eq_flatMap]
  rfl

theorem fits_name_dots : fits (RecordFile.name ".." .request) = true := by
  rw [RecordFile.name, stem_dots]
  decide

theorem fits_draft_dots (role : JournalRole) {n : Nat} (first : n < 2) :
    fits (RecordFile.draftName ".." role 7 n) = true := by
  rw [RecordFile.draftName, stem_dots]
  revert n
  cases role <;> decide

/-- A journal with a record of `..`, which is coded as `x-2e2e`. -/
def dotJournal : JournalDirectory × List JournalEntry :=
  Journal.directory.recorded { path := "journal", process := 7 } [.write 5 ".." .request .null]

theorem dotJournal_lasting :
    ∀ call ∈ [Journal.Call.write 5 ".." .request .null], call.Lasting :=
  List.forall_mem_singleton.mpr ⟨trivial, trivial, by decide⟩

theorem dotJournal_eq :
    dotJournal.2 = [⟨"..", .request, 5, .null⟩] ∧ dotJournal.1.process = 7 ∧
      dotJournal.1.drafts = 1 := by
  let d : JournalDirectory := { path := "journal", process := 7 }
  have written : d.write 5 ".." .request .null = (_, .ok ()) :=
    write_of_absent rfl rfl (fits_draft_dots .request (by decide)) rfl
  have once : dotJournal = _ := Journal.record_of_ok written
  rw [once]
  exact ⟨rfl, rfl, rfl⟩

theorem dots_keep_first_record :
    dotJournal.1.read ".." .request = .ok (some ⟨"..", .request, 5, .null⟩) ∧
      dotJournal.1.write 7 ".." .request .null
        = (dotJournal.1, .error (.alreadyWritten ".." .request)) ∧
      (dotJournal.1.write 7 ".." .response .null).2 = .ok () := by
  obtain ⟨records, process, drafts⟩ := dotJournal_eq
  have law := one_record_per_file (d := { path := "journal", process := 7 }) rfl dotJournal_lasting ".."
  have stands : JournalEntry.StandsFor ⟨"..", .request, 5, .null⟩ ".." .request := ⟨rfl, .inl rfl⟩
  refine ⟨?_, (law .request).2.1 7 .null ⟨_, ?_, stands⟩, ((law .response).1 7 .null ?_).mpr ?_⟩
  · have answer := (law .request).2.2 fits_name_dots [] (fun _ none => by cases none)
    rw [List.append_nil] at answer
    refine answer.trans ?_
    show Except.ok (dotJournal.2.find? _) = _
    rw [records, List.find?_singleton, if_pos (decide_eq_true stands)]
  · show _ ∈ dotJournal.2
    rw [records]
    exact List.mem_singleton_self _
  · show fits (RecordFile.draftName ".." .response dotJournal.1.process dotJournal.1.drafts) = true
    rw [process, drafts]
    exact fits_draft_dots .response (by decide)
  · show ∀ e ∈ dotJournal.2, ¬ e.StandsFor ".." .response
    rw [records]
    intro e member stands
    rw [List.mem_singleton.mp member] at stands
    cases stands.1

/-- The record of `..` stands where that of the plain name `x-2e2e` would, which has none. -/
theorem plain_name_taken :
    (∀ e ∈ dotJournal.2, e.corr ≠ "x-2e2e") ∧
      (dotJournal.1.write 7 "x-2e2e" .request .null).2 = .error (.alreadyWritten "x-2e2e" .request) ∧
      dotJournal.1.read "x-2e2e" .request = .ok (some ⟨"..", .request, 5, .null⟩) := by
  have keeps : dotJournal.1.Keeps dotJournal.2 := (Keeps.nil rfl).records dotJournal_lasting
  rw [dotJournal_eq.1] at keeps ⊢
  have mimics : RecordFile.Mimics "x-2e2e" ".." := ⟨by decide, by decide, stem_dots.symm⟩
  have stands : JournalEntry.StandsFor ⟨"..", .request, 5, .null⟩ "x-2e2e" .request :=
    ⟨rfl, .inr (.inr mimics)⟩
  have fit : fits (RecordFile.name "x-2e2e" .request) = true := by
    rw [RecordFile.name, RecordFile.stem_of_plain mimics.1]
    decide
  refine ⟨List.forall_mem_singleton.mpr (by decide), ?_, ?_⟩
  · rw [keeps.write_eq_of_present ⟨_, List.mem_singleton_self _, stands⟩]
  · rw [keeps.read_eq fit, List.find?_singleton, if_pos (decide_eq_true stands)]

end JournalDirectory
end FlexLink
