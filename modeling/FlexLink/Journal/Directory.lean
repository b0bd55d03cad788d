import FlexLink.Journal.Basic
import FlexLink.Journal.FileName
import FlexLink.Journal.Listing
import FlexLink.Settings.Environment
import FlexLink.SystemError
import FlexLink.Table

/-! # A journal in a directory

Each record is a file.  It is written under a draft's name first and moved to its own when it is
complete, so a record that can be seen is whole. -/
set_option autoImplicit false
namespace FlexLink

inductive FileNode where
  | text (content : String)
  | folder
deriving DecidableEq

structure JournalDirectory where
  path : String
  process : Nat
  /-- Nothing once the directory has been removed, or if its path is empty. -/
  files : Option (Table String FileNode) := some {}
  drafts : Nat := 0

namespace JournalDirectory

def pathOf (d : JournalDirectory) (name : String) : String := Environment.within d.path name

def node? (d : JournalDirectory) (name : String) : Option FileNode :=
  d.files.bind fun files => files.get? name

def fits (name : String) : Bool := decide (name.utf8ByteSize ≤ RecordFile.maxSize)

/-- Adds the file of a complete record, by way of a draft. -/
def addFile (d : JournalDirectory) (draft name content : String) :
    JournalDirectory × Except JournalError Unit :=
  let refuse (why : SystemError) : JournalDirectory × Except JournalError Unit :=
    (d, .error (.io (d.pathOf draft) why.message))
  match d.files with
  | none => refuse .notFound
  | some files =>
    if !fits draft then refuse .nameTooLong
    else if d.node? draft = some .folder then refuse .isDirectory
    else ({ d with files := some ((files.erase draft).insert name (.text content)) }, .ok ())

def write (d : JournalDirectory) (now : Millis) (corr : String) (role : JournalRole)
    (payload : Json) : JournalDirectory × Except JournalError Unit :=
  let name := RecordFile.name corr role
  if (d.node? name).isSome then (d, .error (.alreadyWritten corr role))
  else
    { d with drafts := d.drafts + 1 }.addFile (RecordFile.draftName corr role d.process d.drafts)
      name (JournalEntry.mk corr role now payload).render

def read (d : JournalDirectory) (corr : String) (role : JournalRole) :
    Except JournalError (Option JournalEntry) :=
  let name := RecordFile.name corr role
  if (d.files.isSome || d.path.isEmpty) && !fits name then
    .error (.io (d.pathOf name) SystemError.nameTooLong.message)
  else
    match d.node? name with
    | none => .ok none
    | some .folder => .error (.io (d.pathOf name) SystemError.isDirectory.message)
    | some (.text content) =>
      match JournalEntry.shape.parse content with
      | .ok entry => .ok (some entry)
      | .error why => .error (.serialize why)

/-- The record of a file; others are passed over. -/
def record? : String × FileNode → Option JournalEntry
  | (_, .folder) => none
  | (name, .text content) =>
    if RecordFile.isRecord name then (JournalEntry.shape.parse content).toOption else none

/-- The order of records: by time, and a request before a response of the same time. -/
def precedes (a b : JournalEntry) : Bool :=
  decide (a.ts < b.ts) || a.ts == b.ts && !(a.role == .response && b.role == .request)

def lastRecords (n : Nat) (listed : List (String × FileNode)) : List JournalEntry :=
  lastOf n ((listed.filterMap record?).mergeSort precedes)

def tail (d : JournalDirectory) (n : Nat) : Except JournalError (List JournalEntry) :=
  match d.files with
  | none => .error (.io d.path SystemError.notFound.message)
  | some files => .ok (lastRecords n (Listing.sorted files.entries))

def names (d : JournalDirectory) : List String :=
  ((d.files.map Table.keys).getD []).mergeSort fun a b => decide (a ≤ b)

/-- The directory with further files, which take the place of those with the same name. -/
def seed (d : JournalDirectory) (files : List (String × FileNode)) : JournalDirectory :=
  { d with files := some (files.foldl (fun t (name, node) => t.insert name node) (d.files.getD {})) }

def remove (d : JournalDirectory) : JournalDirectory := { d with files := none }

end JournalDirectory

def Journal.directory : Journal JournalDirectory where
  write := JournalDirectory.write
  read := JournalDirectory.read
  tail := JournalDirectory.tail

end FlexLink
