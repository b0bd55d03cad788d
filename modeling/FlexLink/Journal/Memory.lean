import FlexLink.Journal.Basic
import FlexLink.Table

/-! # A journal in memory

The records in the order they were written. -/
set_option autoImplicit false
namespace FlexLink

structure MemoryJournal where
  records : Table (String × JournalRole) JournalEntry := {}

namespace MemoryJournal

def size (j : MemoryJournal) : Nat := j.records.size

def read (j : MemoryJournal) (corr : String) (role : JournalRole) : Option JournalEntry :=
  j.records.get? (corr, role)

def write (j : MemoryJournal) (now : Millis) (corr : String) (role : JournalRole) (payload : Json) :
    MemoryJournal × Except JournalError Unit :=
  match j.read corr role with
  | some _ => (j, .error (.alreadyWritten corr role))
  | none => (⟨j.records.insert (corr, role) ⟨corr, role, now, payload⟩⟩, .ok ())

def tail (j : MemoryJournal) (n : Nat) : List JournalEntry := lastOf n (j.records.entries.map (·.2))

end MemoryJournal

def Journal.memory : Journal MemoryJournal where
  write := MemoryJournal.write
  read j corr role := .ok (j.read corr role)
  tail j n := .ok (j.tail n)

end FlexLink
