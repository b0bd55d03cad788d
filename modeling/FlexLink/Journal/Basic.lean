import FlexLink.Journal.Entry

/-! # Journals

A journal takes each record once and gives it back under its correlation and role.  Where it keeps
them is its own affair: a journal has a state, and says of each write what becomes of it. -/
set_option autoImplicit false
namespace FlexLink

inductive JournalError where
  | alreadyWritten (corr : String) (role : JournalRole)
  /-- A file refused; `why` is the system's reason. -/
  | io (path why : String)
  | serialize (why : Json.Error)
deriving DecidableEq

def JournalError.message : JournalError → String
  | .alreadyWritten corr role => s!"journal entry {corr}.{role.name} already written"
  | .io path why => s!"journal io on {path}: {why}"
  | .serialize why => s!"journal serialization: {why.message}"

structure Journal (τ : Type) where
  write : τ → Millis → String → JournalRole → Json → τ × Except JournalError Unit
  read : τ → String → JournalRole → Except JournalError (Option JournalEntry)
  /-- The last `n` records, oldest first. -/
  tail : τ → Nat → Except JournalError (List JournalEntry)

def lastOf {α : Type} (n : Nat) (xs : List α) : List α := xs.drop (xs.length - n)

def Journal.refusing : Journal Unit where
  write s _ corr role _ := (s, .error (.alreadyWritten corr role))
  read _ _ _ := .ok none
  tail _ _ := .ok []

end FlexLink
