import FlexLink.Failure
import FlexLink.Journal.Directory

/-! # Records of the journal, for a reader

The latest records line by line, and a recorded request made ready to be sent again. -/
set_option autoImplicit false
namespace FlexLink

namespace JournalEntry

def line (e : JournalEntry) : String :=
  let ts := String.ofList (padLeft ' ' 13 (decimalDigits e.ts.toNat))
  let role := String.ofList (padRight ' ' 8 e.role.name.toList)
  s!"{ts}  {role}  {e.corr}  {e.payload.render}"

def restamp (e : JournalEntry) (now : Millis) : Except Failure Command :=
  match Command.shape.interpret e.payload with
  | .error why => .error ⟨s!"journaled request {e.corr} is not an envelope", [why.message]⟩
  | .ok request => .ok { request with ts := now }

end JournalEntry

namespace JournalDirectory

def tailLines (d : JournalDirectory) (n : Nat) : Except Failure (List String) :=
  match d.tail n with
  | .error e => .error (e.failure.under "failed to read journal")
  | .ok [] => .ok [s!"Journal at {d.path} is empty."]
  | .ok entries => .ok (entries.map JournalEntry.line)

/-- The request recorded under `corr`, made ready to be sent again. -/
def requestAgain (d : JournalDirectory) (corr : String) (now : Millis) : Except Failure Command :=
  match d.read corr .request with
  | .error e => .error (e.failure.under "failed to read journal")
  | .ok none => .error ⟨s!"no request journaled for {corr}", []⟩
  | .ok (some entry) => entry.restamp now

end JournalDirectory
end FlexLink
