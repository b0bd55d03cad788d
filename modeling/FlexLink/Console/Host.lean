import FlexLink.Console.FileSystem
import FlexLink.Console.Interaction

/-! # A host given as data

A host with its files, on a network that is given as well. -/
set_option autoImplicit false
namespace FlexLink.Console

structure Host where
  files : FileSystem
  exchange : SessionOptions → Command → Nat → Except Failure Outcome

namespace Host

def openJournal (host : Host) (path : String) : Except JournalError JournalDirectory :=
  match host.files.journalAt path with
  | .ok directory => .ok directory
  | .error why => .error (.io path why.message)

def run (host : Host) : Interaction → Output
  | .done output => output
  | .readSettings path next => host.run (next (host.files.fileAt path))
  | .openJournal path next => host.run (next (host.openJournal path))
  | .exchange options request timeout next =>
    host.run (next (host.exchange options request timeout))

end Host
end FlexLink.Console
