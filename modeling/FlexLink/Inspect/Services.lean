import FlexLink.Bridge.Router
import FlexLink.Failure
import FlexLink.Inspect.Wire

/-! # Services as JSON

Records as texts and refusals by their kind.  The system's own reasons are left out, as they vary
from one system to the next. -/
set_option autoImplicit false
namespace FlexLink

open Json

instance : ToJson JournalEntry := ⟨fun e => .text e.render⟩

instance : ToJson JournalError where
  toJson e :=
    match e with
    | .alreadyWritten .. => failure "AlreadyWritten" e.message
    | .serialize _ => failure "Serialize" e.message
    | .io .. => obj [("error", "Io")]

instance : ToJson DispatchError where
  toJson e :=
    let kind :=
      match e with
      | .notFound _ => "NotFound"
      | .invalidParams _ => "InvalidParams"
      | .server .. => "Server"
    failure kind e.message

instance : ToJson Failure := ⟨fun f => failure "Error" f.line⟩

end FlexLink
