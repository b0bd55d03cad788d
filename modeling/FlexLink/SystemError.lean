/-! # Errors of the system

Why the system refuses what it is asked to do, with the number and the wording that it has for each
reason. -/
set_option autoImplicit false
namespace FlexLink

inductive SystemError where
  | notFound
  | alreadyExists
  | noDevice
  | notDirectory
  | isDirectory
  | invalidArgument
  | nameTooLong
  | familyNotSupported
  | addressNotAvailable
  | networkUnreachable
  | nulInPath
deriving DecidableEq

namespace SystemError

/-- The number of an error; one that the system did not give has none. -/
def number? : SystemError → Option Nat
  | .notFound => some 2
  | .alreadyExists => some 17
  | .noDevice => some 19
  | .notDirectory => some 20
  | .isDirectory => some 21
  | .invalidArgument => some 22
  | .nameTooLong => some 36
  | .familyNotSupported => some 97
  | .addressNotAvailable => some 99
  | .networkUnreachable => some 101
  | .nulInPath => none

def reason : SystemError → String
  | .notFound => "No such file or directory"
  | .alreadyExists => "File exists"
  | .noDevice => "No such device"
  | .notDirectory => "Not a directory"
  | .isDirectory => "Is a directory"
  | .invalidArgument => "Invalid argument"
  | .nameTooLong => "File name too long"
  | .familyNotSupported => "Address family not supported by protocol"
  | .addressNotAvailable => "Cannot assign requested address"
  | .networkUnreachable => "Network is unreachable"
  | .nulInPath => "file name contained an unexpected NUL byte"

def numbered (reason : String) (number : Nat) : String := s!"{reason} (os error {number})"

def message (e : SystemError) : String :=
  match e.number? with
  | some n => numbered e.reason n
  | none => e.reason

end SystemError
end FlexLink
