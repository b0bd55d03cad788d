import FlexLink.Journal.Basic
import FlexLink.Transport.Inbox

/-! # Failures

What a command could not do and why: a message with the causes behind it, the nearest first. -/
set_option autoImplicit false
namespace FlexLink

structure Failure where
  what : String
  causes : List String := []
deriving DecidableEq

namespace Failure

def line (f : Failure) : String := ": ".intercalate (f.what :: f.causes)

/-- A cause behind its number, or behind blanks if it is the only one. -/
def causeChars (number : Option Nat) (cause : String) : List Char :=
  let (lead, indent) :=
    match number with
    | some n => (padLeft ' ' 5 (decimalDigits n) ++ [':', ' '], List.replicate 7 ' ')
    | none => (List.replicate 4 ' ', List.replicate 4 ' ')
  lead ++ cause.toList.flatMap fun c => if c = '\n' then '\n' :: indent else [c]

/-- The failure in several lines; causes are numbered if there are several. -/
def report (f : Failure) : String :=
  match f.causes with
  | [] => f.what
  | causes =>
    let numbered : List (Option Nat × String) :=
      match causes with
      | [cause] => [(none, cause)]
      | causes => causes.mapIdx fun i cause => (some i, cause)
    f.what ++ "\n\nCaused by:" ++
      String.ofList (numbered.flatMap fun (number, cause) => '\n' :: causeChars number cause)

def under (what : String) (f : Failure) : Failure := ⟨what, f.what :: f.causes⟩

end Failure

/-- A socket's error says its reason, and so does the error that it came from. -/
def TransportError.failure (e : TransportError) : Failure :=
  match e with
  | .socket _ why => ⟨e.message, [why]⟩
  | _ => ⟨e.message, []⟩

/-- Gives the reading end of an inbox to somebody who fails without it. -/
def Inbox.takeFor (need : String) (i : Inbox) : Except Failure Inbox :=
  match i.take with
  | .ok i => .ok i
  | .error e => .error (.under need e.failure)

/-- A record that cannot be read says its reason, and so does the error that it came from. -/
def JournalError.failure (e : JournalError) : Failure :=
  match e with
  | .serialize why => ⟨e.message, [why.message]⟩
  | _ => ⟨e.message, []⟩

end FlexLink
