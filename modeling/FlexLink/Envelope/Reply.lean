import FlexLink.Json.Shape

/-! # Replies

What a bridge answers to a request: an acknowledgement, progress, and in the end an outcome. -/
set_option autoImplicit false
namespace FlexLink

structure Reply where
  ack : Bool
  progress : Option Binary64 := none
  success : Option Bool := none
  error : Option String := none
deriving DecidableEq

namespace Reply

def acknowledged : Reply := { ack := true }

def succeeded : Reply := { ack := true, success := some true }

def failed (error : String) : Reply := { ack := false, error := some error }

def empty : Reply := { ack := false }

/-- The reply with a fraction, brought into 0 to 1. -/
def withProgress (r : Reply) (fraction : Binary64) : Reply :=
  { r with progress := some (fraction.clamp (.ofInt 0) (.ofInt 1)) }

/-- An acknowledgement without an outcome is followed by more replies. -/
def isFinal (r : Reply) : Bool := r.success.isSome || !r.ack

def describe (r : Reply) : String :=
  match r.error with
  | some error => s!"failed: {error}"
  | none =>
    match r.success, r.progress with
    | some true, _ => "success"
    | some false, _ => "unsuccessful"
    | none, some p => s!"progress {String.ofList (p.mul (.ofInt 100)).writeWhole}%"
    | none, none => "ack"

/-- Equality as data: a fraction that is no number equals nothing. -/
def same (a b : Reply) : Bool :=
  let fractions :=
    match a.progress, b.progress with
    | some x, some y => x.same y
    | none, none => true
    | _, _ => false
  a.ack == b.ack && fractions && a.success == b.success && a.error == b.error

structure Draft where
  ack : Option Bool := none
  progress : Option (Option Binary64) := none
  success : Option (Option Bool) := none
  error : Option (Option String) := none

open Json in
def record : Record Draft Reply where
  label := "Reply"
  blank := {}
  fields := [
    .typed "ack" .bool (·.ack) (fun d v => { d with ack := some v }) none,
    .typed "progress" (.optional .binary64) (·.progress) (fun d v => { d with progress := some v })
      (some none),
    .typed "success" (.optional .bool) (·.success) (fun d v => { d with success := some v })
      (some none),
    .typed "error" (.optional .text) (·.error) (fun d v => { d with error := some v })
      (some none)]
  finish d :=
    match d.ack with
    | some ack => .ok ⟨ack, d.progress.join, d.success.join, d.error.join⟩
    | none => .error "ack"

def shape : Json.Shape Reply := record.shape

def render (r : Reply) : String :=
  String.ofList <| Json.recordChars [
    ("ack", some (Json.boolChars r.ack)),
    ("progress", r.progress.map Json.realChars),
    ("success", r.success.map Json.boolChars),
    ("error", r.error.map Json.stringChars)]

/-- The reply as the body of an envelope; a fraction without a decimal is left out. -/
def toBody (r : Reply) : Json :=
  .ofMembers <|
    [("ack", .bool r.ack)]
      ++ ((r.progress.filter (·.isFinite)).map fun p => ("progress", Json.number (.real p))).toList
      ++ (r.success.map fun s => ("success", Json.bool s)).toList
      ++ (r.error.map fun e => ("error", Json.text e)).toList

def ofBody (body : Json) : Option Reply := (shape.interpret body).toOption

end Reply
end FlexLink
