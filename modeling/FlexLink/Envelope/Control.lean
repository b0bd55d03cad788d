import FlexLink.Envelope.Event

/-! # Control messages

A receiver acknowledges what it no longer needs and asks again for what it misses.  Streams name
frames by sequence number, and an acknowledgement covers every number up to it; the bridge names
replies by correlation, and an acknowledgement covers that one alone. -/
set_option autoImplicit false
namespace FlexLink

/-- What frames are kept under for sending again. -/
class ResendKey (κ : Type) where
  /-- Whether an acknowledgement of the second key releases frames kept under the first. -/
  covered : κ → κ → Bool
  shape : Json.Shape κ
  toJson : κ → Json

instance : ResendKey UInt64 where
  covered key acked := decide (key ≤ acked)
  shape := .uint64
  toJson := .ofUInt64

instance : ResendKey String where
  covered key acked := key == acked
  shape := .text
  toJson := .text

structure Control (κ : Type) where
  ack : Option κ := none
  nack : Option (List κ) := none
deriving DecidableEq

namespace Control

variable {κ : Type}

def nackLimit : Nat := 512

def ofAck (key : κ) : Control κ := { ack := some key }

/-- A request for the first keys, as many as one message may name. -/
def ofNack (keys : List κ) : Control κ := { nack := some (keys.take nackLimit) }

def isEmpty (c : Control κ) : Bool := c.ack.isNone && (c.nack.getD []).isEmpty

structure Draft (κ : Type) where
  ack : Option (Option κ) := none
  nack : Option (Option (List κ)) := none

open Json in
def record [ResendKey κ] : Record (Draft κ) (Control κ) where
  label := "Ctrl"
  blank := {}
  fields := [
    .typed "ack" (.optional ResendKey.shape) (·.ack) (fun d x => { d with ack := some x }) none,
    .typed "nack" (.optional (.list ResendKey.shape)) (·.nack) (fun d x => { d with nack := some x })
      none]
  finish d := .ok ⟨d.ack.join, d.nack.join⟩

def shape [ResendKey κ] : Json.Shape (Control κ) := record.shape

def toJson [ResendKey κ] (c : Control κ) : Json :=
  .ofMembers <|
    (c.ack.map fun key => ("ack", ResendKey.toJson key)).toList
      ++ (c.nack.map fun keys => ("nack", Json.array (keys.map ResendKey.toJson))).toList

def render [ResendKey κ] (c : Control κ) : String :=
  String.ofList <| Json.recordChars [
    ("ack", c.ack.map fun key => (ResendKey.toJson key).chars),
    ("nack", c.nack.map fun keys => (Json.array (keys.map ResendKey.toJson)).chars)]

/-- The message as an event of a stream, its text as the data. -/
def toEvent [ResendKey κ] (c : Control κ) : Event := .new Event.controlName c.render

def ofEvent? [ResendKey κ] (e : Event) : Option (Control κ) :=
  if e.isControl then e.data.bind fun source => (shape.parse source).toOption else none

/-- The message as a command, its object as the body. -/
def toCommand [ResendKey κ] (c : Control κ) (now : Millis) : Command :=
  .new now Event.controlName Command.controlIntent c.toJson

def ofCommand? [ResendKey κ] (command : Command) : Option (Control κ) :=
  if command.isControl then (shape.interpret command.body).toOption else none

end Control
end FlexLink
