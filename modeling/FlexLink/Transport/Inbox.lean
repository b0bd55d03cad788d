import FlexLink.Transport.State

/-! # Inboxes

Batches of packets wait in an inbox for its one reader.  The inbox holds a bounded number of
batches; what comes beyond that is left with the sender. -/
set_option autoImplicit false
namespace FlexLink

abbrev Batch := List Packet

inductive ReaderState where
  | free
  | taken
  | gone
deriving DecidableEq

structure Inbox where
  reader : ReaderState := .free
  waiting : List Batch := []
deriving DecidableEq

namespace Inbox

def take (i : Inbox) : Except TransportError Inbox :=
  match i.reader with
  | .free => .ok { i with reader := .taken }
  | _ => .error .receiverTaken

def abandon (i : Inbox) : Inbox :=
  match i.reader with
  | .taken => { reader := .gone }
  | _ => i

/-- Everything that waits, for a reader that has taken the reading end. -/
def drain (i : Inbox) : Inbox × List Batch :=
  match i.reader with
  | .taken => ({ i with waiting := [] }, i.waiting)
  | _ => (i, [])

def isFull (i : Inbox) : Bool := decide (inboundCapacity ≤ i.waiting.length)

def offer (i : Inbox) (batch : Batch) : Option Inbox :=
  if i.isFull then none else some { i with waiting := i.waiting ++ [batch] }

/-- Batches up to the first that finds no room, and what is left over. -/
def offerAll (i : Inbox) : List Batch → Inbox × List Batch
  | [] => (i, [])
  | batch :: rest =>
    match i.offer batch with
    | some i => offerAll i rest
    | none => (i, batch :: rest)

end Inbox
end FlexLink
