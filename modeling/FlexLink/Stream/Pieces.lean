import FlexLink.Envelope.Event
import FlexLink.Text.Utf8

/-! # Pieces of an event

An event whose data is too long travels in pieces: the data is cut between characters, each piece
as long as the limit allows, and the pieces are numbered under one id. -/
set_option autoImplicit false
namespace FlexLink

/-- Cuts a text into chunks of at most `limit` bytes.  A character wider than the limit has a
chunk of its own.  `current` is the open chunk, newest character first, of `size` bytes. -/
def cutText (limit : Nat) (current : List Char) (size : Nat) : List Char → List (List Char)
  | [] => [current.reverse]
  | c :: rest =>
    let width := Utf8.width c
    if limit < size + width ∧ current ≠ [] then current.reverse :: cutText limit [c] width rest
    else cutText limit (c :: current) (size + width) rest

namespace Event

def piece (e : Event) (id : String) (n : Nat) (i : Nat) (chunk : List Char) : Event :=
  { e with
    id := some id
    frag := some ⟨UInt32.ofNat i, UInt32.ofNat n⟩
    data := some (String.ofList chunk) }

/-- The pieces of an event, or the event alone if its data has at most `maxBytes` bytes.  An event
without an id takes `freshId`. -/
def pieces (e : Event) (maxBytes : Nat) (freshId : String) : List Event :=
  let limit := max maxBytes 1
  match e.data with
  | none => [e]
  | some data =>
    if Utf8.size data.toList ≤ limit then [e]
    else
      let chunks := cutText limit [] 0 data.toList
      chunks.mapIdx fun i chunk => e.piece (e.id.getD freshId) chunks.length i chunk

end Event
end FlexLink
