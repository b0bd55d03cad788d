import FlexLink.Envelope.Event
import FlexLink.Table

/-! # Joining pieces

Pieces of one event carry one id.  The event is whole when its last piece comes; pieces that miss
then are lost with it.  The number of pieces is the peer's word, so it is checked before room is
made for them, and only so many events may be incomplete at once. -/
set_option autoImplicit false
namespace FlexLink

inductive FragmentError where
  | withoutId
  | outOfRange (place : Fragment) (id : String)
  | tooMany (id : String) (count limit : Nat)
  | countChanged (id : String)
  | missing (index count : Nat) (id : String)
deriving DecidableEq

def FragmentError.message : FragmentError → String
  | .withoutId => "fragment without id"
  | .outOfRange place id => s!"fragment {place.i}/{place.n} of {id} out of range"
  | .tooMany id count limit => s!"{id} announces {count} fragments, limit is {limit}"
  | .countChanged id => s!"fragment count changed mid-event for {id}"
  | .missing index count id => s!"fragment {index}/{count} of {id} missing"

structure PartialEvent where
  count : Nat
  parts : List (Option String)
deriving DecidableEq

namespace PartialEvent

def new (count : Nat) : PartialEvent := ⟨count, List.replicate count none⟩

def put (p : PartialEvent) (index : Nat) (data : Option String) : PartialEvent :=
  { p with parts := p.parts.set index data }

/-- The data of all pieces in order, or the first piece from number `index` on that misses. -/
def concat (index : Nat) : List (Option String) → Except Nat (List String)
  | [] => .ok []
  | none :: _ => .error index
  | some data :: rest =>
    match concat (index + 1) rest with
    | .ok datas => .ok (data :: datas)
    | .error missing => .error missing

end PartialEvent

structure Joiner where
  maxFragments : Nat
  partials : Table String PartialEvent := {}
  order : List String := []

namespace Joiner

def capacity : Nat := 64

/-- A joiner of events with at most `maxFragments` pieces, and one at least. -/
def new (maxFragments : Nat) : Joiner := { maxFragments := max maxFragments 1 }

def pending (j : Joiner) : Nat := j.partials.size

def forget (j : Joiner) (id : String) : Joiner :=
  { j with partials := j.partials.erase id, order := j.order.filter (· ≠ id) }

def makeRoom (j : Joiner) : (order : List String) → Joiner
  | [] => { j with order := [] }
  | id :: rest =>
    if capacity ≤ j.partials.size then makeRoom { j with partials := j.partials.erase id } rest
    else { j with order := id :: rest }

def opening (j : Joiner) (id : String) (count : Nat) : Joiner × PartialEvent :=
  match j.partials.get? id with
  | some p => (j, p)
  | none =>
    let j := j.makeRoom j.order
    ({ j with order := j.order ++ [id] }, .new count)

def finish (j : Joiner) (e : Event) (id : String) (p : PartialEvent) :
    Joiner × Except FragmentError (Option Event) :=
  (j.forget id,
    match PartialEvent.concat 0 p.parts with
    | .ok datas => .ok (some { e with frag := none, data := some (String.join datas) })
    | .error index => .error (.missing index p.count id))

/-- Takes an envelope in, and gives out the event that it completes.  An envelope that is no piece
is an event by itself. -/
def push (j : Joiner) (e : Event) : Joiner × Except FragmentError (Option Event) :=
  match e.frag, e.id with
  | none, _ => (j, .ok (some e))
  | some _, none => (j, .error .withoutId)
  | some place, some id =>
    let i := place.i.toNat
    let n := place.n.toNat
    if n ≤ i then (j, .error (.outOfRange place id))
    else if j.maxFragments < n then (j, .error (.tooMany id n j.maxFragments))
    else
      match j.opening id n with
      | (j, p) =>
        if p.count ≠ n then (j.forget id, .error (.countChanged id))
        else
          let p := p.put i e.data
          let j := { j with partials := j.partials.insert id p }
          if n ≤ i + 1 then j.finish e id p else (j, .ok none)

end Joiner
end FlexLink
