import FlexLink.Envelope.Control

/-! # Restoring order

Events come in any order and leave in the order of their sequence numbers.  What comes early is
held; the numbers before it are reported as missing, each once and as many as one request may
name.  When too much is held, the gap is given up. -/
set_option autoImplicit false
namespace FlexLink

structure Reordered where
  ready : List Event := []
  missing : List Nat := []
  skipped : Nat := 0
  duplicate : Bool := false
deriving DecidableEq

structure ReorderBuffer where
  maxHeld : Nat
  next : Nat := 0
  /-- Early events in ascending order of their numbers. -/
  held : List Event := []
  /-- Numbers from `next` on that were reported as missing. -/
  reported : List Nat := []
deriving DecidableEq

def lastSeq : Nat := 0x10000000000000000 - 1

namespace ReorderBuffer

/-- An empty buffer, which holds one event at least. -/
def new (maxHeld : Nat) : ReorderBuffer := { maxHeld := max maxHeld 1 }

def holds (b : ReorderBuffer) (seq : Nat) : Bool := b.held.any fun e => e.seq.toNat == seq

def insertEvent (e : Event) : List Event → List Event
  | [] => [e]
  | h :: rest => if e.seq < h.seq then e :: h :: rest else h :: insertEvent e rest

def successor? (n : Nat) : Option Nat := if n < lastSeq then some (n + 1) else none

/-- The first held events as long as they are next, with the number then next and the events that
stay held; nothing where a number has no successor. -/
def drain (next : Nat) : (held : List Event) → Option (List Event × Nat × List Event)
  | [] => some ([], next, [])
  | h :: rest =>
    if h.seq.toNat = next then
      match successor? next with
      | none => none
      | some next =>
        match drain next rest with
        | none => none
        | some (ready, next, held) => some (h :: ready, next, held)
    else some ([], next, h :: rest)

/-- Numbers from `next` up to `seq` that are neither held nor reported, in the window that one
request may name. -/
def gap (b : ReorderBuffer) (seq : Nat) : List Nat :=
  let stop := min seq (min (b.next + Control.nackLimit) lastSeq)
  ((List.range (stop - b.next)).map (b.next + ·)).filter fun s =>
    !b.holds s && !b.reported.contains s

def settle (b : ReorderBuffer) (out : Reordered) : Option (ReorderBuffer × Reordered) :=
  match drain b.next b.held with
  | none => none
  | some (ready, next, held) =>
    some ({ b with next, held, reported := b.reported.filter (next ≤ ·) },
      { out with ready := out.ready ++ ready })

/-- Takes an event in; nothing where the number behind the last one would be needed. -/
def push (b : ReorderBuffer) (e : Event) : Option (ReorderBuffer × Reordered) :=
  let seq := e.seq.toNat
  if seq < b.next ∨ b.holds seq then some (b, { duplicate := true })
  else if seq = b.next then
    match successor? b.next with
    | none => none
    | some next => settle { b with next } { ready := [e] }
  else
    let missing := b.gap seq
    let held := insertEvent e b.held
    let b := { b with held, reported := b.reported ++ missing }
    match held with
    | first :: _ =>
      if b.maxHeld < held.length then
        settle { b with next := first.seq.toNat } { missing, skipped := first.seq.toNat - b.next }
      else settle b { missing }
    | [] => settle b { missing }

end ReorderBuffer
end FlexLink
