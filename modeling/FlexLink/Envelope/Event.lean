import FlexLink.Envelope.Command

/-! # Stream envelopes

One event of a stream, or one fragment of an event whose data is cut into pieces. -/
set_option autoImplicit false
namespace FlexLink

structure Fragment where
  i : UInt32
  n : UInt32
deriving DecidableEq

namespace Fragment

/-- Whether the piece is the last one; `none` where its successor has no number. -/
def isLast? (f : Fragment) : Option Bool :=
  if f.i.toNat + 1 < 0x100000000 then some (decide (f.n.toNat ≤ f.i.toNat + 1)) else none

structure Draft where
  i : Option UInt32 := none
  n : Option UInt32 := none

open Json in
def record : Record Draft Fragment where
  label := "Fragment"
  blank := {}
  fields := [
    .typed "i" .uint32 (·.i) (fun d x => { d with i := some x }) none,
    .typed "n" .uint32 (·.n) (fun d x => { d with n := some x }) none]
  finish d :=
    match d.i, d.n with
    | none, _ => .error "i"
    | _, none => .error "n"
    | some i, some n => .ok ⟨i, n⟩

def shape : Json.Shape Fragment := record.shape

def chars (f : Fragment) : List Char :=
  Json.recordChars [("i", some (decimalDigits f.i.toNat)), ("n", some (decimalDigits f.n.toNat))]

def render (f : Fragment) : String := String.ofList f.chars

end Fragment

structure Event where
  v : Int64
  ev : String
  id : Option String := none
  ct : Option String := none
  seq : UInt64
  frag : Option Fragment := none
  ts : Option Binary64 := none
  data : Option String := none
deriving DecidableEq

namespace Event

def controlName : String := "ctrl"

def new (ev data : String) : Event := { v := envelopeVersion, ev, seq := 0, data := some data }

def isControl (e : Event) : Bool := e.ev == controlName

def same (a b : Event) : Bool :=
  let times :=
    match a.ts, b.ts with
    | some x, some y => x.same y
    | none, none => true
    | _, _ => false
  times && decide ({ a with ts := none } = { b with ts := none })

structure Draft where
  v : Option Int64 := none
  ev : Option String := none
  id : Option (Option String) := none
  ct : Option (Option String) := none
  seq : Option UInt64 := none
  frag : Option (Option Fragment) := none
  ts : Option (Option Binary64) := none
  data : Option (Option String) := none

open Json in
def record : Record Draft Event where
  label := "StreamEnvelope"
  blank := {}
  fields := [
    .typed "v" .int64 (·.v) (fun d x => { d with v := some x }) none,
    .typed "ev" .text (·.ev) (fun d x => { d with ev := some x }) none,
    .typed "id" (.optional .text) (·.id) (fun d x => { d with id := some x }) (some none),
    .typed "ct" (.optional .text) (·.ct) (fun d x => { d with ct := some x }) (some none),
    .typed "seq" .uint64 (·.seq) (fun d x => { d with seq := some x }) none,
    .typed "frag" (.optional Fragment.shape) (·.frag) (fun d x => { d with frag := some x })
      (some none),
    .typed "ts" (.optional .binary64) (·.ts) (fun d x => { d with ts := some x }) (some none),
    .typed "data" (.optional .text) (·.data) (fun d x => { d with data := some x }) (some none)]
  finish d :=
    match d.v, d.ev, d.seq with
    | none, _, _ => .error "v"
    | _, none, _ => .error "ev"
    | _, _, none => .error "seq"
    | some v, some ev, some seq =>
      .ok ⟨v, ev, d.id.join, d.ct.join, seq, d.frag.join, d.ts.join, d.data.join⟩

def shape : Json.Shape Event := record.shape

def chars (e : Event) : List Char :=
  Json.recordChars [
    ("v", some (decimalInt e.v.toInt)),
    ("ev", some (Json.stringChars e.ev)),
    ("id", e.id.map Json.stringChars),
    ("ct", e.ct.map Json.stringChars),
    ("seq", some (decimalDigits e.seq.toNat)),
    ("frag", e.frag.map Fragment.chars),
    ("ts", e.ts.map Json.realChars),
    ("data", e.data.map Json.stringChars)]

def render (e : Event) : String := String.ofList e.chars

end Event
end FlexLink
