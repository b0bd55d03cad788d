import FlexLink.Envelope.Reply

/-! # Command envelopes

A request or a reply on its way between two services. -/
set_option autoImplicit false
namespace FlexLink

/-- Milliseconds since the epoch. -/
abbrev Millis := UInt64

def envelopeVersion : Int64 := 1

structure Command where
  v : Int64
  ts : Millis
  corr : String
  intent : String
  body : Json

namespace Command

def replyIntent : String := "flex.reply"

def controlIntent : String := "flex.ctrl"

/-- The correlation of a reply to a request that could not be read. -/
def unknownCorr : String := "unknown"

def new (now : Millis) (corr intent : String) (body : Json) : Command :=
  ⟨envelopeVersion, now, corr, intent, body⟩

def ofReply (now : Millis) (corr : String) (reply : Reply) : Command :=
  new now corr replyIntent reply.toBody

def isReply (c : Command) : Bool := c.intent == replyIntent

def isControl (c : Command) : Bool := c.intent == controlIntent

def reply? (c : Command) : Option Reply := if c.isReply then Reply.ofBody c.body else none

def same (a b : Command) : Bool :=
  a.v == b.v && a.ts == b.ts && a.corr == b.corr && a.intent == b.intent && a.body.same b.body

structure Draft where
  v : Option Int64 := none
  ts : Option UInt64 := none
  corr : Option String := none
  intent : Option String := none
  body : Option Json := none

open Json in
def record : Record Draft Command where
  label := "CommandEnvelope"
  blank := {}
  fields := [
    .typed "v" .int64 (·.v) (fun d x => { d with v := some x }) none,
    .typed "ts" .uint64 (·.ts) (fun d x => { d with ts := some x }) none,
    .typed "corr" .text (·.corr) (fun d x => { d with corr := some x }) none,
    .typed "intent" .text (·.intent) (fun d x => { d with intent := some x }) none,
    .typed "body" .any (·.body) (fun d x => { d with body := some x }) none]
  finish d :=
    match d.v, d.ts, d.corr, d.intent, d.body with
    | none, _, _, _, _ => .error "v"
    | _, none, _, _, _ => .error "ts"
    | _, _, none, _, _ => .error "corr"
    | _, _, _, none, _ => .error "intent"
    | _, _, _, _, none => .error "body"
    | some v, some ts, some corr, some intent, some body => .ok ⟨v, ts, corr, intent, body⟩

def shape : Json.Shape Command := record.shape

def chars (c : Command) : List Char :=
  Json.recordChars [
    ("v", some (decimalInt c.v.toInt)),
    ("ts", some (decimalDigits c.ts.toNat)),
    ("corr", some (Json.stringChars c.corr)),
    ("intent", some (Json.stringChars c.intent)),
    ("body", some c.body.chars)]

def render (c : Command) : String := String.ofList c.chars

def toJson (c : Command) : Json :=
  .ofMembers [
    ("v", .ofInt64 c.v),
    ("ts", .ofUInt64 c.ts),
    ("corr", .text c.corr),
    ("intent", .text c.intent),
    ("body", c.body)]

end Command
end FlexLink
