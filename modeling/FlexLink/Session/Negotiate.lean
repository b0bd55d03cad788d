import FlexLink.Wire.Datagram

/-! # Negotiation

Each endpoint proposes a version, a group and a channel.  The lower version holds, and the group
and channel of the endpoint with the lower id, so both sides settle on the same values. -/
set_option autoImplicit false
namespace FlexLink

structure Proposal where
  version : UInt8
  group : UInt8
  channel : UInt8
deriving DecidableEq

def Proposal.message (p : Proposal) (id : EndpointId) : Negotiation := ⟨p.version, id, p.group, p.channel⟩

inductive Learned where
  | newPeer
  | known
  | own
deriving DecidableEq

def Learned.name : Learned → String
  | .newPeer => "NewPeer"
  | .known => "Known"
  | .own => "Own"

def SessionState.learn (s : SessionState) (mine : Proposal) (m : Negotiation) : SessionState × Learned :=
  if m.endpoint = s.localId then (s, .own)
  else if s.remoteId = some m.endpoint then (s, .known)
  else
    let (group, channel) :=
      if m.endpoint < s.localId then (m.group, m.channel) else (mine.group, mine.channel)
    ({ s with
        remoteId := some m.endpoint
        version := min mine.version m.version
        group := group &&& 0x0F
        channel := channel &&& 0x0F }, .newPeer)

structure ReplyThrottle where
  interval : Nat
  last : Option Nat := none
deriving DecidableEq

namespace ReplyThrottle

/-- Whether to answer at time `now`.  A new peer always gets an answer, an echo never. -/
def shouldReply (t : ReplyThrottle) (learned : Learned) (now : Nat) : ReplyThrottle × Bool :=
  let due :=
    match learned with
    | .newPeer => true
    | .known =>
      match t.last with
      | none => true
      | some last => decide (t.interval ≤ now - last)
    | .own => false
  (if due then { t with last := some now } else t, due)

end ReplyThrottle
end FlexLink
