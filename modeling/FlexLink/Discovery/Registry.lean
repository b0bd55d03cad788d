import FlexLink.Discovery.Announcement
import FlexLink.SystemError

/-! # The registry of peers

Endpoints that announced themselves, each with its latest announcement, until they fall silent. -/
set_option autoImplicit false
namespace FlexLink

structure Peer where
  endpoint : EndpointId
  name : String
  address : SocketAddress
  version : UInt8
  lastSeen : Nat
deriving DecidableEq

/-- Peers in ascending order of their ids, each id once. -/
structure Registry where
  peers : List Peer := []
deriving DecidableEq

namespace Registry

def insertPeer (p : Peer) : List Peer → List Peer
  | [] => [p]
  | q :: rest =>
    if p.endpoint = q.endpoint then p :: rest
    else if p.endpoint < q.endpoint then p :: q :: rest
    else q :: insertPeer p rest

def insert (r : Registry) (p : Peer) : Registry := ⟨insertPeer p r.peers⟩

def size (r : Registry) : Nat := r.peers.length

def get? (r : Registry) (id : EndpointId) : Option Peer := r.peers.find? (·.endpoint == id)

/-- Takes a datagram from `source` in at time `now` and names the peer, unless it is no
announcement of the service or our own. -/
def handle (r : Registry) (localId : EndpointId) (now : Nat) (data : List UInt8)
    (source : SocketAddress) : Registry × Option EndpointId :=
  match Announcement.ofBytes? data with
  | none => (r, none)
  | some a =>
    if !a.isRtpMidi || a.endpoint == localId then (r, none)
    else
      (r.insert ⟨a.endpoint, a.name, { ip := source.ip, port := a.port }, a.version, now⟩,
        some a.endpoint)

/-- Takes in what advertisers send from `source`.  `carry` says what becomes of each datagram; an
advertiser goes on after one that it cannot send. -/
def browse (r : Registry) (localId : EndpointId) (now : Nat) (source : SocketAddress)
    (carry : List UInt8 → Except SystemError (List UInt8)) (sent : List (List UInt8)) : Registry :=
  sent.foldl (fun r data =>
    match carry data with
    | .ok data => (r.handle localId now data source).1
    | .error _ => r) r

def expire (r : Registry) (now ttl : Nat) : Registry × Nat :=
  let kept := r.peers.filter fun p => decide (now - p.lastSeen < ttl)
  (⟨kept⟩, r.peers.length - kept.length)

/-- The later of two sightings, the second one if they are of one time. -/
def later (best : Option Peer) (p : Peer) : Option Peer :=
  match best with
  | some b => if p.lastSeen < b.lastSeen then best else some p
  | none => some p

def freshest? (r : Registry) (localId : EndpointId) : Option Peer :=
  (r.peers.filter (·.endpoint != localId)).foldl later none

end Registry
end FlexLink
