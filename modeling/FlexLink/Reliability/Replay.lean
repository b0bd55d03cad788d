import FlexLink.Envelope.Command
import FlexLink.Table

/-! # The replay cache

Requests may come twice.  One that comes again within the window, by its own timestamp, is
suppressed.  What is remembered expires by the local clock and, past a number of entries, in the
order it came, so that a timestamp chosen by a peer pushes nothing out.  Local time is counted in
nanoseconds from some start on, timestamps in milliseconds. -/
set_option autoImplicit false
namespace FlexLink

inductive ReplayVerdict where
  | accepted
  | suppressed
deriving DecidableEq

def ReplayVerdict.name : ReplayVerdict → String
  | .accepted => "Accepted"
  | .suppressed => "Suppressed"

def nanos (millis : Nat) : Nat := 1000000 * millis

structure Acceptance where
  ts : Millis
  time : Nat
deriving DecidableEq

structure ReplayCache where
  /-- Milliseconds between timestamps. -/
  window : Nat
  /-- The same span of local time. -/
  lifetime : Nat
  capacity : Nat
  seen : Table String Acceptance := {}
  /-- Each remembered correlation with the time it was queued at, oldest first. -/
  queue : List (String × Nat) := []

namespace ReplayCache

/-- An empty cache, which holds one entry at least. -/
def new (window maxEntries : Nat) : ReplayCache :=
  { window, lifetime := nanos window, capacity := max maxEntries 1 }

def size (c : ReplayCache) : Nat := c.seen.size

def contains (c : ReplayCache) (corr : String) : Bool := c.seen.contains corr

/-- Looks at the front of the queue.  An old entry leaves, unless it was accepted again since it
was queued and goes to the back; at a young one there is nothing to do. -/
def sweepStep (cutoff : Nat) (c : ReplayCache) : Option ReplayCache :=
  match c.queue with
  | [] => none
  | (corr, queuedAt) :: rest =>
    if cutoff < queuedAt then none
    else
      match (c.seen.get? corr).filter fun a => cutoff < a.time with
      | some a => some { c with queue := rest ++ [(corr, a.time)] }
      | none => some { c with seen := c.seen.erase corr, queue := rest }

def sweepFor (cutoff : Nat) : (steps : Nat) → ReplayCache → ReplayCache
  | 0, c => c
  | steps + 1, c =>
    match c.sweepStep cutoff with
    | some c => sweepFor cutoff steps c
    | none => c

/-- Drops what was not accepted within the window before `now`. -/
def sweep (c : ReplayCache) (now : Nat) : ReplayCache :=
  if now < c.lifetime then c else sweepFor (now - c.lifetime) c.queue.length c

def evict (c : ReplayCache) : (queue : List (String × Nat)) → ReplayCache
  | [] => { c with queue := [] }
  | (corr, queuedAt) :: rest =>
    if c.capacity < c.seen.size then evict { c with seen := c.seen.erase corr } rest
    else { c with queue := (corr, queuedAt) :: rest }

/-- Whether to serve a request with timestamp `ts` that comes at local time `now`.  A timestamp
before the latest accepted one counts as the same. -/
def check (c : ReplayCache) (corr : String) (ts : Millis) (now : Nat) :
    ReplayCache × ReplayVerdict :=
  let c := c.sweep now
  let seen := c.seen.insert corr ⟨ts, now⟩
  match c.seen.get? corr with
  | some a =>
    if c.window ≤ ts.toNat - a.ts.toNat then ({ c with seen }, .accepted) else (c, .suppressed)
  | none => (evict { c with seen } (c.queue ++ [(corr, now)]), .accepted)

end ReplayCache
end FlexLink
