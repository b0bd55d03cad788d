import FlexLink.Reliability.Replay
import FlexLink.Reliability.Resend
import FlexLink.Settings.Basic

/-! # Reliability of one endpoint

What an endpoint remembers of requests and replies: the correlations it has served and the frames
it may have to send again. -/
set_option autoImplicit false
namespace FlexLink

structure Reliability (κ : Type) where
  replay : ReplayCache
  buffer : ResendBuffer κ

namespace Reliability

variable {κ : Type} [DecidableEq κ]

def new (settings : ReliabilitySettings) : Reliability κ where
  replay := .new settings.replayWindowMs settings.maxReplayEntries
  buffer := .new settings.maxBuffered

def checkReplay (r : Reliability κ) (c : Command) (now : Nat) : Reliability κ × ReplayVerdict :=
  let (replay, verdict) := r.replay.check c.corr c.ts now
  ({ r with replay }, verdict)

def record (r : Reliability κ) (key : κ) (packets : List Packet) : Reliability κ :=
  { r with buffer := r.buffer.record key packets }

/-- Takes a control message in: first the acknowledgement, then the request, which is answered
with the frames to send again. -/
def handle [ResendKey κ] (r : Reliability κ) (c : Control κ) :
    Reliability κ × List (κ × List Packet) :=
  let buffer :=
    match c.ack with
    | some acked => (r.buffer.release acked).1
    | none => r.buffer
  ({ r with buffer }, buffer.lookup (c.nack.getD []))

end Reliability
end FlexLink
