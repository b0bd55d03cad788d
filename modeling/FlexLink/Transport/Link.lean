import FlexLink.Transport.State

/-! # Links

Whoever sends packets hands them to a link.  A link keeps its own state, which each call changes,
and says of each call whether it succeeded; what it does with the packets is its own affair. -/
set_option autoImplicit false
namespace FlexLink

structure Link (σ : Type) where
  send : σ → List Packet → σ × Except TransportError Unit

namespace Link

variable {σ : Type}

/-- The same link with the packets of its successful calls, newest first. -/
def logged (link : Link σ) : Link (σ × List (List Packet)) where
  send s packets :=
    match link.send s.1 packets with
    | (net, .ok ()) => ((net, packets :: s.2), .ok ())
    | (net, .error e) => ((net, s.2), .error e)

/-- The same link with the packets of all its calls, failed ones too, newest first. -/
def called (link : Link σ) : Link (σ × List (List Packet)) where
  send s packets :=
    let (net, result) := link.send s.1 packets
    ((net, packets :: s.2), result)

end Link

/-- A network whose failures are laid down in advance, call by call. -/
structure ScriptedNet where
  failing : List Nat
  calls : Nat := 0
  sent : List (List Packet) := []

def Link.scripted : Link ScriptedNet where
  send net packets :=
    let called := { net with calls := net.calls + 1 }
    if net.failing.contains net.calls then (called, .error (.send "scripted failure"))
    else ({ called with sent := packets :: net.sent }, .ok ())

end FlexLink
