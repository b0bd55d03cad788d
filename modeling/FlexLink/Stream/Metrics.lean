/-! # Stream metrics

Counters for one end of a stream.  They start again at zero behind the largest word. -/
set_option autoImplicit false
namespace FlexLink

structure StreamMetrics where
  bytesSent : UInt64 := 0
  bytesReceived : UInt64 := 0
  eventsSent : UInt64 := 0
  eventsReceived : UInt64 := 0
  acksSent : UInt64 := 0
  nacksSent : UInt64 := 0
  retransmits : UInt64 := 0
  sequenceGaps : UInt64 := 0
  fragmentsRejected : UInt64 := 0
deriving DecidableEq

namespace StreamMetrics

def addBytesSent (m : StreamMetrics) (n : Nat) : StreamMetrics :=
  { m with bytesSent := m.bytesSent + UInt64.ofNat n }

def addBytesReceived (m : StreamMetrics) (n : Nat) : StreamMetrics :=
  { m with bytesReceived := m.bytesReceived + UInt64.ofNat n }

def eventSent (m : StreamMetrics) : StreamMetrics := { m with eventsSent := m.eventsSent + 1 }

def eventReceived (m : StreamMetrics) : StreamMetrics :=
  { m with eventsReceived := m.eventsReceived + 1 }

def ackSent (m : StreamMetrics) : StreamMetrics := { m with acksSent := m.acksSent + 1 }

def nackSent (m : StreamMetrics) : StreamMetrics := { m with nacksSent := m.nacksSent + 1 }

def addRetransmits (m : StreamMetrics) (n : Nat) : StreamMetrics :=
  { m with retransmits := m.retransmits + UInt64.ofNat n }

def addSequenceGaps (m : StreamMetrics) (n : Nat) : StreamMetrics :=
  { m with sequenceGaps := m.sequenceGaps + UInt64.ofNat n }

def fragmentRejected (m : StreamMetrics) : StreamMetrics :=
  { m with fragmentsRejected := m.fragmentsRejected + 1 }

end StreamMetrics
end FlexLink
