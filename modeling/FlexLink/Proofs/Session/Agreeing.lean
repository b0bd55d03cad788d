import FlexLink.Proofs.Wire.Datagrams
import FlexLink.Session.Basic

/-! # Two endpoints agree

Two sessions send each other proposals over a network that may lose, repeat, delay and reorder them
and may bring one back to its sender.  Whatever arrives, a session is either as it began or as one
proposal of its peer left it (`Met`), and the rule gives both sides the same values. -/
set_option autoImplicit false
namespace FlexLink

/-! ## The rule -/

namespace SessionState

variable {s : SessionState} {mine : Proposal} {m : Negotiation}

theorem learn_own (own : m.endpoint = s.localId) : s.learn mine m = (s, .own) := by
  rw [learn, if_pos own]

theorem learn_known (other : m.endpoint ≠ s.localId) (known : s.remoteId = some m.endpoint) :
    s.learn mine m = (s, .known) := by
  rw [learn, if_neg other, if_pos known]

theorem learn_new (other : m.endpoint ≠ s.localId) (alone : s.remoteId = none) :
    s.learn mine m
      = ({ s with
            remoteId := some m.endpoint
            version := min mine.version m.version
            group := (if m.endpoint < s.localId then m.group else mine.group) &&& 0x0F
            channel := (if m.endpoint < s.localId then m.channel else mine.channel) &&& 0x0F },
          .newPeer) := by
  have unknown : s.remoteId ≠ some m.endpoint := by simp [alone]
  rw [learn, if_neg other, if_neg unknown]
  by_cases lower : m.endpoint < s.localId
  · simp only [if_pos lower]
  · simp only [if_neg lower]

end SessionState

namespace Session

structure Unacquainted (s : Session) : Prop where
  running : s.running.isSome = true
  alone : s.state.remoteId = none

theorem unacquainted_attach (options : SessionOptions) (id : EndpointId) (now : Nat)
    {bound peer : SocketAddress} (apart : peer.reaches bound = false) :
    ((new options id).attach now bound peer).Unacquainted := by
  refine ⟨rfl, ?_⟩
  simp only [attach, apart]
  rfl

/-- What `s` makes of a proposal of `peer`. -/
def hear (s peer : Session) : SessionState × Learned :=
  s.state.learn s.proposal (peer.proposal.message peer.localId)

theorem receive_proposal {s : Session} {running : OpenSession} (isOpen : s.running = some running)
    (peer : Session) (now : Nat) :
    s.receive now peer.proposalDatagram
      = ({ s with
            state := (s.hear peer).1
            running := some { running with
              throttle := (running.throttle.shouldReply (s.hear peer).2 now).1 } },
          if (running.throttle.shouldReply (s.hear peer).2 now).2 then some s.proposalDatagram
          else none) := by
  rw [receive, isOpen, proposalDatagram, Negotiation.decode_negotiation]
  rfl

theorem receive_own {s : Session} {running : OpenSession} (isOpen : s.running = some running)
    (now : Nat) : s.receive now s.proposalDatagram = (s, none) := by
  have own : s.hear s = (s.state, .own) := SessionState.learn_own rfl
  rw [receive_proposal isOpen, own]
  obtain ⟨_, _, _, _, _, _, _, _, _⟩ := s
  cases isOpen
  rfl

theorem deliver_same (s : Session) (packets : List Packet) :
    (s.deliver packets).options = s.options ∧ (s.deliver packets).state = s.state ∧
      (s.deliver packets).running = s.running := by
  unfold deliver
  split
  · exact ⟨rfl, rfl, rfl⟩
  · split
    · exact ⟨rfl, rfl, rfl⟩
    · split <;> exact ⟨rfl, rfl, rfl⟩

/-- What is no proposal changes nothing but the inbox. -/
theorem receive_other (s : Session) {data : List UInt8}
    (other : ∀ m, Datagram.decode data ≠ .ok (.negotiation m)) (now : Nat) :
    (s.receive now data).1.options = s.options ∧ (s.receive now data).1.state = s.state ∧
      (s.receive now data).1.running = s.running ∧ (s.receive now data).2 = none := by
  unfold receive
  split
  · exact ⟨rfl, rfl, rfl, rfl⟩
  · exact ⟨rfl, rfl, rfl, rfl⟩
  · next packets _ _ =>
      obtain ⟨options, state, running⟩ := s.deliver_same packets
      exact ⟨options, state, running, rfl⟩
  · next m _ proposal => exact absurd proposal (other m)

/-- The session is as `base`, or as one proposal of `peer` leaves that. -/
structure Follows (base peer s : Session) : Prop where
  options : s.options = base.options
  running : s.running.isSome = true
  state : s.state = base.state ∨ s.state = (base.hear peer).1

section Follows

variable {base peer s : Session}

theorem hear_new (different : base.localId ≠ peer.localId) (fresh : base.Unacquainted) :
    base.hear peer
      = ({ base.state with
            remoteId := some peer.localId
            version := min base.proposal.version peer.proposal.version
            group := (if peer.localId < base.localId then peer.proposal.group
              else base.proposal.group) &&& 0x0F
            channel := (if peer.localId < base.localId then peer.proposal.channel
              else base.proposal.channel) &&& 0x0F },
          .newPeer) :=
  SessionState.learn_new different.symm fresh.alone

theorem Follows.proposal (follows : base.Follows peer s) : s.proposal = base.proposal := by
  rw [Session.proposal, follows.options]
  rfl

theorem Follows.localId (different : base.localId ≠ peer.localId) (fresh : base.Unacquainted)
    (follows : base.Follows peer s) : s.localId = base.localId := by
  rcases follows.state with same | taught
  · rw [Session.localId, same]
    rfl
  · rw [Session.localId, taught, hear_new different fresh]
    rfl

theorem Follows.hear (different : base.localId ≠ peer.localId) (fresh : base.Unacquainted)
    (follows : base.Follows peer s) : (s.hear peer).1 = (base.hear peer).1 := by
  rw [Session.hear, follows.proposal]
  rcases follows.state with same | taught
  · rw [same]
    rfl
  · rw [taught, SessionState.learn_known, hear_new different fresh]
    · rw [hear_new different fresh]
      exact different.symm
    · rw [hear_new different fresh]
      rfl

theorem Follows.datagram (different : base.localId ≠ peer.localId) (fresh : base.Unacquainted)
    (follows : base.Follows peer s) : s.proposalDatagram = base.proposalDatagram := by
  rw [proposalDatagram, follows.proposal, follows.localId different fresh, ← proposalDatagram]

/-- A proposal of the peer teaches, and one that comes again teaches the same. -/
theorem Follows.receive (different : base.localId ≠ peer.localId) (fresh : base.Unacquainted)
    (follows : base.Follows peer s) (now : Nat) :
    base.Follows peer (s.receive now peer.proposalDatagram).1 ∧
      (s.receive now peer.proposalDatagram).1.state = (base.hear peer).1 ∧
      ∀ answer, (s.receive now peer.proposalDatagram).2 = some answer →
        answer = base.proposalDatagram := by
  obtain ⟨running, isOpen⟩ := Option.isSome_iff_exists.mp follows.running
  have taught := follows.hear different fresh
  rw [receive_proposal isOpen]
  refine ⟨⟨follows.options, rfl, .inr taught⟩, taught, ?_⟩
  intro answer given
  rw [← follows.datagram different fresh]
  dsimp only at given
  split at given
  · exact (Option.some.inj given).symm
  · cases given

theorem Follows.receive_other (follows : base.Follows peer s) {data : List UInt8}
    (other : ∀ m, Datagram.decode data ≠ .ok (.negotiation m)) (now : Nat) :
    base.Follows peer (s.receive now data).1 := by
  obtain ⟨options, state, running, -⟩ := s.receive_other other now
  exact ⟨options.trans follows.options, running ▸ follows.running, state ▸ follows.state⟩

end Follows
end Session

/-! ## Two sessions and the network between them -/

inductive Side where
  | left
  | right
deriving DecidableEq

def Side.other : Side → Side
  | .left => .right
  | .right => .left

structure Meeting where
  left : Session
  right : Session
  sent : List (Side × List UInt8) := []

namespace Meeting

def endpoint (m : Meeting) : Side → Session
  | .left => m.left
  | .right => m.right

def put (m : Meeting) (s : Session) : Side → Meeting
  | .left => { m with left := s }
  | .right => { m with right := s }

inductive Move where
  | propose (side : Side)
  /-- The `k`-th proposal arrives, for the first time or again, at the peer or at its sender. -/
  | arrive (side : Side) (now k : Nat)
  | other (side : Side) (now : Nat) (data : List UInt8)

def receive (m : Meeting) (side : Side) (now : Nat) (data : List UInt8) : Meeting :=
  let (s, answer) := (m.endpoint side).receive now data
  { m.put s side with sent := m.sent ++ answer.toList.map fun data => (side, data) }

def step (m : Meeting) : Move → Meeting
  | .propose side =>
    if (m.endpoint side).isNegotiating then
      { m with sent := m.sent ++ [(side, (m.endpoint side).proposalDatagram)] }
    else m
  | .arrive side now k =>
    match m.sent[k]? with
    | some (_, data) => m.receive side now data
    | none => m
  | .other side now data =>
    match Datagram.decode data with
    | .ok (.negotiation _) => m
    | _ => m.receive side now data

def run (m : Meeting) (moves : List Move) : Meeting := moves.foldl step m

/-- The session of the lower id, whose group and channel hold. -/
def lower (m : Meeting) : Session :=
  if m.left.localId < m.right.localId then m.left else m.right

@[simp] theorem endpoint_put_self (m : Meeting) (s : Session) (side : Side) :
    (m.put s side).endpoint side = s := by
  cases side <;> rfl

@[simp] theorem endpoint_put_other (m : Meeting) (s : Session) (side : Side) :
    (m.put s side).endpoint side.other = m.endpoint side.other := by
  cases side <;> rfl

theorem put_endpoint (m : Meeting) (side : Side) : m.put (m.endpoint side) side = m := by
  cases side <;> rfl

structure Met (start m : Meeting) : Prop where
  follows : ∀ side, (start.endpoint side).Follows (start.endpoint side.other) (m.endpoint side)
  sent : ∀ e ∈ m.sent, e.2 = (start.endpoint e.1).proposalDatagram

/-- Two open sessions of different endpoints that have not heard of anybody. -/
structure Fresh (start : Meeting) : Prop where
  unacquainted : ∀ side, (start.endpoint side).Unacquainted
  different : start.left.localId ≠ start.right.localId
  silent : start.sent = []

@[simp] theorem endpoint_sent (m : Meeting) (sent : List (Side × List UInt8)) (side : Side) :
    endpoint { m with sent } side = m.endpoint side := by
  cases side <;> rfl

theorem eq_or_other (a b : Side) : a = b ∨ a = b.other := by
  cases a <;> cases b <;> simp [Side.other]

theorem Fresh.apart {start : Meeting} (fresh : start.Fresh) (side : Side) :
    (start.endpoint side).localId ≠ (start.endpoint side.other).localId := by
  cases side with
  | left => exact fresh.different
  | right => exact fresh.different.symm

namespace Met

variable {start m : Meeting}

theorem start_self (fresh : start.Fresh) : Met start start where
  follows side := ⟨rfl, (fresh.unacquainted side).running, .inl rfl⟩
  sent e member := by
    rw [fresh.silent] at member
    cases member

theorem receive (met : Met start m) {side : Side} {now : Nat} {data : List UInt8}
    (follows : (start.endpoint side).Follows (start.endpoint side.other)
      ((m.endpoint side).receive now data).1)
    (answers : ∀ answer, ((m.endpoint side).receive now data).2 = some answer →
      answer = (start.endpoint side).proposalDatagram) : Met start (m.receive side now data) where
  follows which := by
    simp only [Meeting.receive, endpoint_sent]
    rcases eq_or_other which side with rfl | rfl
    · rw [endpoint_put_self]
      exact follows
    · rw [endpoint_put_other]
      exact met.follows side.other
  sent e member := by
    rcases List.mem_append.mp member with old | new
    · exact met.sent e old
    · obtain ⟨answer, given, rfl⟩ := List.mem_map.mp new
      exact answers answer (Option.mem_toList.mp given)

/-- A proposal that comes back to its sender changes nothing. -/
theorem reflect (fresh : start.Fresh) (met : Met start m) (side : Side) (now : Nat) :
    m.receive side now (start.endpoint side).proposalDatagram = m := by
  have follows := met.follows side
  obtain ⟨running, isOpen⟩ := Option.isSome_iff_exists.mp follows.running
  have same := follows.datagram (fresh.apart side) (fresh.unacquainted side)
  rw [← same, Meeting.receive, Session.receive_own isOpen]
  simp [put_endpoint]

/-- A proposal of the peer is taken in. -/
theorem teach (fresh : start.Fresh) (met : Met start m) (side : Side) (now : Nat) :
    Met start (m.receive side now (start.endpoint side.other).proposalDatagram) ∧
      ((m.receive side now (start.endpoint side.other).proposalDatagram).endpoint side).state
        = ((start.endpoint side).hear (start.endpoint side.other)).1 := by
  obtain ⟨follows, taught, answers⟩ :=
    (met.follows side).receive (fresh.apart side) (fresh.unacquainted side) now
  refine ⟨met.receive follows answers, ?_⟩
  simp only [Meeting.receive, endpoint_sent, endpoint_put_self]
  exact taught

theorem step (fresh : start.Fresh) (met : Met start m) (move : Move) : Met start (m.step move) := by
  cases move with
  | propose side =>
      rw [Meeting.step]
      split
      · refine ⟨fun which => by simpa using met.follows which, ?_⟩
        intro e member
        rcases List.mem_append.mp member with old | new
        · exact met.sent e old
        · rw [List.mem_singleton.mp new]
          exact (met.follows side).datagram (fresh.apart side) (fresh.unacquainted side)
      · exact met
  | arrive side now k =>
      rw [Meeting.step]
      split
      · next sender data found =>
          have proposal := met.sent (sender, data) (List.mem_of_getElem? found)
          dsimp only at proposal
          rw [proposal]
          rcases eq_or_other sender side with rfl | rfl
          · rw [met.reflect fresh]
            exact met
          · exact (met.teach fresh side now).1
      · exact met
  | other side now data =>
      rw [Meeting.step]
      split
      · exact met
      · next other =>
          refine met.receive ((met.follows side).receive_other other now) ?_
          intro answer given
          rw [((m.endpoint side).receive_other other now).2.2.2] at given
          cases given

theorem run (fresh : start.Fresh) (met : Met start m) (moves : List Move) :
    Met start (m.run moves) := by
  induction moves generalizing m with
  | nil => exact met
  | cons move moves ih => exact ih (met.step fresh move)

/-- A step leaves a session as it is or as its peer's proposal leaves it. -/
theorem state_step (fresh : start.Fresh) (met : Met start m) (move : Move) (side : Side) :
    ((m.step move).endpoint side).state = (m.endpoint side).state ∨
      ((m.step move).endpoint side).state
        = ((start.endpoint side).hear (start.endpoint side.other)).1 := by
  cases move with
  | propose which =>
      rw [Meeting.step]
      split <;> exact .inl (by simp)
  | arrive which now k =>
      rw [Meeting.step]
      split
      · next sender data found =>
          have proposal := met.sent (sender, data) (List.mem_of_getElem? found)
          dsimp only at proposal
          rw [proposal]
          rcases eq_or_other sender which with rfl | rfl
          · rw [met.reflect fresh]
            exact .inl rfl
          · rcases eq_or_other side which with rfl | rfl
            · exact .inr (met.teach fresh side now).2
            · simp [Meeting.receive]
      · exact .inl rfl
  | other which now data =>
      rw [Meeting.step]
      split
      · exact .inl rfl
      · next other =>
          left
          rcases eq_or_other side which with rfl | rfl
          · simp [Meeting.receive, ((m.endpoint side).receive_other other now).2.1]
          · simp [Meeting.receive]

theorem state_run (fresh : start.Fresh) (met : Met start m) {side : Side}
    (taught : (m.endpoint side).state
      = ((start.endpoint side).hear (start.endpoint side.other)).1) (moves : List Move) :
    ((m.run moves).endpoint side).state
      = ((start.endpoint side).hear (start.endpoint side.other)).1 := by
  induction moves generalizing m with
  | nil => exact taught
  | cons move moves ih =>
      apply ih (met.step fresh move)
      rcases met.state_step fresh move side with same | again
      · exact same.trans taught
      · exact again

/-- What a session holds that has heard of anybody. -/
theorem learned (fresh : start.Fresh) (met : Met start m) {side : Side}
    (negotiated : (m.endpoint side).state.isNegotiated = true) :
    (m.endpoint side).state = ((start.endpoint side).hear (start.endpoint side.other)).1 := by
  rcases (met.follows side).state with same | taught
  · rw [same, SessionState.isNegotiated, (fresh.unacquainted side).alone] at negotiated
    cases negotiated
  · exact taught

end Met

theorem min_version_comm (a b : UInt8) : min a b = min b a := by
  show (if a ≤ b then a else b) = if b ≤ a then b else a
  split
  · next le =>
      split
      · next ge => exact UInt8.le_antisymm le ge
      · rfl
  · next gt => rw [if_pos ((UInt8.le_total a b).resolve_left gt)]

/-- The rule gives both sides the same values. -/
theorem hear_values {start : Meeting} (fresh : start.Fresh) (side : Side) :
    let state := ((start.endpoint side).hear (start.endpoint side.other)).1
    state.remoteId = some (start.endpoint side.other).localId ∧
      state.version = min start.left.proposal.version start.right.proposal.version ∧
      state.group = start.lower.proposal.group &&& 0x0F ∧
      state.channel = start.lower.proposal.channel &&& 0x0F := by
  rw [Session.hear_new (fresh.apart side) (fresh.unacquainted side), lower]
  cases side with
  | left =>
      by_cases first : start.left.localId < start.right.localId
      · have after := EndpointId.not_lt_of_lt first
        simp [endpoint, Side.other, first, after]
      · have before := EndpointId.lt_of_not_lt fresh.different first
        simp [endpoint, Side.other, first, before]
  | right =>
      refine ⟨rfl, min_version_comm _ _, ?_⟩
      by_cases first : start.left.localId < start.right.localId
      · simp [endpoint, Side.other, first]
      · simp [endpoint, Side.other, first]

/-- However proposals get lost, come twice, late, out of order or back to their sender: a session that
has heard of anybody has heard of the other and holds the lower version and the low four bits of group
and channel of the lower id.  So both hold the same once both have heard; what one has heard never
changes, a proposal that comes back changes nothing, and one of the other session is always heard. -/
theorem negotiation_agrees {start : Meeting} (fresh : start.Fresh) (moves : List Move) :
    let m := start.run moves
    (∀ side, (m.endpoint side).state.isNegotiated = true →
      (m.endpoint side).state.remoteId = some (start.endpoint side.other).localId ∧
      (m.endpoint side).state.version
        = min start.left.proposal.version start.right.proposal.version ∧
      (m.endpoint side).state.group = start.lower.proposal.group &&& 0x0F ∧
      (m.endpoint side).state.channel = start.lower.proposal.channel &&& 0x0F) ∧
    (m.left.state.isNegotiated = true → m.right.state.isNegotiated = true →
      m.left.state.version = m.right.state.version ∧ m.left.state.group = m.right.state.group ∧
      m.left.state.channel = m.right.state.channel) ∧
    (∀ side, (m.endpoint side).state.isNegotiated = true →
      ∀ more, ((m.run more).endpoint side).state = (m.endpoint side).state) ∧
    (∀ side now k data, m.sent[k]? = some (side, data) → m.step (.arrive side now k) = m) ∧
    ∀ side now k data, m.sent[k]? = some (side.other, data) →
      ((m.step (.arrive side now k)).endpoint side).state.isNegotiated = true := by
  intro m
  have met : Met start m := (Met.start_self fresh).run fresh moves
  have values (side : Side) (negotiated : (m.endpoint side).state.isNegotiated = true) :
      (m.endpoint side).state.remoteId = some (start.endpoint side.other).localId ∧
      (m.endpoint side).state.version
        = min start.left.proposal.version start.right.proposal.version ∧
      (m.endpoint side).state.group = start.lower.proposal.group &&& 0x0F ∧
      (m.endpoint side).state.channel = start.lower.proposal.channel &&& 0x0F := by
    rw [met.learned fresh negotiated]
    exact hear_values fresh side
  refine ⟨values, ?_, ?_, ?_, ?_⟩
  · intro left right
    obtain ⟨-, version, group, channel⟩ := values .left left
    obtain ⟨-, version', group', channel'⟩ := values .right right
    exact ⟨version.trans version'.symm, group.trans group'.symm, channel.trans channel'.symm⟩
  · intro side negotiated more
    have taught := met.learned fresh negotiated
    rw [taught]
    exact met.state_run fresh taught more
  · intro side now k data found
    have proposal := met.sent (side, data) (List.mem_of_getElem? found)
    dsimp only at proposal
    simp only [step, found, proposal]
    exact met.reflect fresh side now
  · intro side now k data found
    have proposal := met.sent (side.other, data) (List.mem_of_getElem? found)
    dsimp only at proposal
    simp only [step, found, proposal]
    rw [(met.teach fresh side now).2, SessionState.isNegotiated, (hear_values fresh side).1]
    rfl

def sampleMeeting : Meeting :=
  let address (port : UInt16) : SocketAddress := { ip := .v4 .loopback, port }
  let session (id version group channel : UInt8) (port peer : UInt16) : Session :=
    (Session.new { SessionOptions.pointToPoint (address port) (some (address peer)) with
      protocolVersion := version, group, channel } (.ofBytes (List.replicate 16 id))).attach 0
        (address port) (address peer)
  ⟨session 0x11 2 0x13 4 5004 5006, session 0x22 1 9 9 5006 5004, []⟩

theorem sampleMeeting_fresh : sampleMeeting.Fresh where
  unacquainted side := by
    cases side <;> exact Session.unacquainted_attach _ _ _ (by decide)
  different := by decide
  silent := rfl

/-- The left one proposes, and its proposal comes back and reaches the right one twice. -/
def sampleMoves : List Move :=
  [.propose .left, .arrive .left 1 0, .arrive .right 2 0, .arrive .right 3 0, .arrive .left 4 1]

theorem sampleMeeting_agrees :
    let m := sampleMeeting.run sampleMoves
    sampleMeeting.Fresh ∧ m.left.state.isNegotiated = true ∧ m.right.state.isNegotiated = true ∧
      (m.left.state.version, m.left.state.group, m.left.state.channel) = (1, 3, 4) ∧
      (m.right.state.version, m.right.state.group, m.right.state.channel) = (1, 3, 4) := by
  intro m
  obtain ⟨values, -⟩ := negotiation_agrees sampleMeeting_fresh sampleMoves
  have left : m.left.state.isNegotiated = true := by decide +kernel
  have right : m.right.state.isNegotiated = true := by decide +kernel
  obtain ⟨-, version, group, channel⟩ := values .left left
  obtain ⟨-, version', group', channel'⟩ := values .right right
  refine ⟨sampleMeeting_fresh, left, right, ?_, ?_⟩
  · exact Prod.ext version (Prod.ext group channel)
  · exact Prod.ext version' (Prod.ext group' channel')

end Meeting
end FlexLink
