import FlexLink.Proofs.Session.Agreeing
import Mathlib.Data.List.TakeWhile

/-! # Answers that are answered

Two sessions know each other, and one datagram of either is under way.  Each answer is a datagram
again, so a chain of answers begins.  A session answers once its last answer is an interval old, and
once both have answered the age of its last answer is the time of one round trip.  So the chain goes on
as long as every round trip takes an interval, and the first shorter one ends it. -/
set_option autoImplicit false
namespace FlexLink

namespace ReplyThrottle

/-- Whether a peer that is known gets an answer at time `now`. -/
def due (interval : Nat) (last : Option Nat) (now : Nat) : Bool :=
  last.all fun last => decide (interval ≤ now - last)

theorem shouldReply_known (t : ReplyThrottle) (now : Nat) :
    t.shouldReply .known now
      = (if due t.interval t.last now then { t with last := some now } else t,
          due t.interval t.last now) := by
  rw [shouldReply, due]
  cases t.last <;> rfl

theorem interval_shouldReply (t : ReplyThrottle) (learned : Learned) (now : Nat) :
    (t.shouldReply learned now).1.interval = t.interval := by
  unfold shouldReply
  dsimp only
  rw [apply_ite ReplyThrottle.interval, ite_self]

end ReplyThrottle

namespace Session

def spacing (s : Session) : Option Nat := s.running.map (·.throttle.interval)

theorem spacing_receive (s : Session) (now : Nat) (data : List UInt8) :
    (s.receive now data).1.spacing = s.spacing := by
  by_cases proposal : ∃ m, Datagram.decode data = .ok (.negotiation m)
  · obtain ⟨m, read⟩ := proposal
    cases isOpen : s.running with
    | none => rw [receive, isOpen, spacing, isOpen]
    | some running =>
        rw [receive, isOpen, read, spacing, spacing, isOpen]
        exact congrArg some (running.throttle.interval_shouldReply _ now)
  · have other (m : Negotiation) : Datagram.decode data ≠ .ok (.negotiation m) :=
      fun read => proposal ⟨m, read⟩
    rw [spacing, (s.receive_other other now).2.2.1]
    rfl

/-- A proposal of a peer that is known changes nothing but the time of the last answer. -/
theorem receive_known {s peer : Session} {running : OpenSession}
    (isOpen : s.running = some running) (apart : peer.localId ≠ s.localId)
    (known : s.state.remoteId = some peer.localId) (now : Nat) :
    s.receive now peer.proposalDatagram
      = if ReplyThrottle.due running.throttle.interval running.throttle.last now then
          ({ s with running := some { running with
              throttle := { running.throttle with last := some now } } }, some s.proposalDatagram)
        else (s, none) := by
  have heard : s.hear peer = (s.state, .known) := SessionState.learn_known apart known
  rw [receive_proposal isOpen, heard, ReplyThrottle.shouldReply_known]
  split
  · rfl
  · obtain ⟨_, _, _, _, _, _, _, _, _⟩ := s
    cases isOpen
    rfl

end Session

namespace Meeting

/-- Two open sessions that know each other and space their answers by `interval`. -/
structure Acquainted (interval : Nat) (m : Meeting) : Prop where
  apart : ∀ side, (m.endpoint side).localId ≠ (m.endpoint side.other).localId
  known : ∀ side, (m.endpoint side).state.remoteId = some (m.endpoint side.other).localId
  spaced : ∀ side, (m.endpoint side).spacing = some interval

def lastAnswer (m : Meeting) (side : Side) : Option Nat :=
  (m.endpoint side).running.bind (·.throttle.last)

def hear (m : Meeting) (listener : Side) (now : Nat) : Meeting :=
  m.receive listener now (m.endpoint listener.other).proposalDatagram

/-- A proposal of the other side is under way to `listener` since `now`.  It arrives after the first
delay, and if it is answered, the answer is under way at once, for which the next delay holds. -/
def echo (m : Meeting) (listener : Side) (now : Nat) : List Nat → Meeting
  | [] => m
  | delay :: rest =>
    let after := m.hear listener (now + delay)
    if m.sent.length < after.sent.length then after.echo listener.other (now + delay) rest else after

def answers (m : Meeting) (listener : Side) (now : Nat) (delays : List Nat) : Nat :=
  (m.echo listener now delays).sent.length - m.sent.length

/-- The times from one answer of a side to its next. -/
def roundTrips : List Nat → List Nat
  | there :: back :: rest => (there + back) :: roundTrips (back :: rest)
  | _ => []

variable {interval : Nat} {m : Meeting}

@[simp] theorem other_other (side : Side) : side.other.other = side := by
  cases side <;> rfl

theorem spacing_step (m : Meeting) (move : Move) (side : Side) :
    ((m.step move).endpoint side).spacing = (m.endpoint side).spacing := by
  have received (listener : Side) (now : Nat) (data : List UInt8) :
      ((m.receive listener now data).endpoint side).spacing = (m.endpoint side).spacing := by
    rw [Meeting.receive, endpoint_sent]
    rcases eq_or_other side listener with rfl | rfl
    · rw [endpoint_put_self, Session.spacing_receive]
    · rw [endpoint_put_other]
  cases move with
  | propose listener =>
      rw [step]
      split
      · rw [endpoint_sent]
      · rfl
  | arrive listener now k =>
      rw [step]
      split
      · exact received listener now _
      · rfl
  | other listener now data =>
      rw [step]
      split
      · rfl
      · exact received listener now data

theorem spacing_run (m : Meeting) (moves : List Move) (side : Side) :
    ((m.run moves).endpoint side).spacing = (m.endpoint side).spacing := by
  induction moves generalizing m with
  | nil => rfl
  | cons move rest ih => exact (ih (m.step move)).trans (m.spacing_step move side)

/-- Two sessions that have met know each other. -/
theorem acquainted_run {start : Meeting} (fresh : start.Fresh)
    (spaced : ∀ side, (start.endpoint side).spacing = some interval) (moves : List Move)
    (negotiated : ∀ side, ((start.run moves).endpoint side).state.isNegotiated = true) :
    (start.run moves).Acquainted interval := by
  have met := (Met.start_self fresh).run fresh moves
  have localId (side : Side) : ((start.run moves).endpoint side).localId
      = (start.endpoint side).localId :=
    (met.follows side).localId (fresh.apart side) (fresh.unacquainted side)
  refine ⟨?_, ?_, ?_⟩
  · intro side
    rw [localId, localId]
    exact fresh.apart side
  · intro side
    rw [met.learned fresh (negotiated side), localId]
    exact (hear_values fresh side).1
  · intro side
    rw [spacing_run]
    exact spaced side

theorem Acquainted.hear (acquainted : m.Acquainted interval) (listener : Side) (now : Nat) :
    let after := m.hear listener now
    let answered := ReplyThrottle.due interval (m.lastAnswer listener) now
    after.Acquainted interval ∧
      after.lastAnswer listener = (if answered then some now else m.lastAnswer listener) ∧
      after.lastAnswer listener.other = m.lastAnswer listener.other ∧
      after.sent.length = m.sent.length + if answered then 1 else 0 := by
  intro after answered
  obtain ⟨running, isOpen, spaced⟩ := Option.map_eq_some_iff.mp (acquainted.spaced listener)
  have last : m.lastAnswer listener = running.throttle.last := by rw [lastAnswer, isOpen]; rfl
  have received :=
    Session.receive_known isOpen (acquainted.apart listener).symm (acquainted.known listener) now
  rw [spaced, ← last] at received
  have peer : after.endpoint listener.other = m.endpoint listener.other := by
    simp only [after, Meeting.hear, Meeting.receive, endpoint_sent, endpoint_put_other]
  have still : after.lastAnswer listener.other = m.lastAnswer listener.other := by
    rw [lastAnswer, lastAnswer, peer]
  cases decided : answered with
  | false =>
      have quiet : after = m := by
        show m.receive listener now _ = m
        rw [Meeting.receive, received, if_neg (Bool.eq_false_iff.mp decided)]
        simp [put_endpoint]
      rw [quiet]
      exact ⟨acquainted, rfl, rfl, rfl⟩
  | true =>
      rw [if_pos decided] at received
      have own : after.endpoint listener = { m.endpoint listener with running := some { running with
          throttle := { running.throttle with last := some now } } } := by
        simp only [after, Meeting.hear, Meeting.receive, received, endpoint_sent, endpoint_put_self]
      have state (side : Side) : (after.endpoint side).state = (m.endpoint side).state := by
        rcases eq_or_other side listener with rfl | rfl
        · rw [own]
        · rw [peer]
      have localId (side : Side) : (after.endpoint side).localId = (m.endpoint side).localId := by
        rw [Session.localId, state, ← Session.localId]
      refine ⟨⟨?_, ?_, ?_⟩, ?_, still, ?_⟩
      · intro side
        rw [localId, localId]
        exact acquainted.apart side
      · intro side
        rw [state, localId]
        exact acquainted.known side
      · intro side
        rcases eq_or_other side listener with rfl | rfl
        · rw [own]
          exact congrArg some spaced
        · rw [peer]
          exact acquainted.spaced listener.other
      · rw [lastAnswer, own]
        rfl
      · simp only [after, Meeting.hear, Meeting.receive, received]
        exact List.length_append

theorem length_sent_echo (m : Meeting) (listener : Side) (now : Nat) (delays : List Nat) :
    m.sent.length ≤ (m.echo listener now delays).sent.length := by
  induction delays generalizing m listener now with
  | nil => exact Nat.le_refl _
  | cons delay rest ih =>
      rw [echo]
      split
      · next more => exact Nat.le_trans (Nat.le_of_lt more) (ih _ _ _)
      · have grown : (m.hear listener (now + delay)).sent = m.sent ++ _ := rfl
        rw [grown, List.length_append]
        exact Nat.le_add_right _ _

/-- An answer is one more, and a datagram that has to be answered in turn. -/
theorem Acquainted.answers_cons (acquainted : m.Acquainted interval) (listener : Side)
    (now delay : Nat) (rest : List Nat) :
    m.answers listener now (delay :: rest)
      = if ReplyThrottle.due interval (m.lastAnswer listener) (now + delay) then
          (m.hear listener (now + delay)).answers listener.other (now + delay) rest + 1
        else 0 := by
  obtain ⟨-, -, -, sent⟩ := acquainted.hear listener (now + delay)
  have more :=
    length_sent_echo (m.hear listener (now + delay)) listener.other (now + delay) rest
  rw [answers, answers, echo]
  by_cases answered : ReplyThrottle.due interval (m.lastAnswer listener) (now + delay) = true
  · rw [if_pos answered] at sent
    rw [if_pos answered, if_pos (by omega)]
    omega
  · rw [if_neg answered] at sent
    rw [if_neg answered, if_neg (by omega)]
    omega

/-- The round trips before the first that is too short. -/
def longTrips (interval : Nat) (delays : List Nat) : List Nat :=
  (roundTrips delays).takeWhile fun trip => decide (interval ≤ trip)

theorem longTrips_cons (there back : Nat) (rest : List Nat) :
    longTrips interval (there :: back :: rest)
      = if interval ≤ there + back then (there + back) :: longTrips interval (back :: rest) else [] := by
  rw [longTrips, roundTrips, List.takeWhile_cons]
  by_cases long : interval ≤ there + back
  · rw [if_pos long, if_pos (decide_eq_true long)]
    rfl
  · rw [if_neg long, if_neg (by simpa using long)]

/-- Once both have answered, the answers go on up to the first round trip that is too short. -/
theorem Acquainted.answers_of_both (acquainted : m.Acquainted interval) {listener : Side}
    {now before : Nat} (own : m.lastAnswer listener = some now)
    (peer : m.lastAnswer listener.other = some (now + before)) (delays : List Nat) :
    m.answers listener (now + before) delays = (longTrips interval (before :: delays)).length := by
  -- `listener` answered at `now` and its peer `before` later, whose answer is under way: when it
  -- arrives the last answer is one round trip old, and the two change places
  induction delays generalizing m listener now before with
  | nil => exact Nat.sub_self _
  | cons delay rest ih =>
      obtain ⟨still, last, other, -⟩ := acquainted.hear listener (now + before + delay)
      have age : ReplyThrottle.due interval (m.lastAnswer listener) (now + before + delay)
          = decide (interval ≤ before + delay) := by
        rw [own, ReplyThrottle.due, Option.all_some]
        congr 2
        omega
      rw [age] at last
      rw [acquainted.answers_cons, age, longTrips_cons]
      by_cases long : interval ≤ before + delay
      · rw [if_pos (decide_eq_true long)] at last
        rw [if_pos (decide_eq_true long), if_pos long,
          ih still (other.trans peer) (by rw [other_other, last])]
        rfl
      · rw [if_neg (by simpa using long), if_neg long]
        rfl

theorem Acquainted.answers_eq (acquainted : m.Acquainted interval) (listener : Side)
    (now first second : Nat) (rest : List Nat) :
    m.answers listener now (first :: second :: rest)
      = if ReplyThrottle.due interval (m.lastAnswer listener) (now + first) then
          if ReplyThrottle.due interval (m.lastAnswer listener.other) (now + first + second) then
            (longTrips interval (second :: rest)).length + 2
          else 1
        else 0 := by
  obtain ⟨still, last, other, -⟩ := acquainted.hear listener (now + first)
  obtain ⟨again, last', other', -⟩ := still.hear listener.other (now + first + second)
  rw [acquainted.answers_cons, still.answers_cons, other]
  rw [other] at last'
  split
  · next answered =>
      rw [if_pos answered] at last
      split
      · next answered' =>
          rw [if_pos answered'] at last'
          have own := other'.trans ((congrArg (lastAnswer _) (other_other listener)).trans last)
          have peer := (congrArg (lastAnswer _) (other_other listener.other)).trans last'
          rw [again.answers_of_both own peer]
      · rfl
  · rfl

theorem length_roundTrips (delay : Nat) (delays : List Nat) :
    (roundTrips (delay :: delays)).length = delays.length := by
  induction delays generalizing delay with
  | nil => rfl
  | cons next rest ih => exact congrArg (· + 1) (ih next)

theorem length_longTrips_le {delay k trip : Nat} {delays : List Nat}
    (here : (roundTrips (delay :: delays))[k]? = some trip) (short : trip < interval) :
    (longTrips interval (delay :: delays)).length ≤ k := by
  induction delays generalizing delay k with
  | nil => exact Nat.zero_le k
  | cons next rest ih =>
      rw [longTrips_cons]
      cases k with
      | zero =>
          cases here
          rw [if_neg (Nat.not_le_of_lt short)]
          exact Nat.le_refl 0
      | succ k =>
          split
          · exact Nat.succ_le_succ (ih here)
          · exact Nat.zero_le _

/-- A chain of answers between two sessions that know each other, whatever the delays: a side that has
answered less than an interval ago ends it, and once both have answered, so does the first round trip
that is shorter than an interval.  If none is, every datagram is answered. -/
theorem echo_ends_with_short_round_trip (acquainted : m.Acquainted interval) (listener : Side)
    (now first second : Nat) (rest : List Nat) :
    (m.answers listener now (first :: second :: rest)
      = if ReplyThrottle.due interval (m.lastAnswer listener) (now + first) then
          if ReplyThrottle.due interval (m.lastAnswer listener.other) (now + first + second) then
            (longTrips interval (second :: rest)).length + 2
          else 1
        else 0) ∧
    (∀ k trip, (roundTrips (second :: rest))[k]? = some trip → trip < interval →
      m.answers listener now (first :: second :: rest) ≤ k + 2) ∧
    (ReplyThrottle.due interval (m.lastAnswer listener) (now + first) = true →
      ReplyThrottle.due interval (m.lastAnswer listener.other) (now + first + second) = true →
      (∀ trip ∈ roundTrips (second :: rest), interval ≤ trip) →
      m.answers listener now (first :: second :: rest) = (first :: second :: rest).length) := by
  rw [acquainted.answers_eq]
  refine ⟨rfl, ?_, ?_⟩
  · intro k trip here short
    have few := length_longTrips_le here short
    split
    · split <;> omega
    · omega
  · intro answered answered' long
    have all : longTrips interval (second :: rest) = roundTrips (second :: rest) :=
      List.takeWhile_eq_self_iff.mpr fun trip member => decide_eq_true (long trip member)
    rw [if_pos answered, if_pos answered', all, length_roundTrips]
    rfl

def sampleAcquainted : Meeting := sampleMeeting.run sampleMoves

theorem sampleAcquainted_acquainted : sampleAcquainted.Acquainted 125 := by
  refine acquainted_run sampleMeeting_fresh ?_ sampleMoves ?_
  · intro side
    cases side <;> rfl
  · intro side
    cases side <;> decide +kernel

/-- Answers that take a millisecond each are not answered again. -/
theorem sample_echo_ends :
    sampleAcquainted.Acquainted 125 ∧ sampleAcquainted.answers .right 1000 [1, 1, 1, 1] = 2 := by
  refine ⟨sampleAcquainted_acquainted, ?_⟩
  have chain := echo_ends_with_short_round_trip sampleAcquainted_acquainted .right 1000 1 1 [1, 1]
  rw [chain.1]
  decide +kernel

/-- Answers that take longer are answered again and again. -/
theorem sample_echo_goes_on :
    sampleAcquainted.Acquainted 125 ∧ sampleAcquainted.answers .right 1000 [200, 200, 200] = 3 := by
  refine ⟨sampleAcquainted_acquainted, ?_⟩
  rw [sampleAcquainted_acquainted.answers_eq]
  decide +kernel

end Meeting
end FlexLink
