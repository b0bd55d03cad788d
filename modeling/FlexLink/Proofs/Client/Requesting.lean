import FlexLink.Proofs.Client.Conversation

/-! # What a client does with a request

A client that has sent a request meets batches of packets and deadlines, in any order.  As long as its
session does not close, it still waits (`Waits`) or it has ended in one of three ways (`Course`); each
arrival carries a course on or meets one that has ended (`Conducted.step`).  What it sends and what it has
in the end are read off the course.  One whose session closes while it waits fails (`run_closed`). -/
set_option autoImplicit false
namespace FlexLink

/-- The replies up to the first final one end in it. -/
theorem Reply.final?_upToFinal (rs : List Reply) :
    (upToFinal rs).getLast?.filter isFinal = rs.find? isFinal := by
  induction rs with
  | nil => rfl
  | cons r rs ih =>
      rw [upToFinal, List.find?_cons]
      cases last : r.isFinal with
      | true => simp [last]
      | false =>
          rw [← ih]
          cases upToFinal rs with
          | nil => simp [last]
          | cons s ss => simp [List.getLast?_cons_cons]

namespace Exchange

variable {σ : Type}

inductive Arrival where
  | batch (now : Millis) (packets : List Packet)
  | deadline (now : Millis)
  /-- Nothing will come any more. -/
  | closed

def Arrival.packets : Arrival → List Packet
  | .batch _ packets => packets
  | .deadline _ | .closed => []

def Arrival.deadline? : Arrival → Option Millis
  | .deadline now => some now
  | .batch _ _ | .closed => none

def step (link : Link σ) (x : Exchange σ) : Arrival → Exchange σ
  | .batch now packets => x.onBatch link now packets
  | .deadline now => x.onDeadline link now
  | .closed => x.onClosed

def run (link : Link σ) (x : Exchange σ) (arrivals : List Arrival) : Exchange σ :=
  arrivals.foldl (step link) x

theorem step_of_ended {link : Link σ} {x : Exchange σ} (ended : x.state ≠ .waiting) (arrival : Arrival) :
    x.step link arrival = x := by
  cases arrival <;> cases state : x.state <;>
    simp_all [step, onBatch, onDeadline, onClosed]

theorem run_of_ended {link : Link σ} {x : Exchange σ} (ended : x.state ≠ .waiting)
    (arrivals : List Arrival) : x.run link arrivals = x := by
  induction arrivals with
  | nil => rfl
  | cons arrival arrivals ih =>
      rw [run, List.foldl_cons, step_of_ended ended]
      exact ih

/-- A client whose session closes while it waits fails with what it has, whatever arrives after that. -/
theorem run_closed {link : Link σ} {x : Exchange σ} {before : List Arrival}
    (waiting : (x.run link before).state = .waiting) (rest : List Arrival) :
    x.run link (before ++ .closed :: rest)
      = { x.run link before with
          state := .failed ⟨"session closed while waiting for " ++ (x.run link before).outcome.corr, []⟩ } := by
  have onward : x.run link (before ++ .closed :: rest)
      = ((x.run link before).step link .closed).run link rest := List.foldl_append
  rw [onward, step, onClosed, waiting]
  exact run_of_ended (by simp) rest

/-- The replies to `corr` that arrive, in order.  The packets of all batches make one sequence. -/
def heard (corr : String) (coming : Assembler) (arrivals : List Arrival) : List Reply :=
  (coming.pushAll (arrivals.flatMap Arrival.packets)).2.filterMap fun text =>
    (parseOutcome Command.shape text).toOption.bind (Command.replyTo? corr)

def deadlines (arrivals : List Arrival) : List Millis := arrivals.filterMap Arrival.deadline?

theorem deadlines_append (p q : List Arrival) : deadlines (p ++ q) = deadlines p ++ deadlines q :=
  List.filterMap_append

theorem heard_append (corr : String) (coming : Assembler) (p q : List Arrival) :
    heard corr coming (p ++ q)
      = heard corr coming p ++ heard corr (coming.pushAll (p.flatMap Arrival.packets)).1 q := by
  rw [heard, List.flatMap_append, Assembler.pushAll_append, List.filterMap_append]
  rfl

theorem heard_batch (corr : String) (coming : Assembler) (p : List Arrival) (now : Millis)
    (packets : List Packet) :
    heard corr coming (p ++ [.batch now packets])
      = heard corr coming p
        ++ ((coming.pushAll (p.flatMap Arrival.packets)).1.pushAll packets).2.filterMap (replyTo? corr) := by
  have one : [Arrival.batch now packets].flatMap Arrival.packets = packets := List.append_nil packets
  rw [heard_append, funext (replyTo?_eq corr)]
  congr 1
  rw [heard, one]

theorem heard_deadline (corr : String) (coming : Assembler) (p : List Arrival) (now : Millis) :
    heard corr coming (p ++ [.deadline now]) = heard corr coming p := by
  rw [heard_append]
  exact List.append_nil _

/-! ## Courses -/

section Courses

variable (corr : String) (coming : Assembler)

def Unsettled (taken : List Arrival) : Prop := ∀ r ∈ heard corr coming taken, r.isFinal = false

/-- The first waiting period ended at `now`, with replies but without a final one. -/
def OverdueAt (now : Millis) (taken : List Arrival) : Prop :=
  ∃ p q, taken = p ++ .deadline now :: q ∧ deadlines p = [] ∧ heard corr coming p ≠ [] ∧
    Unsettled corr coming p

/-- The last batch came at `now` and brought the first final reply. -/
def SettledAt (now : Millis) (taken : List Arrival) : Prop :=
  ∃ p packets, taken = p ++ [.batch now packets] ∧ Unsettled corr coming p ∧
    (heard corr coming taken).any Reply.isFinal = true

/-- The first waiting period has just ended, and there was no reply. -/
def Unanswered (taken : List Arrival) : Prop :=
  ∃ p now, taken = p ++ [.deadline now] ∧ deadlines p = [] ∧ heard corr coming p = []

/-- The client still waits, and it may have asked for the final reply at the end of the first period. -/
inductive Waits : List Arrival → Option Millis → Prop where
  | first {p : List Arrival} (one : deadlines p = []) (unsettled : Unsettled corr coming p) : Waits p none
  | second {p q : List Arrival} {now : Millis} (one : deadlines p = [])
      (answered : heard corr coming p ≠ []) (two : deadlines q = [])
      (unsettled : Unsettled corr coming (p ++ .deadline now :: q)) :
      Waits (p ++ .deadline now :: q) (some now)

/-- How an exchange can go: what was taken in, when the final reply was asked for again and when it was
acknowledged, and how the exchange stands. -/
inductive Course : List Arrival → Option Millis → Option Millis → ExchangeState → Prop where
  | waits {p : List Arrival} {nack : Option Millis} (waits : Waits corr coming p nack) :
      Course p nack none .waiting
  | settled {p : List Arrival} {nack : Option Millis} {now : Millis} {packets : List Packet}
      (waits : Waits corr coming p nack)
      (final : (heard corr coming (p ++ [.batch now packets])).any Reply.isFinal = true) :
      Course (p ++ [.batch now packets]) nack (some now) .finished
  | silent {p : List Arrival} {now : Millis} (waits : Waits corr coming p none)
      (silence : heard corr coming p = []) : Course (p ++ [.deadline now]) none none .finished
  | gaveUp {p : List Arrival} {asked now : Millis} (waits : Waits corr coming p (some asked)) :
      Course (p ++ [.deadline now]) (some asked) none .finished

end Courses

variable {corr : String} {coming : Assembler} {p : List Arrival} {nack ack : Option Millis}

theorem Unsettled.deadline (unsettled : Unsettled corr coming p) (now : Millis) :
    Unsettled corr coming (p ++ [.deadline now]) := by
  rwa [Unsettled, heard_deadline]

theorem Waits.unsettled (waits : Waits corr coming p nack) : Unsettled corr coming p := by
  cases waits with
  | first _ unsettled => exact unsettled
  | second _ _ _ unsettled => exact unsettled

/-- A batch without a final reply. -/
theorem Waits.batch (waits : Waits corr coming p nack) {now : Millis} {packets : List Packet}
    (unsettled : Unsettled corr coming (p ++ [.batch now packets])) :
    Waits corr coming (p ++ [.batch now packets]) nack := by
  cases waits with
  | first one _ =>
      refine .first ?_ unsettled
      rw [deadlines_append, one]
      rfl
  | second one answered two _ =>
      rw [List.append_assoc, List.cons_append] at unsettled ⊢
      refine .second one answered ?_ unsettled
      rw [deadlines_append, two]
      rfl

/-- The first deadline, when some replies have arrived. -/
theorem Waits.deadline (waits : Waits corr coming p none) (answered : heard corr coming p ≠ [])
    (now : Millis) : Waits corr coming (p ++ [.deadline now]) (some now) := by
  cases waits with
  | first one unsettled => exact .second one answered rfl (unsettled.deadline now)

theorem Course.stands {state : ExchangeState} (course : Course corr coming p nack ack state) :
    state = .waiting ∨ state = .finished := by
  cases course with
  | waits => exact .inl rfl
  | settled | silent | gaveUp => exact .inr rfl

/-! ## What a course tells -/

theorem takeWhile_deadline? (one : deadlines p = []) (now : Millis) (q : List Arrival) :
    (p ++ .deadline now :: q).takeWhile (fun arrival => arrival.deadline?.isNone) = p := by
  have none : ∀ arrival ∈ p, arrival.deadline?.isNone = true := by
    intro arrival mem
    rw [List.filterMap_eq_nil_iff.mp one arrival mem]
    rfl
  rw [List.takeWhile_append_of_pos none, List.takeWhile_cons_of_neg (by simp [Arrival.deadline?]),
    List.append_nil]

/-- There is one first deadline. -/
theorem first_deadline_inj {p' q q' : List Arrival} {now now' : Millis}
    (same : p ++ .deadline now :: q = p' ++ .deadline now' :: q') (one : deadlines p = [])
    (one' : deadlines p' = []) : p = p' ∧ now = now' := by
  have before : p = p' := by
    rw [← takeWhile_deadline? one now q, same, takeWhile_deadline? one']
  subst before
  have after := List.append_cancel_left same
  exact ⟨rfl, Arrival.deadline.inj (List.cons.inj after).1⟩

theorem Unsettled.of_append {q : List Arrival} (unsettled : Unsettled corr coming (p ++ q)) :
    Unsettled corr coming p := by
  rw [Unsettled, heard_append] at unsettled
  exact (List.forall_mem_append.mp unsettled).1

theorem Unsettled.any (unsettled : Unsettled corr coming p) :
    (heard corr coming p).any Reply.isFinal = false :=
  List.any_eq_false.mpr fun r mem => Bool.eq_false_iff.mp (unsettled r mem)

theorem OverdueAt.append {now : Millis} (overdue : OverdueAt corr coming now p) (more : List Arrival) :
    OverdueAt corr coming now (p ++ more) := by
  obtain ⟨p, q, rfl, overdue⟩ := overdue
  exact ⟨p, q ++ more, by rw [List.append_assoc, List.cons_append], overdue⟩

theorem OverdueAt.deadlines_ne {now : Millis} (overdue : OverdueAt corr coming now p) :
    deadlines p ≠ [] := by
  obtain ⟨p, q, rfl, one, -⟩ := overdue
  rw [deadlines_append, one]
  exact List.cons_ne_nil now (deadlines q)

theorem OverdueAt.inj {now now' : Millis} (overdue : OverdueAt corr coming now p)
    (overdue' : OverdueAt corr coming now' p) : now = now' := by
  obtain ⟨p, q, rfl, one, -⟩ := overdue
  obtain ⟨p', q', same, one', -⟩ := overdue'
  exact (first_deadline_inj same one one').2

theorem OverdueAt.answered {now : Millis} (overdue : OverdueAt corr coming now p) :
    ¬ Unanswered corr coming p := by
  obtain ⟨p, q, rfl, one, answered, -⟩ := overdue
  rintro ⟨p', now', same, one', silence⟩
  obtain ⟨rfl, -⟩ := first_deadline_inj same one one'
  exact answered silence

theorem Waits.deadlines (waits : Waits corr coming p nack) : deadlines p = nack.toList := by
  cases waits with
  | first one _ => exact one
  | second one _ two _ =>
      rw [deadlines_append, one]
      exact congrArg (_ :: ·) two

theorem Waits.overdue {now : Millis} (waits : Waits corr coming p (some now)) :
    OverdueAt corr coming now p := by
  cases waits with
  | second one answered two unsettled => exact ⟨_, _, rfl, one, answered, unsettled.of_append⟩

theorem Waits.length_deadlines (waits : Waits corr coming p nack) :
    (Exchange.deadlines p).length ≤ 1 := by
  rw [waits.deadlines]
  cases nack <;> simp

theorem Waits.not_unanswered (waits : Waits corr coming p nack) : ¬ Unanswered corr coming p := by
  cases nack with
  | none =>
      rintro ⟨p, now, rfl, -, -⟩
      have one := waits.deadlines
      rw [deadlines_append] at one
      exact List.cons_ne_nil now [] (List.append_eq_nil_iff.mp one).2
  | some now => exact waits.overdue.answered

namespace Course

variable {state : ExchangeState} (course : Course corr coming p nack ack state)
include course

theorem overdue {now : Millis} (asked : nack = some now) : OverdueAt corr coming now p := by
  subst asked
  cases course with
  | waits waits => exact waits.overdue
  | settled waits _ | gaveUp waits => exact waits.overdue.append _

theorem deadlines_or (unasked : nack = none) :
    Exchange.deadlines p = [] ∨ Unanswered corr coming p := by
  subst unasked
  cases course with
  | waits waits => exact .inl waits.deadlines
  | settled waits _ =>
      left
      rw [deadlines_append, waits.deadlines]
      rfl
  | silent waits silence => exact .inr ⟨_, _, rfl, waits.deadlines, silence⟩

theorem asked_iff (now : Millis) : nack = some now ↔ OverdueAt corr coming now p := by
  refine ⟨course.overdue, fun overdue => ?_⟩
  cases asked : nack with
  | none =>
      rcases course.deadlines_or asked with one | silence
      · exact absurd one overdue.deadlines_ne
      · exact absurd silence overdue.answered
  | some asked' => rw [(course.overdue asked).inj overdue]

theorem settled_iff (now : Millis) : ack = some now ↔ SettledAt corr coming now p := by
  constructor
  · intro settled
    subst settled
    cases course with
    | settled waits final => exact ⟨_, _, rfl, waits.unsettled, final⟩
  · rintro ⟨p, packets, rfl, unsettled, final⟩
    generalize taken : p ++ [Arrival.batch now packets] = all at course
    cases course with
    | waits waits =>
        rw [taken, waits.unsettled.any] at final
        cases final
    | settled waits final =>
        cases (List.append_inj' taken rfl).2
        rfl
    | silent | gaveUp => cases (List.append_inj' taken rfl).2

theorem settled_or : ack.isSome = true ∨ Unsettled corr coming p := by
  cases course with
  | waits waits => exact .inr waits.unsettled
  | settled => exact .inl rfl
  | silent waits | gaveUp waits => exact .inr (waits.unsettled.deadline _)

/-- A final reply was had exactly if it was acknowledged. -/
theorem any_eq : (heard corr coming p).any Reply.isFinal = ack.isSome := by
  rcases course.settled_or with settled | unsettled
  · obtain ⟨now, settled⟩ := Option.isSome_iff_exists.mp settled
    obtain ⟨-, -, -, -, final⟩ := (course.settled_iff now).mp settled
    rw [final, settled]
    rfl
  · rw [unsettled.any, eq_comm, Option.isSome_eq_false_iff, Option.isNone_iff_eq_none,
      Option.eq_none_iff_forall_not_mem]
    intro now settled
    obtain ⟨-, -, -, -, final⟩ := (course.settled_iff now).mp settled
    rw [unsettled.any] at final
    cases final

theorem finished_iff : state = .finished ↔
    ack.isSome = true ∨ Unanswered corr coming p ∨ (Exchange.deadlines p).length = 2 := by
  cases course with
  | waits waits =>
      refine iff_of_false (fun finished => by cases finished) ?_
      rintro (settled | silence | two)
      · cases settled
      · exact waits.not_unanswered silence
      · exact absurd waits.length_deadlines (by omega)
  | settled => exact iff_of_true rfl (.inl rfl)
  | silent waits silence => exact iff_of_true rfl (.inr (.inl ⟨_, _, rfl, waits.deadlines, silence⟩))
  | gaveUp waits =>
      refine iff_of_true rfl (.inr (.inr ?_))
      rw [deadlines_append, waits.deadlines]
      rfl

theorem length_deadlines : (Exchange.deadlines p).length ≤ 2 := by
  cases course with
  | waits waits => exact Nat.le_succ_of_le waits.length_deadlines
  | settled waits | silent waits | gaveUp waits =>
      rw [deadlines_append, List.length_append]
      exact Nat.add_le_add waits.length_deadlines (List.length_filterMap_le _ _)

end Course

/-! ## The client keeps to its course -/

section Conduct

variable {link : Link σ} {lane : Lane} {request : Command} {taken : List Arrival}
  {x : Exchange (σ × List (List Packet))}

/-- What a client has sent: the request, perhaps a request for the final reply, perhaps an
acknowledgement. -/
def messages (lane : Lane) (request : Command) (nack ack : Option Millis) : List (List Packet) :=
  lane.encode request
    :: nack.toList.map (fun now => lane.encode ((Control.ofNack [request.corr]).toCommand now))
    ++ ack.toList.map fun now => lane.encode ((Control.ofAck request.corr).toCommand now)

/-- What follows the request reads back as a nack and an ack that name its correlation. -/
theorem controls_of_messages (lane : Lane) (request : Command) (nack ack : Option Millis)
    {coming : Assembler} (idle : coming.opened = none) :
    (coming.pushAll (messages lane request nack ack).tail.flatten).2.map
        (fun text => (parseOutcome Command.shape text).toOption.bind Control.ofCommand?)
      = nack.toList.map (fun _ => some { nack := some [request.corr] })
        ++ ack.toList.map fun _ => some { ack := some request.corr } := by
  have start := Assembler.Brings.nil idle
  have asked (now : Millis) := (Control.ofNack [request.corr]).readable now
  have settled (now : Millis) := (Control.ofAck request.corr).readable now
  have brings : coming.Brings (messages lane request nack ack).tail.flatten
      (nack.toList.map (fun now => (Control.ofNack [request.corr]).toCommand now)
        ++ ack.toList.map fun now => (Control.ofAck request.corr).toCommand now) := by
    cases nack with
    | none =>
      cases ack with
      | none => exact start
      | some later => simpa [messages] using start.send (settled later) lane
    | some now =>
      cases ack with
      | none => simpa [messages] using start.send (asked now) lane
      | some later => simpa [messages] using (start.send (asked now) lane).send (settled later) lane
  have read := congrArg (List.map fun c => c.toOption.bind (Control.ofCommand? (κ := String))) brings.texts
  rw [List.map_map, List.map_map, List.map_append, List.map_map, List.map_map] at read
  simpa [Function.comp_def, Except.toOption, Control.ofCommand?_toCommand, Control.ofNack, Control.ofAck,
    Control.nackLimit] using read

structure Conducted (lane : Lane) (coming : Assembler) (request : Command) (taken : List Arrival)
    (nack ack : Option Millis) (x : Exchange (σ × List (List Packet))) : Prop where
  course : Course request.corr coming taken nack ack x.state
  onLane : x.lane = lane
  outcome : x.outcome = ⟨request.corr, Reply.upToFinal (heard request.corr coming taken)⟩
  assembler : x.state = .waiting → x.coming = (coming.pushAll (taken.flatMap Arrival.packets)).1
  nacked : x.nacked = nack.isSome
  sent : x.net.2.reverse = messages lane request nack ack

/-- Sending over a link that takes everything. -/
theorem sendThen_logged (sends : ∀ net packets, (link.send net packets).2 = .ok ())
    (x : Exchange (σ × List (List Packet))) (envelope : Command) (next : ExchangeState) :
    sendThen link.logged x envelope next
      = { x with
          net := ((link.send x.net.1 (x.lane.encode envelope)).1, x.lane.encode envelope :: x.net.2)
          state := next } := by
  have sent := sends x.net.1 (x.lane.encode envelope)
  cases call : link.send x.net.1 (x.lane.encode envelope) with
  | mk net result =>
      rw [call] at sent
      simp only [sendThen, Link.logged, call, show result = .ok () from sent]

theorem conducted_begin (sends : ∀ net packets, (link.send net packets).2 = .ok ()) (net : σ)
    (lane : Lane) (coming : Assembler) (request : Command) :
    Conducted lane coming request [] none none (begin link.logged (net, []) lane coming request) := by
  have unsettled : Unsettled request.corr coming [] := by
    intro r none
    cases none
  rw [begin, sendThen_logged sends]
  exact ⟨.waits (.first rfl unsettled), rfl, rfl, fun _ => rfl, rfl, by simp [messages]⟩

namespace Conducted

theorem waits (conducted : Conducted lane coming request taken nack ack x)
    (waiting : x.state = .waiting) : Waits request.corr coming taken nack ∧ ack = none := by
  have course := conducted.course
  rw [waiting] at course
  cases course with
  | waits waits => exact ⟨waits, rfl⟩

theorem batch (sends : ∀ net packets, (link.send net packets).2 = .ok ())
    (conducted : Conducted lane coming request taken nack ack x) (waiting : x.state = .waiting)
    (now : Millis) (packets : List Packet) :
    ∃ ack, Conducted lane coming request (taken ++ [.batch now packets]) nack ack
      (x.onBatch link.logged now packets) := by
  obtain ⟨waits, rfl⟩ := conducted.waits waiting
  obtain ⟨-, onLane, outcome, assembler, nacked, sent⟩ := conducted
  have arrived := heard_batch request.corr coming taken now packets
  rw [Reply.upToFinal_of_unsettled waits.unsettled] at outcome
  -- All replies so far were kept, so what the batch brings is cut where all that arrived is cut.
  have all : heard request.corr coming taken
        ++ gather request.corr ((coming.pushAll (taken.flatMap Arrival.packets)).1.pushAll packets).2
      = Reply.upToFinal (heard request.corr coming (taken ++ [.batch now packets])) := by
    rw [arrived, Reply.upToFinal_append waits.unsettled, gather_eq_upToFinal]
  rw [onBatch, waiting, assembler waiting, outcome]
  dsimp only
  rw [all, gather_eq_upToFinal, Reply.any_upToFinal]
  split
  · next final =>
      rw [sendThen_logged sends]
      refine ⟨some now, .settled waits ?_, onLane, rfl, ?_, nacked, ?_⟩
      · rw [arrived, List.any_append, final, Bool.or_true]
      · intro finished
        cases finished
      · rw [List.reverse_cons, sent, onLane]
        simp [messages]
  · next unsettled =>
      refine ⟨none, .waits (waits.batch ?_), onLane, rfl, fun _ => ?_, nacked, sent⟩
      · rw [Unsettled, arrived]
        refine List.forall_mem_append.mpr ⟨waits.unsettled, fun r new => ?_⟩
        exact Bool.eq_false_iff.mpr (List.any_eq_false.mp (Bool.eq_false_iff.mpr unsettled) r new)
      · rw [List.flatMap_append, Assembler.pushAll_append]
        simp [Arrival.packets]

theorem deadline (sends : ∀ net packets, (link.send net packets).2 = .ok ())
    (conducted : Conducted lane coming request taken nack ack x) (waiting : x.state = .waiting)
    (now : Millis) :
    ∃ nack, Conducted lane coming request (taken ++ [.deadline now]) nack ack
      (x.onDeadline link.logged now) := by
  obtain ⟨waits, rfl⟩ := conducted.waits waiting
  obtain ⟨-, onLane, outcome, assembler, nacked, sent⟩ := conducted
  have replies : x.outcome.replies = heard request.corr coming taken := by
    rw [outcome]
    exact Reply.upToFinal_of_unsettled waits.unsettled
  rw [← heard_deadline request.corr coming taken now] at outcome
  rw [onDeadline, waiting]
  dsimp only
  cases nack with
  | some asked =>
      rw [if_pos (by rw [nacked]; rfl)]
      refine ⟨some asked, .gaveUp waits, onLane, outcome, ?_, nacked, sent⟩
      intro finished
      cases finished
  | none =>
      have gives : (x.nacked || x.outcome.replies.isEmpty)
          = (heard request.corr coming taken).isEmpty := by
        rw [nacked, replies]
        rfl
      rw [gives]
      split
      · next silence =>
          refine ⟨none, .silent waits (List.isEmpty_iff.mp silence), onLane, outcome, ?_, nacked, sent⟩
          intro finished
          cases finished
      · next answered =>
          rw [sendThen_logged sends]
          refine ⟨some now, .waits (waits.deadline ?_ now), onLane, outcome, fun _ => ?_, rfl, ?_⟩
          · exact fun silence => answered (List.isEmpty_iff.mpr silence)
          · rw [List.flatMap_append]
            exact (assembler waiting).trans (by simp [Arrival.packets])
          · rw [List.reverse_cons, sent, onLane, outcome]
            simp [messages]

theorem step (sends : ∀ net packets, (link.send net packets).2 = .ok ())
    (conducted : Conducted lane coming request taken nack ack x) (waiting : x.state = .waiting)
    {arrival : Arrival} (opens : arrival ≠ .closed) :
    ∃ nack ack, Conducted lane coming request (taken ++ [arrival]) nack ack
      (x.step link.logged arrival) := by
  cases arrival with
  | batch now packets => exact ⟨nack, conducted.batch sends waiting now packets⟩
  | deadline now =>
      obtain ⟨nack, further⟩ := conducted.deadline sends waiting now
      exact ⟨nack, ack, further⟩
  | closed => exact absurd rfl opens

/-- A client takes in what arrives until its exchange has ended; the rest changes nothing. -/
theorem run (sends : ∀ net packets, (link.send net packets).2 = .ok ()) {arrivals : List Arrival}
    (opens : .closed ∉ arrivals) :
    ∀ {taken nack ack} {x : Exchange (σ × List (List Packet))},
      Conducted lane coming request taken nack ack x →
      ∃ more rest nack ack, arrivals = more ++ rest ∧
        Conducted lane coming request (taken ++ more) nack ack (x.run link.logged arrivals) ∧
        ((x.run link.logged arrivals).state = .waiting → rest = []) := by
  induction arrivals with
  | nil =>
      intro taken nack ack x conducted
      exact ⟨[], [], nack, ack, rfl, by rwa [List.append_nil], fun _ => rfl⟩
  | cons arrival arrivals ih =>
      intro taken nack ack x conducted
      rcases conducted.course.stands with waiting | finished
      · have here := List.ne_of_not_mem_cons opens
        have later := List.not_mem_of_not_mem_cons opens
        obtain ⟨_, _, further⟩ := conducted.step sends waiting (Ne.symm here)
        obtain ⟨more, rest, nack, ack, parts, conducted, whole⟩ := ih later further
        rw [List.append_assoc, List.singleton_append] at conducted
        exact ⟨arrival :: more, rest, nack, ack, congrArg (arrival :: ·) parts, conducted, whole⟩
      · -- The exchange has ended, and what follows is the rest.
        have ended : x.state ≠ .waiting := by simp [finished]
        have same : x.run link.logged (arrival :: arrivals) = x := run_of_ended ended _
        rw [same]
        refine ⟨[], arrival :: arrivals, nack, ack, rfl, by rwa [List.append_nil], fun waiting => ?_⟩
        rw [finished] at waiting
        cases waiting

end Conducted

/-- What has come of a request, to which just `taken` was taken in. -/
structure Requested (lane : Lane) (coming : Assembler) (request : Command) (taken : List Arrival)
    (nack ack : Option Millis) (x : Exchange (σ × List (List Packet))) : Prop where
  sent : x.net.2.reverse = messages lane request nack ack
  nack_iff : ∀ now, nack = some now ↔ OverdueAt request.corr coming now taken
  ack_iff : ∀ now, ack = some now ↔ SettledAt request.corr coming now taken
  outcome : x.outcome = ⟨request.corr, Reply.upToFinal (heard request.corr coming taken)⟩
  final : x.outcome.final? = (heard request.corr coming taken).find? Reply.isFinal
  settled : ack.isSome = x.outcome.final?.isSome
  result : x.result = .ok x.outcome
  finished_iff : x.state = .finished ↔ (∃ now, SettledAt request.corr coming now taken) ∨
    Unanswered request.corr coming taken ∨ (deadlines taken).length = 2
  periods : (deadlines taken).length ≤ 2

theorem Conducted.requested (conducted : Conducted lane coming request taken nack ack x) :
    Requested lane coming request taken nack ack x := by
  have course := conducted.course
  have final : x.outcome.final? = (heard request.corr coming taken).find? Reply.isFinal := by
    rw [conducted.outcome]
    exact Reply.final?_upToFinal _
  refine ⟨conducted.sent, course.asked_iff, course.settled_iff, conducted.outcome, final, ?_, ?_,
    ?_, course.length_deadlines⟩
  · rw [final, ← course.any_eq, Bool.eq_iff_iff, List.any_eq_true, List.find?_isSome]
  · rcases course.stands with waiting | finished
    · rw [Exchange.result, waiting]
    · rw [Exchange.result, finished]
  · rw [course.finished_iff, Option.isSome_iff_exists, exists_congr course.settled_iff]

/-- As long as its session is open, a client sends its request, then once more asks for the final reply if a first period of waiting
brought others only, then acknowledges the final reply if there is one.  What it has in the end are the
replies to its request up to the first final one, however what arrived was cut into batches, and it has
the end after two periods at most. -/
theorem conducts_request (sends : ∀ net packets, (link.send net packets).2 = .ok ()) (net : σ)
    (lane : Lane) (coming : Assembler) (request : Command) {arrivals : List Arrival}
    (opens : .closed ∉ arrivals) :
    let x := (begin link.logged (net, []) lane coming request).run link.logged arrivals
    ∃ taken rest nack ack, arrivals = taken ++ rest ∧
      Requested lane coming request taken nack ack x ∧
      (x.state = .waiting ∧ rest = [] ∨ x.state = .finished) ∧
      (2 ≤ (deadlines arrivals).length → x.state = .finished) := by
  intro x
  obtain ⟨taken, rest, nack, ack, parts, conducted, whole⟩ :=
    (conducted_begin sends net lane coming request).run sends opens
  have requested := conducted.requested
  refine ⟨taken, rest, nack, ack, parts, requested, ?_, fun periods => ?_⟩
  · exact conducted.course.stands.imp_left fun waiting => ⟨waiting, whole waiting⟩
  · rcases conducted.course.stands with waiting | finished
    · rw [parts, whole waiting, List.append_nil] at periods
      exact requested.finished_iff.mpr (.inr (.inr (Nat.le_antisymm requested.periods periods)))
    · exact finished

end Conduct

theorem heard_of_brings {cs : List Command} (brings : coming.Brings (p.flatMap Arrival.packets) cs) :
    heard corr coming p = cs.filterMap (Command.replyTo? corr) := by
  have read := List.filterMap_map (f := parseOutcome Command.shape)
    (g := fun c => c.toOption.bind (Command.replyTo? corr))
    (l := (coming.pushAll (p.flatMap Arrival.packets)).2)
  rw [brings.texts, List.filterMap_map] at read
  exact read.symm

/-- The final reply comes after it was asked for again. -/
theorem conducts_ping :
    let ping : Command := ⟨1, 1000, "abc", "ping", .object []⟩
    let reply (now : Millis) (r : Reply) := Lane.base.encode (.ofReply now "abc" r)
    let x := (begin Link.queue.logged ([], []) .base {} ping).run Link.queue.logged
      [.batch 2 (reply 1 .acknowledged), .deadline 5, .batch 7 (reply 6 .succeeded)]
    x.result = .ok ⟨"abc", [.acknowledged, .succeeded]⟩ ∧
      x.net.2.reverse = messages .base ping (some 5) (some 7) := by
  intro ping reply x
  have reads (now : Millis) {r : Reply} (whole : r.progress = none) :
      (Command.ofReply now "abc" r).replyTo? "abc" = some r :=
    (if_pos rfl).trans (Reply.reply?_ofReply whole now "abc")
  have one : ({} : Assembler).Brings (reply 1 .acknowledged) [.ofReply 1 "abc" .acknowledged] :=
    (Assembler.Brings.nil rfl).send (Reply.readable rfl 1 "abc") .base
  have two := one.send (Reply.readable (r := .succeeded) rfl 6 "abc") .base
  have acknowledged : heard "abc" {} [.batch 2 (reply 1 .acknowledged)] = [.acknowledged] := by
    rw [heard_of_brings (by simpa [Arrival.packets] using one), List.filterMap_cons_some (reads 1 rfl)]
    rfl
  have both : heard "abc" {} [.batch 2 (reply 1 .acknowledged), .deadline 5,
      .batch 7 (reply 6 .succeeded)] = [.acknowledged, .succeeded] := by
    rw [heard_of_brings (by simpa [Arrival.packets] using two),
      List.filterMap_cons_some (reads 1 rfl), List.filterMap_cons_some (reads 6 rfl)]
    rfl
  have unsettled : Unsettled "abc" {} [.batch 2 (reply 1 .acknowledged)] := by
    rw [Unsettled, acknowledged]
    decide
  have unsettled' : Unsettled "abc" {} [.batch 2 (reply 1 .acknowledged), .deadline 5] :=
    unsettled.deadline 5
  have overdue (q : List Arrival) :
      OverdueAt "abc" {} 5 (.batch 2 (reply 1 .acknowledged) :: .deadline 5 :: q) :=
    ⟨[_], q, rfl, rfl, acknowledged ▸ List.cons_ne_nil _ _, unsettled⟩
  have sends (net packets : List Packet) : (Link.queue.send net packets).2 = .ok () := rfl
  have opens : Arrival.closed ∉ [.batch 2 (reply 1 .acknowledged), .deadline 5,
      .batch 7 (reply 6 .succeeded)] := by simp
  obtain ⟨taken, rest, nack, ack, parts, requested, stands, -⟩ :=
    conducts_request sends [] .base {} ping opens
  -- Until the last batch the client has no reason to return.
  have whole : rest = [] := by
    rcases stands with ⟨-, whole⟩ | finished
    · exact whole
    have ends := requested.finished_iff.mp finished
    rcases taken with _ | ⟨a, _ | ⟨b, _ | ⟨c, more⟩⟩⟩
    · simp [SettledAt, Unanswered, deadlines] at ends
    · cases (List.cons.inj parts).1
      rcases ends with ⟨_, _, _, _, _, final⟩ | ⟨p, _, same, _⟩ | two
      · rw [unsettled.any] at final
        cases final
      · cases (List.append_inj' (show [] ++ [_] = p ++ [_] from same) rfl).2
      · cases two
    · cases (List.cons.inj parts).1
      cases (List.cons.inj (List.cons.inj parts).2).1
      rcases ends with ⟨_, _, _, _, _, final⟩ | silence | two
      · rw [unsettled'.any] at final
        cases final
      · exact absurd silence (overdue []).answered
      · cases two
    · have lengths := congrArg List.length parts
      simp only [List.length_append, List.length_cons, List.length_nil] at lengths
      exact List.length_eq_zero_iff.mp (by omega)
  rw [whole, List.append_nil] at parts
  subst parts
  obtain rfl := (requested.nack_iff 5).mpr (overdue _)
  obtain rfl : ack = some 7 :=
    (requested.ack_iff 7).mpr ⟨[_, _], _, rfl, unsettled', by rw [both]; rfl⟩
  exact ⟨by rw [requested.result, requested.outcome, both]; rfl, requested.sent⟩

end Exchange
end FlexLink
