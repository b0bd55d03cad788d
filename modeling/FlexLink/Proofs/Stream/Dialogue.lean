import FlexLink.Proofs.Stream.Acknowledging
import FlexLink.Proofs.Stream.Keeping

/-! # A sender and a receiver

A sender that hears nothing but a receiver's messages keeps what the receiver may still ask for.  The
network may do to events what it likes, and lose, repeat, delay and reorder the messages that come
back. -/
set_option autoImplicit false
namespace FlexLink

structure Dialogue (σ τ : Type) where
  sending : Sending (σ × List (List Packet))
  receiving : Receiving (τ × List (List Packet))
  recorded : List Event := []
  /-- The packets that sending and flushing handed over, in order. -/
  handed : List Packet := []
  returned : List Packet := []

namespace Dialogue

variable {σ τ : Type}

inductive Move where
  | send (e : Event) (freshId : String)
  | flush
  | arrive (batch : List Packet)
  | report (batch : List Packet)
  | desert
  | stop

def start (sender : StreamSender) (receiver : StreamReceiver) (out : σ) (back : τ) :
    Dialogue σ τ where
  sending := { net := (out, []), sender }
  receiving := { net := (back, []), receiver }

def newPackets (before after : List (List Packet)) : List Packet :=
  (after.take (after.length - before.length)).reverse.flatten

/-- After an operation of the sender that hands packets over for the first time. -/
def handOver (x : Dialogue σ τ) (sending : Sending (σ × List (List Packet))) : Dialogue σ τ :=
  { x with sending, handed := x.handed ++ newPackets x.sending.net.2 sending.net.2 }

def step (out : Link σ) (back : Link τ) (x : Dialogue σ τ) : Move → Dialogue σ τ
  | .send e freshId =>
    let new := Sent.envelopes x.sending.sender.maxFragmentBytes
      ⟨e, freshId, x.sending.sender.nextSeq⟩
    { x.handOver (x.sending.send out.called e freshId).1 with recorded := x.recorded ++ new }
  | .flush => x.handOver (x.sending.flush out.called).1
  | .arrive batch => { x with receiving := x.receiving.onBatch back.called batch }
  | .report batch =>
    { x with sending := x.sending.onBatch out.called batch, returned := x.returned ++ batch }
  | .desert => { x with receiving := x.receiving.desert }
  | .stop => { x with receiving := x.receiving.stop }

def run (out : Link σ) (back : Link τ) (x : Dialogue σ τ) : List Move → Dialogue σ τ
  | [] => x
  | m :: rest => (x.step out back m).run out back rest

/-- Whether what came back is made of messages that the receiver has sent, in any order and any
number of times, as far as it came. -/
def Reported (x : Dialogue σ τ) : Prop :=
  ∃ messages : List (List Packet), (∀ m ∈ messages, m ∈ x.receiving.net.2) ∧ x.returned <+: messages.flatten

/-- Whether nothing but the receiver's messages comes back in a run. -/
def Fair (out : Link σ) (back : Link τ) (x : Dialogue σ τ) : List Move → Prop
  | [] => True
  | m :: rest => (x.step out back m).Reported ∧ (x.step out back m).Fair out back rest

variable {x : Dialogue σ τ} {sends answers : Lane} {capacity : Nat}

theorem newPackets_append (calls before : List (List Packet)) :
    newPackets before (calls ++ before) = calls.reverse.flatten := by
  rw [newPackets, List.length_append, Nat.add_sub_cancel, List.take_left]

variable (out : Link σ) (back : Link τ)

theorem truthful_step (truthful : x.receiving.Truthful answers) (m : Move) :
    (x.step out back m).receiving.Truthful answers ∧
      x.receiving.next ≤ (x.step out back m).receiving.next := by
  cases m with
  | send e freshId => exact truthful.still rfl rfl rfl
  | flush => exact truthful.still rfl rfl rfl
  | arrive batch => exact truthful.batch back batch
  | report batch => exact truthful.still rfl rfl rfl
  | desert => exact truthful.still rfl rfl rfl
  | stop =>
      rw [step, Receiving.stop]
      split
      · exact truthful.still rfl rfl rfl
      · exact truthful.still rfl rfl rfl

theorem truthful_run (truthful : x.receiving.Truthful answers) (moves : List Move) :
    (x.run out back moves).receiving.Truthful answers := by
  induction moves generalizing x with
  | nil => exact truthful
  | cons m rest ih => exact ih (truthful_step out back truthful m).1

def Remembering (sends : Lane) (capacity : Nat) (x : Dialogue σ τ) : Prop :=
  x.recorded.length ≤ lastSeq →
    x.sending.Remembers sends capacity x.receiving.next (Assembler.pushAll {} x.returned).1
      x.recorded x.handed

/-- Every text of the receiver's messages is a control message, and none acknowledges a number that
the receiver still waits for. -/
theorem texts_of_messages {floor : Nat} {messages : List (List Packet)} (a : Assembler)
    (told : ∀ m ∈ messages,
      ∃ c : Control UInt64, m = answers.encodeEvent c.toEvent ∧ c.Below floor) :
    ∀ text ∈ (a.pushAll messages.flatten).2,
      ∃ c : Control UInt64, c.Below floor ∧ text = Receiving.textOf c.toEvent := by
  induction messages generalizing a with
  | nil =>
      intro text none
      cases none
  | cons m messages ih =>
      obtain ⟨⟨c, rfl, below⟩, others⟩ := List.forall_mem_cons.mp told
      rw [List.flatten_cons, Assembler.pushAll_append, Sending.pushAll_encodeEvent a answers rfl]
      intro text member
      rcases List.mem_cons.mp member with rfl | later
      · exact ⟨c, below, rfl⟩
      · exact ih a.restart others text later

theorem remembering_report (truthful : x.receiving.Truthful answers)
    (remembering : x.Remembering sends capacity) {batch : List Packet}
    (reported : (x.step out back (.report batch)).Reported) :
    (x.step out back (.report batch)).Remembering sends capacity := by
  intro few
  obtain ⟨messages, own, rest, whole⟩ := reported
  have split : x.returned ++ (batch ++ rest) = messages.flatten := by
    rw [← List.append_assoc]
    exact whole
  have controls := texts_of_messages {} fun m member => truthful.told m (own m member)
  -- What the batch completes are texts of the messages that it is a part of.
  rw [← split, Assembler.pushAll_append, Assembler.pushAll_append] at controls
  have remembers := (remembering few).batch out few fun text member =>
    controls text (List.mem_append_right _ (List.mem_append_left _ member))
  have same : (Assembler.pushAll {} (x.returned ++ batch)).1
      = ((Assembler.pushAll {} x.returned).1.pushAll batch).1 := by
    rw [Assembler.pushAll_append]
  rw [← same] at remembers
  exact remembers

theorem remembering_step (truthful : x.receiving.Truthful answers)
    (remembering : x.Remembering sends capacity) {m : Move}
    (reported : (x.step out back m).Reported) :
    (x.step out back m).Remembering sends capacity := by
  have onward := (truthful_step out back truthful m).2
  cases m with
  | send e freshId =>
      intro few
      rw [step, List.length_append] at few
      obtain ⟨calls, log, remembers⟩ :=
        (remembering (by omega)).send out e freshId few
      rw [← newPackets_append calls x.sending.net.2, ← log] at remembers
      exact remembers
  | flush =>
      intro few
      obtain ⟨calls, log, remembers⟩ := (remembering few).flush out
      rw [← newPackets_append calls x.sending.net.2, ← log] at remembers
      exact remembers
  | arrive batch => exact fun few => (remembering few).mono onward
  | report batch => exact remembering_report out back truthful remembering reported
  | desert => exact fun few => (remembering few).mono onward
  | stop => exact fun few => (remembering few).mono onward

theorem remembering_run (truthful : x.receiving.Truthful answers)
    (remembering : x.Remembering sends capacity) {moves : List Move} (fair : x.Fair out back moves) :
    (x.run out back moves).Remembering sends capacity := by
  induction moves generalizing x with
  | nil => exact remembering
  | cons m rest ih =>
      obtain ⟨reported, later⟩ := fair
      exact ih (truthful_step out back truthful m).1
        (remembering_step out back truthful remembering reported) later

theorem remembering_start {mtu : Nat} {stream : StreamSettings} {reliability : ReliabilitySettings}
    {sender : StreamSender} (made : StreamSender.new mtu sends stream reliability = .ok sender)
    (receiver : StreamReceiver) (net : σ) (backNet : τ) :
    (start sender receiver net backNet).Remembering sends (max reliability.maxBuffered 1) := by
  intro _
  rw [StreamSender.new] at made
  split at made
  · cases made
  · cases made
    refine ⟨rfl, rfl, rfl, rfl, ?_, StreamSender.keeps_new sends reliability.maxBuffered _, rfl⟩
    intro i e none
    cases none

/-- Whatever the network does, the receiver acknowledges only numbers that it waits for no more.  So
where nothing but its messages comes back to the sender, the sender still has the newest envelopes
that the receiver has not got past: a request for them is answered, one call for each key, with the
packets that were handed over for them at first.  (A run of more than `lastSeq` envelopes would need a
number past the largest one of a word.) -/
theorem acks_release_nothing_needed {mtu : Nat}
    {sends : Lane} {sending : StreamSettings} {reliability : ReliabilitySettings}
    {sender : StreamSender} (made : StreamSender.new mtu sends sending reliability = .ok sender)
    (answers : Lane) (receiving : StreamSettings) (net : σ) (backNet : τ) (moves : List Move) :
    let first := start sender (.new answers receiving) net backNet
    let x := first.run out back moves
    let next := x.receiving.next
    (∀ m ∈ x.receiving.net.2,
      ∃ c : Control UInt64, m = answers.encodeEvent c.toEvent ∧ c.Below next) ∧
    (first.Fair out back moves → x.recorded.length ≤ lastSeq →
      x.handed ++ x.sending.sender.pending = x.recorded.flatMap sends.encodeEvent ∧
      ∃ kept : UInt64 → Option (List Packet),
        (∀ k e, x.recorded[k]? = some e → e.seq.toNat = k ∧
          (next ≤ k → x.recorded.length - (k + 1) < max 1 reliability.maxBuffered →
            kept e.seq = some (sends.encodeEvent e))) ∧
        (∀ key packets, kept key = some packets →
          ∃ e ∈ x.recorded, e.seq = key ∧ packets = sends.encodeEvent e) ∧
        (∀ (lane : Lane) keys, x.sending.Hears (lane.encodeEvent (Control.toEvent { nack := some keys }))
          { nack := some keys }) ∧
        ∀ keys batch, x.sending.Hears batch { nack := some keys } →
          (x.sending.onBatch out.called batch).net.2
            = (keys.filterMap kept).reverse ++ x.sending.net.2) := by
  intro first x next
  have fresh : first.receiving.Truthful answers :=
    Receiving.truthful_new backNet answers receiving
  refine ⟨(truthful_run out back fresh moves).told, fun fair few => ?_⟩
  have remembers := remembering_run out back fresh (remembering_start made _ net backNet) fair few
  refine ⟨remembers.packets, x.sending.sender.reliability.buffer.frames.get?, ?_, ?_, ?_, ?_⟩
  · intro k e here
    have number := remembers.numbered k e here
    refine ⟨remembers.numbered.toNat few here, fun needed recent => ?_⟩
    rw [number]
    rw [Nat.max_comm] at recent
    exact remembers.keeps.get? remembers.numbered few here needed recent
  · intro key packets found
    exact remembers.keeps.original found
  · intro lane keys
    exact Sending.hears_whole _ lane _
  · intro keys batch hears
    exact remembers.answers out hears

def sampleEvent (seq : UInt64) (data : String) : Event := { Event.new "token" data with seq }

/-- Three events are sent.  The first arrives, and its acknowledgement comes back; then the third
arrives. -/
def sampleMoves : List Move := [
  .send (.new "token" "a") "", .send (.new "token" "b") "", .send (.new "token" "c") "",
  .arrive (Lane.base.encodeEvent (sampleEvent 0 "a")),
  .report (Lane.base.encodeEvent (Control.ofAck (0 : UInt64)).toEvent),
  .arrive (Lane.base.encodeEvent (sampleEvent 2 "c"))]

def sampleStart : Dialogue Unit Unit :=
  start { Sending.sampleSender with reliability := .new { maxBuffered := 2 } }
    (.new .base { ackEvery := 1 }) () ()

theorem sample_fair : sampleStart.Fair Sending.sink Sending.sink sampleMoves := by
  have unheard {x : Dialogue Unit Unit} (nothing : x.returned = []) : x.Reported :=
    ⟨[], (fun _ none => by cases none), nothing ▸ List.nil_prefix⟩
  have acknowledged {x : Dialogue Unit Unit}
      (told : Lane.base.encodeEvent (Control.ofAck (0 : UInt64)).toEvent ∈ x.receiving.net.2)
      (came : x.returned = Lane.base.encodeEvent (Control.ofAck (0 : UInt64)).toEvent) :
      x.Reported := by
    refine ⟨[Lane.base.encodeEvent (Control.ofAck (0 : UInt64)).toEvent], ?_, ?_⟩
    · intro m member
      rw [List.mem_singleton.mp member]
      exact told
    · exact ⟨[], by rw [List.append_nil, came, List.flatten_singleton]⟩
  simp only [sampleMoves, Fair]
  refine ⟨unheard rfl, unheard rfl, unheard rfl, unheard rfl, ?_, ?_, trivial⟩
  · apply acknowledged
    · decide +kernel
    · rfl
  · apply acknowledged
    · decide +kernel
    · rfl

/-- The receiver asks for the second event then, and gets its packets once more. -/
theorem sample_resend :
    let x := sampleStart.run Sending.sink Sending.sink sampleMoves
    let request := Lane.base.encodeEvent (Control.ofNack [(1 : UInt64)]).toEvent
    request ∈ x.receiving.net.2 ∧
      (x.sending.onBatch Sending.sink.called request).net.2
        = Lane.base.encodeEvent (sampleEvent 1 "b") :: x.sending.net.2 := by
  intro x request
  have made : StreamSender.new 28 .base Sending.sampleStream { maxBuffered := 2 }
      = .ok { Sending.sampleSender with reliability := .new { maxBuffered := 2 } } := rfl
  obtain ⟨-, answered⟩ := acks_release_nothing_needed Sending.sink Sending.sink made .base
    { ackEvery := 1 } () () sampleMoves
  obtain ⟨recorded, waits, asked⟩ :
      x.recorded = [sampleEvent 0 "a", sampleEvent 1 "b", sampleEvent 2 "c"] ∧
        x.receiving.next = 1 ∧ request ∈ x.receiving.net.2 := by
    decide +kernel
  have few : x.recorded.length ≤ lastSeq := by
    rw [recorded]
    decide
  obtain ⟨-, kept, envelopes, -, heard, answers⟩ := answered sample_fair few
  refine ⟨asked, ?_⟩
  have second : kept 1 = some (Lane.base.encodeEvent (sampleEvent 1 "b")) := by
    refine (envelopes 1 (sampleEvent 1 "b") ?_).2 ?_ ?_
    · show x.recorded[1]? = _
      rw [recorded]
      rfl
    · exact Nat.le_of_eq waits
    · show x.recorded.length - 2 < 2
      rw [recorded]
      decide
  have calls := answers [1] request (heard .base [1])
  rw [List.filterMap_cons, second] at calls
  exact calls

end Dialogue
end FlexLink
