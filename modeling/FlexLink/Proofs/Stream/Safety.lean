import FlexLink.Stream.Receiver
import FlexLink.Proofs.Stream.Joining
import FlexLink.Proofs.Stream.Ordering
import FlexLink.Proofs.Stream.Sending
import FlexLink.Proofs.Text.Utf8

/-! # A stream over a bad network

However a network loses, repeats, delays and reorders the envelopes of a sender, the receiver
delivers sent events in ascending order, each as it was sent and none twice.  `Tracks` ties a
receiver to the envelopes that its reorder buffer has let through: they ascend, they came from the
network, and what is delivered is what a joiner makes of them. -/
set_option autoImplicit false
namespace FlexLink

open scoped List

namespace Receiving

variable {σ : Type} (link : Link σ)

def eventOf : Delivery → Option Event
  | .event e => some e
  | .control _ => none

def events (w : Receiving σ) : List Event := w.deliveries.reverse.filterMap eventOf

/-- Envelopes in the order they come, as long as the receiver runs. -/
def onEvents (w : Receiving σ) : List Event → Receiving σ
  | [] => w
  | e :: rest =>
    let w := w.onEvent link e
    if w.state = .running then w.onEvents rest else w

theorem sendControl_same (w : Receiving σ) (c : Control UInt64) :
    ∃ net metrics, w.sendControl link c = { w with net, receiver := { w.receiver with metrics } } := by
  rw [sendControl]
  split
  · exact ⟨_, _, rfl⟩
  · exact ⟨_, w.receiver.metrics, rfl⟩

theorem acknowledge_same (w : Receiving σ) (seq : UInt64) :
    ∃ net sinceAck metrics, w.acknowledge link seq
      = { w with net, receiver := { w.receiver with sinceAck, metrics } } := by
  rw [acknowledge]
  split
  · obtain ⟨net, metrics, same⟩ :=
      sendControl_same link { w with receiver := { w.receiver with sinceAck := 0 } } (.ofAck seq)
    exact ⟨net, 0, metrics.ackSent, congrArg (count · (·.ackSent)) same⟩
  · exact ⟨w.net, _, w.receiver.metrics, rfl⟩

def take (w : Receiving σ) (e : Event) : Receiving σ :=
  let pushed := w.receiver.joiner.push e
  let w := { w with receiver := { w.receiver with joiner := pushed.1 } }
  match pushed.2 with
  | .ok (some whole) => w.deliver (.event whole)
  | .ok none => w
  | .error _ => w.count (·.fragmentRejected)

theorem onReady_eq (w : Receiving σ) (e : Event) :
    w.onReady link e
      = if (w.take e).state = .running then (w.take e).acknowledge link e.seq else w.take e := rfl

theorem take_same {w : Receiving σ} (consumed : w.consumed = true) (e : Event) :
    ∃ metrics, (∀ whole, (w.receiver.joiner.push e).2 = .ok whole → metrics = w.receiver.metrics) ∧
      w.take e = { w with
        receiver := { w.receiver with joiner := (w.receiver.joiner.push e).1, metrics }
        deliveries := ((Joiner.completed (w.receiver.joiner.push e).2).map .event).toList
          ++ w.deliveries } := by
  rw [take]
  cases w.receiver.joiner.push e with
  | mk joiner result =>
      cases result with
      | error why => exact ⟨_, fun whole none => (by cases none), rfl⟩
      | ok whole =>
          refine ⟨w.receiver.metrics, fun _ _ => rfl, ?_⟩
          cases whole with
          | none => rfl
          | some whole => exact if_pos consumed

def note (w : Receiving σ) (out : Reordered) : Receiving σ :=
  let w :=
    if out.missing.isEmpty then w
    else (w.sendControl link (.ofNack (out.missing.map UInt64.ofNat))).count (·.nackSent)
  if 0 < out.skipped then w.count (·.addSequenceGaps out.skipped) else w

theorem note_same (w : Receiving σ) (out : Reordered) :
    ∃ net metrics, w.note link out = { w with net, receiver := { w.receiver with metrics } } := by
  have asked : ∃ net metrics,
      (if out.missing.isEmpty then w
        else (w.sendControl link (.ofNack (out.missing.map UInt64.ofNat))).count (·.nackSent))
        = { w with net, receiver := { w.receiver with metrics } } := by
    split
    · exact ⟨w.net, w.receiver.metrics, rfl⟩
    · obtain ⟨net, metrics, same⟩ :=
        sendControl_same link w (.ofNack (out.missing.map UInt64.ofNat))
      rw [same]
      exact ⟨net, metrics.nackSent, rfl⟩
  obtain ⟨net, metrics, same⟩ := asked
  rw [note, same]
  simp only
  split
  · exact ⟨net, metrics.addSequenceGaps out.skipped, rfl⟩
  · exact ⟨net, metrics, rfl⟩

theorem onEvent_ready {w : Receiving σ} {e : Event} {reorder : ReorderBuffer} {out : Reordered}
    (event : e.isControl = false) (pushed : w.receiver.reorder.push e = some (reorder, out))
    (fresh : out.duplicate = false) :
    w.onEvent link e = (note link
      { w with
        receiver := { w.receiver with reorder, metrics := w.receiver.metrics.eventReceived } }
      out).onReadyAll link out.ready := by
  rw [onEvent, event]
  simp only [count, pushed, fresh]
  rfl

structure Joined (start : Joiner) (taken : List Event) (w : Receiving σ) : Prop where
  joiner : w.receiver.joiner = (start.run taken).1
  events : w.events = start.joined taken
  consumed : w.consumed = true

variable {start : Joiner} {taken : List Event} {w : Receiving σ}

theorem onReady_joined (joined : Joined start taken w) (running : w.state = .running) (e : Event) :
    Joined start (taken ++ [e]) (w.onReady link e) ∧ (w.onReady link e).state = .running ∧
      (w.onReady link e).receiver.reorder = w.receiver.reorder := by
  have after : (start.run (taken ++ [e])).1 = ((start.run taken).1.push e).1 := by
    rw [Joiner.run_append]
    rfl
  have made : start.joined (taken ++ [e])
      = start.joined taken ++ (Joiner.completed ((start.run taken).1.push e).2).toList := by
    rw [Joiner.joined_append, Joiner.joined_cons]
    exact congrArg _ (List.append_nil _)
  obtain ⟨metrics, -, taking⟩ := take_same joined.consumed e
  obtain ⟨net, sinceAck, counted, same⟩ := acknowledge_same link (w.take e) e.seq
  have busy : (w.take e).state = .running := by rw [taking]; exact running
  rw [onReady_eq, if_pos busy, same, taking]
  refine ⟨⟨?_, ?_, joined.consumed⟩, running, rfl⟩
  · rw [after, ← joined.joiner]
  · rw [made, ← joined.events, ← joined.joiner, events, List.reverse_append, List.filterMap_append]
    cases Joiner.completed (w.receiver.joiner.push e).2 <;> rfl

theorem onReadyAll_joined (joined : Joined start taken w) (running : w.state = .running)
    (ready : List Event) :
    Joined start (taken ++ ready) (w.onReadyAll link ready) ∧
      (w.onReadyAll link ready).state = .running ∧
      (w.onReadyAll link ready).receiver.reorder = w.receiver.reorder := by
  induction ready generalizing taken w with
  | nil =>
      rw [List.append_nil]
      exact ⟨joined, running, rfl⟩
  | cons e rest ih =>
      obtain ⟨here, busy, buffer⟩ := onReady_joined link joined running e
      obtain ⟨later, still, same⟩ := ih here busy
      rw [onReadyAll]
      simp only [busy, if_true]
      rw [List.append_assoc] at later
      exact ⟨later, still, same.trans buffer⟩

/-- A receiver and the envelopes that it let through, of those that came from the network. -/
structure Tracks (start : Joiner) (arrived taken : List Event) (w : Receiving σ) : Prop where
  joined : Joined start taken w
  ordered : w.receiver.reorder.Ordered
  ascending : taken.Pairwise fun x y => x.seq.toNat < y.seq.toNat
  behind : ∀ e ∈ taken, e.seq.toNat < w.receiver.reorder.next
  drawn : ∀ e ∈ taken, e ∈ arrived
  held : ∀ e ∈ w.receiver.reorder.held, e ∈ arrived

variable {arrived : List Event}

theorem tracks_new (net : σ) (lane : Lane) (stream : StreamSettings) :
    Tracks (.new stream.maxFragments) arrived []
      ({ net, receiver := .new lane stream } : Receiving σ) := by
  refine ⟨⟨rfl, rfl, rfl⟩, ReorderBuffer.ordered_new _, .nil, ?_, ?_, ?_⟩
  · exact fun _ none => absurd none List.not_mem_nil
  · exact fun _ none => absurd none List.not_mem_nil
  · exact fun _ none => absurd none List.not_mem_nil

theorem onEvent_advances (tracks : Tracks start arrived taken w) (running : w.state = .running)
    {e : Event} (came : e ∈ arrived) (event : e.isControl = false) {reorder : ReorderBuffer}
    {out : Reordered} (pushed : w.receiver.reorder.push e = some (reorder, out))
    (advances : w.receiver.reorder.Advances e reorder out) :
    Tracks start arrived (taken ++ out.ready) (w.onEvent link e) := by
  obtain ⟨⟨joiner, told, consumed⟩, ordered, ascending, behind, drawn, held⟩ := tracks
  have kept : ∀ x ∈ out.ready ++ reorder.held, x ∈ arrived := by
    intro x member
    rcases List.mem_cons.mp (advances.kept.mem_iff.mp member) with rfl | old
    · exact came
    · exact held x old
  obtain ⟨sorted, before⟩ := advances.ascending ascending behind
  -- Asking for what misses changes the network and the counters only.
  obtain ⟨net, metrics, noted⟩ := note_same link
    { w with receiver := { w.receiver with reorder, metrics := w.receiver.metrics.eventReceived } } out
  rw [onEvent_ready link event pushed advances.counted, noted]
  have joinedBefore : Joined start taken
      { w with net, receiver := { w.receiver with reorder, metrics } } :=
    ⟨joiner, told, consumed⟩
  obtain ⟨joined, -, buffer⟩ := onReadyAll_joined link joinedBefore running out.ready
  refine ⟨joined, ?_, sorted, ?_, ?_, ?_⟩
  · rw [buffer]
    exact advances.ordered
  · rw [buffer]
    exact before
  · intro x member
    rcases List.mem_append.mp member with old | new
    · exact drawn x old
    · exact kept x (List.mem_append_left _ new)
  · rw [buffer]
    intro x member
    exact kept x (List.mem_append_right _ member)

/-- One envelope. -/
theorem onEvent_tracks (tracks : Tracks start arrived taken w) (running : w.state = .running)
    {e : Event} (came : e ∈ arrived) :
    ∃ more, Tracks start arrived (taken ++ more) (w.onEvent link e) := by
  have still {u : Receiving σ} (same : Tracks start arrived taken u) :
      ∃ more, Tracks start arrived (taken ++ more) u := ⟨[], (List.append_nil taken).symm ▸ same⟩
  obtain ⟨⟨joiner, told, consumed⟩, ordered, ascending, behind, drawn, held⟩ := tracks
  by_cases control : e.isControl = true
  · rw [onEvent, control, if_pos rfl, deliver, if_pos consumed]
    refine still ⟨⟨joiner, ?_, consumed⟩, ordered, ascending, behind, drawn, held⟩
    rw [← told, events, List.reverse_cons, List.filterMap_append]
    exact List.append_nil _
  · have event : e.isControl = false := Bool.eq_false_iff.mpr control
    cases pushed : w.receiver.reorder.push e with
    | none =>
        -- The number behind the last one is needed: the receiver stops with what it has.
        rw [onEvent, event]
        simp only [count, pushed]
        exact still ⟨⟨joiner, told, consumed⟩, ordered, ascending, behind, drawn, held⟩
    | some result =>
        obtain ⟨reorder, out⟩ := result
        rcases ReorderBuffer.push_spec ordered pushed with ⟨rfl, rfl, -⟩ | advances
        · rw [onEvent, event]
          simp only [count, pushed]
          exact still ⟨⟨joiner, told, consumed⟩, ordered, ascending, behind, drawn, held⟩
        · exact ⟨out.ready, onEvent_advances link
            ⟨⟨joiner, told, consumed⟩, ordered, ascending, behind, drawn, held⟩ running came event
            pushed advances⟩

theorem onEvents_tracks (tracks : Tracks start arrived taken w) (running : w.state = .running)
    {es : List Event} (came : ∀ e ∈ es, e ∈ arrived) :
    ∃ more, Tracks start arrived (taken ++ more) (w.onEvents link es) := by
  induction es generalizing taken w with
  | nil => exact ⟨[], (List.append_nil taken).symm ▸ tracks⟩
  | cons e es ih =>
      obtain ⟨here, others⟩ := List.forall_mem_cons.mp came
      obtain ⟨more, next⟩ := onEvent_tracks link tracks running here
      rw [onEvents]
      split
      · next busy =>
        obtain ⟨rest, final⟩ := ih next busy others
        exact ⟨more ++ rest, by rw [← List.append_assoc]; exact final⟩
      · exact ⟨more, next⟩

end Receiving

/-! ## Everything that a bad network can do -/

/-- Whatever acts a sender goes through over whatever link, a fresh receiver that is given any
envelopes of the run, in any order and any number of times, delivers events in ascending order, none of
them twice.  Each is made of an event that was sent, and is that event in whole if a word of 32 bits counts
its pieces. -/
theorem stream_safety {σ τ : Type} (outbound : Link σ) (inbound : Link τ) (w : Sending σ)
    (acts : List Sending.Act) (lane : Lane) (stream : StreamSettings) (net : τ)
    (arrivals : List Event) :
    let maxBytes := w.sender.maxFragmentBytes
    let sent := w.sent outbound acts
    let events := Receiving.events
      (({ net, receiver := .new lane stream } : Receiving τ).onEvents inbound arrivals)
    (∀ s ∈ sent, s.event.frag = none) →
    Joiner.Distinct maxBytes sent →
    (∀ e ∈ arrivals, e ∈ Sending.envelopes maxBytes sent) →
    (events.Pairwise fun a b => a.seq < b.seq) ∧
      (∀ d ∈ events, ∃ s ∈ sent,
        (∃ e ∈ s.envelopes maxBytes, d = { e with frag := none, data := d.data }) ∧
        (s.count maxBytes < UInt32.size → d = s.whole maxBytes)) ∧
      ∀ s ∈ sent, events.count (s.whole maxBytes) ≤ 1 := by
  intro maxBytes sent events plain distinct drawn
  have fresh : Receiving.Tracks (.new stream.maxFragments) arrivals [] _ :=
    Receiving.tracks_new net lane stream
  obtain ⟨taken, tracks⟩ := Receiving.onEvents_tracks inbound fresh rfl fun e member => member
  rw [List.nil_append] at tracks
  have made : events = (Joiner.new stream.maxFragments).joined taken := tracks.joined.events
  have ascending : events.Pairwise fun a b => a.seq < b.seq := by
    have seqs := Joiner.joined_seqs (.new stream.maxFragments) taken
    rw [← made] at seqs
    have sorted : (taken.map (·.seq)).Pairwise (· < ·) := List.pairwise_map.mpr tracks.ascending
    exact List.pairwise_map.mp (sorted.sublist seqs)
  refine ⟨ascending, ?_, ?_⟩
  · rw [made]
    refine Joiner.joined_sound distinct plain (Joiner.sound_new stream.maxFragments)
      fun e member => ?_
    obtain ⟨s, mine, envelope⟩ := List.mem_flatMap.mp (drawn e (tracks.drawn e member))
    exact ⟨s, mine, envelope⟩
  · intro s _
    have once : events.Nodup := ascending.imp fun below same => by
      rw [same] at below
      exact absurd below (Nat.lt_irrefl _)
    exact List.nodup_iff_count_le_one.mp once (s.whole maxBytes)

/-- Of a small run one envelope is lost, one comes too early and one twice. -/
theorem sample_safety :
    let envelopes := Sending.envelopes 3 Sending.sampleSent
    let arrivals := [1, 0, 1, 2].filterMap (envelopes[·]?)
    let events := Receiving.events
      (({ net := (), receiver := .new .base Sending.sampleStream } : Receiving Unit).onEvents
        Sending.sink arrivals)
    (envelopes.map (·.seq) = [0, 1, 2, 3] ∧ events.map (·.data) = [some "αβγ"]) ∧
      (events.Pairwise fun a b => a.seq < b.seq) ∧
      (∀ d ∈ events, ∃ s ∈ Sending.sampleSent, d = s.whole 3) ∧
      ∀ s ∈ Sending.sampleSent, events.count (s.whole 3) ≤ 1 := by
  intro envelopes arrivals events
  have drawn : ∀ e ∈ arrivals, e ∈ envelopes := by
    intro e member
    obtain ⟨k, -, found⟩ := List.mem_filterMap.mp member
    exact List.mem_of_getElem? found
  have safe := stream_safety Sending.sink.logged Sending.sink Sending.sample
    (Sending.sampleActs ++ [.flush]) .base Sending.sampleStream () arrivals
  simp only [Sending.sample_sent] at safe
  obtain ⟨ascending, whole, once⟩ := safe (by decide) (by decide +kernel) drawn
  refine ⟨by decide +kernel, ascending, fun d member => ?_, once⟩
  obtain ⟨s, mine, -, same⟩ := whole d member
  have few : ∀ s ∈ Sending.sampleSent, s.count 3 < UInt32.size := by decide +kernel
  exact ⟨s, mine, same (few s mine)⟩

/-! ## More pieces than a word counts -/

/-- Chunks of one byte. -/
theorem cutText_replicate (n : Nat) :
    cutText 1 [] 0 (List.replicate (n + 1) 'a') = List.replicate (n + 1) ['a'] := by
  have rest (n : Nat) :
      cutText 1 ['a'] 1 (List.replicate n 'a') = List.replicate (n + 1) ['a'] := by
    induction n with
    | zero => rfl
    | succ n ih =>
        have full : 1 < 1 + Utf8.width 'a' ∧ ['a'] ≠ [] := by decide
        rw [List.replicate_succ, cutText]
        simp only [if_pos full]
        exact congrArg (['a'] :: ·) ih
  have empty : ¬(1 < 0 + Utf8.width 'a' ∧ ([] : List Char) ≠ []) := by decide
  rw [List.replicate_succ, cutText]
  simp only [if_neg empty]
  exact rest n

namespace Sending

/-- A text with one character more than a word of 32 bits counts. -/
def overlong : Sent := ⟨.new "token" (String.ofList (List.replicate (UInt32.size + 1) 'a')), "a-1", 0⟩

theorem text_overlong : overlong.text = List.replicate (UInt32.size + 1) 'a' :=
  String.toList_ofList

theorem chunks_overlong : overlong.chunks 1 = List.replicate (UInt32.size + 1) ['a'] := by
  rw [Sent.chunks, text_overlong]
  exact cutText_replicate UInt32.size

theorem isCut_overlong : overlong.isCut 1 = true := by
  have narrow : ∀ c ∈ List.replicate (UInt32.size + 1) 'a', Utf8.width c = 1 := by
    intro c member
    rw [List.eq_of_mem_replicate member]
    rfl
  rw [Sent.isCut, text_overlong, Utf8.size_of_narrow narrow, List.length_replicate]
  decide

/-- The first piece, with the number of pieces as far as a word counts it. -/
def overlongPiece : Event :=
  { overlong.event with id := some "a-1", seq := 0, frag := some ⟨0, 1⟩, data := some "a" }

theorem mem_overlong : overlongPiece ∈ overlong.envelopes 1 := by
  have count : UInt32.ofNat (overlong.chunks 1).length = 1 := by
    rw [chunks_overlong, List.length_replicate]
    decide
  have first : overlong.envelope 1 0 ['a'] = overlongPiece := by
    rw [Sent.envelope, Event.piece, count]
    rfl
  rw [Sent.envelopes_of_cut isCut_overlong, ← first, chunks_overlong, List.replicate_succ,
    List.mapIdx_cons]
  exact List.mem_cons_self

theorem data_overlong : overlong.event.data ≠ some "a" := by
  intro same
  have text : overlong.text = ['a'] := by rw [Sent.text, same]; rfl
  have lengths := congrArg List.length text
  rw [text_overlong, List.length_replicate] at lengths
  exact absurd lengths (by decide)

end Sending

/-- Where an event has one piece more than a word counts, its first piece says that it is the only one,
and is delivered as if it were the event. -/
theorem overlong_delivered_in_part :
    let w : Sending (Unit × List (List Packet)) :=
      { Sending.sample with sender := { Sending.sampleSender with maxFragmentBytes := 1 } }
    let sent := w.sent Sending.sink.logged [.send Sending.overlong.event "a-1"]
    let arrivals := [Sending.overlongPiece]
    let events := Receiving.events
      (({ net := (), receiver := .new .base Sending.sampleStream } : Receiving Unit).onEvents
        Sending.sink arrivals)
    (∀ s ∈ sent, s.event.frag = none ∧ s.event.isControl = false) ∧ Joiner.Distinct 1 sent ∧
      (∀ e ∈ arrivals, e ∈ Sending.envelopes 1 sent) ∧
      ∃ d ∈ events, ∀ s ∈ sent, d.data ≠ s.event.data := by
  intro w sent arrivals events
  have only : sent = [Sending.overlong] := rfl
  have delivered : events = [{ Sending.overlongPiece with frag := none }] := rfl
  rw [only, delivered]
  refine ⟨?_, ?_, ?_, _, List.mem_singleton_self _, ?_⟩
  · exact List.forall_mem_singleton.mpr ⟨rfl, by decide⟩
  · exact List.Sublist.nodup (List.filter_sublist.map _) (List.nodup_singleton _)
  · exact List.forall_mem_singleton.mpr (List.mem_append_left _ Sending.mem_overlong)
  · exact List.forall_mem_singleton.mpr Sending.data_overlong.symm

end FlexLink
