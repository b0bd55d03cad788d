import FlexLink.Proofs.Envelope.RoundTrip
import FlexLink.Proofs.Stream.Safety
import FlexLink.Proofs.Wire.Framing

/-! # A stream over a good network

Where nothing is lost and the order is kept, every event that is sent arrives once, in order and
whole, and the receiver answers with acknowledgements at equal distances and with nothing else.
`InStep` says what a receiver has done after it took in envelopes that came one after the other. -/
set_option autoImplicit false
namespace FlexLink

section Counting

variable {n k : Nat}

theorem div_mod_full (positive : 0 < k) (full : k ≤ n % k + 1) :
    (n + 1) / k = n / k + 1 ∧ (n + 1) % k = 0 ∧ k * (n / k + 1) = n + 1 := by
  have below := Nat.mod_lt n positive
  have whole := Nat.div_add_mod n k
  have next : k * (n / k + 1) = n + 1 := by
    rw [Nat.mul_add, Nat.mul_one]
    omega
  have unique := (Nat.div_mod_unique positive).mpr
    ⟨(Nat.zero_add _).trans next, positive⟩
  exact ⟨unique.1, unique.2, next⟩

theorem div_mod_short (positive : 0 < k) (short : n % k + 1 < k) :
    (n + 1) / k = n / k ∧ (n + 1) % k = n % k + 1 := by
  have whole := Nat.div_add_mod n k
  refine (Nat.div_mod_unique positive).mpr ⟨?_, short⟩
  omega

end Counting

/-- The acknowledgements of the first `n` envelopes, one after every so many. -/
def acknowledgements (lane : Lane) (every n : Nat) : List (List Packet) :=
  (List.range (n / every)).map fun i =>
    lane.encodeEvent (Control.ofAck (UInt64.ofNat (every * (i + 1) - 1))).toEvent

theorem acknowledgements_full {every n : Nat} (lane : Lane) (positive : 0 < every)
    (full : every ≤ n % every + 1) :
    acknowledgements lane every (n + 1) = acknowledgements lane every n
      ++ [lane.encodeEvent (Control.ofAck (UInt64.ofNat n)).toEvent] := by
  obtain ⟨more, -, last⟩ := div_mod_full positive full
  rw [acknowledgements, more, List.range_succ, List.map_append, List.map_singleton, last,
    Nat.add_sub_cancel]
  rfl

theorem acknowledgements_short {every n : Nat} (lane : Lane) (positive : 0 < every)
    (short : n % every + 1 < every) :
    acknowledgements lane every (n + 1) = acknowledgements lane every n := by
  rw [acknowledgements, (div_mod_short positive short).1]
  rfl

namespace Receiving

variable {σ : Type}

structure Regular (start : Joiner) (all : List Event) : Prop where
  seqs : ∀ (i : Nat) (e : Event), all[i]? = some e → e.seq.toNat = i
  few : all.length ≤ lastSeq
  events : ∀ e ∈ all, e.isControl = false
  untimed : ∀ e ∈ all, e.ts = none
  accepted : ∀ result ∈ (start.run all).2, ∃ whole, result = .ok whole

structure Answered (lane : Lane) (interval n : Nat) (w : Receiving (σ × List (List Packet))) :
    Prop where
  onLane : w.receiver.lane = lane
  paced : w.receiver.ackEvery = interval
  due : w.receiver.sinceAck = n % interval
  answers : w.net.2.reverse = acknowledgements lane interval n
  acks : w.receiver.metrics.acksSent = UInt64.ofNat (n / interval)
  nacks : w.receiver.metrics.nacksSent = 0
  rejected : w.receiver.metrics.fragmentsRejected = 0

structure Served (start : Joiner) (coming : Assembler) (es : List Event)
    (w : Receiving (σ × List (List Packet))) : Prop where
  running : w.state = .running
  ongoing : w.coming = coming
  consumed : w.consumed = true
  joiner : w.receiver.joiner = (start.run es).1
  delivered : w.deliveries.reverse = (start.joined es).map .event

/-- A receiver that has taken in the envelopes `es`, the first ones of a stream. -/
structure InStep (start : Joiner) (maxHeld interval : Nat) (lane : Lane) (coming : Assembler)
    (es : List Event) (w : Receiving (σ × List (List Packet))) : Prop where
  served : Served start coming es w
  reorder : w.receiver.reorder = ⟨maxHeld, es.length, [], []⟩
  answered : Answered lane interval es.length w

variable {link : Link σ} {start : Joiner} {maxHeld interval n : Nat} {lane : Lane} {a : Assembler}
  {w : Receiving (σ × List (List Packet))} {es all : List Event} {e : Event}

theorem Regular.next (regular : Regular start all) {rest : List Event}
    (split : all = es ++ e :: rest) :
    e ∈ all ∧ e.seq.toNat = es.length ∧ es.length < lastSeq ∧
      ∃ whole, ((start.run es).1.push e).2 = .ok whole := by
  have long : all.length = es.length + (rest.length + 1) := by
    rw [split, List.length_append, List.length_cons]
  refine ⟨?_, ?_, ?_, ?_⟩
  · rw [split]
    exact List.mem_append_right _ List.mem_cons_self
  · apply regular.seqs es.length e
    rw [split, List.getElem?_append_right (Nat.le_refl _), Nat.sub_self]
    rfl
  · have := regular.few
    omega
  · apply regular.accepted
    rw [split, Joiner.run_append]
    exact List.mem_append_right _ List.mem_cons_self

theorem sendControl_logged (reliable : link.Reliable) (w : Receiving (σ × List (List Packet)))
    (c : Control UInt64) :
    ∃ net metrics, w.sendControl link.logged c = { w with
        net := (net, w.receiver.lane.encodeEvent c.toEvent :: w.net.2)
        receiver := { w.receiver with metrics } } ∧
      metrics.acksSent = w.receiver.metrics.acksSent ∧
      metrics.nacksSent = w.receiver.metrics.nacksSent ∧
      metrics.fragmentsRejected = w.receiver.metrics.fragmentsRejected := by
  rw [sendControl]
  simp only [Link.logged_send reliable]
  exact ⟨_, _, rfl, rfl, rfl, rfl⟩

theorem acknowledge_answered (reliable : link.Reliable) (positive : 0 < interval)
    (answered : Answered lane interval n w) :
    Answered lane interval (n + 1) (w.acknowledge link.logged (UInt64.ofNat n)) := by
  obtain ⟨onLane, paced, due, answers, acks, nacks, rejected⟩ := answered
  rw [acknowledge, paced, due]
  by_cases full : interval ≤ n % interval + 1
  · obtain ⟨count, rest, -⟩ := div_mod_full positive full
    obtain ⟨net, metrics, sent, sameAcks, sameNacks, sameRejected⟩ := sendControl_logged reliable
      { w with receiver := { w.receiver with sinceAck := 0 } } (.ofAck (UInt64.ofNat n))
    simp only [if_pos full, sent]
    refine ⟨onLane, paced, rest.symm, ?_, ?_, sameNacks.trans nacks, sameRejected.trans rejected⟩
    · rw [acknowledgements_full lane positive full, ← answers, ← onLane]
      exact List.reverse_cons
    · rw [count, UInt64.ofNat_add, ← acks, ← sameAcks]
      rfl
  · have short := Nat.lt_of_not_le full
    obtain ⟨count, rest⟩ := div_mod_short positive short
    rw [if_neg full]
    refine ⟨onLane, paced, rest.symm, ?_, ?_, nacks, rejected⟩
    · rw [acknowledgements_short lane positive short]
      exact answers
    · rw [count]
      exact acks

theorem take_served (served : Served start a es w)
    (fine : ∃ whole, ((start.run es).1.push e).2 = .ok whole) :
    Served start a (es ++ [e]) (w.take e) ∧
      (w.take e).receiver.reorder = w.receiver.reorder ∧
      (Answered lane interval n w → Answered lane interval n (w.take e)) := by
  obtain ⟨running, ongoing, consumed, joiner, delivered⟩ := served
  obtain ⟨whole, accepted⟩ := fine
  obtain ⟨metrics, same, taken⟩ := take_same consumed e
  rw [joiner] at same taken
  rw [same whole accepted] at taken
  rw [taken]
  refine ⟨⟨running, ongoing, consumed, ?_, ?_⟩, rfl, fun answered => ?_⟩
  · rw [Joiner.run_append]
    rfl
  · rw [Joiner.joined_append, Joiner.joined_cons, List.map_append, ← delivered,
      List.reverse_append]
    cases Joiner.completed ((start.run es).1.push e).2 <;> rfl
  · obtain ⟨onLane, paced, due, answers, acks, nacks, rejected⟩ := answered
    exact ⟨onLane, paced, due, answers, acks, nacks, rejected⟩

/-- One envelope that is next. -/
theorem onEvent_inStep (reliable : link.Reliable) (positive : 0 < interval)
    (regular : Regular start all) {rest : List Event} (split : all = es ++ e :: rest)
    (step : InStep start maxHeld interval lane a es w) :
    InStep start maxHeld interval lane a (es ++ [e]) (w.onEvent link.logged e) := by
  obtain ⟨⟨running, ongoing, consumed, joiner, delivered⟩, reorder, answered⟩ := step
  obtain ⟨member, here, below, fine⟩ := regular.next split
  have seq : e.seq = UInt64.ofNat es.length := by rw [← here, UInt64.ofNat_toNat]
  have pushed : w.receiver.reorder.push e
      = some (⟨maxHeld, es.length + 1, [], []⟩, { ready := [e] }) := by
    rw [reorder]
    exact ReorderBuffer.push_in_order here below
  -- Nothing is missing, held or skipped: admitting moves the buffer on and counts.
  let admitted : Receiving (σ × List (List Packet)) :=
    { w with
      receiver := { w.receiver with
        reorder := ⟨maxHeld, es.length + 1, [], []⟩
        metrics := w.receiver.metrics.eventReceived } }
  have handled : w.onEvent link.logged e = (admitted.onReadyAll link.logged [e]) :=
    onEvent_ready link.logged (regular.events e member) pushed rfl
  obtain ⟨onLane, paced, due, answers, acks, nacks, rejected⟩ := answered
  obtain ⟨served, buffer, keeps⟩ := take_served (w := admitted)
    ⟨running, ongoing, consumed, joiner, delivered⟩ fine
  have taken := keeps ⟨onLane, paced, due, answers, acks, nacks, rejected⟩
  have answered := acknowledge_answered reliable positive taken
  obtain ⟨net, sinceAck, metrics, same⟩ := acknowledge_same link.logged (admitted.take e) e.seq
  have ready : admitted.onReadyAll link.logged [e] = (admitted.take e).acknowledge link.logged e.seq := by
    rw [onReadyAll, onReady_eq, if_pos served.running]
    exact ite_self _
  rw [← seq, same] at answered
  rw [handled, ready, same]
  refine ⟨⟨served.running, served.ongoing, served.consumed, served.joiner, served.delivered⟩, ?_, ?_⟩
  · rw [List.length_append, List.length_singleton]
    exact buffer
  · rw [List.length_append, List.length_singleton]
    exact answered

def textOf (e : Event) : Except RunError (List UInt8) := .ok (Utf8.encode e.render)

/-- The texts of some envelopes that are next. -/
theorem onTexts_inStep (reliable : link.Reliable) (positive : 0 < interval)
    (regular : Regular start all) {now later : List Event} (split : all = es ++ (now ++ later))
    (step : InStep start maxHeld interval lane a es w) :
    InStep start maxHeld interval lane a (es ++ now) (w.onTexts link.logged (now.map textOf)) := by
  induction now generalizing es w with
  | nil =>
      rw [List.append_nil]
      exact step
  | cons e now ih =>
      have member := (regular.next split).1
      have next := onEvent_inStep reliable positive regular split step
      have read : w.onText link.logged (textOf e) = w.onEvent link.logged e := by
        rw [onText, textOf, parseOutcome,
          parseText_encode (e.parse_render (regular.untimed e member))]
      have rest := ih (by rw [split, List.append_assoc]; rfl) next
      rw [List.append_assoc] at rest
      rw [List.map_cons, onTexts, read]
      simp only [next.served.running, if_true]
      exact rest

/-- Batches whose packets hold the envelopes that are still to come. -/
theorem onBatches_inStep (reliable : link.Reliable) (positive : 0 < interval)
    (regular : Regular start all) {batches : List Batch} {rest : List Event}
    (split : all = es ++ rest) (step : InStep start maxHeld interval lane a es w)
    (coming : (a.pushAll batches.flatten).2 = rest.map textOf) :
    InStep start maxHeld interval lane (a.pushAll batches.flatten).1 all
      (batches.foldl (onBatch link.logged) w) := by
  induction batches generalizing es rest w a with
  | nil =>
      have none : rest = [] := List.map_eq_nil_iff.mp coming.symm
      rw [split, none, List.append_nil]
      exact step
  | cons batch batches ih =>
      rw [List.flatten_cons, Assembler.pushAll_append] at coming ⊢
      obtain ⟨now, later, parts, here, behind⟩ := List.map_eq_append_iff.mp coming.symm
      rw [parts] at split
      obtain ⟨⟨running, ongoing, consumed, joiner, delivered⟩, reorder, answered⟩ := step
      let received : Receiving (σ × List (List Packet)) :=
        { w with
          coming := (a.pushAll batch).1
          receiver := { w.receiver with
            metrics := w.receiver.metrics.addBytesReceived (batch.length * Packet.size) } }
      have same : InStep start maxHeld interval lane (a.pushAll batch).1 es received := by
        obtain ⟨onLane, paced, due, answers, acks, nacks, rejected⟩ := answered
        exact ⟨⟨running, rfl, consumed, joiner, delivered⟩, reorder,
          ⟨onLane, paced, due, answers, acks, nacks, rejected⟩⟩
      have next := onTexts_inStep reliable positive regular split same
      have handled : w.onBatch link.logged batch = received.onTexts link.logged (now.map textOf) := by
        rw [onBatch, if_pos running, ongoing, here]
        rfl
      rw [List.foldl_cons, handled]
      exact ih (by rw [split, List.append_assoc]) next behind.symm

theorem inStep_new (net : σ) (stream : StreamSettings) :
    InStep (.clear (max stream.maxFragments 1)) (max stream.maxReorder 1) (max stream.ackEvery 1) lane
      {} [] ({ net := (net, []), receiver := .new lane stream } :
        Receiving (σ × List (List Packet))) := by
  refine ⟨⟨rfl, rfl, rfl, rfl, rfl⟩, rfl, rfl, rfl, ?_, ?_, ?_, rfl, rfl⟩
  · exact (Nat.zero_mod _).symm
  · rw [acknowledgements, List.length_nil, Nat.zero_div]
    rfl
  · rw [List.length_nil, Nat.zero_div]
    rfl

end Receiving

theorem pushAll_encodeAll (lane : Lane) {es : List Event} (untimed : ∀ e ∈ es, e.ts = none)
    {a : Assembler} (idle : a.opened = none) :
    (a.pushAll (es.flatMap lane.encodeEvent)).2 = es.map Receiving.textOf := by
  induction es with
  | nil => rfl
  | cons e es ih =>
      obtain ⟨here, others⟩ := List.forall_mem_cons.mp untimed
      have free := zero_notMem_of_plain (e.plain here)
      rw [List.flatMap_cons, Assembler.pushAll_append]
      have run : a.pushAll (lane.encodeEvent e) = (a, [.ok (Utf8.encode e.render)]) :=
        Assembler.pushAll_pack_idle idle lane free
      rw [run, ih others]
      rfl

/-- The envelopes of events that are sent over a link that fails no call are regular for a joiner
that accepts as many pieces as each of the events has. -/
theorem regular_sent {σ : Type} {link : Link σ} (reliable : link.Reliable)
    {w : Sending (σ × List (List Packet))} (start : w.sender.nextSeq = 0) {limit : Nat}
    {acts : List Sending.Act} (quiet : ∀ a ∈ acts, a.Quiet)
    (plain : ∀ s ∈ w.sent link.logged acts,
      s.event.ev ≠ Event.controlName ∧ s.event.frag = none ∧ s.event.ts = none)
    (fit : ∀ s ∈ w.sent link.logged acts, s.count w.sender.maxFragmentBytes ≤ limit)
    (word : limit < UInt32.size)
    (few : (Sending.envelopes w.sender.maxFragmentBytes (w.sent link.logged acts)).length ≤ lastSeq) :
    Receiving.Regular (.clear limit)
      (Sending.envelopes w.sender.maxFragmentBytes (w.sent link.logged acts)) := by
  have seqs := Sending.seqs_run (w := w) reliable quiet
  rw [start] at seqs
  have origin {e : Event}
      (member : e ∈ Sending.envelopes w.sender.maxFragmentBytes (w.sent link.logged acts)) :
      e.isControl = false ∧ e.ts = none := by
    obtain ⟨s, mine, envelope⟩ := List.mem_flatMap.mp member
    obtain ⟨ev, ts⟩ := Sent.fields_of_envelope envelope
    obtain ⟨name, -, untimed⟩ := plain s mine
    rw [Event.isControl, ev, ts]
    exact ⟨beq_eq_false_iff_ne.mpr name, untimed⟩
  refine ⟨fun i e found => ?_, few, fun e member => (origin member).1,
    fun e member => (origin member).2, ?_⟩
  · obtain ⟨inside, here⟩ := List.getElem?_eq_some_iff.mp found
    have number := congrArg (·[i]?) seqs
    simp only [List.getElem?_map, found, List.getElem?_range', inside, Option.map_some, Nat.zero_add,
      Nat.one_mul, Option.some.injEq] at number
    rw [number]
    have top : lastSeq < UInt64.size := by decide
    exact UInt64.toNat_ofNat_of_lt' (Nat.lt_of_lt_of_le inside (Nat.le_trans few (Nat.le_of_lt top)))
  · exact (Joiner.run_sent (fun s member => (plain s member).2.1) fit
      fun s member => Nat.lt_of_le_of_lt (fit s member) word).2.2

/-! ## From sender to receiver -/

section EndToEnd

variable {σ τ : Type}

/-- A new sender on a network on which nothing was sent yet. -/
theorem fresh_sender {mtu : Nat} {lane : Lane} {stream : StreamSettings}
    {reliability : ReliabilitySettings} {sender : StreamSender}
    (made : StreamSender.new mtu lane stream reliability = .ok sender) :
    sender.nextSeq = 0 ∧ sender.pending = [] ∧ sender.lane = lane ∧
      sender.maxFragmentBytes = stream.maxFragmentBytes := by
  rw [StreamSender.new] at made
  split at made
  · cases made
  · cases made
    exact ⟨rfl, rfl, rfl, rfl⟩

/-- Every send returns the number under which its event is delivered. -/
theorem results_whole {link : Link σ} (reliable : link.Reliable)
    {w : Sending (σ × List (List Packet))} (start : w.sender.nextSeq = 0) {acts : List Sending.Act}
    (quiet : ∀ a ∈ acts, a.Quiet)
    (few : (Sending.envelopes w.sender.maxFragmentBytes (w.sent link.logged acts)).length
      < UInt64.size) :
    w.results link.logged acts = (w.sent link.logged acts).map fun s =>
      .ok (s.whole w.sender.maxFragmentBytes).seq.toNat := by
  rw [Sending.results_logged reliable quiet]
  refine List.map_congr_left fun s member => ?_
  have below := Sending.last_lt_run (w := w) reliable quiet s member
  rw [start, Nat.zero_add] at below
  have small : s.last w.sender.maxFragmentBytes < UInt64.size := Nat.lt_trans below few
  exact congrArg Except.ok (UInt64.toNat_ofNat_of_lt' small).symm

/-- After a last flush everything that was queued is handed over. -/
theorem handed_run {link : Link σ} (reliable : link.Reliable)
    {w : Sending (σ × List (List Packet))} (unsent : w.net.2 = [] ∧ w.sender.pending = [])
    {acts : List Sending.Act} (quiet : ∀ a ∈ acts ++ [.flush], a.Quiet) :
    (w.run link.logged (acts ++ [.flush])).net.2.reverse.flatten
      = (Sending.envelopes w.sender.maxFragmentBytes (w.sent link.logged (acts ++ [.flush]))).flatMap
          w.sender.lane.encodeEvent := by
  obtain ⟨-, -, packets⟩ := Sending.run_logged (w := w) reliable quiet
  have empty : (w.run link.logged (acts ++ [.flush])).sender.pending = [] := by
    rw [Sending.run_append]
    exact (Sending.flush_logged reliable).2.1
  rw [empty, List.append_nil, Sending.handed, Sending.handed, unsent.1, unsent.2] at packets
  exact packets

/-- Over networks that fail no call and deliver frames in order, every event that is sent is
delivered once, in order and whole, under the number that its send returned, and the receiver sends
acknowledgements at equal distances and nothing else.  (A run of more than `lastSeq` envelopes would need
a number past the largest one of a word.) -/
theorem stream_completeness {outbound : Link σ} {inbound : Link τ} (toReceiver : outbound.Reliable)
    (toSender : inbound.Reliable) {mtu : Nat} (valid : minMtu ≤ mtu ∧ mtu ≤ maxMtu)
    {lane : Lane} {sending : StreamSettings} {reliability : ReliabilitySettings}
    {sender : StreamSender} (made : StreamSender.new mtu lane sending reliability = .ok sender)
    (net : σ) {acts : List Sending.Act} (quiet : ∀ a ∈ acts, a.Quiet)
    (back : τ) (answerLane : Lane) (receiving : StreamSettings)
    (countable : receiving.maxFragments < UInt32.size) :
    let w : Sending (σ × List (List Packet)) := { net := (net, []), sender }
    let maxBytes := sending.maxFragmentBytes
    let run := acts ++ [.flush]
    let sent := w.sent outbound.logged run
    let total := (Sending.envelopes maxBytes sent).length
    let interval := max receiving.ackEvery 1
    (∀ s ∈ sent, s.event.ev ≠ Event.controlName ∧ s.event.frag = none ∧ s.event.ts = none) →
    (∀ s ∈ sent, s.count maxBytes ≤ max receiving.maxFragments 1) →
    total ≤ lastSeq →
    (w.results outbound.logged run = sent.map fun s => .ok (s.whole maxBytes).seq.toNat) ∧
      ∃ frames, FramePacker.packCalls mtu (w.run outbound.logged run).net.2.reverse = .ok frames ∧
        ∀ batches : List Batch, batches.flatten = frames.flatten →
          let receiver := batches.foldl (Receiving.onBatch inbound.logged)
            { net := (back, []), receiver := .new answerLane receiving }
          receiver.deliveries.reverse = sent.map (fun s => .event (s.whole maxBytes)) ∧
            receiver.net.2.reverse = acknowledgements answerLane interval total ∧
            receiver.receiver.metrics.acksSent.toNat = total / interval ∧
            receiver.receiver.metrics.nacksSent = 0 ∧
            receiver.receiver.metrics.fragmentsRejected = 0 := by
  intro w maxBytes run sent total interval plain fit few
  obtain ⟨start, pending, sameLane, sameBytes⟩ := fresh_sender made
  have quiet : ∀ a ∈ run, a.Quiet := by
    intro a member
    rcases List.mem_append.mp member with own | last
    · exact quiet a own
    · rw [List.mem_singleton.mp last]
      trivial
  have word : max receiving.maxFragments 1 < UInt32.size := Nat.max_lt.mpr ⟨countable, by decide⟩
  have bytes : w.sender.maxFragmentBytes = maxBytes := sameBytes
  have top : lastSeq < UInt64.size := by decide
  have regular := regular_sent (w := w) toReceiver start quiet plain (by rw [bytes]; exact fit) word
    (by rw [bytes]; exact few)
  rw [bytes] at regular
  have handed := handed_run (w := w) toReceiver ⟨rfl, pending⟩ quiet
  rw [bytes] at handed
  obtain ⟨frames, packed, packets⟩ :=
    FramePacker.packCalls_valid valid (w.run outbound.logged run).net.2.reverse
  refine ⟨?_, frames, packed, fun batches same => ?_⟩
  · have results := results_whole (w := w) toReceiver start quiet
    rw [bytes] at results
    exact results (Nat.lt_of_le_of_lt few top)
  · have coming : (Assembler.pushAll {} batches.flatten).2
        = (Sending.envelopes maxBytes sent).map Receiving.textOf := by
      rw [same, packets, handed]
      exact pushAll_encodeAll _ regular.untimed rfl
    have positive : 0 < interval := Nat.lt_of_lt_of_le Nat.one_pos (Nat.le_max_right _ 1)
    obtain ⟨served, -, answered⟩ := Receiving.onBatches_inStep toSender positive regular
      (List.nil_append _).symm (Receiving.inStep_new back receiving) coming
    obtain ⟨-, joined, -⟩ := Joiner.run_sent (fun s member => (plain s member).2.1) fit
      fun s member => Nat.lt_of_le_of_lt (fit s member) word
    refine ⟨?_, answered.answers, ?_, answered.nacks, answered.rejected⟩
    · rw [served.delivered, Sending.envelopes, joined, List.map_map]
      rfl
    · rw [answered.acks]
      refine UInt64.toNat_ofNat_of_lt' ?_
      exact Nat.lt_of_le_of_lt (Nat.le_trans (Nat.div_le_self _ _) few) top

/-- Four envelopes in frames of one packet: both events arrive and two acknowledgements go back. -/
theorem sample_completeness :
    ∃ frames, FramePacker.packCalls 28
          (Sending.sample.run Sending.sink.logged (Sending.sampleActs ++ [.flush])).net.2.reverse
        = .ok frames ∧
      let receiver := frames.foldl (Receiving.onBatch Sending.sink.logged)
        { net := ((), []), receiver := .new .base Sending.sampleStream }
      receiver.deliveries.reverse = [
          .event { v := 1, ev := "token", id := some "a-1", seq := 2, data := some "αβγ" },
          .event { v := 1, ev := "token", seq := 3, data := some "hi" }] ∧
        receiver.receiver.metrics.acksSent.toNat = 2 := by
  have reliable : Sending.sink.Reliable := fun _ _ => rfl
  have made : StreamSender.new 28 .base Sending.sampleStream {} = .ok Sending.sampleSender := rfl
  have quiet : ∀ a ∈ Sending.sampleActs, a.Quiet := by
    simp [Sending.sampleActs, Sending.Act.Quiet, Control.ofAck]
  have complete := stream_completeness reliable reliable (show minMtu ≤ 28 ∧ 28 ≤ maxMtu by decide)
    made () quiet () .base Sending.sampleStream (by decide)
  have start : ({ net := ((), []), sender := Sending.sampleSender } :
      Sending (Unit × List (List Packet))) = Sending.sample := rfl
  simp only [start, Sending.sample_sent] at complete
  obtain ⟨-, frames, packed, delivers⟩ :=
    complete (by decide) (by decide +kernel) (by decide +kernel)
  obtain ⟨delivered, -, acks, -, -⟩ := delivers frames rfl
  refine ⟨frames, packed, delivered.trans ?_, acks.trans ?_⟩
  · decide +kernel
  · decide +kernel

end EndToEnd

end FlexLink
