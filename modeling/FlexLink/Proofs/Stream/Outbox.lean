import FlexLink.Proofs.Stream.Sharing

/-! # What a shared sender hands over

`Orderly` is what every step keeps.  The envelopes that were queued fall into groups: each group left
in one call, of a send or a flush, and the last one still waits.  What the buffer keeps, what is owed
and what was sent again are the packets of single envelopes under their numbers. -/
set_option autoImplicit false
namespace FlexLink

namespace StreamSender

variable {es : List Event}

theorem Numbered.append_numberFrom (numbered : Numbered es) (pieces : List Event) :
    Numbered (es ++ numberFrom es.length pieces) := by
  induction pieces generalizing es with
  | nil =>
      have none : numberFrom es.length [] = [] := rfl
      rw [none, List.append_nil]
      exact numbered
  | cons p rest ih =>
      have more := ih (numbered.snoc (e := { p with seq := UInt64.ofNat es.length }) rfl)
      rw [List.length_append, List.append_assoc] at more
      rw [numberFrom_cons]
      exact more

theorem new_eq {mtu : Nat} {lane : Lane} {stream : StreamSettings}
    {reliability : ReliabilitySettings} {s : StreamSender}
    (made : new mtu lane stream reliability = .ok s) :
    ∃ frameSize, frameCapacity mtu = .ok frameSize ∧ s = {
      lane, frameSize
      maxFragmentBytes := stream.maxFragmentBytes
      reliability := .new reliability } := by
  rw [new] at made
  cases capacity : frameCapacity mtu with
  | error why =>
      rw [capacity] at made
      cases made
  | ok frameSize =>
      rw [capacity] at made
      cases made
      exact ⟨frameSize, rfl, rfl⟩

theorem frameCapacity_pos {mtu full : Nat} (capacity : frameCapacity mtu = .ok full) : 0 < full := by
  rw [frameCapacity, validMtu] at capacity
  by_cases valid : minMtu ≤ mtu ∧ mtu ≤ maxMtu
  · rw [if_pos valid] at capacity
    cases capacity
    have room : Packet.size ≤ mtu - headerSize := Nat.le_sub_of_add_le' valid.1
    exact Nat.div_pos room (by decide)
  · rw [if_neg valid] at capacity
    cases capacity

end StreamSender

namespace SharedSender

open StreamSender

variable {σ : Type} {link : Link σ} {lane : Lane} {es : List Event}

/-! ## Calls -/

/-- The packets of the calls that hand over for the first time. -/
def firsts (calls : List Call) : List (List Packet) :=
  (calls.filter (·.caller.isFirst)).map (·.packets)

theorem firsts_snoc (calls : List Call) (call : Call) :
    firsts (calls ++ [call])
      = firsts calls ++ if call.caller.isFirst then [call.packets] else [] := by
  simp only [firsts, List.filter_append, List.map_append, List.filter_singleton]
  cases call.caller.isFirst <;> rfl

/-- At most one call, by `caller`: what waits and what is counted may change with it. -/
def Hands (caller : Caller) (w after : Sending (σ × List Call)) : Prop :=
  ∃ net new pending metrics,
    after = { w with
      net := (net, w.net.2 ++ new)
      sender := { w.sender with pending, metrics } } ∧
    ∀ call ∈ new, call.caller = caller

section Groups

variable {w : Sending (σ × List Call)} {caller : Caller}

theorem hands_flush (link : Link σ) (caller : Caller) (w : Sending (σ × List Call)) :
    Hands caller w (w.flush (link.calledBy caller)).1 := by
  rcases w.flush_calledBy link caller with ⟨-, same⟩ | ⟨net, metrics, result, same⟩
  · rw [same]
    exact ⟨w.net.1, [], w.sender.pending, w.sender.metrics, by rw [List.append_nil], by simp⟩
  · rw [same]
    exact ⟨net, [⟨caller, w.sender.pending, result⟩], [], metrics, rfl, by simp⟩

theorem hands_settle (link : Link σ) (caller : Caller) (w : Sending (σ × List Call)) :
    Hands caller w (w.settle (link.calledBy caller)).1 := by
  rcases w.settle_calledBy link caller with ⟨-, same⟩ | ⟨same, -⟩
  · rw [same]
    exact ⟨w.net.1, [], w.sender.pending, w.sender.metrics, by rw [List.append_nil], by simp⟩
  · rw [same]
    exact hands_flush link caller w

theorem hands_retransmit (link : Link σ) (caller : Caller) (w : Sending (σ × List Call))
    (frame : UInt64 × List Packet) : Hands caller w (w.retransmit (link.calledBy caller) [frame]) := by
  obtain ⟨net, metrics, result, same⟩ := w.retransmit_calledBy link caller frame
  rw [same]
  exact ⟨net, [⟨caller, frame.2, result⟩], w.sender.pending, metrics, rfl, by simp⟩

/-- The envelopes up to here left in groups, a call for each group, and the last ones wait. -/
def Grouped (lane : Lane) (es : List Event) (w : Sending (σ × List Call)) : Prop :=
  ∃ (groups : List (List Event)) (waiting : List Event), es = groups.flatten ++ waiting ∧
    firsts w.net.2 = groups.map (·.flatMap lane.encodeEvent) ∧
    w.sender.pending = waiting.flatMap lane.encodeEvent

theorem Grouped.flush (grouped : Grouped lane es w) (first : caller.isFirst = true) :
    Grouped lane es (w.flush (link.calledBy caller)).1 := by
  rcases w.flush_calledBy link caller with ⟨-, same⟩ | ⟨net, metrics, result, same⟩
  · rw [same]
    exact grouped
  · obtain ⟨groups, waiting, all, calls, pending⟩ := grouped
    rw [same]
    refine ⟨groups ++ [waiting], [], ?_, ?_, rfl⟩
    · rw [all, List.flatten_append, List.flatten_singleton, List.append_nil]
    · rw [firsts_snoc, if_pos first, calls, pending, List.map_append, List.map_singleton]

theorem Grouped.settle (grouped : Grouped lane es w) (first : caller.isFirst = true) :
    Grouped lane es (w.settle (link.calledBy caller)).1 := by
  rcases w.settle_calledBy link caller with ⟨-, same⟩ | ⟨same, -⟩
  · rw [same]
    exact grouped
  · rw [same]
    exact grouped.flush first

theorem Grouped.retransmit (grouped : Grouped lane es w) (again : caller.isFirst = false)
    (frame : UInt64 × List Packet) :
    Grouped lane es (w.retransmit (link.calledBy caller) [frame]) := by
  obtain ⟨net, metrics, result, same⟩ := w.retransmit_calledBy link caller frame
  obtain ⟨groups, waiting, all, calls, pending⟩ := grouped
  rw [same]
  refine ⟨groups, waiting, all, ?_, pending⟩
  rw [firsts_snoc, again, calls]
  exact List.append_nil _

theorem Grouped.queue (grouped : Grouped lane es w) (onLane : w.sender.lane = lane) (p : Event) :
    Grouped lane (es ++ [{ p with seq := UInt64.ofNat w.sender.nextSeq }])
      { w with sender := w.sender.queue p } := by
  obtain ⟨groups, waiting, all, calls, pending⟩ := grouped
  refine ⟨groups, waiting ++ [{ p with seq := UInt64.ofNat w.sender.nextSeq }], ?_, calls, ?_⟩
  · rw [all, List.append_assoc]
  · rw [List.flatMap_append, ← pending, List.flatMap_singleton, ← onLane]
    rfl

end Groups

/-! ## Frames that may be sent again -/

def Original (lane : Lane) (es : List Event) (frame : UInt64 × List Packet) : Prop :=
  ∃ e ∈ es, e.seq = frame.1 ∧ frame.2 = lane.encodeEvent e

theorem Original.mono {frame : UInt64 × List Packet} (original : Original lane es frame)
    (more : List Event) : Original lane (es ++ more) frame := by
  obtain ⟨e, member, same⟩ := original
  exact ⟨e, List.mem_append_left more member, same⟩

def Keeping (lane : Lane) (es : List Event) (b : ResendBuffer UInt64) : Prop :=
  ∀ seq packets, b.frames.get? seq = some packets → Original lane es (seq, packets)

variable {b : ResendBuffer UInt64}

theorem Keeping.record (keeping : Keeping lane es b) (e : Event) :
    Keeping lane (es ++ [e]) (b.record e.seq (lane.encodeEvent e)) := by
  intro seq packets kept
  have before := ResendBuffer.get?_of_evict _ kept
  rw [Table.get?_insert] at before
  by_cases own : seq = e.seq
  · rw [if_pos own] at before
    exact ⟨e, List.mem_append_right es (List.mem_singleton.mpr rfl), own.symm,
      (Option.some.inj before).symm⟩
  · rw [if_neg own] at before
    exact (keeping seq packets before).mono [e]

theorem Keeping.release (keeping : Keeping lane es b) (acked : UInt64) :
    Keeping lane es (b.release acked).1 := by
  intro seq packets kept
  rw [ResendBuffer.get?_release] at kept
  split at kept
  · cases kept
  · exact keeping seq packets kept

theorem Keeping.handle {r : Reliability UInt64} (keeping : Keeping lane es r.buffer)
    (c : Control UInt64) :
    Keeping lane es (r.handle c).1.buffer ∧
      ∀ frame ∈ (r.handle c).2, Original lane es frame := by
  have kept : Keeping lane es (r.handle c).1.buffer := by
    rw [Reliability.handle]
    cases c.ack with
    | none => exact keeping
    | some acked => exact keeping.release acked
  refine ⟨kept, ?_⟩
  rintro ⟨seq, packets⟩ member
  obtain ⟨key, -, found⟩ := List.mem_filterMap.mp member
  obtain ⟨own, there, same⟩ := Option.map_eq_some_iff.mp found
  cases same
  exact kept seq packets there

/-! ## What sends return -/

/-- What a send returns, by the calls that it made: the number `last` unless its call failed. -/
inductive Answers (last : Nat) : List Call → Except StreamError Nat → Prop
  | quiet : Answers last [] (.ok last)
  | sent (caller : Caller) (packets : List Packet) :
      Answers last [⟨caller, packets, .ok ()⟩] (.ok last)
  | failed (caller : Caller) (packets : List Packet) (why : TransportError) :
      Answers last [⟨caller, packets, .error why⟩] (.error (.transport why))

def sendCalls (k : Nat) (calls : List Call) : List Call :=
  calls.filter (·.caller = .send k)

theorem sendCalls_append_of_not {k : Nat} {calls new : List Call}
    (others : ∀ call ∈ new, call.caller ≠ .send k) :
    sendCalls k (calls ++ new) = sendCalls k calls := by
  have none : new.filter (·.caller = .send k) = [] :=
    List.filter_eq_nil_iff.mpr fun call member own => others call member (of_decide_eq_true own)
  rw [sendCalls, List.filter_append, none, List.append_nil]
  rfl

/-- The end of a send answers by the call that it makes, if it makes one. -/
theorem answers_settle (link : Link σ) (w : Sending (σ × List Call)) (k : Nat)
    (before : sendCalls k w.net.2 = []) :
    Answers (w.sender.nextSeq - 1)
      (sendCalls k (w.settle (link.calledBy (.send k))).1.net.2)
      (w.settle (link.calledBy (.send k))).2 := by
  have own (call : Call) (mine : call.caller = .send k) :
      sendCalls k (w.net.2 ++ [call]) = [call] := by
    rw [sendCalls] at before
    rw [sendCalls, List.filter_append, before]
    simp [mine]
  rcases w.settle_calledBy link (.send k) with ⟨-, same⟩ | ⟨state, result⟩
  · rw [same, before]
    exact .quiet
  · rw [state, result]
    rcases w.flush_calledBy link (.send k) with ⟨-, same⟩ | ⟨net, metrics, outcome, same⟩
    · rw [same, before]
      exact .quiet
    · rw [same, own _ rfl]
      cases outcome with
      | ok => exact .sent _ _
      | error why => exact .failed _ _ why

/-- The `k`-th of the sends that are over returned by its calls; a send that holds the sender has
made none yet. -/
structure Returns (maxBytes : Nat) (x : SharedSender σ) : Prop where
  free : x.unqueued = none → x.begun.length = x.returned.length
  held : ∀ rest, x.unqueued = some rest → ∃ earlier s,
    x.begun = earlier ++ [s] ∧ earlier.length = x.returned.length ∧
      s.first + s.count maxBytes = x.sending.sender.nextSeq + rest.length
  made : ∀ call ∈ x.calls, ∀ k, call.caller = .send k → k < x.returned.length
  answers : ∀ (k : Nat) (s : Sent) result, x.begun[k]? = some s → x.returned[k]? = some result →
    Answers (s.last maxBytes) (sendCalls k x.calls) result

variable {maxBytes full : Nat} {x : SharedSender σ}

/-- Other calls than those of sends change nothing of it. -/
theorem Returns.hand (returns : Returns maxBytes x) {caller : Caller}
    {w : Sending (σ × List Call)} (hands : Hands caller x.sending w)
    (other : ∀ k, caller ≠ .send k) (owed : List (UInt64 × List Packet)) :
    Returns maxBytes { x with sending := w, owed } := by
  obtain ⟨net, new, pending, metrics, rfl, by_caller⟩ := hands
  have foreign (k : Nat) : ∀ call ∈ new, call.caller ≠ .send k := by
    intro call member own
    rw [by_caller call member] at own
    exact other k own
  refine ⟨returns.free, returns.held, ?_, ?_⟩
  · intro call member k own
    rcases List.mem_append.mp member with old | added
    · exact returns.made call old k own
    · exact absurd own (foreign k call added)
  · intro k s result here there
    show Answers (s.last maxBytes) (sendCalls k (x.calls ++ new)) result
    rw [sendCalls_append_of_not (foreign k)]
    exact returns.answers k s result here there

/-! ## Steps and runs -/

structure Orderly (lane : Lane) (maxBytes full : Nat) (es : List Event) (x : SharedSender σ) :
    Prop where
  onLane : x.sending.sender.lane = lane
  cutting : x.sending.sender.maxFragmentBytes = maxBytes
  framing : x.sending.sender.frameSize = full
  count : x.sending.sender.nextSeq = es.length
  numbered : Numbered es
  events : Sending.envelopes maxBytes x.begun = es ++ numberFrom es.length (x.unqueued.getD [])
  grouped : Grouped lane es x.sending
  short : x.unqueued = none → x.sending.sender.pending.length < full
  keeping : Keeping lane es x.sending.sender.reliability.buffer
  owed : ∀ frame ∈ x.owed, Original lane es frame
  resent : ∀ call ∈ x.calls, ∀ seq, call.caller = .resend seq →
    Original lane es (seq, call.packets)

theorem step_begin (free : x.unqueued = none) (e : Event) (freshId : String) :
    x.step link (.begin e freshId) = { x with
      unqueued := some (e.pieces x.sending.sender.maxFragmentBytes freshId)
      begun := x.begun ++ [⟨e, freshId, x.sending.sender.nextSeq⟩] } := by
  simp only [step, free]

theorem step_queue {p : Event} {rest : List Event} (held : x.unqueued = some (p :: rest)) :
    x.step link .queue = { x with
      sending := { x.sending with sender := x.sending.sender.queue p }
      unqueued := some rest } := by
  simp only [step, held]

theorem step_finish (held : x.unqueued = some []) :
    let settled := x.sending.settle (link.calledBy (.send x.returned.length))
    x.step link .finish = { x with
      sending := settled.1
      unqueued := none
      returned := x.returned ++ [settled.2] } := by
  simp only [step, held]

theorem step_flush (free : x.unqueued = none) :
    x.step link .flush
      = { x with sending := (x.sending.flush (link.calledBy .flush)).1 } := by
  simp only [step, free]

theorem step_resend {frame : UInt64 × List Packet} {rest : List (UInt64 × List Packet)}
    (owed : x.owed = frame :: rest) :
    x.step link .resend = { x with
      sending := x.sending.retransmit (link.calledBy (.resend frame.1)) [frame]
      owed := rest } := by
  simp only [step, owed]

theorem Orderly.begin (orderly : Orderly lane maxBytes full es x) (free : x.unqueued = none)
    (e : Event) (freshId : String) :
    Orderly lane maxBytes full es (x.step link (.begin e freshId)) := by
  let s : Sent := ⟨e, freshId, x.sending.sender.nextSeq⟩
  have events : Sending.envelopes maxBytes (x.begun ++ [s])
      = es ++ numberFrom es.length (s.pieces maxBytes) := by
    have before := orderly.events
    rw [free] at before
    rw [Sending.envelopes, List.flatMap_append, List.flatMap_singleton, ← orderly.count]
    exact congrArg (· ++ s.envelopes maxBytes) (before.trans (List.append_nil es))
  rw [step_begin free, orderly.cutting]
  refine { orderly with events, short := ?_ }
  intro none
  cases none

theorem Orderly.queue (orderly : Orderly lane maxBytes full es x) {p : Event} {rest : List Event}
    (held : x.unqueued = some (p :: rest)) :
    Orderly lane maxBytes full (es ++ [{ p with seq := UInt64.ofNat es.length }])
      (x.step link .queue) := by
  obtain ⟨onLane, cutting, framing, count, numbered, events, grouped, -, keeping, owed, resent⟩ :=
    orderly
  let new : Event := { p with seq := UInt64.ofNat es.length }
  have named : { p with seq := UInt64.ofNat x.sending.sender.nextSeq } = new := by rw [count]
  have more := grouped.queue onLane p
  have kept : Keeping lane (es ++ [new]) (x.sending.sender.queue p).reliability.buffer := by
    have recorded := keeping.record new
    rw [← named, ← onLane] at recorded ⊢
    exact recorded
  rw [step_queue held]
  refine {
    onLane, cutting, framing
    count := ?_
    numbered := numbered.snoc rfl
    events := ?_
    grouped := ?_
    short := ?_
    keeping := kept
    owed := fun frame member => (owed frame member).mono [new]
    resent := fun call member seq again => (resent call member seq again).mono [new] }
  · rw [List.length_append, List.length_singleton, ← count]
    rfl
  · rw [events, held, List.length_append, List.append_assoc]
    exact congrArg (es ++ ·) (numberFrom_cons es.length p rest)
  · rw [named] at more
    exact more
  · intro none
    cases none

theorem Orderly.hand (orderly : Orderly lane maxBytes full es x) {caller : Caller}
    {w : Sending (σ × List Call)} (hands : Hands caller x.sending w)
    (grouped : Grouped lane es w) (short : x.unqueued = none → w.sender.pending.length < full)
    (resent : ∀ call ∈ w.net.2, ∀ seq, call.caller = .resend seq →
      Original lane es (seq, call.packets)) :
    Orderly lane maxBytes full es { x with sending := w } := by
  obtain ⟨net, new, waiting, metrics, rfl, -⟩ := hands
  exact { orderly with grouped, short, resent }

/-- Calls that hand over for the first time send nothing again. -/
theorem Orderly.resent_first (orderly : Orderly lane maxBytes full es x) {caller : Caller}
    (first : caller.isFirst = true) {w : Sending (σ × List Call)}
    (hands : Hands caller x.sending w) :
    ∀ call ∈ w.net.2, ∀ seq, call.caller = .resend seq → Original lane es (seq, call.packets) := by
  obtain ⟨net, new, waiting, metrics, rfl, by_caller⟩ := hands
  intro call member seq again
  rcases List.mem_append.mp member with old | added
  · exact orderly.resent call old seq again
  · rw [← by_caller call added, again] at first
    cases first

theorem Orderly.finish (orderly : Orderly lane maxBytes full es x) (room : 0 < full)
    (held : x.unqueued = some []) : Orderly lane maxBytes full es (x.step link .finish) := by
  have hands := hands_settle link (.send x.returned.length) x.sending
  have busy : x.unqueued ≠ none := fun free => Option.some_ne_none [] (held.symm.trans free)
  have settled := orderly.hand hands (orderly.grouped.settle rfl) (fun free => absurd free busy)
    (orderly.resent_first rfl hands)
  have events := orderly.events
  rw [held] at events
  rw [step_finish held]
  refine { settled with events, short := fun _ => ?_ }
  rcases x.sending.settle_calledBy link (.send x.returned.length) with ⟨short, same⟩ | ⟨same, -⟩
  · rw [same, ← orderly.framing]
    exact short
  · have empty := x.sending.pending_flush link (.send x.returned.length)
    show (x.sending.settle _).1.sender.pending.length < full
    rw [same, empty]
    exact room

theorem Orderly.flush (orderly : Orderly lane maxBytes full es x) (room : 0 < full)
    (free : x.unqueued = none) : Orderly lane maxBytes full es (x.step link .flush) := by
  have hands := hands_flush link .flush x.sending
  rw [step_flush free]
  apply orderly.hand hands (orderly.grouped.flush rfl) _ (orderly.resent_first rfl hands)
  intro _
  rw [x.sending.pending_flush link .flush]
  exact room

theorem Orderly.control (orderly : Orderly lane maxBytes full es x) (c : Control UInt64) :
    Orderly lane maxBytes full es (x.step link (.control c)) := by
  obtain ⟨keeping, found⟩ := orderly.keeping.handle c
  refine { orderly with keeping, owed := ?_ }
  intro frame member
  rcases List.mem_append.mp member with old | added
  · exact orderly.owed frame old
  · exact found frame added

theorem Orderly.resend (orderly : Orderly lane maxBytes full es x)
    {frame : UInt64 × List Packet} {rest : List (UInt64 × List Packet)}
    (owed : x.owed = frame :: rest) : Orderly lane maxBytes full es (x.step link .resend) := by
  have all := orderly.owed
  rw [owed] at all
  obtain ⟨own, others⟩ := List.forall_mem_cons.mp all
  have hands := hands_retransmit link (.resend frame.1) x.sending frame
  have grouped : Grouped lane es (x.sending.retransmit (link.calledBy (.resend frame.1)) [frame]) :=
    orderly.grouped.retransmit rfl frame
  obtain ⟨net, metrics, result, same⟩ := x.sending.retransmit_calledBy link (.resend frame.1) frame
  rw [step_resend owed]
  refine { orderly.hand hands grouped ?_ ?_ with owed := others }
  · rw [same]
    exact orderly.short
  · rw [same]
    intro call member seq again
    rcases List.mem_append.mp member with old | added
    · exact orderly.resent call old seq again
    · rw [List.mem_singleton.mp added] at again ⊢
      cases again
      exact own

theorem Returns.begin (returns : Returns maxBytes x) (free : x.unqueued = none)
    (cutting : x.sending.sender.maxFragmentBytes = maxBytes) (e : Event) (freshId : String) :
    Returns maxBytes (x.step link (.begin e freshId)) := by
  have ended := returns.free free
  rw [step_begin free, cutting]
  refine ⟨?_, ?_, returns.made, ?_⟩
  · intro none
    cases none
  · intro rest all
    cases all
    exact ⟨x.begun, _, rfl, ended, rfl⟩
  · intro k s result here there
    have inside : k < x.begun.length := ended ▸ (List.getElem?_eq_some_iff.mp there).1
    rw [List.getElem?_append_left inside] at here
    exact returns.answers k s result here there

theorem Returns.queue (returns : Returns maxBytes x) {p : Event} {rest : List Event}
    (held : x.unqueued = some (p :: rest)) : Returns maxBytes (x.step link .queue) := by
  obtain ⟨earlier, s, begun, length, last⟩ := returns.held _ held
  rw [step_queue held]
  refine ⟨?_, ?_, returns.made, returns.answers⟩
  · intro none
    cases none
  · intro left all
    cases all
    refine ⟨earlier, s, begun, length, last.trans ?_⟩
    show x.sending.sender.nextSeq + (rest.length + 1) = x.sending.sender.nextSeq + 1 + rest.length
    omega

theorem Returns.finish (returns : Returns maxBytes x) (held : x.unqueued = some []) :
    Returns maxBytes (x.step link .finish) := by
  obtain ⟨earlier, s, begun, length, last⟩ := returns.held [] held
  -- calls are told apart by the sends that are over, so the send that ends now has none before its end
  have fresh : sendCalls x.returned.length x.calls = [] := by
    apply List.filter_eq_nil_iff.mpr
    intro call member own
    exact Nat.lt_irrefl _ (returns.made call member _ (of_decide_eq_true own))
  have answer := answers_settle link x.sending x.returned.length fresh
  obtain ⟨net, new, pending, metrics, state, by_caller⟩ :=
    hands_settle link (.send x.returned.length) x.sending
  rw [step_finish held]
  rw [state] at answer ⊢
  refine ⟨?_, ?_, ?_, ?_⟩
  · intro _
    simp [begun, length]
  · intro rest all
    cases all
  · intro call member k own
    rw [List.length_append, List.length_singleton]
    rcases List.mem_append.mp member with old | added
    · exact Nat.lt_succ_of_lt (returns.made call old k own)
    · rw [by_caller call added] at own
      cases own
      exact Nat.lt_succ_self _
  · intro k t result here there
    rcases Nat.lt_trichotomy k x.returned.length with earlier | own | beyond
    · rw [List.getElem?_append_left earlier] at there
      have foreign : ∀ call ∈ new, call.caller ≠ .send k := by
        intro call member same
        rw [by_caller call member] at same
        cases same
        exact Nat.lt_irrefl _ earlier
      show Answers (t.last maxBytes) (sendCalls k (x.calls ++ new)) result
      rw [sendCalls_append_of_not foreign]
      exact returns.answers k t result here there
    · subst own
      rw [List.getElem?_append_right (Nat.le_refl _), Nat.sub_self] at there
      cases there
      have sent : s = t := by
        rw [begun, ← length, List.getElem?_append_right (Nat.le_refl _), Nat.sub_self] at here
        exact Option.some.inj here
      have number : t.last maxBytes = x.sending.sender.nextSeq - 1 := by
        rw [← sent, Sent.last, last, List.length_nil, Nat.add_zero]
      rw [number]
      exact answer
    · rw [List.getElem?_eq_none] at there
      · cases there
      · rw [List.length_append, List.length_singleton]
        exact beyond

theorem Orderly.step (orderly : Orderly lane maxBytes full es x) (returns : Returns maxBytes x)
    (room : 0 < full) (link : Link σ) (m : Move) :
    ∃ queued, Orderly lane maxBytes full (es ++ queued) (x.step link m) ∧
      Returns maxBytes (x.step link m) := by
  have idle (same : x.step link m = x) :
      ∃ queued, Orderly lane maxBytes full (es ++ queued) (x.step link m) ∧
        Returns maxBytes (x.step link m) := by
    refine ⟨[], ?_⟩
    rw [same, List.append_nil]
    exact ⟨orderly, returns⟩
  have still (kept : Orderly lane maxBytes full es (x.step link m))
      (returned : Returns maxBytes (x.step link m)) :
      ∃ queued, Orderly lane maxBytes full (es ++ queued) (x.step link m) ∧
        Returns maxBytes (x.step link m) :=
    ⟨[], (List.append_nil es).symm ▸ kept, returned⟩
  cases m with
  | begin e freshId =>
      cases free : x.unqueued with
      | none => exact still (orderly.begin free e freshId) (returns.begin free orderly.cutting e freshId)
      | some rest => exact idle (by simp only [SharedSender.step, free])
  | queue =>
      cases held : x.unqueued with
      | none => exact idle (by simp only [SharedSender.step, held])
      | some rest =>
          cases rest with
          | nil => exact idle (by simp only [SharedSender.step, held])
          | cons p rest => exact ⟨_, orderly.queue held, returns.queue held⟩
  | finish =>
      cases held : x.unqueued with
      | none => exact idle (by simp only [SharedSender.step, held])
      | some rest =>
          cases rest with
          | nil => exact still (orderly.finish room held) (returns.finish held)
          | cons p rest => exact idle (by simp only [SharedSender.step, held])
  | flush =>
      cases free : x.unqueued with
      | some rest => exact idle (by simp only [SharedSender.step, free])
      | none =>
          refine still (orderly.flush room free) ?_
          rw [step_flush free]
          exact returns.hand (hands_flush link .flush x.sending) (by rintro k ⟨⟩) x.owed
  | control c =>
      exact still (orderly.control c) ⟨returns.free, returns.held, returns.made, returns.answers⟩
  | resend =>
      cases owed : x.owed with
      | nil => exact idle (by simp only [SharedSender.step, owed])
      | cons frame rest =>
          refine still (orderly.resend owed) ?_
          rw [step_resend owed]
          exact returns.hand (hands_retransmit link _ x.sending frame) (by rintro k ⟨⟩) rest

theorem Orderly.run (orderly : Orderly lane maxBytes full es x) (returns : Returns maxBytes x)
    (room : 0 < full) (link : Link σ) (moves : List Move) :
    ∃ all, Orderly lane maxBytes full all (x.run link moves) ∧
      Returns maxBytes (x.run link moves) := by
  induction moves generalizing x es with
  | nil => exact ⟨es, orderly, returns⟩
  | cons m rest ih =>
      obtain ⟨queued, next, returned⟩ := orderly.step returns room link m
      exact ih next returned

theorem orderly_start (room : 0 < full) (lane : Lane) (maxBytes : Nat)
    (reliability : ReliabilitySettings) (net : σ) :
    Orderly lane maxBytes full [] (start {
      lane, frameSize := full, maxFragmentBytes := maxBytes, reliability := .new reliability } net) :=
  ⟨rfl, rfl, rfl, rfl, nofun, rfl, ⟨[], [], rfl, rfl, rfl⟩, fun _ => room, nofun, List.forall_mem_nil _,
    List.forall_mem_nil _⟩

theorem returns_start (s : StreamSender) (net : σ) (maxBytes : Nat) :
    Returns maxBytes (start s net) := by
  refine ⟨?_, ?_, ?_, ?_⟩
  · intro _
    rfl
  · intro rest held
    cases held
  · intro call member
    cases member
  · intro k s result here
    cases here

/-- Whichever calls fail: the envelopes of what was sent are numbered from 0, and what sends and
flushes hand over is their packets in order, each call a group of whole envelopes; what follows still
waits, less than a frame, unless a send is under way.  A send that is over returned the number of the
last envelope of its event, unless its own call failed.  What is sent again under a number is the
packets of the envelope of that number. -/
theorem outbox_in_order {mtu : Nat} {stream : StreamSettings} {reliability : ReliabilitySettings}
    {sender : StreamSender} (made : StreamSender.new mtu lane stream reliability = .ok sender)
    (link : Link σ) (net : σ) (moves : List Move) :
    let after := (start sender net).run link moves
    let events := Sending.envelopes stream.maxFragmentBytes after.begun
    Numbered events ∧
    (∃ (groups : List (List Event)) (waiting coming : List Event),
      events = groups.flatten ++ waiting ++ coming ∧
        firsts after.calls = groups.map (·.flatMap lane.encodeEvent) ∧
        after.sending.sender.pending = waiting.flatMap lane.encodeEvent ∧
        (after.unqueued = none → coming = [])) ∧
    (∃ full, frameCapacity mtu = .ok full ∧
      (after.unqueued = none → after.sending.sender.pending.length < full)) ∧
    (after.unqueued = none → after.begun.length = after.returned.length) ∧
    (∀ (k : Nat) (s : Sent) (result : Except StreamError Nat),
      after.begun[k]? = some s → after.returned[k]? = some result →
        Answers (s.last stream.maxFragmentBytes) (sendCalls k after.calls) result) ∧
    ∀ call ∈ after.calls, ∀ seq, call.caller = .resend seq →
      ∃ e ∈ events, e.seq = seq ∧ call.packets = lane.encodeEvent e := by
  intro after events
  obtain ⟨full, capacity, rfl⟩ := new_eq made
  have room := frameCapacity_pos capacity
  have begins := orderly_start room lane stream.maxFragmentBytes reliability net
  obtain ⟨all, orderly, returns⟩ :=
    begins.run (returns_start _ net stream.maxFragmentBytes) room link moves
  obtain ⟨groups, waiting, split, calls, waits⟩ := orderly.grouped
  have queued : events = all ++ numberFrom all.length (after.unqueued.getD []) := orderly.events
  refine ⟨?_, ⟨groups, waiting, numberFrom all.length (after.unqueued.getD []), ?_, calls, waits, ?_⟩,
    ⟨full, capacity, orderly.short⟩, returns.free, returns.answers, ?_⟩
  · rw [queued]
    exact orderly.numbered.append_numberFrom _
  · rw [queued, split]
  · intro free
    rw [free]
    rfl
  · intro call member seq again
    rw [queued]
    exact (orderly.resent call member seq again).mono _

/-- A request comes in while an event is being queued, and the call of its send fails. -/
def sampleMoves : List Move :=
  [.begin (.new "token" "αβγ") "a-1", .queue, .control { nack := some [0] }, .queue, .resend, .queue,
    .finish, .begin (.new "token" "hi") "a-2", .queue, .finish]

def sampleAfter : SharedSender ScriptedNet :=
  (start Sending.sampleSender { failing := [1] }).run .scripted sampleMoves

theorem sample_outbox :
    sampleAfter.calls.map (fun call => (call.caller, call.result))
        = [(.resend 0, .ok ()), (.send 0, .error (.send "scripted failure")), (.send 1, .ok ())] ∧
      sampleAfter.returned = [.error (.transport (.send "scripted failure")), .ok 3] ∧
      Numbered (Sending.envelopes 3 sampleAfter.begun) ∧
      ∀ call ∈ sampleAfter.calls, ∀ seq, call.caller = .resend seq →
        ∃ e ∈ Sending.envelopes 3 sampleAfter.begun,
          e.seq = seq ∧ call.packets = Lane.base.encodeEvent e := by
  have made : StreamSender.new 28 .base Sending.sampleStream {} = .ok Sending.sampleSender := rfl
  obtain ⟨numbered, -, -, -, -, resent⟩ :=
    outbox_in_order made .scripted { failing := [1] } sampleMoves
  exact ⟨by decide +kernel, by decide +kernel, numbered, resent⟩

end SharedSender
end FlexLink
