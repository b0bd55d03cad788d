import FlexLink.Proofs.Stream.Outbox

/-! # Calls that fail

A call of a send or a flush is given all that waits, and nothing of it waits afterwards, whether the
call fails or not.  So packets are conserved: what sends and flushes have handed over from some time on,
with what still waits, is what waited then with what was queued since (`Continues`).  What a failed call
was given is left to the resend buffer, which keeps the newest envelopes until they are acknowledged
(`Stocked`). -/
set_option autoImplicit false
namespace FlexLink

theorem Sending.flush_cases {σ : Type} (link : Link σ) (caller : Caller)
    (w : Sending (σ × List Call)) :
    (w.sender.pending = [] ∧ w.flush (link.calledBy caller) = (w, .ok ())) ∨
      ∃ net metrics result, w.flush (link.calledBy caller) = ({ w with
          net := (net, w.net.2 ++ [⟨caller, w.sender.pending, result⟩])
          sender := { w.sender with pending := [], metrics } }, result.mapError .transport) ∧
        ∀ why, result = .error why → metrics = w.sender.metrics := by
  rw [flush]
  by_cases none : w.sender.pending.isEmpty = true
  · rw [if_pos none]
    exact .inl ⟨List.isEmpty_iff.mp none, rfl⟩
  · rw [if_neg none, transmit]
    right
    cases call : link.send w.net.1 w.sender.pending with
    | mk net result =>
        rw [Link.send_calledBy call caller w.net.2]
        cases result with
        | ok =>
            refine ⟨net, _, .ok (), rfl, ?_⟩
            intro why failed
            cases failed
        | error why => exact ⟨net, w.sender.metrics, .error why, rfl, fun _ _ => rfl⟩

namespace SharedSender

open StreamSender

variable {σ : Type} {link : Link σ} {x y z : SharedSender σ} {m : Move} {lane : Lane}
  {maxBytes full capacity floor : Nat} {es : List Event}

/-! ## What a step does -/

/-- What a move does to the calls and to the sender, and which envelopes it queues. -/
inductive Deals (x : SharedSender σ) : Move → List Event → SharedSender σ → Prop
  | rests {m : Move} {y : SharedSender σ} (calls : y.calls = x.calls)
      (sender : y.sending.sender = x.sending.sender) : Deals x m [] y
  | queues {p : Event} {rest : List Event} {y : SharedSender σ}
      (held : x.unqueued = some (p :: rest)) (calls : y.calls = x.calls)
      (sender : y.sending.sender = x.sending.sender.queue p) :
      Deals x .queue [{ p with seq := UInt64.ofNat x.sending.sender.nextSeq }] y
  | hands {m : Move} {y : SharedSender σ} {caller : Caller} {result : Except TransportError Unit}
      {metrics : StreamMetrics} (first : caller.isFirst = true) (free : y.unqueued = none)
      (calls : y.calls = x.calls ++ [⟨caller, x.sending.sender.pending, result⟩])
      (sender : y.sending.sender = { x.sending.sender with pending := [], metrics })
      (uncounted : ∀ why, result = .error why → metrics = x.sending.sender.metrics)
      (returned : ∀ why, result = .error why → m = .finish →
        y.returned = x.returned ++ [.error (.transport why)]) : Deals x m [] y
  | controls {c : Control UInt64} {y : SharedSender σ} (calls : y.calls = x.calls)
      (sender : y.sending.sender
        = { x.sending.sender with reliability := (x.sending.sender.reliability.handle c).1 }) :
      Deals x (.control c) [] y
  | resends {m : Move} {y : SharedSender σ} {seq : UInt64} {packets : List Packet}
      {result : Except TransportError Unit} {metrics : StreamMetrics}
      (calls : y.calls = x.calls ++ [⟨.resend seq, packets, result⟩])
      (sender : y.sending.sender = { x.sending.sender with metrics }) : Deals x m [] y

theorem deals_finish (link : Link σ) (held : x.unqueued = some []) :
    Deals x .finish [] (x.step link .finish) := by
  rw [step_finish held]
  rcases x.sending.settle_calledBy link (.send x.returned.length) with ⟨-, same⟩ | ⟨state, result⟩
  · rw [same]
    exact .rests rfl rfl
  · rw [state, result]
    rcases x.sending.flush_cases link (.send x.returned.length) with
      ⟨-, same⟩ | ⟨net, metrics, outcome, same, uncounted⟩
    · rw [same]
      exact .rests rfl rfl
    · rw [same]
      refine .hands rfl rfl rfl rfl uncounted ?_
      rintro why rfl -
      rfl

theorem deals_flush (link : Link σ) (free : x.unqueued = none) :
    Deals x .flush [] (x.step link .flush) := by
  rw [step_flush free]
  rcases x.sending.flush_cases link .flush with ⟨-, same⟩ | ⟨net, metrics, outcome, same, uncounted⟩
  · rw [same]
    exact .rests rfl rfl
  · rw [same]
    refine .hands rfl free rfl rfl uncounted ?_
    rintro why - flush
    cases flush

theorem step_deals (link : Link σ) (x : SharedSender σ) (m : Move) :
    ∃ new, Deals x m new (x.step link m) := by
  have idle (same : x.step link m = x) : ∃ new, Deals x m new (x.step link m) := by
    rw [same]
    exact ⟨[], .rests rfl rfl⟩
  cases m with
  | begin e freshId =>
      cases free : x.unqueued with
      | some rest => exact idle (by simp only [step, free])
      | none =>
          rw [step_begin free]
          exact ⟨[], .rests rfl rfl⟩
  | queue =>
      cases held : x.unqueued with
      | none => exact idle (by simp only [step, held])
      | some rest =>
          cases rest with
          | nil => exact idle (by simp only [step, held])
          | cons p rest =>
              rw [step_queue held]
              exact ⟨_, .queues held rfl rfl⟩
  | finish =>
      cases held : x.unqueued with
      | none => exact idle (by simp only [step, held])
      | some rest =>
          cases rest with
          | nil => exact ⟨[], deals_finish link held⟩
          | cons p rest => exact idle (by simp only [step, held])
  | flush =>
      cases free : x.unqueued with
      | some rest => exact idle (by simp only [step, free])
      | none => exact ⟨[], deals_flush link free⟩
  | control c => exact ⟨[], .controls rfl rfl⟩
  | resend =>
      cases owed : x.owed with
      | nil => exact idle (by simp only [step, owed])
      | cons frame rest =>
          obtain ⟨net, metrics, result, same⟩ :=
            x.sending.retransmit_calledBy link (.resend frame.1) frame
          rw [step_resend owed, same]
          exact ⟨[], .resends rfl rfl⟩

variable {new later : List Event} {more further : List (List Packet)}

/-- The numbers count what was queued. -/
theorem Deals.nextSeq (deals : Deals x m new y) :
    y.sending.sender.nextSeq = x.sending.sender.nextSeq + new.length := by
  cases deals with
  | rests _ sender => rw [sender, List.length_nil, Nat.add_zero]
  | queues _ _ sender =>
      rw [sender]
      rfl
  | hands _ _ _ sender _ _ => rw [sender, List.length_nil, Nat.add_zero]
  | controls _ sender => rw [sender, List.length_nil, Nat.add_zero]
  | resends _ sender => rw [sender, List.length_nil, Nat.add_zero]

/-- An orderly sender has queued what the step says. -/
theorem Orderly.deal (orderly : Orderly lane maxBytes full es x) (returns : Returns maxBytes x)
    (room : 0 < full) (deals : Deals x m new (x.step link m)) :
    Orderly lane maxBytes full (es ++ new) (x.step link m) ∧ Returns maxBytes (x.step link m) := by
  obtain ⟨queued, next, returned⟩ := orderly.step returns room link m
  have lengths : queued.length = new.length := by
    have count := next.count
    have before := orderly.count
    rw [deals.nextSeq, List.length_append] at count
    omega
  refine ⟨?_, returned⟩
  cases deals with
  | queues held _ _ =>
      rw [orderly.count]
      exact orderly.queue held
  | rests _ _ => exact List.eq_nil_of_length_eq_zero lengths ▸ next
  | hands _ _ _ _ _ _ => exact List.eq_nil_of_length_eq_zero lengths ▸ next
  | controls _ _ => exact List.eq_nil_of_length_eq_zero lengths ▸ next
  | resends _ _ => exact List.eq_nil_of_length_eq_zero lengths ▸ next

/-! ## Conservation -/

/-- From `x` on, the envelopes `new` were queued, and calls of sends and flushes were given `more`. -/
structure Continues (lane : Lane) (new : List Event) (more : List (List Packet))
    (x y : SharedSender σ) : Prop where
  handed : firsts y.calls = firsts x.calls ++ more
  conserved : more.flatten ++ y.sending.sender.pending
    = x.sending.sender.pending ++ new.flatMap lane.encodeEvent

theorem Continues.refl (lane : Lane) (x : SharedSender σ) : Continues lane [] [] x x :=
  ⟨(List.append_nil _).symm, (List.append_nil _).symm⟩

theorem Continues.trans (here : Continues lane new more x y)
    (there : Continues lane later further y z) :
    Continues lane (new ++ later) (more ++ further) x z := by
  refine ⟨?_, ?_⟩
  · rw [there.handed, here.handed, List.append_assoc]
  · rw [List.flatten_append, List.append_assoc, there.conserved, ← List.append_assoc,
      here.conserved, List.flatMap_append, List.append_assoc]

theorem Deals.continues (deals : Deals x m new y) (onLane : x.sending.sender.lane = lane) :
    ∃ more, Continues lane new more x y := by
  have quiet (calls : firsts y.calls = firsts x.calls)
      (pending : y.sending.sender.pending = x.sending.sender.pending) :
      ∃ more, Continues lane [] more x y :=
    ⟨[], calls.trans (List.append_nil _).symm, pending.trans (List.append_nil _).symm⟩
  cases deals with
  | rests calls sender => exact quiet (by rw [calls]) (by rw [sender])
  | @queues p rest _ held calls sender =>
      refine ⟨[], ?_, ?_⟩
      · rw [calls, List.append_nil]
      · rw [sender, List.flatten_nil, List.nil_append, List.flatMap_singleton, ← onLane]
        rfl
  | hands first _ calls sender _ _ =>
      refine ⟨[x.sending.sender.pending], ?_, ?_⟩
      · rw [calls, firsts_snoc, if_pos first]
      · rw [sender, List.flatten_singleton]
        rfl
  | controls calls sender => exact quiet (by rw [calls]) (by rw [sender])
  | resends calls sender =>
      refine quiet ?_ (by rw [sender])
      rw [calls, firsts_snoc]
      exact List.append_nil _

/-! ## What is kept -/

/-- Whether the newest envelopes are kept that no acknowledgement below `floor` releases. -/
def Stocked (lane : Lane) (capacity floor : Nat) (es : List Event) (x : SharedSender σ) : Prop :=
  es.length ≤ lastSeq → Keeps lane capacity floor es x.sending.sender.reliability.buffer

theorem Deals.stocked (deals : Deals x m new y) (orderly : Orderly lane maxBytes full es x)
    (low : ∀ c, m = .control c → c.Below floor) (stocked : Stocked lane capacity floor es x) :
    Stocked lane capacity floor (es ++ new) y := by
  intro few
  rw [List.length_append] at few
  have keeps := stocked (by omega)
  cases deals with
  | rests _ sender =>
      rw [sender, List.append_nil]
      exact keeps
  | @queues p rest _ held calls sender =>
      have recorded := keeps.record (e := { p with seq := UInt64.ofNat es.length }) orderly.numbered rfl
        (by rw [List.length_singleton] at few; omega)
      rw [sender, orderly.count]
      rw [← orderly.onLane, ← orderly.count] at recorded ⊢
      exact recorded
  | hands _ _ _ sender _ _ =>
      rw [sender, List.append_nil]
      exact keeps
  | @controls c _ calls sender =>
      rw [sender, List.append_nil]
      simp only [Reliability.handle]
      cases acked : c.ack with
      | none => exact keeps
      | some seq => exact keeps.release orderly.numbered (by omega) (low c rfl seq acked)
  | resends _ sender =>
      rw [sender, List.append_nil]
      exact keeps

/-! ## Runs -/

theorem Orderly.continues (orderly : Orderly lane maxBytes full es x) (returns : Returns maxBytes x)
    (room : 0 < full) (link : Link σ) (moves : List Move) :
    ∃ new more, Orderly lane maxBytes full (es ++ new) (x.run link moves) ∧
      Returns maxBytes (x.run link moves) ∧ Continues lane new more x (x.run link moves) ∧
      ∀ capacity floor, Stocked lane capacity floor es x →
        (∀ c, Move.control c ∈ moves → c.Below floor) →
        Stocked lane capacity floor (es ++ new) (x.run link moves) := by
  induction moves generalizing x es with
  | nil =>
      rw [← List.append_nil es] at orderly
      refine ⟨[], [], orderly, returns, .refl lane x, ?_⟩
      intro capacity floor stocked _
      rw [List.append_nil]
      exact stocked
  | cons m rest ih =>
      obtain ⟨new, deals⟩ := step_deals link x m
      obtain ⟨next, returned⟩ := orderly.deal returns room deals
      obtain ⟨more, here⟩ := deals.continues orderly.onLane
      obtain ⟨later, further, ordered, returning, there, kept⟩ := ih next returned
      rw [List.append_assoc] at ordered kept
      refine ⟨new ++ later, more ++ further, ordered, returning, here.trans there, ?_⟩
      intro capacity floor stocked low
      obtain ⟨now, after⟩ := List.forall_mem_cons (p := fun n => ∀ c, n = Move.control c →
        Control.Below floor c) |>.mp fun n member c same => low c (same ▸ member)
      exact kept capacity floor (deals.stocked orderly now stocked) fun c member => after _ member c rfl

/-! ## A call that fails -/

variable {caller : Caller} {packets : List Packet} {why : TransportError}

/-- A failed call of a send or a flush was given what waited, and that is all it changed. -/
theorem Deals.failed (deals : Deals x m new y) (first : caller.isFirst = true)
    (failed : y.calls = x.calls ++ [⟨caller, packets, .error why⟩]) :
    new = [] ∧ packets = x.sending.sender.pending ∧ y.unqueued = none ∧
      y.sending.sender = { x.sending.sender with pending := [] } ∧
      (m = .finish → y.returned = x.returned ++ [.error (.transport why)]) := by
  have called : y.calls ≠ x.calls := by
    intro same
    rw [failed] at same
    exact List.cons_ne_nil _ _ (List.append_right_eq_self.mp same)
  cases deals with
  | rests calls _ => exact absurd calls called
  | queues _ calls _ => exact absurd calls called
  | controls calls _ => exact absurd calls called
  | resends calls _ =>
      rw [calls] at failed
      cases List.append_cancel_left failed
      cases first
  | hands _ free calls sender uncounted returned =>
      rw [calls] at failed
      cases List.append_cancel_left failed
      rw [uncounted why rfl] at sender
      exact ⟨rfl, rfl, free, sender, returned why rfl⟩

/-- A flush hands over what waits, in one call. -/
theorem firsts_flush (link : Link σ) (free : x.unqueued = none) :
    (x.step link .flush).sending.sender.pending = [] ∧
      firsts (x.step link .flush).calls
        = firsts x.calls ++ if x.sending.sender.pending = [] then [] else [x.sending.sender.pending] := by
  rw [step_flush free]
  refine ⟨x.sending.pending_flush link .flush, ?_⟩
  by_cases empty : x.sending.sender.pending = []
  · have none : x.sending.sender.pending.isEmpty = true := List.isEmpty_iff.mpr empty
    rw [if_pos empty, List.append_nil, Sending.flush, if_pos none]
  · rcases x.sending.flush_cases link .flush with ⟨none, -⟩ | ⟨net, metrics, result, same, -⟩
    · exact absurd none empty
    · rw [if_neg empty, same]
      exact firsts_snoc _ _

theorem flush_fails (link : Link σ) (ended : (x.step link .flush).unqueued = none)
    (failed : (x.step link .flush).calls = x.calls ++ [⟨caller, packets, .error why⟩]) :
    (x.sending.plain.flush link).2 = .error (.transport why) := by
  have free : x.unqueued = none := by
    cases held : x.unqueued with
    | none => rfl
    | some rest =>
        have same : x.step link .flush = x := by simp only [step, held]
        rw [same, held] at ended
        cases ended
  rw [step_flush free] at failed
  rw [← Sending.plain_flush link .flush]
  rcases x.sending.flush_cases link .flush with ⟨-, same⟩ | ⟨net, metrics, result, same, -⟩
  · rw [same] at failed
    exact absurd (List.append_right_eq_self.mp failed.symm) (List.cons_ne_nil _ _)
  · rw [same] at failed ⊢
    cases List.append_cancel_left failed
    rfl

/-- What is kept under a number is what a request for the number is answered with. -/
theorem owed_of_kept (link : Link σ) {seq : UInt64} {kept : List Packet}
    (found : x.sending.sender.reliability.buffer.frames.get? seq = some kept) :
    (x.step link (.control { nack := some [seq] })).owed = x.owed ++ [(seq, kept)] := by
  show x.owed ++ [seq].filterMap _ = _
  rw [List.filterMap_cons, found]
  rfl

/-- A call of a send or a flush that fails was given all that waited, in order, and nothing of it waits
any more; else the sender is as it was.  Whatever comes later, calls of sends and flushes are given just
the packets of envelopes that were queued later, in order, and the next flush is given what has not yet
been given to a call.  What the failed call was given is only sent again when it is asked for, as long as
it is among the newest envelopes and not acknowledged. -/
theorem failed_call_takes_pending {mtu : Nat} {stream : StreamSettings}
    {reliability : ReliabilitySettings} {sender : StreamSender}
    (made : StreamSender.new mtu lane stream reliability = .ok sender) (link : Link σ) (net : σ)
    (moves : List Move) {m : Move} {caller : Caller} {packets : List Packet} {why : TransportError}
    (first : caller.isFirst = true)
    (failed : (((start sender net).run link moves).step link m).calls
      = ((start sender net).run link moves).calls ++ [⟨caller, packets, .error why⟩]) :
    let x := (start sender net).run link moves
    let y := x.step link m
    let events := Sending.envelopes stream.maxFragmentBytes y.begun
    packets = x.sending.sender.pending ∧
    (∃ before dropped, events = before ++ dropped ∧ packets = dropped.flatMap lane.encodeEvent) ∧
    y.sending.sender = { x.sending.sender with pending := [] } ∧
    (m = .finish → y.returned = x.returned ++ [.error (.transport why)]) ∧
    (m = .flush → (x.sending.plain.flush link).2 = .error (.transport why)) ∧
    ∀ later : List Move,
      let z := y.run link later
      ∃ new coming more,
        Sending.envelopes stream.maxFragmentBytes z.begun = events ++ new ++ coming ∧
        Numbered (events ++ new ++ coming) ∧
        (z.unqueued = none → coming = []) ∧
        firsts z.calls = firsts y.calls ++ more ∧
        more.flatten ++ z.sending.sender.pending = new.flatMap lane.encodeEvent ∧
        (z.unqueued = none →
          (z.step link .flush).sending.sender.pending = [] ∧
          firsts (z.step link .flush).calls = firsts z.calls
            ++ if z.sending.sender.pending = [] then [] else [z.sending.sender.pending]) ∧
        ∀ (floor k : Nat) (e : Event), events[k]? = some e → floor ≤ k →
          (∀ c, Move.control c ∈ moves ++ later → c.Below floor) →
          (events ++ new).length ≤ lastSeq →
          (events ++ new).length - (k + 1) < max reliability.maxBuffered 1 →
          (z.step link (.control { nack := some [UInt64.ofNat k] })).owed
            = z.owed ++ [(UInt64.ofNat k, lane.encodeEvent e)] := by
  intro x y events
  obtain ⟨full, capacity, rfl⟩ := new_eq made
  have room := frameCapacity_pos capacity
  have begins := orderly_start room lane stream.maxFragmentBytes reliability net
  obtain ⟨es, -, orderly, returns, -, kept⟩ :=
    begins.continues (returns_start _ net stream.maxFragmentBytes) room link moves
  rw [List.nil_append] at orderly kept
  obtain ⟨none, deals⟩ := step_deals link x m
  obtain ⟨rfl, given, free, sender, returned⟩ := deals.failed first failed
  obtain ⟨ordered, returning⟩ := orderly.deal returns room deals
  rw [List.append_nil] at ordered
  have queued : events = es := by
    have all := ordered.events
    rw [free] at all
    exact all.trans (List.append_nil es)
  rw [queued]
  refine ⟨given, ?_, sender, returned, ?_, ?_⟩
  · obtain ⟨groups, waiting, split, -, waits⟩ := orderly.grouped
    exact ⟨groups.flatten, waiting, split, given.trans waits⟩
  · rintro rfl
    exact flush_fails link free failed
  intro later z
  obtain ⟨new, more, after, -, goes, still⟩ := ordered.continues returning room link later
  have conserved := goes.conserved
  rw [sender, List.nil_append] at conserved
  refine ⟨new, numberFrom (es ++ new).length (z.unqueued.getD []), more, after.events,
    after.numbered.append_numberFrom _, ?_, goes.handed, conserved, firsts_flush link, ?_⟩
  · intro ended
    rw [ended]
    rfl
  · intro floor k e here high low few recent
    have stocked : Stocked lane (max reliability.maxBuffered 1) floor es y := by
      have before := kept (max reliability.maxBuffered 1) floor
        (fun _ => keeps_new lane reliability.maxBuffered floor)
        fun c member => low c (List.mem_append_left _ member)
      intro short
      rw [sender]
      exact before short
    have keeps := still _ floor stocked (fun c member => low c (List.mem_append_right _ member)) few
    have inside := (List.getElem?_eq_some_iff.mp here).1
    exact owed_of_kept link
      (keeps.get? after.numbered few ((List.getElem?_append_left inside).trans here) high recent)

deriving instance DecidableEq for Call

def wideSender : StreamSender where
  lane := .base
  frameSize := 93
  maxFragmentBytes := 3
  reliability := .new {}

def sampleSend (data freshId : String) : List Move :=
  [.begin (.new "token" data) freshId, .queue, .finish]

def sampleWaiting : SharedSender ScriptedNet :=
  (start wideSender { failing := [0] }).run .scripted (sampleSend "a" "a-1")

def sampleEnvelope (n : UInt64) (data : String) : Event := { Event.new "token" data with seq := n }

def sampleLater : SharedSender ScriptedNet :=
  (sampleWaiting.step .scripted .flush).run .scripted (sampleSend "b" "b-1")

theorem sample_failed_flush :
    (sampleWaiting.step .scripted .flush).calls = sampleWaiting.calls
        ++ [⟨.flush, Lane.base.encodeEvent (sampleEnvelope 0 "a"), .error (.send "scripted failure")⟩] ∧
      (sampleWaiting.step .scripted .flush).sending.sender
        = { sampleWaiting.sending.sender with pending := [] } ∧
      (sampleLater.step .scripted (.control { nack := some [0] })).owed
        = sampleLater.owed ++ [(0, Lane.base.encodeEvent (sampleEnvelope 0 "a"))] := by
  have made : StreamSender.new 1500 .base { maxFragmentBytes := 3 } {} = .ok wideSender := rfl
  have failed : (sampleWaiting.step .scripted .flush).calls = sampleWaiting.calls
      ++ [⟨.flush, Lane.base.encodeEvent (sampleEnvelope 0 "a"), .error (.send "scripted failure")⟩] := by
    decide +kernel
  have first : Caller.isFirst .flush = true := rfl
  obtain ⟨-, -, sender, -, -, goes⟩ :=
    failed_call_takes_pending made .scripted { failing := [0] } (sampleSend "a" "a-1") first failed
  obtain ⟨new, coming, more, all, -, -, -, -, -, asked⟩ := goes (sampleSend "b" "b-1")
  have here : (Sending.envelopes 3 (sampleWaiting.step .scripted .flush).begun)[0]?
      = some (sampleEnvelope 0 "a") := by
    decide +kernel
  have silent : ∀ c, Move.control c ∈ sampleSend "a" "a-1" ++ sampleSend "b" "b-1" → c.Below 0 := by
    intro c member
    simp [sampleSend] at member
  have two : (Sending.envelopes 3 sampleLater.begun).length = 2 := by decide +kernel
  have few := (congrArg List.length all).symm.trans two
  rw [List.length_append] at few
  have top : 2 ≤ lastSeq := by decide
  have room : (2 : Nat) < max ({} : ReliabilitySettings).maxBuffered 1 := by decide
  exact ⟨failed, sender, asked 0 0 _ here (Nat.le_refl 0) silent
    (Nat.le_trans (Nat.le.intro few) top) (Nat.lt_of_le_of_lt (by omega) room)⟩

/-- The first flush fails, and the second one, which does not, is given the later event alone. -/
theorem failed_flush_drops_event :
    (sampleLater.step .scripted .flush).calls = [
        ⟨.flush, Lane.base.encodeEvent (sampleEnvelope 0 "a"), .error (.send "scripted failure")⟩,
        ⟨.flush, Lane.base.encodeEvent (sampleEnvelope 1 "b"), .ok ()⟩] ∧
      (sampleLater.step .scripted .flush).sending.sender.pending = [] :=
  ⟨by decide +kernel, by decide +kernel⟩

end SharedSender
end FlexLink
