import FlexLink.Proofs.Envelope.Controls
import FlexLink.Proofs.Reliability.Resending
import FlexLink.Proofs.Stream.Delivery

/-! # What a sender keeps

A sender keeps the newest of its envelopes, `Keeps`: an acknowledgement drops the front of what is
kept up to its number, and a new envelope drops it past the capacity.  Over a link whose calls are
logged, a request for frames is answered with one call for each envelope that is kept. -/
set_option autoImplicit false
namespace FlexLink

theorem filter_eq_drop {α : Type} {p : α → Bool} {xs : List α} {k : Nat}
    (splits : ∀ i x, xs[i]? = some x → (p x = true ↔ k ≤ i)) : xs.filter p = xs.drop k := by
  induction xs generalizing k with
  | nil => rw [List.filter_nil, List.drop_nil]
  | cons x xs ih =>
      have first := splits 0 x rfl
      cases k with
      | zero =>
          have rest := ih (k := 0) fun i y here => by simpa using splits (i + 1) y here
          rw [List.filter_cons_of_pos (first.mpr (Nat.le_refl 0)), rest]
          rfl
      | succ k =>
          have out : ¬ p x = true := fun kept => Nat.not_succ_le_zero k (first.mp kept)
          rw [List.filter_cons_of_neg out, List.drop_succ_cons]
          apply ih
          intro i y here
          have := splits (i + 1) y here
          rwa [Nat.succ_le_succ_iff] at this

namespace StreamSender

/-- Envelopes that are numbered one after the other from 0. -/
def Numbered (es : List Event) : Prop := ∀ i e, es[i]? = some e → e.seq = UInt64.ofNat i

def frames (lane : Lane) (es : List Event) : List (UInt64 × List Packet) :=
  es.map fun e => (e.seq, lane.encodeEvent e)

/-- A buffer that keeps the newest of the envelopes.  Those below `floor` may have been
acknowledged, and those before the last ones that fit may have been driven out. -/
def Keeps (lane : Lane) (capacity floor : Nat) (es : List Event) (b : ResendBuffer UInt64) : Prop :=
  ∃ gone, gone ≤ es.length ∧ gone ≤ max floor (es.length - capacity) ∧
    b = .holding capacity ((frames lane es).drop gone)

variable {lane : Lane} {capacity floor : Nat} {es : List Event} {b : ResendBuffer UInt64} {e : Event}

theorem Numbered.toNat (numbered : Numbered es) (few : es.length ≤ lastSeq) {i : Nat}
    (here : es[i]? = some e) : e.seq.toNat = i := by
  have inside := (List.getElem?_eq_some_iff.mp here).1
  have top : lastSeq < UInt64.size := by decide
  rw [numbered i e here, UInt64.toNat_ofNat_of_lt' (by omega)]

theorem Numbered.snoc (numbered : Numbered es) (seq : e.seq = UInt64.ofNat es.length) :
    Numbered (es ++ [e]) := by
  intro i x here
  rcases Nat.lt_or_ge i es.length with earlier | last
  · rw [List.getElem?_append_left earlier] at here
    exact numbered i x here
  · rw [List.getElem?_append_right last] at here
    obtain ⟨zero, rfl⟩ : i - es.length = 0 ∧ e = x := by
      cases gap : i - es.length with
      | zero =>
          rw [gap] at here
          exact ⟨rfl, Option.some.inj here⟩
      | succ k =>
          rw [gap] at here
          cases here
    rw [seq]
    congr 1
    omega

theorem length_frames : (frames lane es).length = es.length := List.length_map _

theorem getElem?_frames {i : Nat} {x : UInt64 × List Packet} :
    (frames lane es)[i]? = some x ↔ ∃ e, es[i]? = some e ∧ (e.seq, lane.encodeEvent e) = x := by
  rw [frames, List.getElem?_map, Option.map_eq_some_iff]

theorem nodup_frames (numbered : Numbered es) (few : es.length ≤ lastSeq) :
    ((frames lane es).map (·.1)).Nodup := by
  rw [frames, List.map_map]
  refine List.pairwise_iff_getElem.mpr fun i j left right before same => ?_
  rw [List.length_map] at left right
  rw [List.getElem_map, List.getElem_map] at same
  have first := numbered.toNat few (List.getElem?_eq_getElem left)
  have second := numbered.toNat few (List.getElem?_eq_getElem right)
  have equal : es[i].seq.toNat = es[j].seq.toNat := congrArg UInt64.toNat same
  omega

theorem nodup_kept (numbered : Numbered es) (few : es.length ≤ lastSeq) (gone : Nat) :
    (((frames lane es).drop gone).map (·.1)).Nodup := by
  rw [List.map_drop]
  exact (nodup_frames numbered few).sublist (List.drop_sublist _ _)

theorem keeps_new (lane : Lane) (maxBuffered floor : Nat) :
    Keeps lane (max maxBuffered 1) floor [] (.new maxBuffered) :=
  ⟨0, Nat.le_refl _, Nat.zero_le _, ResendBuffer.new_eq_holding maxBuffered⟩

theorem Keeps.mono (keeps : Keeps lane capacity floor es b) {higher : Nat} (up : floor ≤ higher) :
    Keeps lane capacity higher es b := by
  obtain ⟨gone, inside, few, same⟩ := keeps
  exact ⟨gone, inside, by omega, same⟩

theorem Keeps.record (keeps : Keeps lane capacity floor es b) (numbered : Numbered es)
    (seq : e.seq = UInt64.ofNat es.length) (few : es.length < lastSeq) :
    Keeps lane capacity floor (es ++ [e]) (b.record e.seq (lane.encodeEvent e)) := by
  obtain ⟨gone, inside, bound, rfl⟩ := keeps
  have more : frames lane (es ++ [e]) = frames lane es ++ [(e.seq, lane.encodeEvent e)] :=
    List.map_append
  have long : (es ++ [e]).length = es.length + 1 := List.length_append
  have new : e.seq ∉ ((frames lane es).drop gone).map (·.1) := by
    have different : ((frames lane (es ++ [e])).map (·.1)).Nodup :=
      nodup_frames (numbered.snoc seq) (by omega)
    rw [more, List.map_append, List.nodup_append] at different
    intro old
    rw [List.map_drop] at old
    exact different.2.2 _ (List.mem_of_mem_drop old) _ (List.mem_singleton.mpr rfl) rfl
  rw [ResendBuffer.record_holding (nodup_kept numbered (Nat.le_of_lt few) gone) new,
    List.length_drop, length_frames]
  refine ⟨gone + (es.length - gone + 1 - capacity), by omega, by omega, ?_⟩
  have grown : (frames lane es).drop gone ++ [(e.seq, lane.encodeEvent e)]
      = (frames lane (es ++ [e])).drop gone := by
    rw [more, List.drop_append_of_le_length]
    rw [length_frames]
    exact inside
  rw [grown, List.drop_drop]

theorem Keeps.release (keeps : Keeps lane capacity floor es b) (numbered : Numbered es)
    (few : es.length ≤ lastSeq) {acked : UInt64} (below : acked.toNat < floor) :
    Keeps lane capacity floor es (b.release acked).1 := by
  obtain ⟨gone, inside, bound, rfl⟩ := keeps
  -- Numbers ascend, so what stays is what follows the acknowledged number.
  have stays : ((frames lane es).drop gone).filter (fun x => !ResendKey.covered x.1 acked)
      = ((frames lane es).drop gone).drop (acked.toNat + 1 - gone) := by
    apply filter_eq_drop
    intro i x here
    rw [List.getElem?_drop] at here
    obtain ⟨y, found, rfl⟩ := getElem?_frames.mp here
    have number := numbered.toNat few found
    have covered : ResendKey.covered y.seq acked = decide (y.seq.toNat ≤ acked.toNat) := rfl
    rw [covered, Bool.not_eq_true', decide_eq_false_iff_not]
    omega
  rw [ResendBuffer.release_holding, stays, List.drop_drop]
  rcases Nat.le_total (gone + (acked.toNat + 1 - gone)) es.length with short | all
  · exact ⟨_, short, by omega, rfl⟩
  · have none {n : Nat} (beyond : es.length ≤ n) : (frames lane es).drop n = [] := by
      apply List.drop_of_length_le
      rw [length_frames]
      exact beyond
    exact ⟨es.length, Nat.le_refl _, by omega, by rw [none all, none (Nat.le_refl _)]⟩

theorem Keeps.get? (keeps : Keeps lane capacity floor es b) (numbered : Numbered es)
    (few : es.length ≤ lastSeq) {k : Nat} (here : es[k]? = some e) (high : floor ≤ k)
    (recent : es.length - (k + 1) < capacity) :
    b.frames.get? (UInt64.ofNat k) = some (lane.encodeEvent e) := by
  obtain ⟨gone, inside, bound, rfl⟩ := keeps
  have before := (List.getElem?_eq_some_iff.mp here).1
  have kept : (UInt64.ofNat k, lane.encodeEvent e) ∈ (frames lane es).drop gone := by
    apply List.mem_of_getElem? (i := k - gone)
    rw [List.getElem?_drop, getElem?_frames]
    have place : gone + (k - gone) = k := by omega
    rw [place]
    exact ⟨e, here, by rw [numbered k e here]⟩
  exact Table.get?_of_mem (nodup_kept numbered few gone) kept

theorem Keeps.original (keeps : Keeps lane capacity floor es b) {key : UInt64}
    {packets : List Packet} (found : b.frames.get? key = some packets) :
    ∃ e ∈ es, e.seq = key ∧ packets = lane.encodeEvent e := by
  obtain ⟨gone, -, -, rfl⟩ := keeps
  obtain ⟨e, member, same⟩ := List.mem_map.mp (List.mem_of_mem_drop (Table.mem_of_get? found))
  cases same
  exact ⟨e, member, rfl, rfl⟩

theorem keeps_queueAll {s : StreamSender} (pieces : List Event)
    (keeps : Keeps s.lane capacity floor es s.reliability.buffer) (numbered : Numbered es)
    (count : s.nextSeq = es.length) (few : es.length + pieces.length ≤ lastSeq) :
    let new := pieces.mapIdx fun i p => { p with seq := UInt64.ofNat (s.nextSeq + i) }
    Numbered (es ++ new) ∧
      Keeps s.lane capacity floor (es ++ new) (pieces.foldl queue s).reliability.buffer := by
  induction pieces generalizing s es with
  | nil =>
      intro new
      have none : new = [] := rfl
      rw [none, List.append_nil]
      exact ⟨numbered, keeps⟩
  | cons p pieces ih =>
      intro new
      rw [List.length_cons] at few
      let first : Event := { p with seq := UInt64.ofNat s.nextSeq }
      have seq : first.seq = UInt64.ofNat es.length := congrArg UInt64.ofNat count
      have recorded : Keeps s.lane capacity floor (es ++ [first])
          (s.queue p).reliability.buffer :=
        keeps.record numbered seq (by omega)
      have long : (es ++ [first]).length = es.length + 1 := List.length_append
      have next : (s.queue p).nextSeq = s.nextSeq + 1 := rfl
      have rest := ih (s := s.queue p) recorded (numbered.snoc seq) (by omega) (by omega)
      have numbers (i : Nat) : (s.queue p).nextSeq + i = s.nextSeq + (i + 1) := by
        rw [next]
        omega
      simp only [numbers] at rest
      have split : es ++ new = es ++ [first] ++ pieces.mapIdx fun i p =>
          { p with seq := UInt64.ofNat (s.nextSeq + (i + 1)) } := by
        rw [List.append_assoc, List.singleton_append]
        exact congrArg (es ++ ·) List.mapIdx_cons
      rw [split]
      exact rest

end StreamSender

namespace Sending

open StreamSender Receiving

variable {σ : Type} (link : Link σ) {w : Sending (σ × List (List Packet))}

theorem transmit_called (w : Sending (σ × List (List Packet))) (packets : List Packet) :
    ∃ net metrics, (w.transmit link.called packets).1 = { w with
      net := (net, packets :: w.net.2)
      sender := { w.sender with metrics } } := by
  rw [transmit]
  cases call : link.called.send w.net packets with
  | mk net result =>
      have log : net = ((link.send w.net.1 packets).1, packets :: w.net.2) := congrArg Prod.fst call.symm
      rw [log]
      cases result with
      | ok => exact ⟨_, _, rfl⟩
      | error why => exact ⟨_, w.sender.metrics, rfl⟩

theorem flush_called (w : Sending (σ × List (List Packet))) :
    ∃ net calls metrics, (w.flush link.called).1 = { w with
      net := (net, calls ++ w.net.2)
      sender := { w.sender with pending := [], metrics } } ∧
      calls.reverse.flatten = w.sender.pending := by
  rw [flush]
  by_cases none : w.sender.pending.isEmpty = true
  · have empty : w.sender.pending = [] := List.isEmpty_iff.mp none
    rw [if_pos none]
    refine ⟨w.net.1, [], w.sender.metrics, ?_, empty.symm⟩
    rw [← empty]
    rfl
  · obtain ⟨net, metrics, same⟩ := transmit_called link { w with sender := { w.sender with pending := [] } }
      w.sender.pending
    rw [if_neg none, same]
    exact ⟨net, [w.sender.pending], metrics, rfl, List.append_nil _⟩

theorem retransmit_called (w : Sending (σ × List (List Packet))) (frames : List (UInt64 × List Packet)) :
    ∃ net metrics, w.retransmit link.called frames = { w with
      net := (net, (frames.map (·.2)).reverse ++ w.net.2)
      sender := { w.sender with metrics } } := by
  induction frames generalizing w with
  | nil => exact ⟨w.net.1, w.sender.metrics, rfl⟩
  | cons frame rest ih =>
      obtain ⟨key, packets⟩ := frame
      obtain ⟨net, metrics, same⟩ := transmit_called link w packets
      rw [List.map_cons, List.reverse_cons, List.append_assoc, retransmit]
      cases call : w.transmit link.called packets with
      | mk after result =>
          rw [call] at same
          cases same
          cases result with
          | ok => exact ih _
          | error why => exact ih _

theorem onControl_called (w : Sending (σ × List (List Packet))) (c : Control UInt64) :
    let handled := w.sender.reliability.handle c
    ∃ net metrics, w.onControl link.called c = { w with
      net := (net, (handled.2.map (·.2)).reverse ++ w.net.2)
      sender := { w.sender with reliability := handled.1, metrics } } := by
  intro handled
  exact retransmit_called link { w with sender := { w.sender with reliability := handled.1 } } handled.2

theorem pushAll_encodeEvent (a : Assembler) (lane : Lane) {e : Event} (untimed : e.ts = none) :
    a.pushAll (lane.encodeEvent e) = (a.restart, [textOf e]) := by
  have free : (0 : UInt8) ∉ Utf8.encode e.render := zero_notMem_of_plain (e.plain untimed)
  rw [Lane.encodeEvent, Lane.encodeText, Assembler.pushAll_pack, Lane.carried_of_free free, textOf]

theorem onText_textOf (any : Link σ) (u : Sending σ) (c : Control UInt64) :
    u.onText any (textOf c.toEvent) = u.onControl any c := by
  have read : parseOutcome Event.shape (textOf c.toEvent) = .ok c.toEvent :=
    parseText_encode (Event.parse_render c.toEvent rfl)
  rw [onText, read]
  simp only [Control.ofEvent?_toEvent ResendKey.faithful_uint64]

def taking (u : Sending σ) (batch : List Packet) : Sending σ :=
  ({ u with returning := (u.returning.pushAll batch).1 } : Sending σ).count
    (·.addBytesReceived (batch.length * Packet.size))

theorem onBatch_eq (any : Link σ) {u : Sending σ} (listening : u.listening = true)
    (batch : List Packet) :
    u.onBatch any batch = (u.returning.pushAll batch).2.foldl (onText any) (u.taking batch) := by
  rw [onBatch, if_pos listening]
  rfl

/-- A sender that has recorded the envelopes `es`, has handed over the packets `handed` of them and
has got as far as `coming` in what comes back.  No acknowledgement has reached `floor`. -/
structure Remembers (lane : Lane) (capacity floor : Nat) (coming : Assembler) (es : List Event)
    (handed : List Packet) (w : Sending (σ × List (List Packet))) : Prop where
  onLane : w.sender.lane = lane
  ongoing : w.returning = coming
  listening : w.listening = true
  count : w.sender.nextSeq = es.length
  numbered : Numbered es
  keeps : Keeps lane capacity floor es w.sender.reliability.buffer
  packets : handed ++ w.sender.pending = es.flatMap lane.encodeEvent

variable {lane : Lane} {capacity floor : Nat} {coming : Assembler} {es : List Event}
  {handed : List Packet}

theorem Remembers.mono (remembers : Remembers lane capacity floor coming es handed w) {higher : Nat}
    (up : floor ≤ higher) : Remembers lane capacity higher coming es handed w :=
  { remembers with keeps := remembers.keeps.mono up }

theorem Remembers.flush (remembers : Remembers lane capacity floor coming es handed w) :
    ∃ calls, (w.flush link.called).1.net.2 = calls ++ w.net.2 ∧
      Remembers lane capacity floor coming es (handed ++ calls.reverse.flatten) (w.flush link.called).1 := by
  obtain ⟨onLane, ongoing, listening, count, numbered, keeps, packets⟩ := remembers
  obtain ⟨net, calls, metrics, same, spent⟩ := flush_called link w
  rw [same]
  refine ⟨calls, rfl, onLane, ongoing, listening, count, numbered, keeps, ?_⟩
  rw [spent]
  exact (List.append_nil _).trans packets

/-- An event is sent: its envelopes are recorded, and what waits may be handed over. -/
theorem Remembers.send (remembers : Remembers lane capacity floor coming es handed w) (e : Event)
    (freshId : String) :
    let new := Sent.envelopes w.sender.maxFragmentBytes ⟨e, freshId, w.sender.nextSeq⟩
    es.length + new.length ≤ lastSeq →
    ∃ calls, (w.send link.called e freshId).1.net.2 = calls ++ w.net.2 ∧
      Remembers lane capacity floor coming (es ++ new) (handed ++ calls.reverse.flatten)
        (w.send link.called e freshId).1 := by
  intro new few
  obtain ⟨onLane, ongoing, listening, count, numbered, keeps, packets⟩ := remembers
  let pieces := e.pieces w.sender.maxFragmentBytes freshId
  let queued : Sending (σ × List (List Packet)) :=
    { w with sender := pieces.foldl StreamSender.queue w.sender }
  have long : new.length = pieces.length := Sent.length_envelopes
  have alike := StreamSender.alike_queueAll w.sender pieces
  rw [← onLane] at keeps packets ⊢
  obtain ⟨numbers, kept⟩ := keeps_queueAll pieces keeps numbered count (by omega)
  have recorded : Remembers w.sender.lane capacity floor coming (es ++ new) handed queued := by
    refine ⟨alike.lane, ongoing, listening, ?_, numbers, kept, ?_⟩
    · have next := StreamSender.nextSeq_queueAll w.sender pieces
      rw [List.length_append, long, ← count]
      exact next
    · rw [List.flatMap_append, ← packets, List.append_assoc]
      exact congrArg (handed ++ ·) (StreamSender.pending_queueAll w.sender pieces)
  obtain ⟨calls, log, flushed⟩ := recorded.flush link
  rw [Sending.send]
  split
  · exact ⟨[], rfl, by rw [List.reverse_nil, List.flatten_nil, List.append_nil]; exact recorded⟩
  · cases call : queued.flush link.called with
    | mk after result =>
        rw [call] at log flushed
        cases result with
        | ok => exact ⟨calls, log, flushed⟩
        | error why => exact ⟨calls, log, flushed⟩

theorem Remembers.control (remembers : Remembers lane capacity floor coming es handed w)
    (few : es.length ≤ lastSeq) {c : Control UInt64} (below : c.Below floor) :
    Remembers lane capacity floor coming es handed (w.onControl link.called c) := by
  obtain ⟨onLane, ongoing, listening, count, numbered, keeps, packets⟩ := remembers
  obtain ⟨net, metrics, same⟩ := onControl_called link w c
  rw [same]
  refine ⟨onLane, ongoing, listening, count, numbered, ?_, packets⟩
  simp only [Reliability.handle]
  cases acked : c.ack with
  | none => exact keeps
  | some seq => exact keeps.release numbered few (below seq acked)

theorem Remembers.texts (remembers : Remembers lane capacity floor coming es handed w)
    (few : es.length ≤ lastSeq) {texts : List (Except RunError (List UInt8))}
    (controls : ∀ text ∈ texts, ∃ c : Control UInt64, c.Below floor ∧ text = textOf c.toEvent) :
    Remembers lane capacity floor coming es handed (texts.foldl (onText link.called) w) := by
  induction texts generalizing w with
  | nil => exact remembers
  | cons text texts ih =>
      obtain ⟨⟨c, below, rfl⟩, others⟩ := List.forall_mem_cons.mp controls
      rw [List.foldl_cons, onText_textOf]
      exact ih (remembers.control link few below) others

theorem Remembers.batch (remembers : Remembers lane capacity floor coming es handed w)
    (few : es.length ≤ lastSeq) {batch : List Packet}
    (controls : ∀ text ∈ (coming.pushAll batch).2,
      ∃ c : Control UInt64, c.Below floor ∧ text = textOf c.toEvent) :
    Remembers lane capacity floor (coming.pushAll batch).1 es handed (w.onBatch link.called batch) := by
  obtain ⟨onLane, ongoing, listening, count, numbered, keeps, packets⟩ := remembers
  have taken : Remembers lane capacity floor (coming.pushAll batch).1 es handed (w.taking batch) := by
    rw [← ongoing]
    exact ⟨onLane, rfl, listening, count, numbered, keeps, packets⟩
  rw [← ongoing] at controls
  rw [onBatch_eq link.called listening]
  exact taken.texts link few controls

/-- Whether packets complete one control message and nothing else. -/
def Hears (u : Sending σ) (batch : List Packet) (c : Control UInt64) : Prop :=
  (u.returning.pushAll batch).2 = [textOf c.toEvent]

theorem hears_whole (u : Sending σ) (lane : Lane) (c : Control UInt64) :
    u.Hears (lane.encodeEvent c.toEvent) c := by
  rw [Hears, pushAll_encodeEvent u.returning lane rfl]

/-- Packets that complete one request for frames: each key that is kept is answered with a call. -/
theorem Remembers.answers (remembers : Remembers lane capacity floor coming es handed w)
    {keys : List UInt64} {batch : List Packet} (hears : w.Hears batch { nack := some keys }) :
    (w.onBatch link.called batch).net.2
      = (keys.filterMap w.sender.reliability.buffer.frames.get?).reverse ++ w.net.2 := by
  obtain ⟨net, metrics, same⟩ :=
    onControl_called link (w.taking batch) { nack := some keys }
  rw [Hears] at hears
  rw [onBatch_eq link.called remembers.listening, hears, List.foldl_cons, List.foldl_nil,
    onText_textOf, same, ← ResendBuffer.lookup_frames]
  rfl

end Sending
end FlexLink
