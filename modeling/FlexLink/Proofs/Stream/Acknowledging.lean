import FlexLink.Proofs.Envelope.Controls
import FlexLink.Proofs.Stream.Safety

/-! # What a receiver acknowledges

A receiver acknowledges an envelope when its turn has come, so the number that it waits for is higher
by then and stays higher: whatever reaches a receiver, it is `Truthful`. -/
set_option autoImplicit false
namespace FlexLink

namespace Receiving

variable {τ : Type} (link : Link τ) {lane : Lane} {w : Receiving (τ × List (List Packet))}

def next (u : Receiving τ) : Nat := u.receiver.reorder.next

structure Truthful (lane : Lane) (w : Receiving (τ × List (List Packet))) : Prop where
  onLane : w.receiver.lane = lane
  ordered : w.receiver.reorder.Ordered
  told : ∀ m ∈ w.net.2, ∃ c : Control UInt64, m = lane.encodeEvent c.toEvent ∧ c.Below w.next

theorem truthful_new (net : τ) (lane : Lane) (stream : StreamSettings) :
    Truthful lane { net := (net, []), receiver := .new lane stream } := by
  refine ⟨rfl, ReorderBuffer.ordered_new _, ?_⟩
  intro m none
  cases none

theorem Truthful.same (truthful : Truthful lane w) {u : Receiving (τ × List (List Packet))}
    (net : u.net = w.net) (onLane : u.receiver.lane = w.receiver.lane)
    (reorder : u.receiver.reorder = w.receiver.reorder) : Truthful lane u := by
  obtain ⟨same, ordered, told⟩ := truthful
  refine ⟨onLane.trans same, reorder ▸ ordered, ?_⟩
  rw [net, next, reorder]
  exact told

theorem Truthful.still (truthful : Truthful lane w) {u : Receiving (τ × List (List Packet))}
    (net : u.net = w.net) (onLane : u.receiver.lane = w.receiver.lane)
    (reorder : u.receiver.reorder = w.receiver.reorder) : Truthful lane u ∧ w.next ≤ u.next :=
  ⟨truthful.same net onLane reorder, Nat.le_of_eq (congrArg ReorderBuffer.next reorder.symm)⟩

theorem Truthful.tell (truthful : Truthful lane w) {c : Control UInt64} (below : c.Below w.next) :
    Truthful lane (w.sendControl link.called c) := by
  obtain ⟨onLane, ordered, told⟩ := truthful
  have more : ∀ m ∈ w.receiver.lane.encodeEvent c.toEvent :: w.net.2,
      ∃ c : Control UInt64, m = lane.encodeEvent c.toEvent ∧ c.Below w.next := by
    intro m member
    rcases List.mem_cons.mp member with rfl | old
    · exact ⟨c, by rw [onLane], below⟩
    · exact told m old
  rw [sendControl]
  cases call : link.called.send w.net (w.receiver.lane.encodeEvent c.toEvent) with
  | mk net result =>
      have log : net.2 = w.receiver.lane.encodeEvent c.toEvent :: w.net.2 :=
        congrArg (·.1.2) call.symm
      rw [← log] at more
      cases result with
      | ok => exact ⟨onLane, ordered, more⟩
      | error why => exact ⟨onLane, ordered, more⟩

theorem Truthful.acknowledge (truthful : Truthful lane w) {seq : UInt64}
    (below : seq.toNat < w.next) : Truthful lane (w.acknowledge link.called seq) := by
  rw [Receiving.acknowledge]
  split
  · have ready : Truthful lane { w with receiver := { w.receiver with sinceAck := 0 } } :=
      truthful.same rfl rfl rfl
    exact (ready.tell link (Control.below_ofAck below)).same rfl rfl rfl
  · exact truthful.same rfl rfl rfl

theorem take_keeps (u : Receiving τ) (e : Event) :
    (u.take e).net = u.net ∧ (u.take e).receiver.lane = u.receiver.lane ∧
      (u.take e).receiver.reorder = u.receiver.reorder := by
  rw [take]
  cases (u.receiver.joiner.push e).2 with
  | error why => exact ⟨rfl, rfl, rfl⟩
  | ok whole =>
      cases whole with
      | none => exact ⟨rfl, rfl, rfl⟩
      | some whole =>
          simp only [deliver]
          split
          · exact ⟨rfl, rfl, rfl⟩
          · exact ⟨rfl, rfl, rfl⟩

theorem Truthful.ready (truthful : Truthful lane w) {e : Event} (below : e.seq.toNat < w.next) :
    Truthful lane (w.onReady link.called e) ∧ (w.onReady link.called e).next = w.next := by
  obtain ⟨net, onLane, reorder⟩ := take_keeps w e
  have taken : Truthful lane (w.take e) := truthful.same net onLane reorder
  have waits : (w.take e).next = w.next := congrArg ReorderBuffer.next reorder
  rw [onReady_eq]
  split
  · obtain ⟨back, sinceAck, metrics, same⟩ := acknowledge_same link.called (w.take e) e.seq
    have acknowledged : Truthful lane ((w.take e).acknowledge link.called e.seq) :=
      taken.acknowledge link (waits ▸ below)
    rw [same] at acknowledged ⊢
    exact ⟨acknowledged, waits⟩
  · exact ⟨taken, waits⟩

theorem Truthful.readyAll (truthful : Truthful lane w) {ready : List Event}
    (below : ∀ e ∈ ready, e.seq.toNat < w.next) :
    Truthful lane (w.onReadyAll link.called ready) ∧
      (w.onReadyAll link.called ready).next = w.next := by
  induction ready generalizing w with
  | nil => exact ⟨truthful, rfl⟩
  | cons e rest ih =>
      obtain ⟨here, others⟩ := List.forall_mem_cons.mp below
      obtain ⟨first, waits⟩ := truthful.ready link here
      rw [onReadyAll]
      split
      · obtain ⟨later, same⟩ := ih first (waits ▸ others)
        exact ⟨later, same.trans waits⟩
      · exact ⟨first, waits⟩

theorem Truthful.note (truthful : Truthful lane w) (out : Reordered) :
    Truthful lane (w.note link.called out) ∧ (w.note link.called out).next = w.next := by
  have asked : Truthful lane (if out.missing.isEmpty then w
      else (w.sendControl link.called (.ofNack (out.missing.map UInt64.ofNat))).count (·.nackSent)) := by
    split
    · exact truthful
    · exact (truthful.tell link (Control.below_ofNack _ _)).same rfl rfl rfl
  have noted : Truthful lane (w.note link.called out) := by
    rw [Receiving.note]
    split
    · exact asked.same rfl rfl rfl
    · exact asked
  obtain ⟨net, metrics, same⟩ := note_same link.called w out
  refine ⟨noted, ?_⟩
  rw [same]
  rfl

/-- One event.  Its number is not waited for any more once it is delivered. -/
theorem Truthful.event (truthful : Truthful lane w) (e : Event) :
    Truthful lane (w.onEvent link.called e) ∧ w.next ≤ (w.onEvent link.called e).next := by
  by_cases control : e.isControl = true
  · rw [onEvent, control, if_pos rfl, deliver]
    split
    · exact truthful.still rfl rfl rfl
    · exact truthful.still rfl rfl rfl
  · have event : e.isControl = false := Bool.eq_false_iff.mpr control
    cases pushed : w.receiver.reorder.push e with
    | none =>
        rw [onEvent, event]
        simp only [count, pushed]
        exact truthful.still rfl rfl rfl
    | some result =>
        obtain ⟨reorder, out⟩ := result
        rcases ReorderBuffer.push_spec truthful.ordered pushed with ⟨rfl, rfl, -⟩ | advances
        · rw [onEvent, event]
          simp only [count, pushed]
          exact truthful.still rfl rfl rfl
        · have onward : w.next ≤ reorder.next := by
            rw [advances.next]
            show w.receiver.reorder.next ≤ _
            omega
          let admitted : Receiving (τ × List (List Packet)) :=
            { w with receiver := { w.receiver with reorder, metrics := w.receiver.metrics.eventReceived } }
          have grown : Truthful lane admitted := by
            refine ⟨truthful.onLane, advances.ordered, fun m member => ?_⟩
            obtain ⟨c, same, below⟩ := truthful.told m member
            exact ⟨c, same, below.mono onward⟩
          obtain ⟨noted, waits⟩ := grown.note link out
          have delivered : ∀ x ∈ [] ++ out.ready, x.seq.toNat < admitted.next :=
            (advances.ascending .nil fun x none => by cases none).2
          rw [List.nil_append, ← waits] at delivered
          obtain ⟨told, same⟩ := noted.readyAll link delivered
          rw [onEvent_ready link.called event pushed advances.counted]
          exact ⟨told, by rw [same, waits]; exact onward⟩

theorem Truthful.texts (truthful : Truthful lane w) (texts : List (Except RunError (List UInt8))) :
    Truthful lane (w.onTexts link.called texts) ∧ w.next ≤ (w.onTexts link.called texts).next := by
  induction texts generalizing w with
  | nil => exact truthful.still rfl rfl rfl
  | cons text texts ih =>
      have first : Truthful lane (w.onText link.called text) ∧
          w.next ≤ (w.onText link.called text).next := by
        rw [onText]
        split
        · exact truthful.still rfl rfl rfl
        · next e read => exact truthful.event link e
      rw [onTexts]
      split
      · obtain ⟨rest, onward⟩ := ih first.1
        exact ⟨rest, Nat.le_trans first.2 onward⟩
      · exact first

theorem Truthful.batch (truthful : Truthful lane w) (batch : List Packet) :
    Truthful lane (w.onBatch link.called batch) ∧ w.next ≤ (w.onBatch link.called batch).next := by
  rw [onBatch]
  split
  · have received : Truthful lane (({ w with coming := (w.coming.pushAll batch).1 } : Receiving _).count
        (·.addBytesReceived (batch.length * Packet.size))) := truthful.same rfl rfl rfl
    exact received.texts link (w.coming.pushAll batch).2
  · exact truthful.still rfl rfl rfl

end Receiving
end FlexLink
