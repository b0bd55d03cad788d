import Mathlib.Data.List.Flatten
import FlexLink.Proofs.Wire.Framing
import FlexLink.Proofs.Wire.Position

/-! # Lost frames

Packets do not say which run they belong to, so when frames are lost an assembler may close one
run with the end of another.  What can come of it is bounded: between two losses an assembler
completes what one that starts there would complete, behind at most one text that closes a run
left open before; and no byte is made up, repeated or moved. -/
set_option autoImplicit false
namespace FlexLink

open scoped List

namespace Assembler

def held (a : Assembler) : List UInt8 := (a.opened.getD []).reverse.flatten

theorem restart_held (a : Assembler) : a.restart.held = [] := by
  rw [held, restart_opened]
  rfl

theorem held_cons (chunk : List UInt8) (done : List (List UInt8)) (k : Nat) :
    held ⟨some (chunk :: done), k⟩ = held ⟨some done, k⟩ ++ chunk := by
  rw [held, Option.getD_some, List.reverse_cons, List.flatten_append, List.flatten_singleton]
  rfl

theorem okTexts_ok (text : List UInt8) : (okTexts (some (.ok text))).flatten = text :=
  List.append_nil text

theorem pushText_bytes (a : Assembler) (form : FlexForm) (chunk : List UInt8) :
    (okTexts (a.pushText form chunk).2).flatten ++ (a.pushText form chunk).1.held
      <+ a.held ++ chunk := by
  obtain ⟨opened, k⟩ := a
  cases form with
  | whole =>
      rw [pushText, restart_held, okTexts_ok, List.append_nil]
      exact List.sublist_append_right _ _
  | start =>
      have fresh : (pushText ⟨opened, k⟩ .start chunk).1.held = chunk := List.append_nil chunk
      rw [fresh]
      exact List.sublist_append_right _ _
  | middle =>
      cases opened with
      | none => exact List.nil_sublist _
      | some done =>
          rw [← held_cons]
          exact List.Sublist.refl _
  | last =>
      cases opened with
      | none => exact List.nil_sublist _
      | some done =>
          rw [← held_cons, pushText, okTexts_ok]
          have closed : held ⟨none, k⟩ = [] := rfl
          rw [closed, List.append_nil]
          exact List.Sublist.refl _

theorem push_bytes (a : Assembler) (p : Packet) :
    (okTexts (a.push p).2).flatten ++ (a.push p).1.held <+ a.held ++ p.carried := by
  rw [push, Packet.carried]
  cases FlexPacket.ofPacket p with
  | error why => exact List.sublist_append_left _ _
  | ok flex =>
      by_cases text : flex.isText = true
      · simp only [text, if_true]
        exact pushText_bytes a flex.form flex.text
      · simp only [text]
        exact List.sublist_append_left _ _

/-- Every text is made of bytes that came, each at most once and in order. -/
theorem textsFrom_bytes (a : Assembler) (ps : List Packet) :
    (a.textsFrom ps).flatten ++ (a.pushAll ps).1.held <+ a.held ++ ps.flatMap Packet.carried := by
  induction ps generalizing a with
  | nil =>
      rw [List.flatMap_nil, List.append_nil]
      exact List.Sublist.refl _
  | cons p ps ih =>
      have first := (push_bytes a p).append_right (ps.flatMap Packet.carried)
      have later := (ih (a.push p).1).append_left (okTexts (a.push p).2).flatten
      rw [textsFrom_cons, List.flatten_append, List.flatMap_cons]
      simp only [List.append_assoc] at first later ⊢
      exact later.trans first

/-! ## Taking up in the middle -/

theorem push_congr {a b : Assembler} (same : a.opened = b.opened) (p : Packet) :
    (a.push p).2 = (b.push p).2 ∧ (a.push p).1.opened = (b.push p).1.opened := by
  obtain ⟨opened, k⟩ := a
  obtain ⟨_, l⟩ := b
  cases same
  rw [push, push]
  cases FlexPacket.ofPacket p with
  | error why => exact ⟨rfl, rfl⟩
  | ok flex =>
      by_cases text : flex.isText = true
      · simp only [text, if_true]
        cases flex.form <;> cases opened <;> exact ⟨rfl, rfl⟩
      · simp only [text]
        exact ⟨rfl, rfl⟩

theorem textsFrom_congr {a b : Assembler} (same : a.opened = b.opened) (ps : List Packet) :
    a.textsFrom ps = b.textsFrom ps := by
  induction ps generalizing a b with
  | nil => rfl
  | cons p ps ih =>
      obtain ⟨outcome, opened⟩ := push_congr same p
      rw [textsFrom_cons, textsFrom_cons, outcome, ih opened]

/-- One packet for an assembler with an open run and for a fresh one: either both stand at the same
place afterwards, and the first may have closed its run, or neither gives a text and the second is
still fresh. -/
theorem push_fresh (a : Assembler) (p : Packet) :
    ((a.push p).1.opened = (push {} p).1.opened ∧
        ∃ extra : Option (List UInt8), okTexts (a.push p).2 = extra.toList ++ okTexts (push {} p).2) ∨
      (okTexts (a.push p).2 = [] ∧ okTexts (push {} p).2 = [] ∧ (push {} p).1.opened = none) := by
  obtain ⟨opened, k⟩ := a
  cases opened with
  | none =>
      obtain ⟨outcome, same⟩ := push_congr (a := ⟨none, k⟩) (b := {}) rfl p
      exact .inl ⟨same, none, congrArg okTexts outcome⟩
  | some done =>
      rw [push, push]
      cases FlexPacket.ofPacket p with
      | error why => exact .inr ⟨rfl, rfl, rfl⟩
      | ok flex =>
          by_cases text : flex.isText = true
          · simp only [text, if_true]
            cases flex.form with
            | whole => exact .inl ⟨rfl, none, rfl⟩
            | start => exact .inl ⟨rfl, none, rfl⟩
            | middle => exact .inr ⟨rfl, rfl, rfl⟩
            | last => exact .inl ⟨rfl, some (flex.text :: done).reverse.flatten, rfl⟩
          · simp only [text]
            exact .inr ⟨rfl, rfl, rfl⟩

theorem textsFrom_extra (a : Assembler) (ps : List Packet) :
    ∃ extra : Option (List UInt8), a.textsFrom ps = extra.toList ++ texts ps := by
  have fresh (ps : List Packet) : texts ps = textsFrom {} ps := rfl
  induction ps generalizing a with
  | nil => exact ⟨none, rfl⟩
  | cons p ps ih =>
      rw [fresh, textsFrom_cons, textsFrom_cons]
      rcases push_fresh a p with ⟨same, extra, outcome⟩ | ⟨quiet, silent, idle⟩
      · refine ⟨extra, ?_⟩
        rw [outcome, textsFrom_congr same, List.append_assoc]
      · -- The run is still open, so the text that closes it may be given later.
        obtain ⟨extra, later⟩ := ih (a.push p).1
        refine ⟨extra, ?_⟩
        rw [quiet, silent, later, fresh, textsFrom_congr (b := {}) idle]
        rfl

/-- Packets give an assembler what they give a fresh one, behind at most one text that closes the
run it has open. -/
theorem textsFrom_resume (a : Assembler) (ps : List Packet) :
    ∃ extra : Option (List UInt8),
      (a.isIdle = true → extra = none) ∧ a.textsFrom ps = extra.toList ++ texts ps := by
  cases idle : a.isIdle with
  | true =>
      refine ⟨none, fun _ => rfl, ?_⟩
      exact textsFrom_congr (b := {}) (Option.isNone_iff_eq_none.mp idle) ps
  | false =>
      obtain ⟨extra, resumed⟩ := a.textsFrom_extra ps
      exact ⟨extra, fun busy => (by cases busy), resumed⟩

/-- The same for packets in several parts: each part may begin by closing one run, and only if the
parts before it leave one open. -/
theorem textsFrom_parts (a : Assembler) (parts : List (List Packet)) :
    ∃ closing : List (Option (List UInt8)),
      closing.length = parts.length ∧
      (∀ i text, closing[i]? = some (some text) →
        (a.pushAll (parts.take i).flatten).1.isIdle = false) ∧
      a.textsFrom parts.flatten = (closing.zip parts).flatMap fun s => s.1.toList ++ texts s.2 := by
  induction parts generalizing a with
  | nil => exact ⟨[], rfl, fun i text none => (by cases none), rfl⟩
  | cons part parts ih =>
      obtain ⟨extra, idle, here⟩ := a.textsFrom_resume part
      obtain ⟨closing, long, busy, later⟩ := ih (a.pushAll part).1
      refine ⟨extra :: closing, congrArg Nat.succ long, ?_, ?_⟩
      · intro i text found
        cases i with
        | zero =>
            have given : extra = some text := Option.some.inj found
            rw [given] at idle
            exact Bool.eq_false_iff.mpr fun rest => absurd (idle rest) (by simp)
        | succ i =>
            rw [List.take_succ_cons, List.flatten_cons, pushAll_append]
            exact busy i text found
      · rw [List.flatten_cons, textsFrom_append, here, later]
        rfl

end Assembler
/-! ## Losing frames -/

namespace Loss

section Cutting

variable {α : Type} {p : α → Bool}

theorem splitOnP_cons (x : α) (xs : List α) :
    ∃ head tail, xs.splitOnP p = head :: tail ∧
      (x :: xs).splitOnP p = if p x then [] :: head :: tail else (x :: head) :: tail := by
  cases split : xs.splitOnP p with
  | nil => exact absurd split (List.splitOnP_ne_nil p xs)
  | cons head tail =>
      refine ⟨head, tail, rfl, ?_⟩
      rw [List.splitOnP_cons_eq_if_modifyHead, split]
      rfl

theorem flatten_splitOnP (xs : List α) : (xs.splitOnP p).flatten = xs.filter fun x => !p x := by
  induction xs with
  | nil => rfl
  | cons x xs ih =>
      obtain ⟨head, tail, split, cut⟩ := splitOnP_cons (p := p) x xs
      rw [split] at ih
      rw [cut, List.filter_cons, ← ih]
      cases p x <;> rfl

end Cutting

abbrev Numbered := List (Batch × Nat)

def packetsOf (frames : Numbered) : List Packet := (frames.map Prod.fst).flatten

/-- The frames that arrive if those with the numbers in `lost` do not. -/
def survivors (lost : Nat → Bool) (frames : List Batch) : List Batch :=
  (frames.zipIdx.filter fun f => !lost f.2).map Prod.fst

/-- The packets that arrive, in parts between which frames were lost. -/
def stretches (lost : Nat → Bool) (frames : List Batch) : List (List Packet) :=
  (frames.zipIdx.splitOnP fun f => lost f.2).map packetsOf

theorem flatten_stretches (lost : Nat → Bool) (frames : List Batch) :
    (stretches lost frames).flatten = (survivors lost frames).flatten := by
  rw [survivors, ← flatten_splitOnP, stretches]
  induction frames.zipIdx.splitOnP fun f => lost f.2 with
  | nil => rfl
  | cons part parts ih =>
      rw [List.map_cons, List.flatten_cons, ih, List.flatten_cons, List.map_append,
        List.flatten_append]
      rfl

theorem packetsOf_zipIdx (frames : List Batch) : packetsOf frames.zipIdx = frames.flatten := by
  rw [packetsOf, List.zipIdx_map_fst]

theorem packetsOf_cons (f : Batch × Nat) (frames : Numbered) :
    packetsOf (f :: frames) = f.1 ++ packetsOf frames := by
  rw [packetsOf, List.map_cons, List.flatten_cons]
  rfl

/-- An assembler that starts anew behind each loss completes texts that it may expect. -/
theorem texts_split {lost : Batch × Nat → Bool} (frames : Numbered) (a : Assembler)
    {head : Numbered} {tail : List Numbered} {expected : List (List UInt8)}
    (split : frames.splitOnP lost = head :: tail)
    (awaits : Assembler.Awaits a.opened (packetsOf frames) expected) :
    a.textsFrom (packetsOf head) ++ tail.flatMap (fun s => Assembler.texts (packetsOf s))
      <+ expected := by
  induction frames generalizing a head tail expected with
  | nil =>
      obtain ⟨rfl, rfl⟩ := List.cons.inj split
      exact List.nil_sublist _
  | cons f frames ih =>
      obtain ⟨next, others, rest, cut⟩ := splitOnP_cons (p := lost) f frames
      rw [packetsOf_cons] at awaits
      obtain ⟨later, expects, onward⟩ := awaits.run
      rw [cut] at split
      cases gone : lost f with
      | true =>
          -- What the lost frame would have completed is missing from the texts, no more.
          rw [gone] at split
          obtain ⟨rfl, rfl⟩ := List.cons.inj split
          obtain ⟨latest, fewer, anew⟩ := onward.forget
          have after := ih {} rest anew
          exact (after.trans fewer).trans (expects ▸ List.sublist_append_right _ _)
      | false =>
          rw [gone] at split
          obtain ⟨rfl, rfl⟩ := List.cons.inj split
          have after := ih (a.pushAll f.1).1 rest onward
          rw [packetsOf_cons, Assembler.textsFrom_append, List.append_assoc, ← expects]
          exact after.append_left _

theorem texts_stretches (lost : Nat → Bool) (frames : List Batch)
    (messages : List (Lane × List UInt8)) (sent : frames.flatten = Lane.packAll messages) :
    (stretches lost frames).flatMap Assembler.texts <+ Lane.carriedAll messages := by
  have awaits : Assembler.Awaits none (packetsOf frames.zipIdx) (Lane.carriedAll messages) := by
    rw [packetsOf_zipIdx, sent]
    exact .start messages
  cases split : frames.zipIdx.splitOnP fun f => lost f.2 with
  | nil => exact absurd split (List.splitOnP_ne_nil _ _)
  | cons head tail =>
      have expected := texts_split frames.zipIdx {} split awaits
      rw [stretches, split, List.flatMap_map]
      exact expected

theorem carried_packRest (lane : Lane) {rest : List (List UInt8)}
    (fit : ∀ c ∈ rest, c.length ≤ 12) :
    (lane.packRest rest).flatMap Packet.carried = (rest.map stripZeros).flatten := by
  induction rest with
  | nil => rfl
  | cons chunk rest ih =>
      obtain ⟨here, others⟩ := List.forall_mem_cons.mp fit
      by_cases final : rest = []
      · rw [final, Lane.packRest, List.flatMap_singleton, Lane.carried_packet lane .last here]
        exact (List.append_nil _).symm
      · rw [Lane.packRest_cons final, List.flatMap_cons, Lane.carried_packet lane .middle here,
          ih others]
        rfl

theorem carried_pack (lane : Lane) (text : List UInt8) :
    (lane.pack text).flatMap Packet.carried = Lane.carried text := by
  by_cases short : text.length ≤ FlexPacket.payloadSize
  · rw [Lane.pack_short short, List.flatMap_singleton, Lane.carried_packet lane .whole short,
      Lane.carried_of_length_le short]
  · obtain ⟨first, rest, cut, -, ⟨here, others⟩, packets⟩ :=
      Lane.pack_long (Nat.lt_of_not_le short) lane
    rw [packets, List.flatMap_cons, Lane.carried_packet lane .start here,
      carried_packRest lane others, Lane.carried, cut]
    rfl

theorem carried_packAll (messages : List (Lane × List UInt8)) :
    (Lane.packAll messages).flatMap Packet.carried = (Lane.carriedAll messages).flatten := by
  induction messages with
  | nil => rfl
  | cons m messages ih =>
      rw [Lane.packAll_cons, List.flatMap_append, carried_pack, ih, Lane.carriedAll_cons,
        List.flatten_cons]

theorem bytes_survivors (lost : Nat → Bool) (frames : List Batch)
    (messages : List (Lane × List UInt8)) (sent : frames.flatten = Lane.packAll messages) :
    (Assembler.texts (survivors lost frames).flatten).flatten
      <+ (Lane.carriedAll messages).flatten := by
  have arrived : survivors lost frames <+ frames := by
    have filtered := (List.filter_sublist (p := fun f => !lost f.2) (l := frames.zipIdx)).map Prod.fst
    rw [List.zipIdx_map_fst] at filtered
    exact filtered
  have texts := (List.sublist_append_left _ _).trans
    (Assembler.textsFrom_bytes {} (survivors lost frames).flatten)
  rw [← carried_packAll, ← sent]
  exact texts.trans (arrived.flatten.flatMap _)

/-- What frames that get lost can do to texts without zero bytes.  Between two losses the receiver
completes what one that starts there completes, and over all these parts those are sent texts in
the order of sending.  In front of them a part may yield one text more, which closes a run that the
parts before it left open.  The bytes of all the texts together are sent bytes in order. -/
theorem texts_of_survivors {mtu : Nat} (valid : minMtu ≤ mtu ∧ mtu ≤ maxMtu)
    (sends : List (List (Lane × List UInt8)))
    (free : ∀ send ∈ sends, ∀ m ∈ send, (0 : UInt8) ∉ m.2) (lost : Nat → Bool) :
    ∃ frames, FramePacker.packCalls mtu (sends.map Lane.packAll) = .ok frames ∧
      let sent := sends.flatten.map Prod.snd
      let parts := stretches lost frames
      let received := Assembler.texts (survivors lost frames).flatten
      (parts.flatMap Assembler.texts <+ sent) ∧
      (∃ closing : List (Option (List UInt8)),
        closing.length = parts.length ∧
        (∀ i text, closing[i]? = some (some text) →
          (Assembler.pushAll {} (parts.take i).flatten).1.isIdle = false) ∧
        received = (closing.zip parts).flatMap fun s => s.1.toList ++ Assembler.texts s.2) ∧
      (received.flatten <+ sent.flatten) := by
  obtain ⟨frames, packed, packets⟩ := FramePacker.packCalls_valid valid (sends.map Lane.packAll)
  have all : frames.flatten = Lane.packAll sends.flatten := by
    rw [packets, Lane.packAll_flatten]
  have sent : Lane.carriedAll sends.flatten = sends.flatten.map Prod.snd := by
    refine Lane.carriedAll_of_free fun m member => ?_
    obtain ⟨send, inside, here⟩ := List.mem_flatten.mp member
    exact free send inside m here
  refine ⟨frames, packed, ?_, ?_, ?_⟩
  · rw [← sent]
    exact texts_stretches lost frames sends.flatten all
  · rw [← flatten_stretches]
    exact Assembler.textsFrom_parts {} (stretches lost frames)
  · rw [← sent]
    exact bytes_survivors lost frames sends.flatten all

/-- A text of three packets, each in a frame of its own under the smallest datagram limit. -/
def sample : List UInt8 := List.replicate 12 97 ++ List.replicate 12 98 ++ List.replicate 12 99

/-- Without the middle packet the start and the end of the sample look like a text of their own. -/
theorem lost_middle_forges :
    ¬ ∀ (mtu : Nat) (sends : List (List (Lane × List UInt8))) (lost : Nat → Bool)
        (frames : List Batch),
      minMtu ≤ mtu ∧ mtu ≤ maxMtu → (∀ send ∈ sends, ∀ m ∈ send, (0 : UInt8) ∉ m.2) →
      FramePacker.packCalls mtu (sends.map Lane.packAll) = .ok frames →
      ∀ text ∈ Assembler.texts (survivors lost frames).flatten, text ∈ sends.flatten.map Prod.snd := by
  intro genuine
  have packets : Lane.base.pack sample =
      [Lane.base.packet .start (List.replicate 12 97), Lane.base.packet .middle (List.replicate 12 98),
        Lane.base.packet .last (List.replicate 12 99)] := by decide +kernel
  have packed : FramePacker.packCalls 28 [Lane.base.pack sample ++ []]
      = .ok ((Lane.base.pack sample).map fun p => [p]) := by
    rw [packets]
    rfl
  have forged := genuine 28 [[(Lane.base, sample)]] (fun n => n == 1)
    ((Lane.base.pack sample).map fun p => [p]) (by decide) (by decide) packed
    (List.replicate 12 97 ++ List.replicate 12 99) (by decide +kernel)
  exact absurd forged (by decide)

theorem texts_of_survivors_sample :
    minMtu ≤ 28 ∧ 28 ≤ maxMtu ∧
      ∃ frames, FramePacker.packCalls 28 [Lane.packAll [(.base, sample)]] = .ok frames ∧
        ((Assembler.texts (survivors (fun n => n == 1) frames).flatten).flatten <+ sample) := by
  have valid : minMtu ≤ 28 ∧ 28 ≤ maxMtu := by decide
  obtain ⟨frames, packed, -, -, bytes⟩ := texts_of_survivors valid [[(.base, sample)]] (by decide)
    fun n => n == 1
  refine ⟨valid.1, valid.2, frames, packed, ?_⟩
  have whole : ([[(Lane.base, sample)]].flatten.map Prod.snd).flatten = sample := rfl
  rw [← whole]
  exact bytes

end Loss
end FlexLink
