import Mathlib.Data.List.Basic
import FlexLink.Proofs.Wire.Framing

/-! # A packer along any calls

Pushes and flushes come in any order.  No call loses, repeats or reorders a packet, a frame leaves
only when it is full or asked for, and the frames of a whole list of packets are those of a packer that
takes them one by one. -/
set_option autoImplicit false
namespace FlexLink.FramePacker

inductive Call where
  | push (packet : Packet)
  | flush

def Call.packet? : Call → Option Packet
  | .push packet => some packet
  | .flush => none

def call (p : FramePacker) : Call → FramePacker × Option (List Packet)
  | .push packet => p.push packet
  | .flush => p.flush

def callAll (p : FramePacker) : List Call → FramePacker × List (Call × Option (List Packet))
  | [] => (p, [])
  | c :: rest =>
    let (p, frame) := p.call c
    let (p, answers) := p.callAll rest
    (p, (c, frame) :: answers)

variable {p : FramePacker} {c : Call} {frame : List Packet} {mtu : Nat}

theorem callAll_cons (p : FramePacker) (c : Call) (rest : List Call) :
    p.callAll (c :: rest)
      = (((p.call c).1.callAll rest).1, (c, (p.call c).2) :: ((p.call c).1.callAll rest).2) := rfl

theorem callAll_append (p : FramePacker) (calls more : List Call) :
    p.callAll (calls ++ more)
      = (((p.callAll calls).1.callAll more).1,
          (p.callAll calls).2 ++ ((p.callAll calls).1.callAll more).2) := by
  induction calls generalizing p with
  | nil => rfl
  | cons c calls ih =>
    rw [List.cons_append, callAll_cons, ih, callAll_cons]
    rfl

/-! ## One call -/

theorem pending_flush (p : FramePacker) : p.flush.1.pending = [] := by
  unfold flush
  split
  · next idle => simp [pending, List.isEmpty_iff.mp idle]
  · rfl

/-- A call hands packets on and keeps the rest. -/
theorem flatten_call (p : FramePacker) (c : Call) :
    (p.call c).2.toList.flatten ++ (p.call c).1.pending = p.pending ++ c.packet?.toList := by
  cases c with
  | push packet => exact flatten_push p packet
  | flush =>
    show p.flush.2.toList.flatten ++ p.flush.1.pending = p.pending ++ []
    rw [flatten_flush, pending_flush]

theorem Fits.flush (fits : p.Fits) : p.flush.1.Fits ∧ p.flush.1.capacity = p.capacity := by
  unfold FramePacker.flush
  split
  · exact ⟨fits, rfl⟩
  · exact ⟨⟨rfl, Nat.zero_le _, fits.positive⟩, rfl⟩

theorem Fits.call (fits : p.Fits) (c : Call) :
    (p.call c).1.Fits ∧ (p.call c).1.capacity = p.capacity := by
  cases c with
  | push packet =>
    obtain ⟨next, same, -⟩ := fits.push packet
    exact ⟨next, same⟩
  | flush => exact fits.flush

/-- Only a flush returns a frame that is not full. -/
structure Returned (capacity : Nat) (c : Call) (frame : List Packet) : Prop where
  some : frame ≠ []
  short : frame.length ≤ capacity
  full : ∀ packet, c = .push packet → frame.length = capacity

theorem Fits.returned (fits : p.Fits) (leaves : (p.call c).2 = some frame) :
    Returned p.capacity c frame := by
  cases c with
  | push packet =>
    have leaves : (p.push packet).2 = some frame := leaves
    unfold FramePacker.push at leaves
    split at leaves
    · next full =>
      have same : p.pending = frame := Option.some.inj leaves
      have size : frame.length = p.capacity := by
        rw [← same, pending, List.length_reverse, ← fits.counted, full]
      refine ⟨?_, Nat.le_of_eq size, fun _ _ => size⟩
      intro none
      have := fits.positive
      rw [none] at size
      simp at size
      omega
    · cases leaves
  | flush =>
    have leaves : p.flush.2 = some frame := leaves
    unfold FramePacker.flush at leaves
    split at leaves
    · cases leaves
    · next waits =>
      have same : p.pending = frame := Option.some.inj leaves
      refine ⟨?_, same ▸ fits.length_pending, fun _ other => Call.noConfusion other⟩
      intro none
      apply waits
      rw [← same] at none
      simpa [pending] using none

/-! ## All calls -/

theorem Fits.returned_callAll (fits : p.Fits) {calls : List Call}
    (leaves : (c, some frame) ∈ (p.callAll calls).2) : Returned p.capacity c frame := by
  induction calls generalizing p with
  | nil => cases leaves
  | cons first calls ih =>
    rw [callAll_cons] at leaves
    obtain ⟨next, same⟩ := fits.call first
    rcases List.mem_cons.mp leaves with here | later
    · obtain ⟨rfl, answer⟩ := Prod.mk.inj here
      exact fits.returned answer.symm
    · exact same ▸ ih next later

theorem flatten_callAll (p : FramePacker) (calls : List Call) :
    ((p.callAll calls).2.filterMap (·.2)).flatten ++ (p.callAll calls).1.pending
      = p.pending ++ calls.filterMap Call.packet? := by
  induction calls generalizing p with
  | nil => simp [callAll]
  | cons c calls ih =>
    simp only [List.filterMap_eq_flatMap_toList] at ih ⊢
    rw [callAll_cons, List.flatMap_cons, List.flatMap_cons, List.flatten_append, List.append_assoc, ih,
      ← List.append_assoc, flatten_call, List.append_assoc]

/-! ## Whole lists -/

theorem callAll_pushes (p : FramePacker) (packets : List Packet) :
    (p.callAll (packets.map .push)).1 = (p.pushAll packets).1 ∧
      (p.callAll (packets.map .push)).2.filterMap (·.2) = (p.pushAll packets).2 := by
  induction packets generalizing p with
  | nil => exact ⟨rfl, rfl⟩
  | cons packet packets ih =>
    obtain ⟨after, frames⟩ := ih (p.push packet).1
    have step : p.pushAll (packet :: packets)
        = (((p.push packet).1.pushAll packets).1,
            (p.push packet).2.toList ++ ((p.push packet).1.pushAll packets).2) := rfl
    have first : p.call (.push packet) = p.push packet := rfl
    rw [List.map_cons, callAll_cons, step, first]
    refine ⟨after, ?_⟩
    rw [List.filterMap_cons, frames]
    cases (p.push packet).2 <;> rfl

theorem packAll_eq_append (p : FramePacker) (packets : List Packet) :
    p.packAll packets = (p.pushAll packets).2 ++ (p.pushAll packets).1.flush.2.toList := rfl

/-- Packing a list is pushing all of it and flushing once. -/
theorem packAll_eq_calls (p : FramePacker) (packets : List Packet) :
    p.packAll packets = (p.callAll (packets.map .push ++ [.flush])).2.filterMap (·.2) := by
  obtain ⟨after, frames⟩ := callAll_pushes p packets
  have last : (p.pushAll packets).1.callAll [.flush]
      = ((p.pushAll packets).1.flush.1, [(.flush, (p.pushAll packets).1.flush.2)]) := rfl
  rw [callAll_append, List.filterMap_append, frames, after, last, packAll_eq_append]
  cases (p.pushAll packets).1.flush.2 <;> rfl

theorem Fits.full_pushAll (fits : p.Fits) {packets : List Packet}
    (leaves : frame ∈ (p.pushAll packets).2) : frame.length = p.capacity := by
  induction packets generalizing p with
  | nil => cases leaves
  | cons packet packets ih =>
    obtain ⟨next, same, -⟩ := fits.push packet
    rcases List.mem_append.mp leaves with here | later
    · have answer : (p.call (.push packet)).2 = some frame := Option.mem_toList.mp here
      exact (fits.returned answer).full packet rfl
    · exact (ih next later).trans same

theorem waiting_push (p : FramePacker) (packet : Packet) : (p.push packet).1.waiting ≠ [] := by
  unfold push
  split <;> simp

/-- The packet that was pushed last waits. -/
theorem waiting_pushAll {packets : List Packet} (some : p.waiting ≠ [] ∨ packets ≠ []) :
    (p.pushAll packets).1.waiting ≠ [] := by
  induction packets generalizing p with
  | nil => exact some.resolve_right fun none => none rfl
  | cons packet packets ih => exact ih (.inl (waiting_push p packet))

theorem flush_of_waiting (waits : p.waiting ≠ []) : p.flush.2 = some p.pending := by
  simp [flush, waits]

theorem div_up {capacity k rest : Nat} (least : 1 ≤ rest) (most : rest ≤ capacity) :
    (capacity * k + rest + capacity - 1) / capacity = k + 1 := by
  have split : capacity * k + rest + capacity - 1 = rest + capacity - 1 + capacity * k := by omega
  have once : (rest + capacity - 1) / capacity = 1 :=
    Nat.div_eq_of_lt_le (by omega) (by omega)
  rw [split, Nat.add_mul_div_left _ _ (by omega), once, Nat.add_comm]

theorem length_flatten_full {capacity : Nat} {frames : List (List Packet)}
    (full : ∀ frame ∈ frames, frame.length = capacity) :
    frames.flatten.length = capacity * frames.length := by
  rw [List.length_flatten, List.map_congr_left full]
  simp [Nat.mul_comm]

/-- The frames of a list are full up to the last one, so they are as many as the packets divided by
what a frame holds, rounded up. -/
theorem Fits.packAll_full (fits : p.Fits) (idle : p.waiting = []) (packets : List Packet) :
    (p.packAll packets).length = (packets.length + p.capacity - 1) / p.capacity ∧
      ∀ frame ∈ (p.packAll packets).dropLast, frame.length = p.capacity := by
  have positive := fits.positive
  by_cases none : packets = []
  · have empty : p.packAll packets = [] := by
      simp [none, packAll_eq_append, FramePacker.pushAll, FramePacker.flush, idle]
    have few : packets.length + p.capacity - 1 < p.capacity := by
      simp [none]
      omega
    rw [empty, Nat.div_eq_of_lt few]
    simp
  · obtain ⟨last, same, -⟩ := fits.pushAll packets
    have waits := waiting_pushAll (p := p) (.inr none)
    have frames : p.packAll packets = (p.pushAll packets).2 ++ [(p.pushAll packets).1.pending] := by
      rw [packAll_eq_append, flush_of_waiting waits]
      rfl
    have full : ∀ frame ∈ (p.pushAll packets).2, frame.length = p.capacity := by
      intro frame leaves
      exact fits.full_pushAll leaves
    have total := congrArg List.length (flatten_pushAll p packets)
    have least : 1 ≤ (p.pushAll packets).1.pending.length := by
      rw [pending, List.length_reverse]
      exact List.length_pos_iff.mpr waits
    have most := last.length_pending
    rw [same] at most
    have count : packets.length
        = p.capacity * (p.pushAll packets).2.length + (p.pushAll packets).1.pending.length := by
      have start : p.pending = [] := by simp [pending, idle]
      rw [List.length_append, length_flatten_full full, start] at total
      exact total.symm
    rw [frames]
    refine ⟨?_, ?_⟩
    · rw [List.length_append, List.length_singleton, count, div_up least most]
    · rw [List.dropLast_concat]
      exact full

/-! ## A datagram limit -/

/-- A packer that is new fits its limit as closely as whole packets can. -/
theorem new_valid (valid : minMtu ≤ mtu ∧ mtu ≤ maxMtu) :
    ∃ fresh, new mtu = .ok fresh ∧ fresh.Fits ∧ fresh.waiting = [] ∧
      ∀ n, headerSize + Packet.size * n ≤ mtu ↔ n ≤ fresh.capacity := by
  have least : 12 + 16 ≤ mtu := valid.1
  have size : (12 : Nat) = headerSize ∧ (16 : Nat) = Packet.size := ⟨rfl, rfl⟩
  rw [new, frameCapacity, validMtu_of_le valid, ← size.1, ← size.2]
  refine ⟨_, rfl, ⟨rfl, Nat.zero_le _, ?_⟩, rfl, ?_⟩
  · show 0 < (mtu - 12) / 16
    omega
  · intro n
    show 12 + 16 * n ≤ mtu ↔ n ≤ (mtu - 12) / 16
    omega

/-- Under a valid limit no call of a packer loses or moves a packet, every frame fits the limit, and
only a flush returns a frame that has room left.  A list that is packed at once comes in the frames of
its pushes and one flush. -/
theorem frames_of_calls {mtu : Nat} (valid : minMtu ≤ mtu ∧ mtu ≤ maxMtu) :
    ∃ fresh, new mtu = .ok fresh ∧ 1 ≤ fresh.capacity ∧
      (∀ n, headerSize + Packet.size * n ≤ mtu ↔ n ≤ fresh.capacity) ∧
      (∀ calls,
        ((fresh.callAll calls).2.filterMap (·.2)).flatten ++ (fresh.callAll calls).1.pending
            = calls.filterMap Call.packet? ∧
          ∀ c frame, (c, some frame) ∈ (fresh.callAll calls).2 →
            frame ≠ [] ∧ headerSize + Packet.size * frame.length ≤ mtu ∧
              ∀ packet, c = .push packet → frame.length = fresh.capacity) ∧
      ∀ packets, ∃ frames, pack mtu packets = .ok frames ∧
        frames = (fresh.callAll (packets.map .push ++ [.flush])).2.filterMap (·.2) ∧
        frames.length = (packets.length + fresh.capacity - 1) / fresh.capacity ∧
        ∀ frame ∈ frames.dropLast, frame.length = fresh.capacity := by
  obtain ⟨fresh, made, fits, idle, room⟩ := new_valid valid
  refine ⟨fresh, made, fits.positive, room, ?_, ?_⟩
  · intro calls
    constructor
    · rw [flatten_callAll, pending, idle]
      rfl
    · intro c frame leaves
      obtain ⟨some, short, full⟩ := fits.returned_callAll leaves
      exact ⟨some, (room _).mpr short, full⟩
  · intro packets
    obtain ⟨count, full⟩ := fits.packAll_full idle packets
    refine ⟨fresh.packAll packets, ?_, packAll_eq_calls fresh packets, count, full⟩
    rw [pack, made]

/-- Two packets fill a frame of 44 bytes, and a flush sends the third of five out alone. -/
theorem frames_of_five :
    let number (n : UInt32) : Packet := ⟨0xD0100101, n, 0, 0⟩
    let calls : List Call :=
      [.push (number 0), .push (number 1), .push (number 2), .flush, .flush, .push (number 3),
        .push (number 4)]
    ∃ fresh, new 44 = .ok fresh ∧ fresh.capacity = 2 ∧
      ((fresh.callAll calls).2.filterMap (·.2)).flatten ++ (fresh.callAll calls).1.pending
        = [number 0, number 1, number 2, number 3, number 4] ∧
      ∃ frames, pack 44 (calls.filterMap Call.packet?) = .ok frames ∧ frames.length = 3 := by
  intro number calls
  have valid : minMtu ≤ 44 ∧ 44 ≤ maxMtu := by decide
  obtain ⟨fresh, made, -, room, taken, packed⟩ := frames_of_calls valid
  have capacity : fresh.capacity = 2 := by
    have two := (room 2).mp (by decide)
    have three := mt (room 3).mpr (by decide)
    omega
  obtain ⟨frames, whole, -, count, -⟩ := packed (calls.filterMap Call.packet?)
  have five : (calls.filterMap Call.packet?).length = 5 := rfl
  rw [capacity, five] at count
  exact ⟨fresh, made, capacity, (taken calls).1, frames, whole, count⟩

end FlexLink.FramePacker
