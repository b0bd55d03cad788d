import FlexLink.Proofs.Wire.Layout

/-! # Runs of packets

Whatever an assembler went through before, the packets of one text complete that text and nothing
else, up to the zeros that end its chunks, and leave no run open. -/
set_option autoImplicit false
namespace FlexLink

section Chunks

variable {α : Type} {n : Nat} {l : List α}

theorem chunks_nil (n : Nat) : chunks n ([] : List α) = [] := by
  rw [chunks, dif_pos (Or.inl rfl)]

theorem chunks_of_ne_nil (some : l ≠ []) (positive : n ≠ 0) :
    chunks n l = l.take n :: chunks n (l.drop n) := by
  rw [chunks, dif_neg (not_or.mpr ⟨some, positive⟩)]

theorem chunks_of_length_le (some : l ≠ []) (positive : n ≠ 0) (fits : l.length ≤ n) :
    chunks n l = [l] := by
  rw [chunks_of_ne_nil some positive, List.take_of_length_le fits, List.drop_of_length_le fits,
    chunks_nil]

theorem flatten_chunks (positive : n ≠ 0) (l : List α) : (chunks n l).flatten = l := by
  induction l using chunks.induct n with
  | case1 l stop =>
      have none : l = [] := stop.resolve_right positive
      rw [none, chunks_nil]
      rfl
  | case2 l go ih =>
      rw [chunks_of_ne_nil (not_or.mp go).1 positive, List.flatten_cons, ih, List.take_append_drop]

theorem length_le_of_mem_chunks {c : List α} (member : c ∈ chunks n l) : c.length ≤ n := by
  induction l using chunks.induct n with
  | case1 l stop =>
      rw [chunks, dif_pos stop] at member
      exact absurd member List.not_mem_nil
  | case2 l go ih =>
      rw [chunks, dif_neg go] at member
      rcases List.mem_cons.mp member with rfl | later
      · exact List.length_take_le n l
      · exact ih later

end Chunks

namespace Lane

/-- What a run carries of a text: its chunks without the zeros at their ends. -/
def carried (text : List UInt8) : List UInt8 :=
  ((chunks FlexPacket.payloadSize text).map stripZeros).flatten

theorem carried_of_length_le {text : List UInt8} (short : text.length ≤ FlexPacket.payloadSize) :
    carried text = stripZeros text := by
  by_cases none : text = []
  · rw [none, carried, chunks_nil]
    rfl
  · rw [carried, chunks_of_length_le none (by decide) short, List.map_singleton,
      List.flatten_singleton]

theorem map_stripZeros_of_free {cs : List (List UInt8)} (free : (0 : UInt8) ∉ cs.flatten) :
    cs.map stripZeros = cs := by
  induction cs with
  | nil => rfl
  | cons c cs ih =>
      rw [List.flatten_cons, List.mem_append, not_or] at free
      rw [List.map_cons, stripZeros_of_notMem free.1, ih free.2]

theorem carried_of_free {text : List UInt8} (free : (0 : UInt8) ∉ text) : carried text = text := by
  have whole : (chunks FlexPacket.payloadSize text).flatten = text := flatten_chunks (by decide) text
  rw [← whole] at free
  rw [carried, map_stripZeros_of_free free, whole]

/-- A text of more than one packet: its start and what follows. -/
theorem pack_long {text : List UInt8} (long : FlexPacket.payloadSize < text.length) (lane : Lane) :
    ∃ first rest, chunks FlexPacket.payloadSize text = first :: rest ∧ rest ≠ [] ∧
      (first.length ≤ FlexPacket.payloadSize ∧ ∀ c ∈ rest, c.length ≤ FlexPacket.payloadSize) ∧
      lane.pack text = lane.packet .start first :: lane.packRest rest := by
  have some : text ≠ [] := by
    intro none
    rw [none] at long
    exact absurd long (by decide)
  have more : text.drop FlexPacket.payloadSize ≠ [] := by
    intro none
    have := List.drop_eq_nil_iff.mp none
    omega
  have first := chunks_of_ne_nil some (n := FlexPacket.payloadSize) (by decide)
  have second := chunks_of_ne_nil more (n := FlexPacket.payloadSize) (by decide)
  have fit : ∀ c ∈ chunks FlexPacket.payloadSize text, c.length ≤ FlexPacket.payloadSize :=
    fun c member => length_le_of_mem_chunks member
  rw [first] at fit
  obtain ⟨here, others⟩ := List.forall_mem_cons.mp fit
  refine ⟨_, _, first, ?_, ⟨here, others⟩, ?_⟩
  · rw [second]
    exact List.cons_ne_nil _ _
  · rw [pack, if_neg (Nat.not_le.mpr long), first]

theorem pack_short {text : List UInt8} (short : text.length ≤ FlexPacket.payloadSize) (lane : Lane) :
    lane.pack text = [lane.packet .whole text] := by
  rw [pack, if_pos short]

theorem packRest_cons {rest : List (List UInt8)} (more : rest ≠ []) (lane : Lane)
    (chunk : List UInt8) :
    lane.packRest (chunk :: rest) = lane.packet .middle chunk :: lane.packRest rest := by
  cases rest with
  | nil => exact absurd rfl more
  | cons next rest => rfl

end Lane

namespace Assembler

theorem pushAll_cons (a : Assembler) (p : Packet) (ps : List Packet) :
    a.pushAll (p :: ps)
      = (((a.push p).1.pushAll ps).1, (a.push p).2.toList ++ ((a.push p).1.pushAll ps).2) := rfl

theorem pushAll_append (a : Assembler) (ps qs : List Packet) :
    a.pushAll (ps ++ qs)
      = (((a.pushAll ps).1.pushAll qs).1, (a.pushAll ps).2 ++ ((a.pushAll ps).1.pushAll qs).2) := by
  induction ps generalizing a with
  | nil => rfl
  | cons p ps ih =>
      rw [List.cons_append, pushAll_cons, ih, pushAll_cons]
      simp only [List.append_assoc]

theorem push_middle (lane : Lane) {chunk : List UInt8} (fits : chunk.length ≤ 12)
    (done : List (List UInt8)) (k : Nat) :
    push ⟨some done, k⟩ (lane.packet .middle chunk) = (⟨some (stripZeros chunk :: done), k⟩, none) := by
  rw [Lane.push_packet _ lane .middle fits]
  rfl

theorem push_last (lane : Lane) {chunk : List UInt8} (fits : chunk.length ≤ 12)
    (done : List (List UInt8)) (k : Nat) :
    push ⟨some done, k⟩ (lane.packet .last chunk)
      = (⟨none, k⟩, some (.ok (done.reverse.flatten ++ stripZeros chunk))) := by
  rw [Lane.push_packet _ lane .last fits, pushText]
  simp only [List.reverse_cons, List.flatten_append, List.flatten_singleton]

/-- The packets behind the start of a run close the run. -/
theorem pushAll_packRest (lane : Lane) (rest : List (List UInt8)) (more : rest ≠ [])
    (fit : ∀ c ∈ rest, c.length ≤ 12) (done : List (List UInt8)) (k : Nat) :
    pushAll ⟨some done, k⟩ (lane.packRest rest)
      = (⟨none, k⟩, [.ok (done.reverse.flatten ++ (rest.map stripZeros).flatten)]) := by
  induction rest generalizing done with
  | nil => exact absurd rfl more
  | cons chunk rest ih =>
      obtain ⟨here, others⟩ := List.forall_mem_cons.mp fit
      by_cases final : rest = []
      · rw [final, Lane.packRest, pushAll_cons, push_last lane here]
        simp only [List.map_singleton, List.flatten_singleton]
        rfl
      · rw [Lane.packRest_cons final, pushAll_cons, push_middle lane here, ih final others]
        simp only [List.reverse_cons, List.flatten_append, List.flatten_nil, List.append_nil,
          List.map_cons, List.flatten_cons, List.append_assoc, Option.toList_none, List.nil_append]

theorem restart_opened (a : Assembler) : a.restart.opened = none := by
  cases a with
  | mk opened k => cases opened <;> rfl

theorem restart_of_opened_none {a : Assembler} (idle : a.opened = none) : a.restart = a := by
  rw [restart, idle]

/-- A run of packets, from any state. -/
theorem pushAll_pack (a : Assembler) (lane : Lane) (text : List UInt8) :
    a.pushAll (lane.pack text) = (a.restart, [.ok (Lane.carried text)]) := by
  by_cases short : text.length ≤ FlexPacket.payloadSize
  · rw [Lane.pack_short short, pushAll_cons, Lane.push_packet a lane .whole short, pushText,
      Lane.carried_of_length_le short]
    rfl
  · obtain ⟨first, rest, cut, more, ⟨fits, fit⟩, packets⟩ :=
      Lane.pack_long (Nat.lt_of_not_le short) lane
    have start : a.push (lane.packet .start first)
        = (⟨some [stripZeros first], a.restart.interrupted⟩, none) := by
      rw [Lane.push_packet a lane .start fits]
      rfl
    have closed : (⟨none, a.restart.interrupted⟩ : Assembler) = a.restart := by
      rw [← restart_opened a]
    rw [packets, pushAll_cons, start, pushAll_packRest lane rest more fit, closed, Lane.carried, cut]
    simp only [List.reverse_singleton, List.flatten_nil, List.append_nil, List.map_cons,
      List.flatten_cons, Option.toList_none, List.nil_append]

/-- A run of packets for an assembler that has no run open. -/
theorem pushAll_pack_idle {a : Assembler} (idle : a.opened = none) (lane : Lane)
    {text : List UInt8} (free : (0 : UInt8) ∉ text) :
    a.pushAll (lane.pack text) = (a, [.ok text]) := by
  rw [pushAll_pack, restart_of_opened_none idle, Lane.carried_of_free free]

end Assembler
end FlexLink
