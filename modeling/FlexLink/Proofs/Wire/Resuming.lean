import Mathlib.Data.List.DropRight
import FlexLink.Proofs.Wire.Runs

/-! # A run taken up from any state

What an assembler went through before a run does not matter to it: the packets of the run are quiet
up to the last one, and that one gives the text without the zeros at the ends of its chunks.  So a text
comes back as it was exactly if none of its chunks ends in a zero. -/
set_option autoImplicit false
namespace FlexLink

/-! ## Chunks by their place -/

section Chunks

variable {α : Type} {n : Nat}

/-- As many chunks as it takes, each the window of the list at its place. -/
theorem chunks_eq_windows (positive : 0 < n) (l : List α) :
    chunks n l = (List.range ((l.length + n - 1) / n)).map fun i => (l.drop (n * i)).take n := by
  induction l using chunks.induct n with
  | case1 l stop =>
      have none : l = [] := stop.resolve_right positive.ne'
      have few : ([] : List α).length + n - 1 < n := by
        rw [List.length_nil]
        omega
      rw [none, chunks_nil, Nat.div_eq_of_lt few]
      rfl
  | case2 l go ih =>
      have some : 0 < l.length := List.length_pos_iff.mpr (not_or.mp go).1
      have count : (l.length + n - 1) / n = ((l.drop n).length + n - 1) / n + 1 := by
        rw [List.length_drop, ← Nat.add_div_right _ positive]
        by_cases short : l.length ≤ n
        · have whole : l.length + n - 1 = l.length - 1 + n := by omega
          have empty : l.length - n + n - 1 + n = n - 1 + n := by omega
          rw [whole, empty, Nat.add_div_right _ positive, Nat.add_div_right _ positive,
            Nat.div_eq_of_lt (by omega), Nat.div_eq_of_lt (by omega)]
        · congr 1
          omega
      rw [chunks_of_ne_nil (not_or.mp go).1 positive.ne', ih, count, List.range_succ_eq_map,
        List.map_cons, List.map_map, Nat.mul_zero, List.drop_zero]
      congr 1
      apply List.map_congr_left
      intro i _
      rw [List.drop_drop, Function.comp, Nat.mul_succ, Nat.add_comm]

/-- The ends of the chunks are the places before the multiples of `n`, and the last place. -/
theorem getLast?_chunks_ne_iff (positive : 0 < n) (l : List α) (x : α) :
    (∀ c ∈ chunks n l, c.getLast? ≠ some x) ↔
      ∀ k, (k + 1) % n = 0 ∨ k + 1 = l.length → l[k]? ≠ some x := by
  induction l using chunks.induct n with
  | case1 l stop =>
      have none : l = [] := stop.resolve_right positive.ne'
      rw [none, chunks_nil]
      simp
  | case2 l go ih =>
      have some : 0 < l.length := List.length_pos_iff.mpr (not_or.mp go).1
      have first : (l.take n).getLast? = l[min n l.length - 1]? := by
        rw [List.getLast?_eq_getElem?, List.length_take, List.getElem?_take_of_lt (by omega)]
      rw [chunks_of_ne_nil (not_or.mp go).1 positive.ne', List.forall_mem_cons, ih, first]
      constructor
      · rintro ⟨here, later⟩ k stands
        by_cases early : k < n
        · -- The first chunk ends before `n`, or where the list does.
          have place : k = min n l.length - 1 ∨ l.length ≤ k := by
            rcases stands with multiple | last
            · have := Nat.le_of_dvd k.succ_pos (Nat.dvd_of_mod_eq_zero multiple)
              omega
            · omega
          rcases place with rfl | outside
          · exact here
          · rw [List.getElem?_eq_none outside]
            exact (Option.some_ne_none x).symm
        · have same := later (k - n)
          rw [List.getElem?_drop, List.length_drop, Nat.add_sub_cancel' (Nat.le_of_not_lt early)] at same
          apply same
          rcases stands with multiple | last
          · left
            rwa [← Nat.sub_add_comm (Nat.le_of_not_lt early), ← Nat.mod_eq_sub_mod (by omega)]
          · right
            omega
      · intro ends
        refine ⟨ends _ ?_, fun k stands => ?_⟩
        · by_cases short : l.length ≤ n
          · right
            omega
          · left
            rw [Nat.min_eq_left (by omega), Nat.sub_add_cancel positive, Nat.mod_self]
        · rw [List.getElem?_drop]
          apply ends
          rw [List.length_drop] at stands
          rcases stands with multiple | last
          · left
            rwa [Nat.add_assoc, Nat.add_mod_left]
          · by_cases short : l.length ≤ n
            · omega
            · right
              omega

end Chunks

/-! ## Texts that come back as they were -/

theorem stripZeros_eq_rdropWhile (bytes : List UInt8) :
    stripZeros bytes = bytes.rdropWhile (· == 0) := rfl

theorem isPrefix_stripZeros (bytes : List UInt8) : stripZeros bytes <+: bytes :=
  List.rdropWhile_prefix _ _

theorem stripZeros_eq_self_iff {bytes : List UInt8} :
    stripZeros bytes = bytes ↔ bytes.getLast? ≠ some 0 := by
  rw [stripZeros_eq_rdropWhile, List.rdropWhile_eq_self_iff]
  by_cases none : bytes = []
  · simp [none]
  · simp [none, List.getLast?_eq_some_getLast none]

theorem length_flatten_stripZeros_le (cs : List (List UInt8)) :
    (cs.map stripZeros).flatten.length ≤ cs.flatten.length := by
  induction cs with
  | nil => exact Nat.le_refl 0
  | cons c cs ih =>
      rw [List.map_cons, List.flatten_cons, List.flatten_cons, List.length_append, List.length_append]
      exact Nat.add_le_add (isPrefix_stripZeros c).length_le ih

/-- Chunks keep their bytes together only if each of them does. -/
theorem flatten_stripZeros_eq_iff {cs : List (List UInt8)} :
    (cs.map stripZeros).flatten = cs.flatten ↔ ∀ c ∈ cs, stripZeros c = c := by
  induction cs with
  | nil => simp
  | cons c cs ih =>
      rw [List.forall_mem_cons, ← ih, List.map_cons, List.flatten_cons, List.flatten_cons]
      constructor
      · intro same
        have first := (isPrefix_stripZeros c).length_le
        have others := length_flatten_stripZeros_le cs
        have all := congrArg List.length same
        rw [List.length_append, List.length_append] at all
        have whole : stripZeros c = c := (isPrefix_stripZeros c).eq_of_length (by omega)
        rw [whole] at same
        exact ⟨whole, List.append_cancel_left same⟩
      · rintro ⟨whole, others⟩
        rw [whole, others]

namespace Lane

/-- What a run carries of a text, chunk by chunk. -/
theorem carried_eq_windows (text : List UInt8) :
    carried text = (List.range ((text.length + 11) / 12)).flatMap fun i =>
      ((text.drop (12 * i)).take 12).rdropWhile (· == 0) := by
  rw [carried, chunks_eq_windows (by decide), List.map_map, ← List.flatMap_def]
  rfl

/-- A text comes back as it was exactly if none of its chunks ends in a zero. -/
theorem carried_eq_self_iff {text : List UInt8} :
    carried text = text ↔
      ∀ k, (k + 1) % 12 = 0 ∨ k + 1 = text.length → text[k]? ≠ some 0 := by
  have whole : (chunks FlexPacket.payloadSize text).flatten = text := flatten_chunks (by decide) text
  calc carried text = text
      ↔ ((chunks 12 text).map stripZeros).flatten = (chunks 12 text).flatten :=
        Iff.of_eq (congrArg (carried text = ·) whole.symm)
    _ ↔ ∀ c ∈ chunks 12 text, c.getLast? ≠ some 0 :=
        flatten_stripZeros_eq_iff.trans (forall₂_congr fun _ _ => stripZeros_eq_self_iff)
    _ ↔ ∀ k, (k + 1) % 12 = 0 ∨ k + 1 = text.length → text[k]? ≠ some 0 :=
        getLast?_chunks_ne_iff (by decide) text 0

end Lane

namespace Assembler

/-- Packets in the middle of an open run give nothing. -/
theorem pushAll_middles (lane : Lane) {cs : List (List UInt8)} (fit : ∀ c ∈ cs, c.length ≤ 12)
    (done : List (List UInt8)) (k : Nat) :
    (pushAll ⟨some done, k⟩ (cs.map (lane.packet .middle))).2 = [] := by
  induction cs generalizing done with
  | nil => rfl
  | cons c cs ih =>
      obtain ⟨here, others⟩ := List.forall_mem_cons.mp fit
      rw [List.map_cons, pushAll_cons, push_middle lane here, ih others]
      rfl

end Assembler

theorem Lane.packRest_concat (lane : Lane) (middle : List (List UInt8)) (last : List UInt8) :
    lane.packRest (middle ++ [last]) = middle.map (lane.packet .middle) ++ [lane.packet .last last] := by
  induction middle with
  | nil => rfl
  | cons c middle ih =>
      rw [List.cons_append, packRest_cons (by simp), ih]
      rfl

/-- All packets of a run but the last one are quiet, whatever went before. -/
theorem Assembler.pack_quiet (a : Assembler) (lane : Lane) (text : List UInt8) :
    ∃ before last, lane.pack text = before ++ [last] ∧ (a.pushAll before).2 = [] := by
  by_cases short : text.length ≤ FlexPacket.payloadSize
  · exact ⟨[], _, Lane.pack_short short lane, rfl⟩
  · obtain ⟨first, rest, -, more, ⟨fits, fit⟩, packets⟩ :=
      Lane.pack_long (Nat.lt_of_not_le short) lane
    obtain ⟨middle, last, rfl⟩ := (List.eq_nil_or_concat' rest).resolve_left more
    refine ⟨lane.packet .start first :: middle.map (lane.packet .middle), lane.packet .last last, ?_, ?_⟩
    · rw [packets, Lane.packRest_concat]
      rfl
    · rw [pushAll_cons, Lane.push_packet a lane .start fits]
      exact pushAll_middles lane (fun c member => fit c (by simp [member])) _ _

theorem Assembler.restart_eq (a : Assembler) :
    a.restart = ⟨none, a.interrupted + if a.isIdle then 0 else 1⟩ := by
  obtain ⟨opened, k⟩ := a
  cases opened <;> rfl

/-- Whatever an assembler went through before, the packets of a run give nothing up to the last one.
That one gives the text of the run without the zeros at the ends of its twelve-byte chunks, and
afterwards no run is open; a run that was open before is given up and counted.  The text comes back as
it was exactly if no chunk ends in a zero, the shorter last one included. -/
theorem Assembler.resumes_at_any_run (a : Assembler) (lane : Lane) (text : List UInt8) :
    let carried := (List.range ((text.length + 11) / 12)).flatMap fun i =>
      ((text.drop (12 * i)).take 12).rdropWhile (· == 0)
    (∃ before last, lane.pack text = before ++ [last] ∧ (a.pushAll before).2 = [] ∧
      (a.pushAll before).1.push last
        = (⟨none, a.interrupted + if a.isIdle then 0 else 1⟩, some (.ok carried))) ∧
    (carried = text ↔
      ∀ k, (k + 1) % 12 = 0 ∨ k + 1 = text.length → text[k]? ≠ some 0) := by
  intro carried
  have same : Lane.carried text = carried := Lane.carried_eq_windows text
  rw [← same, ← a.restart_eq]
  refine ⟨?_, Lane.carried_eq_self_iff⟩
  obtain ⟨before, last, parts, quiet⟩ := a.pack_quiet lane text
  have run := a.pushAll_pack lane text
  rw [parts, pushAll_append, quiet, List.nil_append, pushAll_cons, pushAll, List.append_nil] at run
  obtain ⟨state, outcome⟩ := Prod.mk.inj run
  exact ⟨before, last, parts, quiet, Prod.ext state (Option.toList_eq_singleton_iff.mp outcome)⟩

end FlexLink
