import Mathlib.Algebra.Order.BigOperators.Group.List
import Mathlib.Data.List.Chain
import FlexLink.Proofs.Stream.Pieces
import FlexLink.Proofs.Text.Utf8

/-! # Where an event is cut

The chunks of a text are not empty, none is longer than the limit except a wide character alone, and
none could take the first character of the next one.  With no more bytes than a word counts, the
pieces of an event are numbered without loss. -/
set_option autoImplicit false
namespace FlexLink

/-! ## Chunks -/

/-- What keeps a chunk from taking the first character of the next one. -/
def Full (limit : Nat) (chunk next : List Char) : Prop :=
  ∃ c rest, next = c :: rest ∧ limit < Utf8.size chunk + Utf8.width c

/-- Chunks within a limit, none of which could be longer. -/
structure Chunked (limit : Nat) (chunks : List (List Char)) : Prop where
  filled : ∀ chunk ∈ chunks, chunk ≠ []
  /-- A character that is wider than the limit is alone. -/
  narrow : ∀ chunk ∈ chunks, Utf8.size chunk ≤ limit ∨ ∃ c, chunk = [c]
  full : chunks.IsChain (Full limit)

theorem cutText_eq_cons (limit size : Nat) (current text : List Char) :
    ∃ more others, cutText limit current size text = (current.reverse ++ more) :: others := by
  induction text generalizing current size with
  | nil => exact ⟨[], [], by rw [cutText, List.append_nil]⟩
  | cons c rest ih =>
      rw [cutText]
      split
      · exact ⟨[], _, by rw [List.append_nil]⟩
      · obtain ⟨more, others, cut⟩ := ih (size + Utf8.width c) (c :: current)
        refine ⟨c :: more, others, ?_⟩
        rw [cut, List.reverse_cons, List.append_assoc]
        rfl

/-- A chunk is closed, which was collected backwards. -/
theorem Chunked.close {limit : Nat} {current : List Char} {others : List (List Char)}
    (chunked : Chunked limit others) (some : current ≠ [])
    (narrow : Utf8.size current ≤ limit ∨ ∃ c, current = [c])
    (full : ∀ next ∈ others.head?, Full limit current.reverse next) :
    Chunked limit (current.reverse :: others) := by
  refine ⟨?_, ?_, List.isChain_cons.mpr ⟨full, chunked.full⟩⟩
  · exact List.forall_mem_cons.mpr ⟨List.reverse_ne_nil_iff.mpr some, chunked.filled⟩
  · refine List.forall_mem_cons.mpr ⟨?_, chunked.narrow⟩
    rw [Utf8.size_reverse]
    exact narrow.imp_right fun ⟨c, alone⟩ => ⟨c, by rw [alone]; rfl⟩

/-- The open chunk is within the limit, and only a character that does not fit closes it. -/
theorem chunked_cutText {limit : Nat} {current : List Char} (text : List Char) (some : current ≠ [])
    (narrow : Utf8.size current ≤ limit ∨ ∃ c, current = [c]) :
    Chunked limit (cutText limit current (Utf8.size current) text) := by
  induction text generalizing current with
  | nil => exact Chunked.close ⟨nofun, nofun, .nil⟩ some narrow nofun
  | cons c rest ih =>
      have width : Utf8.width c = Utf8.size [c] := (Nat.zero_add _).symm
      rw [cutText]
      split
      · next wide =>
        -- The chunk is closed, and the character that did not fit opens the next one.
        have others := ih (List.cons_ne_nil c []) (.inr ⟨c, rfl⟩)
        rw [← width] at others
        obtain ⟨more, later, cut⟩ := cutText_eq_cons limit (Utf8.width c) [c] rest
        refine others.close some narrow fun next head => ?_
        rw [cut] at head
        obtain rfl : [c].reverse ++ more = next := Option.some.inj head
        refine ⟨c, more, rfl, ?_⟩
        rw [Utf8.size_reverse]
        exact wide.1
      · next fits =>
        have room : Utf8.size (c :: current) ≤ limit := by
          rw [Utf8.size_cons, Nat.add_comm]
          exact Nat.le_of_not_lt fun wide => fits ⟨wide, some⟩
        have later := ih (List.cons_ne_nil c current) (.inl room)
        rw [Utf8.size_cons, Nat.add_comm] at later
        exact later

theorem chunked_of_ne_nil {limit : Nat} {text : List Char} (some : text ≠ []) :
    Chunked limit (cutText limit [] 0 text) := by
  cases text with
  | nil => exact absurd rfl some
  | cons c rest =>
      have first : ¬ (limit < 0 + Utf8.width c ∧ ([] : List Char) ≠ []) := fun wide => wide.2 rfl
      rw [cutText, if_neg first]
      exact chunked_cutText rest (List.cons_ne_nil c []) (.inr ⟨c, rfl⟩)

theorem Chunked.length_le {limit : Nat} {chunks : List (List Char)} (chunked : Chunked limit chunks) :
    chunks.length ≤ Utf8.size chunks.flatten := by
  have positive : ∀ n ∈ chunks.map List.length, 1 ≤ n := by
    intro n member
    obtain ⟨chunk, here, rfl⟩ := List.mem_map.mp member
    exact List.length_pos_iff.mpr (chunked.filled chunk here)
  calc chunks.length = (chunks.map List.length).length := (List.length_map _).symm
    _ ≤ (chunks.map List.length).sum := List.length_le_sum_of_one_le _ positive
    _ = chunks.flatten.length := List.length_flatten.symm
    _ ≤ Utf8.size chunks.flatten := Utf8.length_le_size _

/-! ## Pieces -/

namespace Sent

variable {maxBytes : Nat} {s : Sent}

theorem isCut_iff : s.isCut maxBytes = true ↔
    ∃ data, s.event.data = some data ∧ max 1 maxBytes < data.utf8ByteSize := by
  rw [isCut, decide_eq_true_iff, text, Nat.max_comm, Utf8.size_toList]
  cases s.event.data with
  | none =>
      refine ⟨fun long => absurd long (Nat.not_lt_zero _), ?_⟩
      rintro ⟨data, ⟨⟩, long⟩
  | some data =>
      refine ⟨fun long => ⟨data, rfl, long⟩, ?_⟩
      rintro ⟨_, ⟨⟩, long⟩
      exact long

theorem chunked (cut : s.isCut maxBytes = true) : Chunked (max maxBytes 1) (s.chunks maxBytes) := by
  refine chunked_of_ne_nil fun none => ?_
  rw [isCut, none] at cut
  exact absurd (of_decide_eq_true cut) (Nat.not_lt_zero _)

theorem count_le_size (cut : s.isCut maxBytes = true) : s.count maxBytes ≤ Utf8.size s.text := by
  have long := (chunked cut).length_le
  rw [chunks, flatten_cutText] at long
  rw [count_of_cut cut]
  exact long

theorem getElem?_pieces (cut : s.isCut maxBytes = true) (k : Nat) :
    (s.pieces maxBytes)[k]?
      = ((s.chunks maxBytes)[k]?).map (s.event.piece s.name (s.count maxBytes) k) := by
  rw [count_of_cut cut, pieces_of_cut cut, List.getElem?_mapIdx]

theorem datas_of_cut (cut : s.isCut maxBytes = true) :
    (s.pieces maxBytes).filterMap (·.data) = (s.chunks maxBytes).map String.ofList := by
  have data : (fun piece : List Char × Nat =>
      (s.event.piece s.name (s.chunks maxBytes).length piece.2 piece.1).data)
        = some ∘ (String.ofList ∘ Prod.fst) := rfl
  rw [pieces_of_cut cut, List.mapIdx_eq_zipIdx_map, List.filterMap_map, Function.comp_def, data,
    List.filterMap_eq_map, ← List.map_map, List.zipIdx_map_fst]

/-- A piece of an event and what it leaves for the next one. -/
theorem mem_pieces (cut : s.isCut maxBytes = true) (few : s.count maxBytes < UInt32.size) {k : Nat}
    {p : Event} (there : (s.pieces maxBytes)[k]? = some p) :
    ∃ (place : Fragment) (chunk : String),
      p = { s.event with id := some s.name, frag := some place, data := some chunk } ∧
      place.i.toNat = k ∧ place.n.toNat = s.count maxBytes ∧ chunk ≠ "" ∧
      (chunk.utf8ByteSize ≤ max 1 maxBytes ∨
        ∃ c, max 1 maxBytes < c.utf8Size ∧ chunk = String.singleton c) ∧
      ∀ next, (s.pieces maxBytes)[k + 1]? = some next →
        ∃ c rest, next.data = some (String.ofList (c :: rest)) ∧
          max 1 maxBytes < chunk.utf8ByteSize + c.utf8Size := by
  rw [getElem?_pieces cut] at there
  obtain ⟨chunk, here, rfl⟩ := Option.map_eq_some_iff.mp there
  obtain ⟨inside, same⟩ := List.getElem?_eq_some_iff.mp here
  have chunked := chunked cut
  have member : chunk ∈ s.chunks maxBytes := List.mem_of_getElem? here
  rw [← count_of_cut cut] at inside
  rw [Nat.max_comm]
  refine ⟨⟨UInt32.ofNat k, UInt32.ofNat (s.count maxBytes)⟩, String.ofList chunk, rfl,
    UInt32.toNat_ofNat_of_lt' (Nat.lt_trans inside few), UInt32.toNat_ofNat_of_lt' few, ?_, ?_, ?_⟩
  · intro empty
    exact chunked.filled chunk member (String.ofList_eq_empty_iff.mp empty)
  · by_cases fits : Utf8.size chunk ≤ max maxBytes 1
    · rw [Utf8.utf8ByteSize_ofList]
      exact .inl fits
    · obtain ⟨c, rfl⟩ := (chunked.narrow chunk member).resolve_left fits
      rw [← Utf8.utf8ByteSize_ofList, ← String.singleton_eq_ofList, String.utf8ByteSize_singleton]
        at fits
      exact .inr ⟨c, Nat.lt_of_not_le fits, String.singleton_eq_ofList.symm⟩
  · intro next behind
    rw [getElem?_pieces cut] at behind
    obtain ⟨following, after, rfl⟩ := Option.map_eq_some_iff.mp behind
    obtain ⟨within, rfl⟩ := List.getElem?_eq_some_iff.mp after
    obtain ⟨c, rest, first, long⟩ := List.isChain_iff_getElem.mp chunked.full k within
    refine ⟨c, rest, ?_, ?_⟩
    · rw [← first]
      rfl
    · rw [Utf8.utf8ByteSize_ofList, ← same]
      exact long

end Sent

namespace Event

/-- The pieces of an event.  Data that is absent or fits stays in the one envelope as it is.  Other
data is cut between characters: joined again it is the same, each piece has the same fields and its
own place, no piece is empty, a piece above the limit is a single character, and none could have taken
the first character of the next. -/
theorem pieces_cover_greedily (e : Event) (maxBytes : Nat) (freshId : String)
    (small : ∀ data, e.data = some data → data.utf8ByteSize < 2 ^ 32) :
    let limit := max 1 maxBytes
    let ps := e.pieces maxBytes freshId
    ((∀ data, e.data = some data → data.utf8ByteSize ≤ limit) → ps = [e]) ∧
    ∀ data, e.data = some data → limit < data.utf8ByteSize →
      String.join (ps.filterMap (·.data)) = data ∧
      ∀ k p, ps[k]? = some p → ∃ (place : Fragment) (chunk : String),
        p = { e with id := some (e.id.getD freshId), frag := some place, data := some chunk } ∧
        place.i.toNat = k ∧ place.n.toNat = ps.length ∧ chunk ≠ "" ∧
        (chunk.utf8ByteSize ≤ limit ∨ ∃ c, limit < c.utf8Size ∧ chunk = String.singleton c) ∧
        ∀ next, ps[k + 1]? = some next → ∃ c rest, next.data = some (String.ofList (c :: rest)) ∧
          limit < chunk.utf8ByteSize + c.utf8Size := by
  intro limit ps
  let s : Sent := ⟨e, freshId, 0⟩
  refine ⟨fun fits => ?_, fun data has long => ?_⟩
  · refine Sent.pieces_of_uncut (s := s) (Bool.eq_false_iff.mpr fun cut => ?_)
    obtain ⟨data, has, long⟩ := Sent.isCut_iff.mp cut
    exact Nat.not_lt.mpr (fits data has) long
  · have cut : s.isCut maxBytes = true := Sent.isCut_iff.mpr ⟨data, has, long⟩
    have text : s.text = data.toList := by rw [Sent.text, has]; rfl
    have few : s.count maxBytes < UInt32.size := by
      have bound := Sent.count_le_size cut
      rw [text, Utf8.size_toList] at bound
      exact Nat.lt_of_le_of_lt bound (small data has)
    refine ⟨?_, fun k p there => Sent.mem_pieces cut few there⟩
    have joined := Sent.data_of_cut cut
    rw [has, ← Sent.datas_of_cut cut] at joined
    exact (Option.some.inj joined).symm

/-- A text of characters of one, two, three and one bytes, and a place that the pieces do not keep. -/
def sampleWide : Event :=
  { Event.new "token" "aé€b" with ct := some "text/plain", seq := 7, frag := some ⟨9, 12⟩ }

theorem sample_pieces_cover :
    String.join ((sampleWide.pieces 2 "f").filterMap (·.data)) = "aé€b" ∧
      ∃ place : Fragment, (sampleWide.pieces 2 "f")[2]?
          = some { sampleWide with id := some "f", frag := some place, data := some "€" } ∧
        place.i.toNat = 2 ∧ place.n.toNat = 4 := by
  have small : ∀ data, sampleWide.data = some data → data.utf8ByteSize < 2 ^ 32 := by
    intro data has
    cases has
    decide +kernel
  obtain ⟨-, long⟩ := sampleWide.pieces_cover_greedily 2 "f" small
  obtain ⟨joined, each⟩ := long "aé€b" rfl (by decide +kernel)
  have third : ((sampleWide.pieces 2 "f")[2]?).bind (·.data) = some "€" := by decide +kernel
  obtain ⟨p, there, data⟩ := Option.bind_eq_some_iff.mp third
  obtain ⟨place, chunk, rfl, index, count, -⟩ := each 2 p there
  obtain rfl : chunk = "€" := Option.some.inj data
  exact ⟨joined, place, there, index, count⟩

end Event
end FlexLink
