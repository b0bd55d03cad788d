import FlexLink.Stream.Pieces

/-! # What becomes of an event that is sent

A `Sent` is an event with the id it takes if it has to be cut and the number of its first
envelope.  Its envelopes are what a sender queues for it, and `whole` is what a receiver is to make
of them again: the event itself under the number of the last envelope. -/
set_option autoImplicit false
namespace FlexLink

theorem flatten_cutText (limit size : Nat) (current text : List Char) :
    (cutText limit current size text).flatten = current.reverse ++ text := by
  induction text generalizing current size with
  | nil => rw [cutText, List.flatten_singleton, List.append_nil]
  | cons c rest ih =>
      rw [cutText]
      split
      · rw [List.flatten_cons, ih]
        rfl
      · rw [ih, List.reverse_cons, List.append_assoc]
        rfl

theorem cutText_ne_nil (limit size : Nat) (current text : List Char) :
    cutText limit current size text ≠ [] := by
  induction text generalizing current size with
  | nil => exact List.cons_ne_nil _ _
  | cons c rest ih =>
      rw [cutText]
      split
      · exact List.cons_ne_nil _ _
      · exact ih _ _

theorem join_map_ofList (chunks : List (List Char)) :
    String.join (chunks.map String.ofList) = String.ofList chunks.flatten := by
  rw [← String.toList_inj, String.toList_join, String.toList_ofList, List.flatMap_map]
  simp only [String.toList_ofList, List.flatMap_id']

structure Sent where
  event : Event
  freshId : String
  first : Nat
deriving DecidableEq

namespace Sent

variable (maxBytes : Nat) (s : Sent)

def pieces : List Event := s.event.pieces maxBytes s.freshId

def count : Nat := (s.pieces maxBytes).length

def last : Nat := s.first + s.count maxBytes - 1

/-- The envelopes in order, as a sender queues them. -/
def envelopes : List Event :=
  (s.pieces maxBytes).mapIdx fun i p => { p with seq := UInt64.ofNat (s.first + i) }

def text : List Char := (s.event.data.getD "").toList

/-- Whether the data is too long for one envelope. -/
def isCut : Bool := decide (max maxBytes 1 < Utf8.size s.text)

def name : String := s.event.id.getD s.freshId

def chunks : List (List Char) := cutText (max maxBytes 1) [] 0 s.text

def envelope (i : Nat) (chunk : List Char) : Event :=
  { s.event.piece s.name (s.chunks maxBytes).length i chunk with seq := UInt64.ofNat (s.first + i) }

/-- The event as it is to be delivered. -/
def whole : Event :=
  { s.event with
    id := if s.isCut maxBytes then some s.name else s.event.id
    seq := UInt64.ofNat (s.last maxBytes)
    frag := none }

variable {maxBytes : Nat} {s : Sent}

theorem pieces_of_uncut (uncut : s.isCut maxBytes = false) : s.pieces maxBytes = [s.event] := by
  have short := of_decide_eq_false uncut
  rw [pieces, Event.pieces]
  cases data : s.event.data with
  | none => rfl
  | some text =>
      rw [Sent.text, data] at short
      exact if_pos (Nat.le_of_not_lt short)

theorem pieces_of_cut (cut : s.isCut maxBytes = true) :
    s.pieces maxBytes = (s.chunks maxBytes).mapIdx
      fun i chunk => s.event.piece s.name (s.chunks maxBytes).length i chunk := by
  have long := of_decide_eq_true cut
  rw [chunks, pieces, Event.pieces]
  cases data : s.event.data with
  | none =>
      rw [Sent.text, data] at long
      exact absurd long (Nat.not_lt_zero _)
  | some text =>
      rw [Sent.text, data] at long ⊢
      exact if_neg (Nat.not_le_of_lt long)

theorem data_of_cut (cut : s.isCut maxBytes = true) :
    s.event.data = some (String.join ((s.chunks maxBytes).map String.ofList)) := by
  have long := of_decide_eq_true cut
  rw [join_map_ofList, chunks, flatten_cutText, Sent.text]
  cases data : s.event.data with
  | none =>
      rw [Sent.text, data] at long
      exact absurd long (Nat.not_lt_zero _)
  | some text => exact congrArg some String.ofList_toList.symm

theorem count_of_cut (cut : s.isCut maxBytes = true) :
    s.count maxBytes = (s.chunks maxBytes).length := by
  rw [count, pieces_of_cut cut, List.length_mapIdx]

theorem count_of_uncut (uncut : s.isCut maxBytes = false) : s.count maxBytes = 1 := by
  rw [count, pieces_of_uncut uncut]
  rfl

theorem count_pos : 0 < s.count maxBytes := by
  cases cut : s.isCut maxBytes with
  | false => rw [count_of_uncut cut]; exact Nat.one_pos
  | true =>
      rw [count_of_cut cut]
      exact List.length_pos_iff.mpr (cutText_ne_nil _ _ _ _)

theorem length_envelopes : (s.envelopes maxBytes).length = s.count maxBytes := by
  rw [envelopes, List.length_mapIdx, count]

theorem envelopes_of_cut (cut : s.isCut maxBytes = true) :
    s.envelopes maxBytes = (s.chunks maxBytes).mapIdx (s.envelope maxBytes) := by
  rw [envelopes, pieces_of_cut cut, List.mapIdx_mapIdx]
  rfl

theorem envelopes_of_uncut (uncut : s.isCut maxBytes = false) :
    s.envelopes maxBytes = [{ s.event with seq := UInt64.ofNat s.first }] := by
  rw [envelopes, pieces_of_uncut uncut]
  rfl

theorem whole_of_uncut (uncut : s.isCut maxBytes = false) (plain : s.event.frag = none) :
    s.whole maxBytes = { s.event with seq := UInt64.ofNat s.first } := by
  rw [whole, uncut, last, count_of_uncut uncut, ← plain]
  rfl

theorem mem_envelopes {e : Event} (member : e ∈ s.envelopes maxBytes) (plain : s.event.frag = none) :
    (s.isCut maxBytes = false ∧ e = s.whole maxBytes) ∨
      (s.isCut maxBytes = true ∧
        ∃ i chunk, (s.chunks maxBytes)[i]? = some chunk ∧ e = s.envelope maxBytes i chunk) := by
  cases cut : s.isCut maxBytes with
  | false =>
      rw [envelopes_of_uncut cut] at member
      refine .inl ⟨rfl, ?_⟩
      rw [whole_of_uncut cut plain]
      exact List.mem_singleton.mp member
  | true =>
      rw [envelopes_of_cut cut] at member
      obtain ⟨i, inside, rfl⟩ := List.mem_mapIdx.mp member
      exact .inr ⟨rfl, i, _, List.getElem?_eq_getElem inside, rfl⟩

theorem fields_of_envelope {e : Event} (member : e ∈ s.envelopes maxBytes) :
    e.ev = s.event.ev ∧ e.ts = s.event.ts := by
  cases cut : s.isCut maxBytes with
  | false =>
      rw [envelopes_of_uncut cut] at member
      rw [List.mem_singleton.mp member]
      exact ⟨rfl, rfl⟩
  | true =>
      rw [envelopes_of_cut cut] at member
      obtain ⟨i, inside, rfl⟩ := List.mem_mapIdx.mp member
      exact ⟨rfl, rfl⟩

end Sent
end FlexLink
