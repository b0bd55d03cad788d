import FlexLink.Proofs.Reliability.Resending

/-! # The resend buffer along any calls

Recordings, acknowledgements and requests come in any order.  Along them a resend buffer answers as a
plain list of frames under different keys does, `Shelf`, and is the image of that list after each of
them.  What an acknowledgement covers is up to the keys: numbers are covered from below, a correlation
only by itself. -/
set_option autoImplicit false
namespace FlexLink

namespace ResendBuffer

variable {κ : Type}

/-! ## Calls -/

inductive Call (κ : Type) where
  | record (key : κ) (packets : List Packet)
  | release (acked : κ)
  | lookup (keys : List κ)

inductive Answer (κ : Type) where
  | recorded
  | released (count : Nat)
  | found (frames : List (κ × List Packet))
deriving DecidableEq

/-- Calls one after the other on a state that takes them, with all that they answer. -/
def callAll {σ : Type} (turn : σ → Call κ → σ × Answer κ) (s : σ) :
    List (Call κ) → σ × List (Answer κ)
  | [] => (s, [])
  | c :: rest =>
    let (next, answer) := turn s c
    let (last, answers) := callAll turn next rest
    (last, answer :: answers)

/-- A state that is the image of another, call by call, gives the same answers. -/
theorem callAll_image {σ τ : Type} {turn : σ → Call κ → σ × Answer κ}
    {turn' : τ → Call κ → τ × Answer κ} (image : σ → τ)
    (follows : ∀ s c, turn' (image s) c = (image (turn s c).1, (turn s c).2)) (s : σ)
    (calls : List (Call κ)) :
    callAll turn' (image s) calls
      = (image (callAll turn s calls).1, (callAll turn s calls).2) := by
  induction calls generalizing s with
  | nil => rfl
  | cons c rest ih => simp only [callAll, follows, ih]

def Call.frames? [DecidableEq κ] (key : κ) : Call κ → Option (List Packet)
  | .record k packets => if k = key then some packets else none
  | _ => none

/-- The frames that were last recorded under a key. -/
def latest? [DecidableEq κ] (key : κ) : List (Call κ) → Option (List Packet)
  | [] => none
  | c :: rest => (latest? key rest).or (c.frames? key)

def call [DecidableEq κ] [ResendKey κ] (b : ResendBuffer κ) : Call κ → ResendBuffer κ × Answer κ
  | .record key packets => (b.record key packets, .recorded)
  | .release acked => ((b.release acked).1, .released (b.release acked).2)
  | .lookup keys => (b, .found (b.lookup keys))

end ResendBuffer

/-! ## The list -/

open ResendBuffer (Call Answer)

/-- Frames under different keys, the oldest first, as many as there is room for. -/
structure Shelf (κ : Type) (capacity : Nat) where
  entries : List (κ × List Packet)
  different : (entries.map (·.1)).Nodup
  fits : entries.length ≤ max capacity 1

namespace Shelf

open ResendBuffer

variable {κ : Type} [DecidableEq κ] {capacity : Nat}

theorem keys_replace (entries : List (κ × List Packet)) (key : κ) (packets : List Packet) :
    (entries.map fun e => if e.1 = key then (key, packets) else e).map (·.1)
      = entries.map (·.1) := by
  rw [List.map_map]
  apply List.map_congr_left
  intro e _
  by_cases same : e.1 = key <;> simp [same]

def empty (capacity : Nat) : Shelf κ capacity := ⟨[], List.nodup_nil, Nat.zero_le _⟩

/-- Frames under a key that is there take the place of those before.  A new key goes to the end, and the
oldest leaves if there was no room. -/
def record (s : Shelf κ capacity) (key : κ) (packets : List Packet) : Shelf κ capacity :=
  if present : key ∈ s.entries.map (·.1) then
    { entries := s.entries.map fun e => if e.1 = key then (key, packets) else e
      different := by
        rw [keys_replace]
        exact s.different
      fits := by
        rw [List.length_map]
        exact s.fits }
  else
    { entries := (s.entries ++ [(key, packets)]).drop (s.entries.length + 1 - max capacity 1)
      different := by
        apply List.Nodup.sublist ((List.drop_sublist _ _).map _)
        rw [List.map_append]
        exact Table.nodup_snoc s.different present
      fits := by
        rw [List.length_drop, List.length_append, List.length_singleton]
        omega }

def release (covers : κ → κ → Bool) (s : Shelf κ capacity) (acked : κ) : Shelf κ capacity where
  entries := s.entries.filter fun e => !covers e.1 acked
  different := s.different.sublist (List.filter_sublist.map _)
  fits := Nat.le_trans (List.length_filter_le _ _) s.fits

def call (covers : κ → κ → Bool) (s : Shelf κ capacity) : Call κ → Shelf κ capacity × Answer κ
  | .record key packets => (s.record key packets, .recorded)
  | .release acked =>
    (s.release covers acked, .released (s.entries.countP fun e => covers e.1 acked))
  | .lookup keys => (s, .found (keys.flatMap fun key => s.entries.filter (·.1 = key)))

/-! ## The buffer as its image -/

def buffer (s : Shelf κ capacity) : ResendBuffer κ := .holding (max capacity 1) s.entries

theorem mem_record (s : Shelf κ capacity) (key : κ) (packets : List Packet) :
    (key, packets) ∈ (s.record key packets).entries := by
  unfold record
  split
  · next present =>
    obtain ⟨e, member, same⟩ := List.mem_map.mp present
    exact List.mem_map.mpr ⟨e, member, if_pos same⟩
  · -- There is room for one at least, so what leaves is older.
    have older : s.entries.length + 1 - max capacity 1 ≤ s.entries.length := by omega
    show _ ∈ (s.entries ++ [(key, packets)]).drop _
    rw [List.drop_append_of_le_length older]
    exact List.mem_append_right _ (List.mem_singleton_self _)

theorem record_buffer (s : Shelf κ capacity) (key : κ) (packets : List Packet) :
    s.buffer.record key packets = (s.record key packets).buffer := by
  unfold record
  split
  · next present =>
    rw [buffer, record_holding_of_mem s.different s.fits present,
      Table.put_of_mem s.different present]
    rfl
  · next absent => exact record_holding s.different absent packets

theorem lookup_buffer (s : Shelf κ capacity) (keys : List κ) :
    s.buffer.lookup keys = keys.flatMap fun key => s.entries.filter (·.1 = key) := by
  have frames : s.buffer.frames = ⟨s.entries⟩ := rfl
  induction keys with
  | nil => rfl
  | cons key rest ih =>
    rw [ResendBuffer.lookup, frames] at ih ⊢
    rw [List.filterMap_cons, List.flatMap_cons, ← ih, Table.filter_key s.different]
    cases Table.get? ⟨s.entries⟩ key <;> rfl

theorem get?_newest (s : Shelf κ capacity) (key : κ) (packets : List Packet) :
    (s.buffer.record key packets).frames.get? key = some packets := by
  rw [record_buffer]
  exact Table.get?_of_mem (s.record key packets).different (s.mem_record key packets)

theorem call_buffer [ResendKey κ] (s : Shelf κ capacity) (c : Call κ) :
    s.buffer.call c
      = ((s.call ResendKey.covered c).1.buffer, (s.call ResendKey.covered c).2) := by
  cases c with
  | record key packets =>
    exact congrArg (·, Answer.recorded) (s.record_buffer key packets)
  | release acked =>
    have left : (s.buffer.release acked).1 = (s.release ResendKey.covered acked).buffer :=
      release_holding acked
    have count : (s.buffer.release acked).2 = s.entries.countP fun e => ResendKey.covered e.1 acked :=
      length_release_holding acked
    rw [ResendBuffer.call, left, count]
    rfl
  | lookup keys => exact congrArg (s.buffer, Answer.found ·) (s.lookup_buffer keys)

end Shelf

namespace ResendBuffer

variable {κ : Type} [DecidableEq κ] [ResendKey κ]

/-! ## What calls show -/

/-- What is under a key was there before a call, or the call recorded it. -/
theorem get?_call {b : ResendBuffer κ} {c : Call κ} {key : κ} {found : List Packet}
    (kept : (b.call c).1.frames.get? key = some found) :
    c.frames? key = some found ∨ c.frames? key = none ∧ b.frames.get? key = some found := by
  cases c with
  | record k packets =>
    have inserted := get?_of_evict _ kept
    rw [Table.get?_insert] at inserted
    by_cases same : k = key
    · rw [if_pos same.symm] at inserted
      exact .inl ((if_pos same).trans inserted)
    · rw [if_neg (Ne.symm same)] at inserted
      exact .inr ⟨if_neg same, inserted⟩
  | release acked =>
    have left : (b.release acked).1.frames.get? key = some found := kept
    rw [get?_release] at left
    split at left
    · cases left
    · exact .inr ⟨rfl, left⟩
  | lookup keys => exact .inr ⟨rfl, kept⟩

omit [ResendKey κ] in
theorem latest?_cons (key : κ) (c : Call κ) (rest : List (Call κ)) :
    latest? key (c :: rest) = (latest? key rest).or (c.frames? key) := rfl

/-- What is under a key after calls was recorded by the last that could, or was there before them. -/
theorem get?_callAll {b : ResendBuffer κ} {calls : List (Call κ)} {key : κ} {found : List Packet}
    (kept : (callAll call b calls).1.frames.get? key = some found) :
    latest? key calls = some found ∨ latest? key calls = none ∧ b.frames.get? key = some found := by
  induction calls generalizing b with
  | nil => exact .inr ⟨rfl, kept⟩
  | cons c rest ih =>
    rw [latest?_cons]
    rcases ih kept with later | ⟨none, earlier⟩
    · exact .inl (by rw [later, Option.some_or])
    · rw [none, Option.none_or]
      exact get?_call earlier

def after (capacity : Nat) (calls : List (Call κ)) : ResendBuffer κ :=
  (callAll call (new capacity) calls).1

/-- What calls show of a buffer is what they show of a list. -/
structure Mirrors (covers : κ → κ → Bool) (capacity : Nat) (calls : List (Call κ)) : Prop where
  answers : (callAll call (new capacity) calls).2
    = (callAll (Shelf.call covers) (.empty capacity) calls).2
  holds : after capacity calls = (callAll (Shelf.call covers) (.empty capacity) calls).1.buffer
  once : (after capacity calls).order.Nodup
  listed : ∀ key, key ∈ (after capacity calls).order ↔ (after capacity calls).frames.contains key
  newest : ∀ key packets, ((after capacity calls).record key packets).frames.get? key = some packets
  requested : ∀ keys, ((after capacity calls).lookup keys).map (·.1)
    = keys.filter (· ∈ (after capacity calls).order)
  latest : ∀ keys, ∀ found ∈ (after capacity calls).lookup keys,
    latest? found.1 calls = some found.2

theorem mirrors_of_covered (capacity : Nat) (calls : List (Call κ)) :
    Mirrors ResendKey.covered capacity calls := by
  have image : callAll call (new capacity) calls = _ :=
    callAll_image Shelf.buffer Shelf.call_buffer (.empty capacity) calls
  have holds := congrArg Prod.fst image
  have listed (key : κ) :
      key ∈ (after capacity calls).order ↔ (after capacity calls).frames.contains key := by
    rw [after, holds, Table.contains_iff]
    rfl
  refine ⟨congrArg Prod.snd image, holds, ?_, listed, ?_, ?_, ?_⟩
  · rw [after, holds]
    exact Shelf.different _
  · intro key packets
    rw [after, holds]
    exact Shelf.get?_newest _ key packets
  · intro keys
    rw [lookup_keys]
    apply List.filter_congr
    intro key _
    rw [Bool.eq_iff_iff, ← listed, decide_eq_true_iff]
  · intro keys found member
    obtain ⟨key, -, answer⟩ := List.mem_filterMap.mp member
    obtain ⟨packets, kept, rfl⟩ := Option.map_eq_some_iff.mp answer
    rcases get?_callAll kept with recorded | ⟨-, before⟩
    · exact recorded
    · cases before

/-- Along any calls a buffer of any capacity is the list that it stands for: under numbers, each covered
by itself and by those above it, and under correlations, each covered by itself alone. -/
theorem mirrors_shelf (capacity : Nat) :
    (∀ calls : List (Call UInt64), Mirrors (fun key acked => key ≤ acked) capacity calls) ∧
      ∀ calls : List (Call String), Mirrors (fun key acked => key = acked) capacity calls :=
  ⟨mirrors_of_covered capacity, mirrors_of_covered capacity⟩

example :
    (callAll call (new 2) [.record (0 : UInt64) [⟨0, 0, 0, 0⟩], .record 1 [⟨1, 0, 0, 0⟩],
      .record 1 [⟨11, 0, 0, 0⟩], .record 2 [], .lookup [2, 1, 0, 1], .release 1]).2
      = [.recorded, .recorded, .recorded, .recorded,
        .found [(2, []), (1, [⟨11, 0, 0, 0⟩]), (1, [⟨11, 0, 0, 0⟩])], .released 1] := by
  decide

end ResendBuffer
end FlexLink
