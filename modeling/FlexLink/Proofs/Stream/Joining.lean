import Mathlib.Data.List.Nodup
import FlexLink.Stream.Joiner
import FlexLink.Proofs.Stream.Pieces

/-! # What a joiner makes of pieces

Whatever order pieces come in and whatever pieces miss, the parts that are kept under an id are
chunks of the one event that has that id, so an event that is completed is the event that was sent.
Pieces that come in order and without loss complete every event at its last piece. -/
set_option autoImplicit false
namespace FlexLink

open scoped List

namespace PartialEvent

theorem concat_map_some (index : Nat) (datas : List String) :
    concat index (datas.map some) = .ok datas := by
  induction datas generalizing index with
  | nil => rfl
  | cons data datas ih => rw [List.map_cons, concat, ih]

theorem eq_map_some_of_concat {parts : List (Option String)} {index : Nat} {datas : List String}
    (joined : concat index parts = .ok datas) : parts = datas.map some := by
  induction parts generalizing index datas with
  | nil => cases joined; rfl
  | cons part rest ih =>
      cases part with
      | none => cases joined
      | some data =>
          rw [concat] at joined
          cases found : concat (index + 1) rest with
          | error missing => rw [found] at joined; cases joined
          | ok others =>
              rw [found] at joined
              cases joined
              rw [List.map_cons, ih found]

end PartialEvent

namespace Joiner

def run (j : Joiner) : List Event → Joiner × List (Except FragmentError (Option Event))
  | [] => (j, [])
  | e :: rest => (((j.push e).1.run rest).1, (j.push e).2 :: ((j.push e).1.run rest).2)

def completed (result : Except FragmentError (Option Event)) : Option Event := result.toOption.join

/-- The events that envelopes complete. -/
def joined (j : Joiner) (es : List Event) : List Event := (j.run es).2.filterMap completed

theorem joined_cons (j : Joiner) (e : Event) (es : List Event) :
    j.joined (e :: es) = (completed (j.push e).2).toList ++ (j.push e).1.joined es := by
  rw [joined, run, List.filterMap_cons]
  cases completed (j.push e).2 <;> rfl

theorem run_append (j : Joiner) (es more : List Event) :
    j.run (es ++ more) = (((j.run es).1.run more).1, (j.run es).2 ++ ((j.run es).1.run more).2) := by
  induction es generalizing j with
  | nil => rfl
  | cons e es ih =>
      rw [List.cons_append, run, run, ih]
      rfl

theorem joined_append (j : Joiner) (es more : List Event) :
    j.joined (es ++ more) = j.joined es ++ (j.run es).1.joined more := by
  rw [joined, run_append, List.filterMap_append]
  rfl

/-! ## One envelope -/

theorem makeRoom_keeps {j : Joiner} {order : List String} {id : String} {p : PartialEvent}
    (found : (j.makeRoom order).partials.get? id = some p) : j.partials.get? id = some p := by
  induction order generalizing j with
  | nil => exact found
  | cons oldest order ih =>
      rw [makeRoom] at found
      split at found
      · have kept := ih found
        rw [Table.get?_erase] at kept
        split at kept
        · cases kept
        · exact kept
      · exact found

theorem opening_keeps {j opened : Joiner} {id other : String} {n : Nat} {p q : PartialEvent}
    (opens : j.opening id n = (opened, p)) (found : opened.partials.get? other = some q) :
    j.partials.get? other = some q := by
  rw [opening] at opens
  cases known : j.partials.get? id with
  | some old =>
      rw [known] at opens
      cases opens
      exact found
  | none =>
      rw [known] at opens
      cases opens
      exact makeRoom_keeps found

theorem opening_part {j opened : Joiner} {id : String} {n : Nat} {p : PartialEvent}
    (opens : j.opening id n = (opened, p)) : j.partials.get? id = some p ∨ p = .new n := by
  rw [opening] at opens
  cases known : j.partials.get? id with
  | some old =>
      rw [known] at opens
      cases opens
      exact .inl rfl
  | none =>
      rw [known] at opens
      cases opens
      exact .inr rfl

theorem maxFragments_makeRoom (j : Joiner) (order : List String) :
    (j.makeRoom order).maxFragments = j.maxFragments := by
  induction order generalizing j with
  | nil => rfl
  | cons oldest order ih =>
      rw [makeRoom]
      split
      · exact ih _
      · rfl

theorem maxFragments_opening {j opened : Joiner} {id : String} {n : Nat} {p : PartialEvent}
    (opens : j.opening id n = (opened, p)) :
    opened.maxFragments = j.maxFragments := by
  rw [opening] at opens
  cases known : j.partials.get? id with
  | some old =>
      rw [known] at opens
      cases opens
      rfl
  | none =>
      rw [known] at opens
      cases opens
      exact maxFragments_makeRoom j j.order

theorem forget_keeps {j : Joiner} {id other : String} {p : PartialEvent}
    (found : (j.forget id).partials.get? other = some p) : j.partials.get? other = some p ∧ other ≠ id := by
  have erased : (j.partials.erase id).get? other = some p := found
  rw [Table.get?_erase] at erased
  split at erased
  · cases erased
  · next different => exact ⟨erased, different⟩

def store (j : Joiner) (id : String) (p : PartialEvent) : Joiner :=
  { j with partials := j.partials.insert id p }

structure Takes (j : Joiner) (e : Event) (place : Fragment) (id : String) (opened : Joiner)
    (p : PartialEvent) : Prop where
  piece : e.frag = some place
  named : e.id = some id
  inside : place.i.toNat < place.n.toNat
  few : place.n.toNat ≤ j.maxFragments
  opens : j.opening id place.n.toNat = (opened, p)
  count : p.count = place.n.toNat

inductive Pushes (j : Joiner) (e : Event) : Joiner × Except FragmentError (Option Event) → Prop where
  | event (plain : e.frag = none) : Pushes j e (j, .ok (some e))
  | refused (why : FragmentError) : Pushes j e (j, .error why)
  | changed {id : String} {n : Nat} {opened : Joiner} {p : PartialEvent}
      (opens : j.opening id n = (opened, p)) :
      Pushes j e (opened.forget id, .error (.countChanged id))
  | stored {place : Fragment} {id : String} {opened : Joiner} {p : PartialEvent}
      (takes : Takes j e place id opened p) (more : place.i.toNat + 1 < place.n.toNat) :
      Pushes j e (opened.store id (p.put place.i.toNat e.data), .ok none)
  | finished {place : Fragment} {id : String} {opened : Joiner} {p : PartialEvent}
      (takes : Takes j e place id opened p) (last : place.n.toNat ≤ place.i.toNat + 1) :
      Pushes j e ((opened.store id (p.put place.i.toNat e.data)).finish e id
        (p.put place.i.toNat e.data))

variable {j : Joiner} {e : Event}

theorem Takes.push {place : Fragment} {id : String} {opened : Joiner} {p : PartialEvent}
    (takes : Takes j e place id opened p) :
    j.push e =
      if place.n.toNat ≤ place.i.toNat + 1 then
        (opened.store id (p.put place.i.toNat e.data)).finish e id (p.put place.i.toNat e.data)
      else (opened.store id (p.put place.i.toNat e.data), .ok none) := by
  rw [Joiner.push, takes.piece, takes.named]
  simp only
  rw [if_neg (Nat.not_le.mpr takes.inside), if_neg (Nat.not_lt.mpr takes.few), takes.opens]
  simp only
  rw [if_neg (not_not_intro takes.count)]
  rfl

theorem pushes (j : Joiner) (e : Event) : Pushes j e (j.push e) := by
  cases piece : e.frag with
  | none =>
      rw [push, piece]
      exact .event piece
  | some place =>
      cases named : e.id with
      | none =>
          rw [push, piece, named]
          exact .refused _
      | some id =>
          cases opens : j.opening id place.n.toNat with
          | mk opened p =>
              by_cases inside : place.i.toNat < place.n.toNat
              · by_cases few : place.n.toNat ≤ j.maxFragments
                · by_cases count : p.count = place.n.toNat
                  · have takes : Takes j e place id opened p :=
                      ⟨piece, named, inside, few, opens, count⟩
                    rw [takes.push]
                    split
                    · next last => exact .finished takes last
                    · next more => exact .stored takes (Nat.lt_of_not_le more)
                  · rw [push, piece, named]
                    simp only [Nat.not_le.mpr inside, Nat.not_lt.mpr few, opens, count, if_false,
                      ne_eq, not_false_eq_true, if_true]
                    exact .changed opens
                · rw [push, piece, named]
                  simp only [Nat.not_le.mpr inside, Nat.lt_of_not_le few, if_false, if_true]
                  exact .refused _
              · rw [push, piece, named]
                simp only [Nat.le_of_not_lt inside, if_true]
                exact .refused _

theorem maxFragments_push (j : Joiner) (e : Event) :
    (j.push e).1.maxFragments = j.maxFragments := by
  have outcome := j.pushes e
  generalize j.push e = result at outcome
  cases outcome with
  | event plain => rfl
  | refused why => rfl
  | changed opens =>
      have kept := maxFragments_opening opens
      exact kept
  | stored takes more =>
      have kept := maxFragments_opening takes.opens
      exact kept
  | finished takes last =>
      have kept := maxFragments_opening takes.opens
      exact kept

/-- What is incomplete afterwards was so before, or has just taken the piece. -/
theorem push_partials {id : String} {q : PartialEvent}
    (found : (j.push e).1.partials.get? id = some q) :
    j.partials.get? id = some q ∨
      ∃ place opened p, Takes j e place id opened p ∧ q = p.put place.i.toNat e.data := by
  have either {place : Fragment} {own : String} {opened : Joiner} {p : PartialEvent}
      (takes : Takes j e place own opened p)
      (known : (opened.store own (p.put place.i.toNat e.data)).partials.get? id = some q) :
      j.partials.get? id = some q ∨
        ∃ place opened p, Takes j e place id opened p ∧ q = p.put place.i.toNat e.data := by
    rw [store, Table.get?_insert] at known
    split at known
    · next same =>
      cases known
      exact .inr ⟨place, opened, p, same ▸ takes, rfl⟩
    · exact .inl (opening_keeps takes.opens known)
  have outcome := j.pushes e
  generalize j.push e = result at found outcome
  cases outcome with
  | event plain => exact .inl found
  | refused why => exact .inl found
  | changed opens => exact .inl (opening_keeps opens (forget_keeps found).1)
  | stored takes more => exact either takes found
  | finished takes last => exact either takes (forget_keeps found).1

/-- An event is complete because it is no piece, or by its last piece. -/
theorem push_completed {whole : Event} (done : completed (j.push e).2 = some whole) :
    (e.frag = none ∧ whole = e) ∨
      ∃ place id opened p datas, Takes j e place id opened p ∧
        place.n.toNat ≤ place.i.toNat + 1 ∧ (p.put place.i.toNat e.data).parts = datas.map some ∧
        whole = { e with frag := none, data := some (String.join datas) } := by
  have outcome := j.pushes e
  generalize j.push e = result at done outcome
  cases outcome with
  | event plain => exact .inl ⟨plain, (Option.some.inj done).symm⟩
  | refused why => cases done
  | changed opens => cases done
  | stored takes more => cases done
  | @finished place id opened p takes last =>
      rw [finish] at done
      cases joined : PartialEvent.concat 0 (p.put place.i.toNat e.data).parts with
      | error missing => rw [joined] at done; cases done
      | ok datas =>
          rw [joined] at done
          exact .inr ⟨place, id, opened, p, datas, takes, last,
            PartialEvent.eq_map_some_of_concat joined, (Option.some.inj done).symm⟩

/-- A completed event has everything but the data from the envelope that completes it. -/
theorem completed_form {whole : Event} (done : completed (j.push e).2 = some whole) :
    whole = { e with frag := none, data := whole.data } := by
  rcases push_completed done with ⟨plain, same⟩ | ⟨place, id, opened, p, datas, -, -, -, same⟩
  · rw [same, ← plain]
  · rw [same]

theorem completed_seq {whole : Event} (done : completed (j.push e).2 = some whole) :
    whole.seq = e.seq := by
  rw [completed_form done]

/-- Events are completed in the order of the envelopes that complete them. -/
theorem joined_seqs (j : Joiner) (es : List Event) :
    (j.joined es).map (·.seq) <+ es.map (·.seq) := by
  induction es generalizing j with
  | nil => exact List.Sublist.refl _
  | cons e es ih =>
      rw [joined_cons, List.map_append, List.map_cons]
      cases done : completed (j.push e).2 with
      | none => exact (ih (j.push e).1).cons e.seq
      | some whole =>
          have same := completed_seq done
          show whole.seq :: _ <+ _
          rw [same]
          exact (ih (j.push e).1).cons_cons e.seq

/-! ## Pieces in any order -/

section Sound

variable {maxBytes : Nat} {sent : List Sent}

/-- The events that are cut have different ids. -/
def Distinct (maxBytes : Nat) (sent : List Sent) : Prop :=
  ((sent.filter (·.isCut maxBytes)).map Sent.name).Nodup

instance (maxBytes : Nat) (sent : List Sent) : Decidable (Distinct maxBytes sent) :=
  inferInstanceAs (Decidable (List.Nodup _))

theorem Distinct.same (distinct : Distinct maxBytes sent) {s t : Sent} (mine : s ∈ sent)
    (other : t ∈ sent) (cut : s.isCut maxBytes = true) (also : t.isCut maxBytes = true)
    (name : s.name = t.name) : s = t :=
  List.inj_on_of_nodup_map distinct (List.mem_filter.mpr ⟨mine, cut⟩)
    (List.mem_filter.mpr ⟨other, also⟩) name

/-- Parts of an event: as many places as it has chunks, and in each place nothing or its chunk. -/
structure PartsOf (maxBytes : Nat) (s : Sent) (p : PartialEvent) : Prop where
  count : p.count = s.count maxBytes
  places : p.parts.length = s.count maxBytes
  genuine : ∀ (i : Nat) (data : String), p.parts[i]? = some (some data) →
    ∃ chunk, (s.chunks maxBytes)[i]? = some chunk ∧ data = String.ofList chunk

/-- What is incomplete consists of parts of sent events whose pieces can be counted in a word. -/
def Sound (maxBytes : Nat) (sent : List Sent) (j : Joiner) : Prop :=
  ∀ s ∈ sent, s.isCut maxBytes = true → s.count maxBytes < UInt32.size →
    ∀ p, j.partials.get? s.name = some p → PartsOf maxBytes s p

theorem sound_new (maxFragments : Nat) : Sound maxBytes sent (.new maxFragments) :=
  fun _ _ _ _ _ none => by cases none

theorem partsOf_new {s : Sent} : PartsOf maxBytes s (.new (s.count maxBytes)) := by
  refine ⟨rfl, List.length_replicate, fun i data found => ?_⟩
  rw [PartialEvent.new, List.getElem?_replicate] at found
  split at found
  · cases found
  · cases found

/-- The place that an envelope of a cut event names, if the pieces can be counted in a word. -/
theorem place_of_envelope {s : Sent} {i : Nat} {chunk : List Char} {place : Fragment}
    (cut : s.isCut maxBytes = true) (few : s.count maxBytes < UInt32.size)
    (there : (s.chunks maxBytes)[i]? = some chunk)
    (piece : (s.envelope maxBytes i chunk).frag = some place) :
    place.i.toNat = i ∧ place.n.toNat = s.count maxBytes ∧ i < s.count maxBytes := by
  have inside : i < s.count maxBytes := by
    rw [Sent.count_of_cut cut]
    exact (List.getElem?_eq_some_iff.mp there).1
  have same : (⟨UInt32.ofNat i, UInt32.ofNat (s.chunks maxBytes).length⟩ : Fragment) = place :=
    Option.some.inj piece
  rw [← same, ← Sent.count_of_cut cut]
  refine ⟨UInt32.toNat_ofNat_of_lt' ?_, UInt32.toNat_ofNat_of_lt' few, inside⟩
  exact Nat.lt_trans inside few

theorem PartsOf.put {s : Sent} {p : PartialEvent} {i : Nat} {chunk : List Char}
    (parts : PartsOf maxBytes s p) (there : (s.chunks maxBytes)[i]? = some chunk) :
    PartsOf maxBytes s (p.put i (some (String.ofList chunk))) := by
  refine ⟨parts.count, ?_, fun k data found => ?_⟩
  · rw [PartialEvent.put, List.length_set]
    exact parts.places
  · rw [PartialEvent.put, List.getElem?_set] at found
    split at found
    · next here =>
      rw [← here]
      split at found
      · exact ⟨chunk, there, (Option.some.inj (Option.some.inj found)).symm⟩
      · cases found
    · exact parts.genuine k data found

/-- The parts that a piece of a cut event is put into are those of that event. -/
theorem Takes.parts {s : Sent} {place : Fragment} {id : String} {opened : Joiner}
    {p : PartialEvent} {i : Nat} {chunk : List Char} (sound : Sound maxBytes sent j) (member : s ∈ sent)
    (cut : s.isCut maxBytes = true) (few : s.count maxBytes < UInt32.size)
    (there : (s.chunks maxBytes)[i]? = some chunk)
    (takes : Takes j (s.envelope maxBytes i chunk) place id opened p) :
    PartsOf maxBytes s (p.put place.i.toNat (s.envelope maxBytes i chunk).data) := by
  obtain ⟨index, total, -⟩ := place_of_envelope cut few there takes.piece
  have name : s.name = id := Option.some.inj takes.named
  have parts : PartsOf maxBytes s p := by
    rcases opening_part takes.opens with known | new
    · exact sound s member cut few p (name ▸ known)
    · rw [new, total]
      exact partsOf_new
  rw [index]
  exact parts.put there

/-- A whole list of parts is the list of chunks. -/
theorem PartsOf.complete {s : Sent} {p : PartialEvent} {datas : List String}
    (parts : PartsOf maxBytes s p) (cut : s.isCut maxBytes = true)
    (all : p.parts = datas.map some) : datas = (s.chunks maxBytes).map String.ofList := by
  have long : datas.length = (s.chunks maxBytes).length := by
    rw [← Sent.count_of_cut cut, ← parts.places, all, List.length_map]
  refine List.ext_getElem (by rw [long, List.length_map]) fun i inside _ => ?_
  have found : p.parts[i]? = some (some datas[i]) := by
    rw [all, List.getElem?_map, List.getElem?_eq_getElem inside]
    rfl
  obtain ⟨chunk, there, data⟩ := parts.genuine i _ found
  obtain ⟨_, here⟩ := List.getElem?_eq_some_iff.mp there
  rw [List.getElem_map, here, data]

theorem push_sound {t : Sent} (distinct : Distinct maxBytes sent)
    (plain : ∀ s ∈ sent, s.event.frag = none) (sound : Sound maxBytes sent j) (member : t ∈ sent)
    (envelope : e ∈ t.envelopes maxBytes) : Sound maxBytes sent (j.push e).1 := by
  intro s mine cut few q found
  rcases push_partials found with old | ⟨place, opened, p, takes, rfl⟩
  · exact sound s mine cut few q old
  · rcases Sent.mem_envelopes envelope (plain t member) with ⟨-, rfl⟩ | ⟨also, i, chunk, there, rfl⟩
    · cases takes.piece
    · -- The piece names the event whose parts changed, and no other event that is cut has that id.
      have name : t.name = s.name := Option.some.inj takes.named
      have same := distinct.same member mine also cut name
      rw [same] at takes there
      rw [same]
      exact takes.parts sound mine cut few there

/-- An event that is completed by one of its envelopes is the event that was sent. -/
theorem push_whole {whole : Event} {t : Sent} (plain : ∀ s ∈ sent, s.event.frag = none)
    (sound : Sound maxBytes sent j) (member : t ∈ sent) (envelope : e ∈ t.envelopes maxBytes)
    (few : t.count maxBytes < UInt32.size)
    (done : completed (j.push e).2 = some whole) : whole = t.whole maxBytes := by
  rcases Sent.mem_envelopes envelope (plain t member) with ⟨-, rfl⟩ | ⟨cut, i, chunk, there, rfl⟩
  · rcases push_completed done with ⟨-, same⟩ | ⟨place, id, opened, p, datas, takes, -⟩
    · exact same
    · cases takes.piece
  · rcases push_completed done with ⟨none, -⟩ | ⟨place, id, opened, p, datas, takes, final, all, same⟩
    · cases none
    · obtain ⟨index, total, inside⟩ := place_of_envelope cut few there takes.piece
      have chunks := (takes.parts sound member cut few there).complete cut all
      have last : t.first + i = t.last maxBytes := by
        rw [Sent.last]
        omega
      rw [same, chunks, ← Sent.data_of_cut cut, Sent.envelope, last, Sent.whole, if_pos cut]
      rfl

/-- Envelopes of sent events, in any order and of any number, complete only sent events. -/
theorem joined_sound {j : Joiner} {es : List Event} (distinct : Distinct maxBytes sent)
    (plain : ∀ s ∈ sent, s.event.frag = none) (sound : Sound maxBytes sent j)
    (drawn : ∀ e ∈ es, ∃ t ∈ sent, e ∈ t.envelopes maxBytes) :
    ∀ whole ∈ j.joined es, ∃ t ∈ sent,
      (∃ e ∈ t.envelopes maxBytes, whole = { e with frag := none, data := whole.data }) ∧
      (t.count maxBytes < UInt32.size → whole = t.whole maxBytes) := by
  induction es generalizing j with
  | nil => exact fun _ none => absurd none List.not_mem_nil
  | cons e es ih =>
      obtain ⟨⟨t, member, envelope⟩, others⟩ := List.forall_mem_cons.mp drawn
      intro whole found
      rw [joined_cons] at found
      rcases List.mem_append.mp found with here | later
      · have done := Option.mem_toList.mp here
        refine ⟨t, member, ⟨e, envelope, completed_form done⟩, fun few => ?_⟩
        exact push_whole plain sound member envelope few done
      · exact ih (push_sound distinct plain sound member envelope) others whole later

end Sound

/-! ## Pieces in order -/

section InOrder

variable {maxBytes limit : Nat} {s : Sent}

def partsAfter (maxBytes : Nat) (s : Sent) (i : Nat) : List (Option String) :=
  ((s.chunks maxBytes).take i).map (some ∘ String.ofList)
    ++ List.replicate ((s.chunks maxBytes).length - i) none

def clear (limit : Nat) : Joiner := { maxFragments := limit }

def holding (limit : Nat) (id : String) (p : PartialEvent) : Joiner := ⟨limit, ⟨[(id, p)]⟩, [id]⟩

def during (limit maxBytes : Nat) (s : Sent) (i : Nat) : Joiner :=
  if i = 0 then clear limit
  else holding limit s.name ⟨(s.chunks maxBytes).length, partsAfter maxBytes s i⟩

theorem forget_holding (id : String) (p : PartialEvent) :
    (holding limit id p).forget id = clear limit := by
  simp [holding, forget, clear, Table.erase]

/-- The next piece finds the parts that came before it, and they are all that is incomplete. -/
theorem opening_during (limit maxBytes : Nat) (s : Sent) (i : Nat) :
    ∃ opened, (during limit maxBytes s i).opening s.name (s.chunks maxBytes).length
        = (opened, ⟨(s.chunks maxBytes).length, partsAfter maxBytes s i⟩) ∧
      ∀ q, opened.store s.name q = holding limit s.name q := by
  by_cases first : i = 0
  · rw [first]
    exact ⟨⟨limit, {}, [s.name]⟩, rfl, fun _ => rfl⟩
  · rw [during, if_neg first]
    have found : (holding limit s.name ⟨(s.chunks maxBytes).length,
        partsAfter maxBytes s i⟩).partials.get? s.name
        = some ⟨(s.chunks maxBytes).length, partsAfter maxBytes s i⟩ := by
      simp [holding, Table.get?]
    refine ⟨_, by rw [opening, found], fun q => ?_⟩
    simp [store, holding, Table.insert, Table.put]

theorem set_partsAfter {i : Nat} {chunk : List Char}
    (there : (s.chunks maxBytes)[i]? = some chunk) :
    (partsAfter maxBytes s i).set i (some (String.ofList chunk)) = partsAfter maxBytes s (i + 1) := by
  obtain ⟨inside, here⟩ := List.getElem?_eq_some_iff.mp there
  have long : (((s.chunks maxBytes).take i).map (some ∘ String.ofList)).length = i := by
    rw [List.length_map, List.length_take, Nat.min_eq_left (Nat.le_of_lt inside)]
  have more : (s.chunks maxBytes).length - i = (s.chunks maxBytes).length - (i + 1) + 1 := by omega
  rw [partsAfter, List.set_append_right _ _ (Nat.le_of_eq long), long, Nat.sub_self, more,
    List.replicate_succ, List.set_cons_zero, partsAfter, List.take_succ_eq_append_getElem inside,
    List.map_append, here, List.append_assoc]
  rfl

theorem concat_partsAfter :
    PartialEvent.concat 0 (partsAfter maxBytes s (s.chunks maxBytes).length)
      = .ok ((s.chunks maxBytes).map String.ofList) := by
  rw [partsAfter, List.take_length, Nat.sub_self, List.replicate_zero, List.append_nil,
    ← List.map_map]
  exact PartialEvent.concat_map_some 0 _

theorem push_during (cut : s.isCut maxBytes = true) (few : s.count maxBytes ≤ limit)
    (word : s.count maxBytes < UInt32.size) {i : Nat} {chunk : List Char}
    (there : (s.chunks maxBytes)[i]? = some chunk) :
    (during limit maxBytes s i).push (s.envelope maxBytes i chunk)
      = if i + 1 < s.count maxBytes then (during limit maxBytes s (i + 1), .ok none)
        else (clear limit, .ok (some (s.whole maxBytes))) := by
  obtain ⟨place, piece⟩ : ∃ place, (s.envelope maxBytes i chunk).frag = some place := ⟨_, rfl⟩
  obtain ⟨index, total, inside⟩ := place_of_envelope cut word there piece
  have chunks := Sent.count_of_cut cut
  obtain ⟨opened, opens, inserted⟩ := opening_during limit maxBytes s i
  have room : (during limit maxBytes s i).maxFragments = limit := by
    rw [during]
    split <;> rfl
  have within : place.i.toNat < place.n.toNat := by rw [index, total]; exact inside
  have small : place.n.toNat ≤ (during limit maxBytes s i).maxFragments := by
    rw [room, total]
    exact few
  rw [← chunks, ← total] at opens
  have takes : Takes (during limit maxBytes s i) (s.envelope maxBytes i chunk) place s.name opened _ :=
    ⟨piece, rfl, within, small, opens, rfl⟩
  rw [takes.push, inserted, index, total]
  have put : PartialEvent.put ⟨s.count maxBytes, partsAfter maxBytes s i⟩ i
      (s.envelope maxBytes i chunk).data
      = ⟨(s.chunks maxBytes).length, partsAfter maxBytes s (i + 1)⟩ :=
    chunks ▸ congrArg (PartialEvent.mk _) (set_partsAfter there)
  rw [put]
  -- Either more pieces are to come, or all parts are there and the event is given out.
  by_cases more : i + 1 < s.count maxBytes
  · rw [if_neg (Nat.not_le.mpr more), if_pos more, during, if_neg (Nat.succ_ne_zero i)]
  · have final : i + 1 = (s.chunks maxBytes).length := by omega
    have last : s.first + i = s.last maxBytes := by rw [Sent.last]; omega
    rw [if_pos (Nat.le_of_not_lt more), if_neg more, finish, forget_holding, final,
      concat_partsAfter]
    simp only
    rw [← Sent.data_of_cut cut, Sent.envelope, last, Sent.whole, if_pos cut]
    rfl

theorem run_during (cut : s.isCut maxBytes = true) (few : s.count maxBytes ≤ limit)
    (word : s.count maxBytes < UInt32.size) {done rest : List (List Char)} (more : rest ≠ [])
    (split : s.chunks maxBytes = done ++ rest) :
    (during limit maxBytes s done.length).run
        (rest.mapIdx fun k chunk => s.envelope maxBytes (done.length + k) chunk)
      = (clear limit, List.replicate (rest.length - 1) (.ok none) ++ [.ok (some (s.whole maxBytes))]) := by
  induction rest generalizing done with
  | nil => exact absurd rfl more
  | cons chunk rest ih =>
      have total : s.count maxBytes = done.length + (rest.length + 1) := by
        rw [Sent.count_of_cut cut, split, List.length_append, List.length_cons]
      have there : (s.chunks maxBytes)[done.length]? = some chunk := by
        rw [split, List.getElem?_append_right (Nat.le_refl _), Nat.sub_self]
        rfl
      have here := push_during cut few word there
      rw [List.mapIdx_cons, run, Nat.add_zero, here]
      cases rest with
      | nil =>
          rw [if_neg (by rw [total]; exact Nat.lt_irrefl _)]
          rfl
      | cons next rest =>
          -- The chunk moves from what is left to what is done, so the places count on from there.
          have onward : done.length + 1 < s.count maxBytes := by
            rw [total, List.length_cons]
            omega
          have shifted : s.chunks maxBytes = (done ++ [chunk]) ++ next :: rest := by
            rw [split, List.append_assoc]
            rfl
          have later := ih (List.cons_ne_nil _ _) shifted
          have places : (fun k c => s.envelope maxBytes (done.length + (k + 1)) c)
              = fun k c => s.envelope maxBytes ((done ++ [chunk]).length + k) c := by
            funext k c
            rw [List.length_append, List.length_singleton, Nat.add_assoc, Nat.add_comm 1 k]
          rw [← places, List.length_append, List.length_singleton] at later
          simp only [if_pos onward, later]
          rfl

/-- The envelopes of one event in order: the last one completes it, and none is refused. -/
theorem run_envelopes (plain : s.event.frag = none) (few : s.count maxBytes ≤ limit)
    (word : s.count maxBytes < UInt32.size) :
    (clear limit).run (s.envelopes maxBytes)
      = (clear limit, List.replicate (s.count maxBytes - 1) (.ok none)
          ++ [.ok (some (s.whole maxBytes))]) := by
  cases cut : s.isCut maxBytes with
  | false =>
      rw [Sent.envelopes_of_uncut cut, Sent.count_of_uncut cut, ← Sent.whole_of_uncut cut plain]
      rfl
  | true =>
      have all := run_during cut few word (cutText_ne_nil _ _ _ _) (List.nil_append _).symm
      rw [Sent.envelopes_of_cut cut, Sent.count_of_cut cut]
      simp only [List.length_nil, Nat.zero_add] at all
      exact all

/-- Events whose envelopes come in order, each event with as many pieces as are accepted. -/
theorem run_sent {sent : List Sent} (plain : ∀ s ∈ sent, s.event.frag = none)
    (few : ∀ s ∈ sent, s.count maxBytes ≤ limit) (word : ∀ s ∈ sent, s.count maxBytes < UInt32.size) :
    ((clear limit).run (sent.flatMap (·.envelopes maxBytes))).1 = clear limit ∧
      (clear limit).joined (sent.flatMap (·.envelopes maxBytes)) = sent.map (·.whole maxBytes) ∧
      ∀ result ∈ ((clear limit).run (sent.flatMap (·.envelopes maxBytes))).2,
        ∃ whole, result = .ok whole := by
  induction sent with
  | nil => exact ⟨rfl, rfl, fun _ none => absurd none List.not_mem_nil⟩
  | cons s sent ih =>
      obtain ⟨plainHere, plainRest⟩ := List.forall_mem_cons.mp plain
      obtain ⟨fewHere, fewRest⟩ := List.forall_mem_cons.mp few
      obtain ⟨wordHere, wordRest⟩ := List.forall_mem_cons.mp word
      have here := run_envelopes plainHere fewHere wordHere
      obtain ⟨after, made, fine⟩ := ih plainRest fewRest wordRest
      rw [List.flatMap_cons, joined_append, run_append, here]
      refine ⟨after, ?_, fun result member => ?_⟩
      · rw [made, joined, here, List.filterMap_append, List.map_cons]
        have none (k : Nat) : (List.replicate k (.ok none)).filterMap completed = [] := by
          rw [List.filterMap_replicate_of_none rfl]
        rw [none]
        rfl
      · rcases List.mem_append.mp member with own | later
        · rcases List.mem_append.mp own with quiet | last
          · exact ⟨none, (List.mem_replicate.mp quiet).2⟩
          · exact ⟨_, List.mem_singleton.mp last⟩
        · exact fine result later

end InOrder

end Joiner
end FlexLink
