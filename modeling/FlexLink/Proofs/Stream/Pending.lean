import FlexLink.Proofs.Stream.Joining
import FlexLink.Proofs.Tables

/-! # What a joiner holds, whatever comes

A piece is judged by the incomplete event of its own id alone (`verdict`), and the joiner's table and
queue follow the verdict: nothing changes, the event ends, or it waits for more.  Whatever pieces come,
the queue lists the incomplete events once each, oldest first, there are no more of them than there is
room for, and each has a place for every piece that it may still get. -/
set_option autoImplicit false
namespace FlexLink

namespace PartialEvent

structure Within (limit : Nat) (p : PartialEvent) : Prop where
  places : p.parts.length = p.count
  positive : 0 < p.count
  few : p.count ≤ limit

theorem Within.put {limit : Nat} {p : PartialEvent} (within : p.Within limit) (i : Nat)
    (data : Option String) : (p.put i data).Within limit :=
  ⟨List.length_set.trans within.places, within.positive, within.few⟩

theorem within_new {limit n : Nat} (positive : 0 < n) (few : n ≤ limit) : (new n).Within limit :=
  ⟨List.length_replicate, positive, few⟩

def close (p : PartialEvent) (e : Event) (id : String) : Except FragmentError (Option Event) :=
  match concat 0 p.parts with
  | .ok datas => .ok (some { e with frag := none, data := some (String.join datas) })
  | .error index => .error (.missing index p.count id)

end PartialEvent

/-- Whether a piece is refused before its event is looked up: it names no event, a place outside its
event, or more pieces than are taken. -/
def FragmentError.early : FragmentError → Bool
  | .withoutId | .outOfRange .. | .tooMany .. => true
  | .countChanged _ | .missing .. => false

inductive Verdict where
  | refused (why : FragmentError)
  | ended (result : Except FragmentError (Option Event))
  | kept (p : PartialEvent)

namespace Joiner

variable {j opened : Joiner} {id other : String} {n : Nat} {e : Event} {p q : PartialEvent}
  {place : Fragment}

/-- The verdict on piece `e` of `place`, if `known` is what is incomplete under its id. -/
def verdict (limit : Nat) (known : Option PartialEvent) (e : Event) (place : Fragment) (id : String) :
    Verdict :=
  let i := place.i.toNat
  let n := place.n.toNat
  if n ≤ i then .refused (.outOfRange place id)
  else if limit < n then .refused (.tooMany id n limit)
  else
    let p := known.getD (.new n)
    if p.count ≠ n then .ended (.error (.countChanged id))
    else
      let p := p.put i e.data
      if n ≤ i + 1 then .ended (p.close e id) else .kept p

def carryOut (j : Joiner) (id : String) (n : Nat) :
    Verdict → Joiner × Except FragmentError (Option Event)
  | .refused why => (j, .error why)
  | .ended result => ((j.opening id n).1.forget id, result)
  | .kept p => ((j.opening id n).1.store id p, .ok none)

theorem opening_snd (j : Joiner) (id : String) (n : Nat) :
    (j.opening id n).2 = (j.partials.get? id).getD (.new n) := by
  rw [opening]
  cases j.partials.get? id <;> rfl

theorem forget_store (j : Joiner) (id : String) (p : PartialEvent) :
    (j.store id p).forget id = j.forget id := by
  rw [forget, store, Table.erase_insert_self]
  rfl

theorem push_eq_carryOut (piece : e.frag = some place) (named : e.id = some id) :
    j.push e
      = j.carryOut id place.n.toNat
          (verdict j.maxFragments (j.partials.get? id) e place id) := by
  have part := j.opening_snd id place.n.toNat
  rw [push, piece, named, verdict, ← part]
  simp only
  split
  · rfl
  · split
    · rfl
    · split
      · rfl
      · split
        · exact Prod.ext (forget_store _ id _) rfl
        · rfl

/-! ## Table and queue -/

/-- The table and the queue agree, and every incomplete event is one that could be opened. -/
structure Tidy (j : Joiner) : Prop where
  keys : j.partials.keys = j.order
  once : j.order.Nodup
  few : j.order.length ≤ capacity
  within : ∀ id p, j.partials.get? id = some p → p.Within j.maxFragments

theorem tidy_new (maxFragments : Nat) : (new maxFragments).Tidy :=
  ⟨rfl, List.nodup_nil, Nat.zero_le _, nofun⟩

theorem Tidy.pending (tidy : j.Tidy) : j.pending = j.order.length := by
  rw [Joiner.pending, Table.size_eq, tidy.keys]

theorem Tidy.known_iff (tidy : j.Tidy) : (∃ p, j.partials.get? id = some p) ↔ id ∈ j.order := by
  rw [← tidy.keys, Table.mem_keys_iff]

theorem Tidy.unknown_iff (tidy : j.Tidy) : j.partials.get? id = none ↔ id ∉ j.order := by
  rw [← tidy.keys, Table.get?_eq_none_iff]

/-- What a piece that is taken finds: its event is incomplete, or there is room for it, or the oldest
event leaves its room to it. -/
inductive Opens (j : Joiner) (id : String) : Joiner → Prop where
  | known (listed : id ∈ j.order) : Opens j id j
  | added (unlisted : id ∉ j.order) (room : j.order.length < capacity) :
      Opens j id { j with order := j.order ++ [id] }
  | replaced {oldest : String} {rest : List String} (unlisted : id ∉ j.order)
      (order : j.order = oldest :: rest) (full : j.order.length = capacity) :
      Opens j id { j with partials := j.partials.erase oldest, order := rest ++ [id] }

theorem makeRoom_of_room (room : j.partials.size < capacity) (order : List String) :
    j.makeRoom order = { j with order } := by
  cases order with
  | nil => rfl
  | cons oldest rest => rw [makeRoom, if_neg (Nat.not_le.mpr room)]

theorem Tidy.keys_erase_oldest (tidy : j.Tidy) {oldest : String} {rest : List String}
    (order : j.order = oldest :: rest) : (j.partials.erase oldest).keys = rest := by
  have once := tidy.once
  rw [order, List.nodup_cons] at once
  rw [Table.keys_erase, tidy.keys, order, List.filter_cons_of_neg (by simp)]
  refine List.filter_eq_self.mpr fun other member => decide_eq_true fun same => ?_
  exact once.1 (same ▸ member)

theorem Tidy.opens (tidy : j.Tidy) (id : String) (n : Nat) : Opens j id (j.opening id n).1 := by
  rw [opening]
  cases known : j.partials.get? id with
  | some p => exact .known (tidy.known_iff.mp ⟨p, known⟩)
  | none =>
      have unlisted := tidy.unknown_iff.mp known
      have size : j.partials.size = j.order.length := tidy.pending
      by_cases room : j.order.length < capacity
      · simp only [makeRoom_of_room (size ▸ room)]
        exact .added unlisted room
      · have full : j.order.length = capacity := Nat.le_antisymm tidy.few (Nat.le_of_not_lt room)
        cases order : j.order with
        | nil => rw [order] at full; cases full
        | cons oldest rest =>
            -- One event less is room enough.
            have left : (j.partials.erase oldest).size < capacity := by
              rw [Table.size_eq, tidy.keys_erase_oldest order, ← full, order]
              exact Nat.lt_succ_self _
            have made := makeRoom_of_room (j := { j with partials := j.partials.erase oldest }) left rest
            simp only [makeRoom, if_pos (Nat.le_of_eq (size.trans full).symm), made]
            exact .replaced unlisted order full

/-- Ready to take a piece of an event, which is listed though it may not be in the table yet. -/
structure Ready (id : String) (j : Joiner) : Prop where
  keys : ∀ p, (j.partials.insert id p).keys = j.order
  once : j.order.Nodup
  few : j.order.length ≤ capacity
  within : ∀ other p, j.partials.get? other = some p → p.Within j.maxFragments

theorem Tidy.ready (tidy : j.Tidy) (opens : Opens j id opened) : Ready id opened := by
  cases opens with
  | known listed =>
      refine ⟨fun p => ?_, tidy.once, tidy.few, tidy.within⟩
      rw [Table.keys_insert_of_mem (tidy.keys ▸ listed), tidy.keys]
  | added unlisted room =>
      refine ⟨fun p => ?_, ?_, ?_, tidy.within⟩
      · rw [Table.keys_insert_of_notMem (tidy.keys ▸ unlisted), tidy.keys]
      · exact Table.nodup_snoc tidy.once unlisted
      · rw [List.length_append]
        exact room
  | @replaced oldest rest unlisted order full =>
      have once := tidy.once
      rw [order] at once unlisted full
      have absent : id ∉ rest := fun member => unlisted (List.mem_cons_of_mem _ member)
      have keys := tidy.keys_erase_oldest order
      refine ⟨fun p => ?_, ?_, ?_, fun other p found => ?_⟩
      · rw [Table.keys_insert_of_notMem (keys ▸ absent), keys]
      · exact Table.nodup_snoc once.of_cons absent
      · rw [List.length_append]
        exact Nat.le_of_eq full
      · rw [Table.get?_erase] at found
        split at found
        · cases found
        · exact tidy.within other p found

theorem Ready.store (ready : Ready id opened) (within : p.Within opened.maxFragments) :
    (opened.store id p).Tidy := by
  refine ⟨ready.keys p, ready.once, ready.few, fun other q found => ?_⟩
  have stored : (opened.partials.insert id p).get? other = some q := found
  rw [Table.get?_insert] at stored
  split at stored
  · exact Option.some.inj stored ▸ within
  · exact ready.within other q stored

theorem Ready.forget (ready : Ready id opened) : (opened.forget id).Tidy := by
  refine ⟨?_, ready.once.filter _, ?_, fun other q found => ?_⟩
  · have keys := congrArg (List.filter (· ≠ id)) (ready.keys ⟨0, []⟩)
    rw [← Table.keys_erase, Table.erase_insert_self] at keys
    exact keys
  · exact Nat.le_trans (List.length_filter_le _ _) ready.few
  · exact ready.within other q (forget_keeps found).1

/-! ## Every piece -/

theorem within_of_kept (known : ∀ q, j.partials.get? id = some q → q.Within j.maxFragments)
    (kept : verdict j.maxFragments (j.partials.get? id) e place id = .kept p) :
    p.Within j.maxFragments := by
  rw [verdict] at kept
  simp only at kept
  split at kept
  · cases kept
  · next inside =>
    split at kept
    · cases kept
    · next few =>
      split at kept
      · cases kept
      · split at kept
        · cases kept
        · cases kept
          refine PartialEvent.Within.put ?_ _ _
          cases found : j.partials.get? id with
          | some q => exact known q found
          | none => exact PartialEvent.within_new (by omega) (Nat.le_of_not_lt few)

theorem Tidy.push (tidy : j.Tidy) (e : Event) : (j.push e).1.Tidy := by
  cases piece : e.frag with
  | none => rw [Joiner.push, piece]; exact tidy
  | some place =>
      cases named : e.id with
      | none => rw [Joiner.push, piece, named]; exact tidy
      | some id =>
          rw [push_eq_carryOut piece named]
          have ready := tidy.ready (tidy.opens id place.n.toNat)
          have same : (j.opening id place.n.toNat).1.maxFragments = j.maxFragments :=
            maxFragments_opening rfl
          cases judged : verdict j.maxFragments (j.partials.get? id) e place id with
          | refused why => exact tidy
          | ended result => exact ready.forget
          | kept p => exact ready.store (same ▸ within_of_kept (tidy.within id) judged)

theorem Tidy.run (tidy : j.Tidy) (es : List Event) : (j.run es).1.Tidy := by
  induction es generalizing j with
  | nil => exact tidy
  | cons e es ih => exact ih (tidy.push e)

theorem maxFragments_run (j : Joiner) (es : List Event) :
    (j.run es).1.maxFragments = j.maxFragments := by
  induction es generalizing j with
  | nil => rfl
  | cons e es ih => exact (ih _).trans (maxFragments_push j e)

/-! ## What changes -/

/-- Why a piece is refused, and what an event can end with. -/
theorem verdict_cases (limit : Nat) (known : Option PartialEvent) (e : Event) (place : Fragment)
    (id : String) :
    (∃ why, why.early = true ∧ verdict limit known e place id = .refused why) ∨
      (∃ result, (∀ why, result = .error why → why.early = false) ∧
        verdict limit known e place id = .ended result) ∨
      ∃ p, verdict limit known e place id = .kept p := by
  rw [verdict]
  simp only
  split
  · exact .inl ⟨_, rfl, rfl⟩
  · split
    · exact .inl ⟨_, rfl, rfl⟩
    · split
      · refine .inr (.inl ⟨_, fun why same => ?_, rfl⟩)
        cases same
        rfl
      · split
        · refine .inr (.inl ⟨_, fun why same => ?_, rfl⟩)
          rw [PartialEvent.close] at same
          split at same
          · cases same
          · cases same
            rfl
        · exact .inr (.inr ⟨_, rfl⟩)

theorem push_of_no_piece (plain : e.frag = none) : j.push e = (j, .ok (some e)) := by
  rw [push, plain]

theorem push_of_no_id (piece : e.frag = some place) (nameless : e.id = none) :
    j.push e = (j, .error .withoutId) := by
  rw [push, piece, nameless]

/-- A piece that is refused changes nothing, and one that ends its event leaves nothing of it. -/
theorem push_outcome (piece : e.frag = some place) (named : e.id = some id) :
    (∃ why, why.early = true ∧ j.push e = (j, .error why)) ∨
      ((∀ why, (j.push e).2 = .error why → why.early = false) ∧
        (j.push e).1 = (j.opening id place.n.toNat).1.forget id) ∨
      ∃ p, j.push e = ((j.opening id place.n.toNat).1.store id p, .ok none) := by
  rw [push_eq_carryOut piece named]
  rcases verdict_cases j.maxFragments (j.partials.get? id) e place id with
    ⟨why, early, judged⟩ | ⟨result, late, judged⟩ | ⟨p, judged⟩
  · exact .inl ⟨why, early, by rw [judged]; rfl⟩
  · rw [judged]
    exact .inr (.inl ⟨late, rfl⟩)
  · exact .inr (.inr ⟨p, by rw [judged]; rfl⟩)

/-- The joiner is as it was, or it made way for a piece and then forgot its event or kept it. -/
theorem push_state (j : Joiner) (e : Event) :
    (j.push e).1 = j ∨ ∃ place id, e.frag = some place ∧ e.id = some id ∧
      ((j.push e).1 = (j.opening id place.n.toNat).1.forget id ∨
        ∃ p, (j.push e).1 = (j.opening id place.n.toNat).1.store id p) := by
  cases piece : e.frag with
  | none => exact .inl (by rw [push_of_no_piece piece])
  | some place =>
      cases named : e.id with
      | none => exact .inl (by rw [push_of_no_id piece named])
      | some id =>
          rcases push_outcome (j := j) piece named with ⟨why, -, same⟩ | ⟨-, same⟩ | ⟨p, same⟩
          · exact .inl (by rw [same])
          · exact .inr ⟨place, id, rfl, rfl, .inl same⟩
          · exact .inr ⟨place, id, rfl, rfl, .inr ⟨p, by rw [same]⟩⟩

theorem get?_forget_self (j : Joiner) (id : String) : (j.forget id).partials.get? id = none := by
  rw [forget, Table.get?_erase, if_pos rfl]

theorem get?_store_self (j : Joiner) (id : String) (p : PartialEvent) :
    (j.store id p).partials.get? id = some p := by
  rw [store, Table.get?_insert, if_pos rfl]

theorem get?_forget (j : Joiner) (unlike : other ≠ id) :
    (j.forget id).partials.get? other = j.partials.get? other := by
  rw [forget, Table.get?_erase, if_neg unlike]

theorem get?_store (j : Joiner) (unlike : other ≠ id) (p : PartialEvent) :
    (j.store id p).partials.get? other = j.partials.get? other := by
  rw [store, Table.get?_insert, if_neg unlike]

theorem push_refused {why : FragmentError} (refused : (j.push e).2 = .error why)
    (early : why.early = true) : (j.push e).1 = j := by
  cases piece : e.frag with
  | none => rw [push_of_no_piece piece]
  | some place =>
      cases named : e.id with
      | none => rw [push_of_no_id piece named]
      | some id =>
          rcases push_outcome (j := j) piece named with ⟨_, -, same⟩ | ⟨late, -⟩ | ⟨p, same⟩
          · rw [same]
          · rw [late why refused] at early
            cases early
          · rw [same] at refused
            cases refused

theorem push_ended (piece : e.frag ≠ none) (named : e.id = some id)
    (done : (∃ whole, (j.push e).2 = .ok (some whole)) ∨
      ∃ why, (j.push e).2 = .error why ∧ why.early = false) :
    (j.push e).1.partials.get? id = none := by
  obtain ⟨place, piece⟩ := Option.ne_none_iff_exists'.mp piece
  rcases push_outcome (j := j) piece named with ⟨why, early, same⟩ | ⟨-, same⟩ | ⟨p, same⟩
  · rw [same] at done
    rcases done with ⟨whole, made⟩ | ⟨_, made, late⟩
    · cases made
    · cases made
      rw [early] at late
      cases late
  · rw [same, get?_forget_self]
  · rw [same] at done
    rcases done with ⟨whole, made⟩ | ⟨_, made, -⟩
    · cases made
    · cases made

theorem Opens.order_sublist (opens : Opens j id opened) : opened.order.Sublist (j.order ++ [id]) := by
  cases opens with
  | known listed => exact List.sublist_append_left _ _
  | added unlisted room => exact List.Sublist.refl _
  | replaced unlisted order full =>
      rw [order]
      exact List.sublist_cons_self _ _

/-- Only the oldest event can go, and only where there is no room for a new one. -/
theorem Opens.get? (opens : Opens j id opened) (other : String) :
    opened.partials.get? other = j.partials.get? other ∨
      j.order.head? = some other ∧ j.order.length = capacity ∧ id ∉ j.order := by
  cases opens with
  | known listed => exact .inl rfl
  | added unlisted room => exact .inl rfl
  | @replaced oldest rest unlisted order full =>
      by_cases same : other = oldest
      · exact .inr ⟨by rw [order, same]; rfl, full, unlisted⟩
      · exact .inl (by rw [Table.get?_erase, if_neg same])

theorem Tidy.push_get? (tidy : j.Tidy) (unlike : e.id ≠ some other) :
    (j.push e).1.partials.get? other = j.partials.get? other ∨
      j.order.head? = some other ∧ j.order.length = capacity ∧
        ∃ id, e.id = some id ∧ id ∉ j.order := by
  rcases push_state j e with same | ⟨place, id, -, named, made⟩
  · exact .inl (by rw [same])
  · have apart : other ≠ id := fun same => unlike (same ▸ named)
    have kept : (j.push e).1.partials.get? other
        = (j.opening id place.n.toNat).1.partials.get? other := by
      rcases made with made | ⟨p, made⟩
      · rw [made, get?_forget _ apart]
      · rw [made, get?_store _ apart]
    rw [kept]
    exact ((tidy.opens id place.n.toNat).get? other).imp_right
      fun ⟨oldest, full, unlisted⟩ => ⟨oldest, full, id, named, unlisted⟩

theorem Tidy.push_order (tidy : j.Tidy) (e : Event) :
    (j.push e).1.order.Sublist (j.order ++ e.id.toList) := by
  rcases push_state j e with same | ⟨place, id, -, named, made⟩
  · rw [same]
    exact List.sublist_append_left _ _
  · have opens := (tidy.opens id place.n.toNat).order_sublist
    rw [named]
    rcases made with made | ⟨p, made⟩
    · rw [made]
      exact List.filter_sublist.trans opens
    · rw [made]
      exact opens

/-! ## Steps that could fail -/

/-- `push` with what stops a program where it fails: a place that does not exist is not written to, and
there is no number behind the last one of a word. -/
def push? (j : Joiner) (e : Event) : Option (Joiner × Except FragmentError (Option Event)) :=
  match e.frag, e.id with
  | none, _ => some (j, .ok (some e))
  | some _, none => some (j, .error .withoutId)
  | some place, some id =>
    let i := place.i.toNat
    let n := place.n.toNat
    if n ≤ i then some (j, .error (.outOfRange place id))
    else if j.maxFragments < n then some (j, .error (.tooMany id n j.maxFragments))
    else
      match j.opening id n with
      | (j, p) =>
        if p.count ≠ n then some (j.forget id, .error (.countChanged id))
        else if p.parts.length ≤ i then none
        else
          let p := p.put i e.data
          let j := j.store id p
          place.isLast?.map fun last => if last then j.finish e id p else (j, .ok none)

theorem isLast?_of_lt {place : Fragment} (inside : place.i.toNat < place.n.toNat) :
    place.isLast? = some (decide (place.n.toNat ≤ place.i.toNat + 1)) := by
  have word := place.n.toNat_lt
  rw [Fragment.isLast?, if_pos (by omega)]

theorem Tidy.places (tidy : j.Tidy) (id : String) (n : Nat) :
    (j.opening id n).2.parts.length = (j.opening id n).2.count := by
  rw [opening_snd]
  cases known : j.partials.get? id with
  | some p => exact (tidy.within id p known).places
  | none => exact List.length_replicate

theorem Tidy.push?_eq_some (tidy : j.Tidy) (e : Event) : j.push? e = some (j.push e) := by
  cases piece : e.frag with
  | none => rw [push_of_no_piece piece, push?, piece]
  | some place =>
      cases named : e.id with
      | none => rw [push_of_no_id piece named, push?, piece, named]
      | some id =>
          rw [push?, Joiner.push, piece, named]
          simp only
          split
          · rfl
          · next inside =>
            split
            · rfl
            · split
              · rfl
              · next same =>
                have inside := Nat.lt_of_not_le inside
                have there : ¬ (j.opening id place.n.toNat).2.parts.length ≤ place.i.toNat := by
                  rw [tidy.places, Decidable.not_not.mp same]
                  exact Nat.not_le.mpr inside
                rw [if_neg there, isLast?_of_lt inside, Option.map_some]
                simp only [decide_eq_true_eq]
                rfl

/-- Whatever comes, in any number and order: no push stops, what is incomplete is listed once each,
oldest first, is not too much and has a place for each piece; a piece that is refused early changes
nothing, one that ends its event leaves nothing of it, and another event goes only if it is the oldest
and a new one has no room. -/
theorem holds_against_any_input (maxFragments : Nat) (es : List Event) (e : Event) :
    let j := ((new maxFragments).run es).1
    let after := (j.push e).1
    let outcome := (j.push e).2
    j.push? e = some (after, outcome) ∧
    (j.Tidy ∧ j.maxFragments = max 1 maxFragments ∧ after.order.Sublist (j.order ++ e.id.toList)) ∧
    (∀ why, outcome = .error why → why.early = true → after = j) ∧
    (∀ id, e.id = some id → e.frag ≠ none →
      ((∃ whole, outcome = .ok (some whole)) ∨ ∃ why, outcome = .error why ∧ why.early = false) →
      after.partials.get? id = none) ∧
    ∀ other p, e.id ≠ some other → j.partials.get? other = some p →
      after.partials.get? other = some p ∨
        j.order.head? = some other ∧ j.pending = 64 ∧
          ∃ id, e.id = some id ∧ j.partials.get? id = none := by
  intro j after outcome
  have tidy : j.Tidy := (tidy_new maxFragments).run es
  refine ⟨tidy.push?_eq_some e, ⟨tidy, ?_, tidy.push_order e⟩, ?_, ?_, ?_⟩
  · rw [maxFragments_run, Nat.max_comm]
    rfl
  · intro why refused early
    exact push_refused refused early
  · intro id named piece done
    exact push_ended piece named done
  · intro other p unlike known
    rcases tidy.push_get? unlike with same | ⟨oldest, full, id, named, unlisted⟩
    · exact .inl (same.trans known)
    · exact .inr ⟨oldest, tidy.pending.trans full, id, named, tidy.unknown_iff.mpr unlisted⟩

def samplePiece (id : String) : Event := { Event.new "token" "x" with id := some id, frag := some ⟨0, 2⟩ }

def sampleFlood : List Event := (List.range 64).map fun k => samplePiece (String.ofList (decimalDigits k))

theorem flood_drops_oldest :
    (((new 2).run sampleFlood).1.pending = 64 ∧
      (((new 2).run sampleFlood).1.push (samplePiece "new")).1.partials.get? "0" = none) ∧
    ∀ other p, "new" ≠ other → ((new 2).run sampleFlood).1.partials.get? other = some p →
      (((new 2).run sampleFlood).1.push (samplePiece "new")).1.partials.get? other = some p ∨
        "0" = other := by
  have oldest : ((new 2).run sampleFlood).1.order.head? = some "0" := by decide +kernel
  refine ⟨by decide +kernel, fun other p unlike known => ?_⟩
  obtain ⟨-, -, -, -, others⟩ := holds_against_any_input 2 sampleFlood (samplePiece "new")
  have kept := others other p (fun same => unlike (Option.some.inj same)) known
  rw [oldest] at kept
  exact kept.imp_right fun first => Option.some.inj first.1

end Joiner
end FlexLink
