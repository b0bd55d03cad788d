import Mathlib.Data.List.Perm.Subperm
import FlexLink.Proofs.Stream.Cutting
import FlexLink.Proofs.Stream.Pending

/-! # Events that come piece by piece at once

The pieces of several events come in any interleaving, each event's own in order, with whole events in
between.  Where the joiner has room for all of them, no piece touches what another event has got so
far (`Amid`): each event is given out at its own last piece and nothing is left of it. -/
set_option autoImplicit false
namespace FlexLink

/-! ## One event -/

namespace Sent

variable {maxBytes limit c : Nat} {s : Sent}

/-- What is incomplete of an event after its first `c` pieces. -/
def slot (maxBytes : Nat) (s : Sent) (c : Nat) : Option PartialEvent :=
  if c = 0 ∨ s.count maxBytes ≤ c then none
  else some ⟨s.count maxBytes, Joiner.partsAfter maxBytes s c⟩

theorem partsAfter_zero (cut : s.isCut maxBytes = true) :
    Joiner.partsAfter maxBytes s 0 = List.replicate (s.count maxBytes) none := by
  rw [Joiner.partsAfter, count_of_cut cut]
  rfl

theorem slot_getD (cut : s.isCut maxBytes = true) (inside : c < s.count maxBytes) :
    (s.slot maxBytes c).getD (.new (s.count maxBytes))
      = ⟨s.count maxBytes, Joiner.partsAfter maxBytes s c⟩ := by
  by_cases first : c = 0
  · rw [slot, if_pos (.inl first), first, partsAfter_zero cut]
    rfl
  · rw [slot, if_neg (by omega)]
    rfl

/-- The next piece waits with those before it, or ends the event with all its data. -/
theorem verdict_piece (cut : s.isCut maxBytes = true) (few : s.count maxBytes ≤ limit)
    (word : s.count maxBytes < UInt32.size) {e : Event} (next : (s.pieces maxBytes)[c]? = some e) :
    ∃ place, e.frag = some place ∧ e.id = some s.name ∧
      Joiner.verdict limit (s.slot maxBytes c) e place s.name
        = if c + 1 < s.count maxBytes then
            .kept ⟨s.count maxBytes, Joiner.partsAfter maxBytes s (c + 1)⟩
          else .ended (.ok (some { e with frag := none, data := s.event.data })) := by
  have inside : c < s.count maxBytes := (List.getElem?_eq_some_iff.mp next).1
  obtain ⟨chunk, there, rfl⟩ := Option.map_eq_some_iff.mp ((getElem?_pieces cut c).symm.trans next)
  have index : (UInt32.ofNat c).toNat = c := UInt32.toNat_ofNat_of_lt' (Nat.lt_trans inside word)
  have total : (UInt32.ofNat (s.count maxBytes)).toNat = s.count maxBytes :=
    UInt32.toNat_ofNat_of_lt' word
  have put : PartialEvent.put ⟨s.count maxBytes, Joiner.partsAfter maxBytes s c⟩ c
      (some (String.ofList chunk))
      = ⟨s.count maxBytes, Joiner.partsAfter maxBytes s (c + 1)⟩ :=
    congrArg (PartialEvent.mk _) (Joiner.set_partsAfter there)
  refine ⟨⟨UInt32.ofNat c, UInt32.ofNat (s.count maxBytes)⟩, rfl, rfl, ?_⟩
  rw [Joiner.verdict]
  simp only [index, total, slot_getD cut inside, Event.piece, put]
  rw [if_neg (Nat.not_le.mpr inside), if_neg (Nat.not_lt.mpr few), if_neg (not_not_intro rfl)]
  by_cases more : c + 1 < s.count maxBytes
  · rw [if_pos more, if_neg (Nat.not_le.mpr more)]
  · have final : c + 1 = (s.chunks maxBytes).length := by
      rw [← count_of_cut cut]
      omega
    rw [if_neg more, if_pos (Nat.le_of_not_lt more), PartialEvent.close, final,
      Joiner.concat_partsAfter, data_of_cut cut]

end Sent

/-- An event, the limit it is cut at and the id that its pieces take if it has none. -/
structure Parcel where
  event : Event
  maxBytes : Nat
  freshId : String

namespace Parcel

def pieces (x : Parcel) : List Event := x.event.pieces x.maxBytes x.freshId

def sent (x : Parcel) : Sent := ⟨x.event, x.freshId, 0⟩

def isCut (x : Parcel) : Bool := x.sent.isCut x.maxBytes

def name (x : Parcel) : String := x.event.id.getD x.freshId

/-- What is to come of piece `i`: nothing yet, or the whole event in the envelope of its last piece. -/
def answer (x : Parcel) (i : Nat) (piece : Event) : Except FragmentError (Option Event) :=
  if i + 1 < x.pieces.length then .ok none
  else .ok (some { piece with frag := none, data := x.event.data })

end Parcel

/-! ## Interleavings -/

def share {α : Type} (mark : Option Nat) (l : List (Option Nat × α)) : List α :=
  l.filterMap fun a => if a.1 = mark then some a.2 else none

theorem share_nil {α : Type} (mark : Option Nat) : share mark ([] : List (Option Nat × α)) = [] := rfl

theorem share_append {α : Type} (mark : Option Nat) (l m : List (Option Nat × α)) :
    share mark (l ++ m) = share mark l ++ share mark m := List.filterMap_append

theorem share_cons_own {α : Type} (mark : Option Nat) (a : α) (l : List (Option Nat × α)) :
    share mark ((mark, a) :: l) = a :: share mark l := by
  rw [share, List.filterMap_cons, if_pos rfl]
  rfl

theorem share_cons_other {α : Type} {mark other : Option Nat} (unlike : other ≠ mark) (a : α)
    (l : List (Option Nat × α)) : share mark ((other, a) :: l) = share mark l := by
  rw [share, List.filterMap_cons, if_neg unlike]
  rfl

theorem drop_mapIdx {α β : Type} {f : Nat → α → β} {l : List α} {i : Nat} {a : α}
    (here : l[i]? = some a) : (l.mapIdx f).drop i = f i a :: (l.mapIdx f).drop (i + 1) := by
  obtain ⟨inside, same⟩ := List.getElem?_eq_some_iff.mp here
  rw [List.drop_eq_getElem_cons (by rw [List.length_mapIdx]; exact inside), List.getElem_mapIdx, same]

/-- Envelopes that arrive, each marked with the number of the event that it is a piece of: the pieces
of each event are there in order, and what is not marked is a whole event. -/
structure Interleaving (events : List Parcel) (arrivals : List (Option Nat × Event)) : Prop where
  own : ∀ k x, events[k]? = some x → share (some k) arrivals = x.pieces
  known : ∀ a ∈ arrivals, ∀ k, a.1 = some k → k < events.length
  plain : ∀ a ∈ arrivals, a.1 = none → a.2.frag = none

def Parcel.names (events : List Parcel) : List String := (events.filter (·.isCut)).map (·.name)

namespace Joiner

/-- Events that a joiner can take side by side: none is a piece of another event, each has as many
pieces as are taken at most, their ids are different and new, and there is room for all. -/
structure Fits (j : Joiner) (events : List Parcel) : Prop where
  whole : ∀ x ∈ events, x.isCut = true ∨ x.event.frag = none
  few : ∀ x ∈ events, x.pieces.length ≤ j.maxFragments
  distinct : events.Pairwise fun x y =>
    x.isCut = true → y.isCut = true → x.name ≠ y.name
  fresh : ∀ x ∈ events, x.isCut = true → j.partials.get? x.name = none
  room : j.pending + (Parcel.names events).length ≤ capacity

structure Amid (first : Joiner) (events : List Parcel) (done : List (Option Nat × Event))
    (j : Joiner) : Prop where
  tidy : j.Tidy
  limit : j.maxFragments = first.maxFragments
  order : j.order.filter (· ∉ Parcel.names events) = first.order
  others : ∀ id, id ∉ Parcel.names events → j.partials.get? id = first.partials.get? id
  own : ∀ (k : Nat) (x : Parcel), events[k]? = some x → x.isCut = true →
    j.partials.get? x.name = x.sent.slot x.maxBytes (share (some k) done).length

section Room

variable {j opened : Joiner} {id other : String} {e : Event} {place : Fragment}

/-- No event has to go for a piece under this id. -/
def HasRoom (j : Joiner) (id : String) : Prop := id ∈ j.order ∨ j.order.length < capacity

theorem Opens.order_filter (opens : Opens j id opened) (room : j.HasRoom id) {keep : String → Bool}
    (mine : keep id = false) : opened.order.filter keep = j.order.filter keep := by
  cases opens with
  | known listed => rfl
  | added unlisted free =>
      rw [List.filter_append, List.filter_cons_of_neg (by rw [mine]; exact Bool.false_ne_true)]
      exact List.append_nil _
  | replaced unlisted order full =>
      exact absurd (room.resolve_left unlisted) (Nat.not_lt.mpr (Nat.le_of_eq full.symm))

theorem order_forget (j : Joiner) {keep : String → Bool} (mine : keep id = false) :
    (j.forget id).order.filter keep = j.order.filter keep := by
  rw [forget, List.filter_filter]
  refine List.filter_congr fun other _ => ?_
  by_cases same : other = id
  · rw [same, mine]
    rfl
  · rw [decide_eq_true same, Bool.and_true]

/-- A piece of an event that there is room for leaves the queue of the others as it is. -/
theorem Tidy.push_order_filter (tidy : j.Tidy) (piece : e.frag = some place) (named : e.id = some id)
    (room : j.HasRoom id) {keep : String → Bool} (mine : keep id = false) :
    (j.push e).1.order.filter keep = j.order.filter keep := by
  have opens := (tidy.opens id place.n.toNat).order_filter room mine
  rcases push_outcome (j := j) piece named with ⟨why, -, same⟩ | ⟨-, same⟩ | ⟨p, same⟩
  · rw [same]
  · rw [same, order_forget _ mine, opens]
  · rw [same]
    exact opens

theorem Tidy.push_get?_of_room (tidy : j.Tidy) (named : e.id = some id) (room : j.HasRoom id)
    (unlike : other ≠ id) : (j.push e).1.partials.get? other = j.partials.get? other := by
  have apart : e.id ≠ some other := fun same => unlike (Option.some.inj (named.symm.trans same)).symm
  refine (tidy.push_get? apart).resolve_right fun ⟨_, full, id', named', unlisted⟩ => ?_
  obtain rfl : id = id' := Option.some.inj (named.symm.trans named')
  exact absurd (room.resolve_left unlisted) (Nat.not_lt.mpr (Nat.le_of_eq full.symm))

end Room

section Amid

variable {first j : Joiner} {events : List Parcel} {done rest arrivals : List (Option Nat × Event)}
  {x y : Parcel} {k c : Nat} {e : Event}

theorem mem_names (member : x ∈ events) (cut : x.isCut = true) : x.name ∈ Parcel.names events :=
  List.mem_map_of_mem (List.mem_filter.mpr ⟨member, cut⟩)

theorem Fits.apart (fits : first.Fits events) {i : Nat} (here : events[k]? = some x)
    (there : events[i]? = some y) (unlike : k ≠ i) (cut : x.isCut = true) (also : y.isCut = true) :
    x.name ≠ y.name := by
  obtain ⟨_, rfl⟩ := List.getElem?_eq_some_iff.mp here
  obtain ⟨_, rfl⟩ := List.getElem?_eq_some_iff.mp there
  have distinct := List.pairwise_iff_getElem.mp fits.distinct
  rcases Nat.lt_or_gt_of_ne unlike with before | after
  · exact distinct _ _ _ _ before cut also
  · exact (distinct _ _ _ _ after also cut).symm

theorem Amid.hasRoom (amid : Amid first events done j) (fits : first.Fits events)
    (tidy : first.Tidy) (member : x ∈ events) (cut : x.isCut = true) : j.HasRoom x.name := by
  by_cases listed : x.name ∈ j.order
  · exact .inl listed
  · -- The events that are begun are not more than those that have to be, without this one.
    have begun : (x.name :: j.order.filter (· ∈ Parcel.names events)).length
        ≤ (Parcel.names events).length := by
      refine (List.Nodup.subperm ?_ ?_).length_le
      · exact List.nodup_cons.mpr
          ⟨fun also => listed (List.mem_filter.mp also).1, amid.tidy.once.filter _⟩
      · refine List.cons_subset.mpr ⟨mem_names member cut, fun id also => ?_⟩
        exact of_decide_eq_true (List.mem_filter.mp also).2
    have parts := j.order.length_eq_length_filter_add (· ∈ Parcel.names events)
    have old := congrArg List.length amid.order
    have room := fits.room
    simp only [decide_not] at old
    rw [tidy.pending] at room
    rw [List.length_cons] at begun
    exact .inr (by omega)

/-- An envelope that is no piece of a cut event. -/
theorem Amid.whole (amid : Amid first events done j) {mark : Option Nat}
    (other : ∀ k x, events[k]? = some x → x.isCut = true → mark ≠ some k) (e : Event) :
    Amid first events (done ++ [(mark, e)]) j := by
  refine ⟨amid.tidy, amid.limit, amid.order, amid.others, fun k x here cut => ?_⟩
  rw [share_append, share_cons_other (other k x here cut), share_nil, List.append_nil]
  exact amid.own k x here cut

/-- The next piece of a cut event. -/
theorem Amid.piece (amid : Amid first events done j) (fits : first.Fits events) (tidy : first.Tidy)
    (word : first.maxFragments < UInt32.size) (here : events[k]? = some x) (cut : x.isCut = true)
    (next : x.pieces[(share (some k) done).length]? = some e) :
    Amid first events (done ++ [(some k, e)]) (j.push e).1 ∧
      (j.push e).2 = x.answer (share (some k) done).length e := by
  have member : x ∈ events := List.mem_of_getElem? here
  have few : x.sent.count x.maxBytes ≤ j.maxFragments := amid.limit ▸ fits.few x member
  have small : x.sent.count x.maxBytes < UInt32.size :=
    Nat.lt_of_le_of_lt few (amid.limit ▸ word)
  have inside : (share (some k) done).length < x.sent.count x.maxBytes :=
    (List.getElem?_eq_some_iff.mp next).1
  have room := amid.hasRoom fits tidy member cut
  have own : j.partials.get? x.sent.name = _ := amid.own k x here cut
  -- From here on only the number of its pieces that came counts.
  generalize counted : (share (some k) done).length = c at next inside own
  obtain ⟨place, piece, named, judged⟩ := Sent.verdict_piece cut few small next
  have spec := push_eq_carryOut (j := j) piece named
  rw [own] at spec
  have queue : (j.push e).1.order.filter (· ∉ Parcel.names events)
      = j.order.filter (· ∉ Parcel.names events) :=
    amid.tidy.push_order_filter piece named room
      (decide_eq_false (not_not_intro (mem_names member cut)))
  have kept : (j.push e).1.partials.get? x.sent.name = x.sent.slot x.maxBytes (c + 1) ∧
      (j.push e).2 = x.answer c e := by
    by_cases more : c + 1 < x.sent.count x.maxBytes
    · rw [if_pos more] at judged
      rw [spec, judged, Sent.slot, if_neg (by omega)]
      exact ⟨get?_store_self _ _ _, (if_pos more).symm⟩
    · rw [if_neg more] at judged
      rw [spec, judged, Sent.slot, if_pos (.inr (Nat.le_of_not_lt more))]
      exact ⟨get?_forget_self _ _, (if_neg more).symm⟩
  refine ⟨⟨amid.tidy.push e, (maxFragments_push j e).trans amid.limit, queue.trans amid.order,
    fun id unnamed => ?_, fun i y there also => ?_⟩, kept.2⟩
  · have unlike : id ≠ x.name := fun same => unnamed (same ▸ mem_names member cut)
    rw [amid.tidy.push_get?_of_room named room unlike, amid.others id unnamed]
  · rw [share_append]
    by_cases same : k = i
    · obtain rfl : x = y := Option.some.inj (here.symm.trans (same ▸ there))
      rw [← same, share_cons_own, share_nil, List.length_append, counted]
      exact kept.1
    · have unlike : y.name ≠ x.name := (fits.apart here there same cut also).symm
      rw [share_cons_other (fun equal => same (Option.some.inj equal)), share_nil, List.append_nil,
        amid.tidy.push_get?_of_room named room unlike]
      exact amid.own i y there also

/-- The one envelope of an event that is not cut. -/
theorem Amid.uncut (amid : Amid first events done j) (fits : first.Fits events)
    (here : events[k]? = some x) (whole : x.isCut = false)
    (next : x.pieces[(share (some k) done).length]? = some e) :
    Amid first events (done ++ [(some k, e)]) (j.push e).1 ∧
      (j.push e).2 = x.answer (share (some k) done).length e := by
  have plain : x.event.frag = none :=
    (fits.whole x (List.mem_of_getElem? here)).resolve_left (by rw [whole]; exact Bool.false_ne_true)
  have alone : x.pieces = [x.event] := Sent.pieces_of_uncut whole
  have other : ∀ i y, events[i]? = some y → y.isCut = true → some k ≠ some i := by
    intro i y there cut same
    cases same
    obtain rfl : x = y := Option.some.inj (here.symm.trans there)
    rw [whole] at cut
    cases cut
  rw [alone] at next
  generalize (share (some k) done).length = c at next
  cases c with
  | succ c => cases next
  | zero =>
      obtain rfl : x.event = e := Option.some.inj next
      have same : x.answer 0 x.event = .ok (some x.event) := by
        rw [Parcel.answer, alone, ← plain]
        rfl
      rw [push_of_no_piece plain, same]
      exact ⟨amid.whole other x.event, rfl⟩

/-- The next envelope that arrives, whatever it is. -/
theorem Amid.step (amid : Amid first events done j) (fits : first.Fits events) (tidy : first.Tidy)
    (word : first.maxFragments < UInt32.size) (interleaving : Interleaving events arrivals)
    {mark : Option Nat} (split : arrivals = done ++ (mark, e) :: rest) :
    Amid first events (done ++ [(mark, e)]) (j.push e).1 ∧
      (mark = none → (j.push e).2 = .ok (some e)) ∧
      ∀ k x, mark = some k → events[k]? = some x →
        x.pieces[(share (some k) done).length]? = some e ∧
          (j.push e).2 = x.answer (share (some k) done).length e := by
  have arrived : (mark, e) ∈ arrivals := by
    rw [split]
    exact List.mem_append_right _ List.mem_cons_self
  cases mark with
  | none =>
      rw [push_of_no_piece (interleaving.plain _ arrived rfl)]
      exact ⟨amid.whole (fun k _ _ _ => (Option.some_ne_none k).symm) e, fun _ => rfl, nofun⟩
  | some k =>
      obtain ⟨x, here⟩ : ∃ x, events[k]? = some x :=
        ⟨_, List.getElem?_eq_getElem (interleaving.known _ arrived k rfl)⟩
      have next : x.pieces[(share (some k) done).length]? = some e := by
        rw [← interleaving.own k x here, split, share_append, share_cons_own,
          List.getElem?_append_right (Nat.le_refl _), Nat.sub_self]
        rfl
      have either : Amid first events (done ++ [(some k, e)]) (j.push e).1 ∧
          (j.push e).2 = x.answer (share (some k) done).length e := by
        cases cut : x.isCut with
        | true => exact amid.piece fits tidy word here cut next
        | false => exact amid.uncut fits here cut next
      refine ⟨either.1, nofun, fun i y same there => ?_⟩
      cases same
      obtain rfl : x = y := Option.some.inj (here.symm.trans there)
      exact ⟨next, either.2⟩

/-- All that is still to arrive, with what each event and each whole envelope comes to. -/
theorem Amid.run (amid : Amid first events done j) (fits : first.Fits events) (tidy : first.Tidy)
    (word : first.maxFragments < UInt32.size) (interleaving : Interleaving events arrivals)
    (split : arrivals = done ++ rest) :
    Amid first events arrivals (j.run (rest.map (·.2))).1 ∧
      (∀ k x, events[k]? = some x →
        share (some k) ((rest.map (·.1)).zip (j.run (rest.map (·.2))).2)
          = (x.pieces.mapIdx x.answer).drop (share (some k) done).length) ∧
      share none ((rest.map (·.1)).zip (j.run (rest.map (·.2))).2)
        = (share none rest).map fun e => .ok (some e) := by
  induction rest generalizing done j with
  | nil =>
      rw [List.append_nil] at split
      refine ⟨split ▸ amid, fun k x here => ?_, rfl⟩
      rw [← split, interleaving.own k x here, List.drop_of_length_le (by rw [List.length_mapIdx])]
      rfl
  | cons arrival rest ih =>
      obtain ⟨mark, e⟩ := arrival
      obtain ⟨onward, whole, piece⟩ := amid.step fits tidy word interleaving split
      have shifted : arrivals = (done ++ [(mark, e)]) ++ rest := by
        rw [split, List.append_assoc]
        rfl
      obtain ⟨ending, pieces, others⟩ := ih onward shifted
      rw [List.map_cons, List.map_cons, Joiner.run, List.zip_cons_cons]
      have skip {k : Nat} {x : Parcel} (here : events[k]? = some x) (other : mark ≠ some k) :
          share (some k) ((mark, (j.push e).2) ::
              (rest.map (·.1)).zip ((j.push e).1.run (rest.map (·.2))).2)
            = (x.pieces.mapIdx x.answer).drop (share (some k) done).length := by
        rw [share_cons_other other, pieces k x here, share_append, share_cons_other other, share_nil,
          List.append_nil]
      cases mark with
      | none =>
          refine ⟨ending, fun k x here => skip here (Option.some_ne_none k).symm, ?_⟩
          rw [share_cons_own, share_cons_own, whole rfl, others]
          rfl
      | some i =>
          refine ⟨ending, fun k x here => ?_, ?_⟩
          · by_cases own : i = k
            · obtain ⟨next, outcome⟩ := piece k x (congrArg some own) here
              have behind := pieces k x here
              rw [own, share_append, share_cons_own, share_nil, List.length_append] at behind
              rw [own, share_cons_own, behind, drop_mapIdx next, outcome]
              rfl
            · exact skip here fun same => own (Option.some.inj same)
          · rw [share_cons_other (Option.some_ne_none i), share_cons_other (Option.some_ne_none i), others]

/-- After all pieces nothing is left of any of the events. -/
theorem Amid.eq_first (amid : Amid first events arrivals j) (fits : first.Fits events)
    (tidy : first.Tidy) (interleaving : Interleaving events arrivals) : j = first := by
  have gone : ∀ id ∈ Parcel.names events,
      j.partials.get? id = none ∧ first.partials.get? id = none := by
    intro id named
    obtain ⟨x, listed, rfl⟩ := List.mem_map.mp named
    obtain ⟨member, cut⟩ := List.mem_filter.mp listed
    obtain ⟨k, here⟩ := List.mem_iff_getElem?.mp member
    refine ⟨?_, fits.fresh x member cut⟩
    rw [amid.own k x here cut, interleaving.own k x here, Sent.slot, if_pos (.inr (Nat.le_refl _))]
  have order : j.order = first.order := by
    have all : j.order.filter (· ∉ Parcel.names events) = j.order := by
      refine List.filter_eq_self.mpr fun id listed => decide_eq_true fun named => ?_
      exact amid.tidy.unknown_iff.mp (gone id named).1 listed
    rw [← amid.order, all]
  have partials : j.partials = first.partials := by
    refine Table.eq_of_keys ?_ (amid.tidy.keys ▸ amid.tidy.once) fun id => ?_
    · rw [amid.tidy.keys, tidy.keys, order]
    · by_cases named : id ∈ Parcel.names events
      · rw [(gone id named).1, (gone id named).2]
      · exact amid.others id named
  calc j = ⟨j.maxFragments, j.partials, j.order⟩ := rfl
    _ = ⟨first.maxFragments, first.partials, first.order⟩ := by rw [amid.limit, partials, order]

theorem amid_start (fits : first.Fits events) (tidy : first.Tidy) : Amid first events [] first := by
  refine ⟨tidy, rfl, List.filter_eq_self.mpr fun id listed => decide_eq_true fun named => ?_,
    fun _ _ => rfl, fun k x here cut => fits.fresh x (List.mem_of_getElem? here) cut⟩
  obtain ⟨x, mine, rfl⟩ := List.mem_map.mp named
  obtain ⟨member, cut⟩ := List.mem_filter.mp mine
  exact tidy.unknown_iff.mp (fits.fresh x member cut) listed

end Amid

end Joiner

/-- The answers to the pieces of an event: nothing before the last one, and then the event. -/
theorem Parcel.answers (x : Parcel) : ∃ last, x.pieces.getLast? = some last ∧
    x.pieces.mapIdx x.answer = List.replicate (x.pieces.length - 1) (.ok none)
      ++ [.ok (some { last with frag := none, data := x.event.data })] := by
  have filled : x.pieces ≠ [] := List.length_pos_iff.mp (Sent.count_pos (s := x.sent))
  obtain ⟨front, last, split⟩ := (List.eq_nil_or_concat x.pieces).resolve_left filled
  rw [List.concat_eq_append] at split
  have long : x.pieces.length = front.length + 1 := by rw [split, List.length_append]; rfl
  refine ⟨last, by rw [split, List.getLast?_concat], ?_⟩
  have before : front.mapIdx x.answer = List.replicate front.length (.ok none) := by
    refine List.eq_replicate_iff.mpr ⟨List.length_mapIdx, fun answer member => ?_⟩
    obtain ⟨i, inside, rfl⟩ := List.mem_mapIdx.mp member
    exact if_pos (by omega)
  have final : x.answer front.length last
      = .ok (some { last with frag := none, data := x.event.data }) := if_neg (by omega)
  rw [long, Nat.add_sub_cancel, ← before, ← final]
  conv_lhs => rw [split]
  rw [List.mapIdx_concat]

namespace Joiner

/-- Pieces of several events in any interleaving, with whole events in between, for a joiner that has
met anything before: each event is given out once, with its last piece and all its data, every other
piece brings nothing about, whole events are given out as they are, and afterwards the joiner holds
what it held before. -/
theorem interleaved_events_join (maxFragments : UInt32) (history : List Event) (events : List Parcel)
    (arrivals : List (Option Nat × Event)) :
    let j := ((new maxFragments.toNat).run history).1
    let after := j.run (arrivals.map (·.2))
    let outcomes := (arrivals.map (·.1)).zip after.2
    j.Fits events → Interleaving events arrivals →
    after.1 = j ∧
    (∀ k x, events[k]? = some x → ∃ last, x.pieces.getLast? = some last ∧
      share (some k) outcomes = List.replicate (x.pieces.length - 1) (.ok none)
        ++ [.ok (some { last with frag := none, data := x.event.data })]) ∧
    share none outcomes = (share none arrivals).map fun e => .ok (some e) := by
  intro j after outcomes fits interleaving
  have tidy : j.Tidy := (tidy_new maxFragments.toNat).run history
  have word : j.maxFragments < UInt32.size := by
    rw [maxFragments_run]
    exact Nat.max_lt.mpr ⟨maxFragments.toNat_lt, by decide⟩
  obtain ⟨ending, pieces, others⟩ :=
    (amid_start fits tidy).run fits tidy word interleaving (List.nil_append _).symm
  refine ⟨ending.eq_first fits tidy interleaving, fun k x here => ?_, others⟩
  obtain ⟨last, final, answers⟩ := x.answers
  exact ⟨last, final, (pieces k x here).trans answers⟩

/-- Two events of two pieces each, one of which has no id, and a short one. -/
def sampleParcels : List Parcel := [
  ⟨{ Event.new "token" "abcdef" with id := some "x" }, 4, ""⟩,
  ⟨Event.new "token" "é€", 2, "y"⟩,
  ⟨Event.new "token" "z", 4, ""⟩]

def sampleArrivals : List (Option Nat × Event) :=
  let part (id data : String) (i : UInt32) : Event :=
    { Event.new "token" data with id := some id, frag := some ⟨i, 2⟩ }
  [(some 0, part "x" "abcd" 0), (some 1, part "y" "é" 0), (none, Event.new "done" ""),
    (some 2, Event.new "token" "z"), (some 1, part "y" "€" 1), (some 0, part "x" "ef" 1)]

theorem sampleArrivals_interleaving : Interleaving sampleParcels sampleArrivals := by
  refine ⟨fun k x here => ?_, by decide, by decide⟩
  match k, here with
  | 0, here => cases here; decide +kernel
  | 1, here => cases here; decide +kernel
  | 2, here => cases here; decide +kernel

theorem sample_interleaving_joins :
    let j := ((new 2).run [samplePiece "old"]).1
    let after := j.run (sampleArrivals.map (·.2))
    let outcomes := (sampleArrivals.map (·.1)).zip after.2
    (j.pending = 1 ∧ after.1 = j) ∧
    (∃ last, sampleParcels[1].pieces.getLast? = some last ∧
      share (some 1) outcomes
        = [.ok none, .ok (some { last with frag := none, data := some "é€" })]) ∧
    share none outcomes = [.ok (some (Event.new "done" ""))] := by
  intro j after outcomes
  have fits : j.Fits sampleParcels := by
    refine ⟨?_, ?_, ?_, ?_, ?_⟩ <;> decide +kernel
  obtain ⟨same, pieces, others⟩ :=
    interleaved_events_join 2 [samplePiece "old"] sampleParcels sampleArrivals fits
      sampleArrivals_interleaving
  exact ⟨⟨by decide, same⟩, pieces 1 _ rfl, others⟩

end Joiner
end FlexLink
