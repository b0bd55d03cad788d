import FlexLink.Proofs.Stream.Accounting
import FlexLink.Proofs.Stream.Sharing

/-! # Pieces that are joined to one event

A joiner finds the parts of an event by the id and the number of pieces alone.  Each part is the latest
piece of that id, number and place since the event was opened, and an event is given up with the first
last piece that comes (`Gathers`).  So where ids are used again, an event may be completed with parts of
an earlier one: of one whose last piece was never let through, and only in places whose own piece was
not let through either. -/
set_option autoImplicit false
namespace FlexLink

open scoped List

namespace Joiner

variable {j opened : Joiner} {id : String} {n i : Nat} {e x : Event} {p q : PartialEvent}
  {es history recent : List Event}

/-! ## The latest piece of a place -/

def isPiece (id : String) (n i : Nat) (e : Event) : Bool :=
  e.id == some id && e.frag.any fun place => place.n.toNat == n && place.i.toNat == i

/-- The last of the envelopes that are piece `i` of `n` under an id. -/
def latest? (id : String) (n i : Nat) (es : List Event) : Option Event :=
  es.reverse.find? (isPiece id n i)

theorem isPiece_iff : isPiece id n i e = true ↔
    e.id = some id ∧ ∃ place, e.frag = some place ∧ place.n.toNat = n ∧ place.i.toNat = i := by
  simp only [isPiece, Bool.and_eq_true, beq_iff_eq, Option.any_eq_true]

theorem latest?_snoc : latest? id n i (es ++ [e])
    = if isPiece id n i e then some e else latest? id n i es := by
  rw [latest?, List.reverse_append, List.reverse_singleton, List.singleton_append, List.find?_cons]
  cases isPiece id n i e <;> rfl

theorem latest?_eq_some (found : latest? id n i es = some x) :
    isPiece id n i x = true ∧ ∃ before after, es = before ++ x :: after ∧
      ∀ y ∈ after, isPiece id n i y = false := by
  obtain ⟨piece, after, before, split, others⟩ := List.find?_eq_some_iff_append.mp found
  refine ⟨piece, before.reverse, after.reverse, ?_, ?_⟩
  · have turned := congrArg List.reverse split
    simpa using turned
  · intro y member
    simpa using others y (List.mem_reverse.mp member)

/-- A piece has one place. -/
theorem isPiece_place {k : Nat} (piece : isPiece id n i e = true) :
    isPiece id n k e = true ↔ i = k := by
  obtain ⟨named, place, frag, count, rfl⟩ := isPiece_iff.mp piece
  constructor
  · intro also
    obtain ⟨-, other, same, -, rfl⟩ := isPiece_iff.mp also
    rw [frag] at same
    cases same
    rfl
  · intro same
    exact isPiece_iff.mpr ⟨named, place, frag, count, same⟩

/-! ## What an incomplete event is made of -/

structure Gathers (id : String) (recent : List Event) (p : PartialEvent) : Prop where
  parts : p.parts = (List.range p.count).map fun i => (latest? id p.count i recent).bind (·.data)
  unfinished : ∀ x ∈ recent, ∀ i, isPiece id p.count i x = true → i + 1 ≠ p.count

theorem gathers_new (id : String) (n : Nat) : Gathers id [] (.new n) := by
  refine ⟨?_, nofun⟩
  have none (i : Nat) : (latest? id n i []).bind (·.data) = none := rfl
  simp only [PartialEvent.new, none, List.map_const', List.length_range]

theorem Gathers.parts_put (gathers : Gathers id recent p) (piece : isPiece id p.count i e = true) :
    (p.put i e.data).parts
      = (List.range p.count).map fun k => (latest? id p.count k (recent ++ [e])).bind (·.data) := by
  rw [PartialEvent.put, gathers.parts]
  apply List.ext_getElem (by simp)
  intro k inside _
  rw [List.getElem_set, List.getElem_map, List.getElem_map, List.getElem_range, latest?_snoc]
  by_cases own : i = k
  · rw [if_pos own, if_pos ((isPiece_place piece).mpr own)]
    rfl
  · rw [if_neg own, if_neg (mt (isPiece_place piece).mp own)]

theorem Gathers.put (gathers : Gathers id recent p) (piece : isPiece id p.count i e = true)
    (more : i + 1 ≠ p.count) : Gathers id (recent ++ [e]) (p.put i e.data) := by
  refine ⟨gathers.parts_put piece, ?_⟩
  intro x member k also
  rcases List.mem_append.mp member with earlier | here
  · exact gathers.unfinished x earlier k also
  · rw [List.mem_singleton.mp here] at also
    rw [← (isPiece_place piece).mp also]
    exact more

/-- Envelopes that are no pieces of the event change nothing. -/
theorem Gathers.skip (gathers : Gathers id recent p)
    (other : ∀ i, i < p.count → isPiece id p.count i e = false) : Gathers id (recent ++ [e]) p := by
  refine ⟨?_, ?_⟩
  · rw [gathers.parts]
    refine List.map_congr_left fun i member => ?_
    have no := other i (List.mem_range.mp member)
    rw [latest?_snoc, if_neg (by rw [no]; exact Bool.false_ne_true)]
  · intro x member k also
    rcases List.mem_append.mp member with earlier | here
    · exact gathers.unfinished x earlier k also
    · rw [List.mem_singleton.mp here] at also
      intro last
      rw [other k (by omega)] at also
      cases also

/-! ## One envelope -/

theorem Takes.isPiece {place : Fragment} (takes : Takes j e place id opened p) :
    isPiece id p.count place.i.toNat e = true :=
  isPiece_iff.mpr ⟨takes.named, place, takes.piece, takes.count.symm, rfl⟩

/-- Pieces of an incomplete event are accepted for it. -/
theorem takes_of_known (known : j.partials.get? id = some p) (few : p.count ≤ j.maxFragments)
    (piece : isPiece id p.count i e = true) (inside : i < p.count) :
    ∃ place, place.i.toNat = i ∧ Takes j e place id j p := by
  obtain ⟨named, place, frag, count, index⟩ := isPiece_iff.mp piece
  refine ⟨place, index, frag, named, ?_, ?_, ?_, count.symm⟩
  · rw [index, count]
    exact inside
  · rw [count]
    exact few
  · rw [opening, known]

/-- An event that is incomplete after it took a piece took no last one. -/
theorem Takes.kept {place : Fragment} (takes : Takes j e place id opened p)
    (found : (j.push e).1.partials.get? id = some q) :
    q = p.put place.i.toNat e.data ∧ place.i.toNat + 1 ≠ p.count := by
  rw [takes.push] at found
  split at found
  · exact absurd rfl (forget_keeps found).2
  · next more =>
      have stored : (opened.partials.insert id (p.put place.i.toNat e.data)).get? id = some q := found
      rw [Table.get?_insert, if_pos rfl] at stored
      have count := takes.count
      exact ⟨(Option.some.inj stored).symm, by omega⟩

/-! ## Runs -/

/-- Every incomplete event is made of pieces that came since some time. -/
def Recent (history : List Event) (j : Joiner) : Prop :=
  ∀ id p, j.partials.get? id = some p → p.count ≤ j.maxFragments ∧
    ∃ old recent, history = old ++ recent ∧ Gathers id recent p

/-- What an event that takes a piece was made of before. -/
theorem Takes.gathers {place : Fragment} (takes : Takes j e place id opened p)
    (inv : Recent history j) : ∃ old recent, history = old ++ recent ∧ Gathers id recent p := by
  rcases opening_part takes.opens with known | rfl
  · exact (inv id p known).2
  · exact ⟨history, [], (List.append_nil _).symm, gathers_new id _⟩

theorem recent_new (maxFragments : Nat) : Recent [] (.new maxFragments) :=
  fun _ _ none => by cases none

theorem recent_push (inv : Recent history j) (e : Event) :
    Recent (history ++ [e]) (j.push e).1 := by
  intro id q found
  rw [maxFragments_push]
  have taking {place : Fragment} {opened : Joiner} {p : PartialEvent}
      (takes : Takes j e place id opened p) : q.count ≤ j.maxFragments ∧
        ∃ old recent, history ++ [e] = old ++ recent ∧ Gathers id recent q := by
    obtain ⟨rfl, more⟩ := takes.kept found
    obtain ⟨old, recent, split, gathers⟩ := takes.gathers inv
    refine ⟨takes.count ▸ takes.few, old, recent ++ [e], ?_, gathers.put takes.isPiece more⟩
    rw [split, List.append_assoc]
  rcases push_partials found with known | ⟨place, opened, p, takes, -⟩
  · obtain ⟨few, old, recent, split, gathers⟩ := inv id q known
    by_cases piece : ∃ i, i < q.count ∧ isPiece id q.count i e = true
    · obtain ⟨i, inside, piece⟩ := piece
      obtain ⟨place, -, takes⟩ := takes_of_known known few piece inside
      exact taking takes
    · refine ⟨few, old, recent ++ [e], ?_, gathers.skip fun i inside => ?_⟩
      · rw [split, List.append_assoc]
      · exact Bool.eq_false_iff.mpr fun own => piece ⟨i, inside, own⟩
  · exact taking takes

theorem recent_run (inv : Recent history j) (es : List Event) :
    Recent (history ++ es) (j.run es).1 := by
  induction es generalizing j history with
  | nil =>
      rw [List.append_nil]
      exact inv
  | cons e es ih =>
      have later := ih (recent_push inv e)
      rw [List.append_assoc] at later
      exact later

/-! ## An event that is completed -/

theorem collect_of_parts {α : Type} {f : α → Option Event} {l : List α} {datas : List String}
    (all : (l.map fun a => (f a).bind (·.data)) = datas.map some) :
    ∃ pieces : List Event, l.map f = pieces.map some ∧ pieces.filterMap (·.data) = datas := by
  induction l generalizing datas with
  | nil =>
      cases datas with
      | nil => exact ⟨[], rfl, rfl⟩
      | cons data datas => cases all
  | cons a l ih =>
      cases datas with
      | nil => cases all
      | cons data datas =>
          obtain ⟨here, others⟩ := List.cons.inj all
          obtain ⟨pieces, same, texts⟩ := ih others
          obtain ⟨x, found, own⟩ := Option.bind_eq_some_iff.mp here
          refine ⟨x :: pieces, ?_, ?_⟩
          · rw [List.map_cons, found, same, List.map_cons]
          · rw [List.filterMap_cons_some own, texts]

/-- An event that is completed by a last piece is made of the latest pieces since some time, and no
last piece of it came since then. -/
theorem completed_pieces (inv : Recent history j) {place : Fragment} {whole : Event}
    (piece : e.frag = some place) (done : completed (j.push e).2 = some whole) :
    ∃ (id : String) (old recent pieces : List Event), e.id = some id ∧ place.i.toNat + 1 = place.n.toNat ∧
      history = old ++ recent ∧
      (∀ x ∈ recent, ∀ i, isPiece id place.n.toNat i x = true → i + 1 ≠ place.n.toNat) ∧
      (List.range place.n.toNat).map (fun i => latest? id place.n.toNat i (recent ++ [e]))
        = pieces.map some ∧
      whole = { e with frag := none, data := some (String.join (pieces.filterMap (·.data))) } := by
  rcases push_completed done with ⟨plain, -⟩ | ⟨own, id, opened, p, datas, takes, last, all, same⟩
  · rw [piece] at plain
    cases plain
  · obtain rfl : own = place := Option.some.inj (takes.piece.symm.trans piece)
    obtain ⟨old, recent, split, gathers⟩ := takes.gathers inv
    have inside := takes.inside
    have parts := gathers.parts_put takes.isPiece
    have unfinished := gathers.unfinished
    rw [all, takes.count] at parts
    rw [takes.count] at unfinished
    obtain ⟨pieces, latest, texts⟩ := collect_of_parts parts.symm
    refine ⟨id, old, recent, pieces, takes.named, by omega, split, unfinished, latest, ?_⟩
    rw [same, texts]

def Ascending (es : List Event) : Prop := es.Pairwise fun x y => x.seq.toNat < y.seq.toNat

theorem Ascending.latest (ascending : Ascending es) (found : latest? id n i es = some x) :
    isPiece id n i x = true ∧ x ∈ es ∧
      ∀ y ∈ es, isPiece id n i y = true → y.seq.toNat ≤ x.seq.toNat := by
  obtain ⟨piece, before, after, rfl, none⟩ := latest?_eq_some found
  refine ⟨piece, List.mem_append_right _ List.mem_cons_self, fun y member also => ?_⟩
  rcases List.mem_append.mp member with earlier | later
  · obtain ⟨-, -, across⟩ := List.pairwise_append.mp ascending
    exact Nat.le_of_lt (across y earlier x List.mem_cons_self)
  · rcases List.mem_cons.mp later with rfl | behind
    · exact Nat.le_refl _
    · rw [none y behind] at also
      cases also

/-- One of the pieces that an event is completed from: the one with the highest number that has its
place, and no last piece came after it. -/
structure Chosen (id : String) (n i : Nat) (history : List Event) (e x : Event) : Prop where
  piece : isPiece id n i x = true
  came : x ∈ history ++ [e]
  latest : ∀ y ∈ history ++ [e], isPiece id n i y = true → y.seq.toNat ≤ x.seq.toNat
  unfinished : ∀ y ∈ history, ∀ k, isPiece id n k y = true → k + 1 = n → y.seq.toNat < x.seq.toNat

theorem completed_chosen (inv : Recent history j) (ascending : Ascending (history ++ [e]))
    {place : Fragment} {whole : Event} (piece : e.frag = some place)
    (done : completed (j.push e).2 = some whole) :
    ∃ (id : String) (n : Nat) (pieces : List Event), isPiece id n (n - 1) e = true ∧
      pieces.length = n ∧ (∀ i x, pieces[i]? = some x → Chosen id n i history e x) ∧
      whole = { e with frag := none, data := some (String.join (pieces.filterMap (·.data))) } := by
  obtain ⟨id, old, recent, pieces, named, last, rfl, unfinished, latest, same⟩ :=
    completed_pieces inv piece done
  have long := congrArg List.length latest
  rw [List.length_map, List.length_map, List.length_range] at long
  refine ⟨id, place.n.toNat, pieces, ?_, long.symm, fun i x there => ?_, same⟩
  · exact isPiece_iff.mpr ⟨named, place, piece, rfl, by omega⟩
  · rw [List.append_assoc] at ascending
    obtain ⟨-, late, across⟩ := List.pairwise_append.mp ascending
    have found : latest? id place.n.toNat i (recent ++ [e]) = some x := by
      have entry := congrArg (·[i]?) latest
      simp only [List.getElem?_map, there, Option.map_some] at entry
      obtain ⟨k, index, found⟩ := Option.map_eq_some_iff.mp entry
      rw [List.getElem?_range (by have := (List.getElem?_eq_some_iff.mp there).1; omega)] at index
      cases index
      exact found
    obtain ⟨own, came, highest⟩ := Ascending.latest late found
    refine ⟨own, ?_, ?_, ?_⟩
    · rw [List.append_assoc]
      exact List.mem_append_right _ came
    · intro y member also
      rw [List.append_assoc] at member
      rcases List.mem_append.mp member with before | since
      · exact Nat.le_of_lt (across y before x came)
      · exact highest y since also
    · intro y member k also final
      rcases List.mem_append.mp member with before | since
      · exact across y before x came
      · exact absurd final (unfinished y since k also)

end Joiner

/-! ## The numbers of a sender -/

namespace Sending

variable {σ : Type} {link : Link σ} {w after : Sending σ} {maxBytes first : Nat} {sent : List Sent}
  {s t : Sent}

/-- Events whose envelopes are numbered one after the other from `first` on. -/
def Laid (maxBytes : Nat) : Nat → List Sent → Prop
  | _, [] => True
  | first, s :: rest => s.first = first ∧ Laid maxBytes (first + s.count maxBytes) rest

theorem Laid.bounds (laid : Laid maxBytes first sent) (member : s ∈ sent) :
    first ≤ s.first ∧ s.first + s.count maxBytes ≤ first + (envelopes maxBytes sent).length := by
  induction sent generalizing first with
  | nil => cases member
  | cons u rest ih =>
      obtain ⟨here, later⟩ := laid
      have long : (envelopes maxBytes (u :: rest)).length
          = u.count maxBytes + (envelopes maxBytes rest).length := by
        rw [envelopes, List.flatMap_cons, List.length_append, Sent.length_envelopes]
        rfl
      rcases List.mem_cons.mp member with rfl | behind
      · omega
      · have := ih later behind
        omega

/-- Two events are one or do not meet. -/
theorem Laid.apart (laid : Laid maxBytes first sent) (mine : s ∈ sent) (other : t ∈ sent) :
    s = t ∨ s.first + s.count maxBytes ≤ t.first ∨ t.first + t.count maxBytes ≤ s.first := by
  induction sent generalizing first with
  | nil => cases mine
  | cons u rest ih =>
      obtain ⟨here, later⟩ := laid
      rcases List.mem_cons.mp mine with rfl | behind
      · rcases List.mem_cons.mp other with rfl | after
        · exact .inl rfl
        · have := (later.bounds after).1
          omega
      · rcases List.mem_cons.mp other with rfl | after
        · have := (later.bounds behind).1
          omega
        · exact ih later behind after

/-- Whether nothing was numbered in between. -/
def Steady (w after : Sending σ) : Prop :=
  after.sender.nextSeq = w.sender.nextSeq ∧
    after.sender.maxFragmentBytes = w.sender.maxFragmentBytes

theorem steady_transmit (link : Link σ) (w : Sending σ) (packets : List Packet) :
    Steady w (w.transmit link packets).1 := by
  rw [transmit]
  cases link.send w.net packets with
  | mk net result => cases result <;> exact ⟨rfl, rfl⟩

theorem steady_flush (link : Link σ) (w : Sending σ) : Steady w (w.flush link).1 := by
  rw [flush]
  split
  · exact ⟨rfl, rfl⟩
  · exact steady_transmit link { w with sender := { w.sender with pending := [] } } _

theorem steady_retransmit (link : Link σ) (w : Sending σ) (frames : List (UInt64 × List Packet)) :
    Steady w (w.retransmit link frames) := by
  induction frames generalizing w with
  | nil => exact ⟨rfl, rfl⟩
  | cons frame rest ih =>
      obtain ⟨seq, packets⟩ := frame
      have here := steady_transmit link w packets
      rw [retransmit]
      cases call : w.transmit link packets with
      | mk after result =>
          rw [call] at here
          cases result with
          | ok =>
              have later := ih (after.count (·.addRetransmits 1))
              exact ⟨later.1.trans here.1, later.2.trans here.2⟩
          | error why =>
              have later := ih after
              exact ⟨later.1.trans here.1, later.2.trans here.2⟩

theorem steady_settle (link : Link σ) (w : Sending σ) : Steady w (w.settle link).1 := by
  have flushed := steady_flush link w
  rw [settle]
  split
  · exact ⟨rfl, rfl⟩
  · cases call : w.flush link with
    | mk after result =>
        rw [call] at flushed
        cases result <;> exact flushed

theorem nextSeq_send (link : Link σ) (w : Sending σ) (e : Event) (freshId : String) :
    (w.send link e freshId).1.sender.nextSeq
        = w.sender.nextSeq + (e.pieces w.sender.maxFragmentBytes freshId).length ∧
      (w.send link e freshId).1.sender.maxFragmentBytes = w.sender.maxFragmentBytes := by
  have next := StreamSender.nextSeq_queueAll w.sender (e.pieces w.sender.maxFragmentBytes freshId)
  have alike := StreamSender.alike_queueAll w.sender (e.pieces w.sender.maxFragmentBytes freshId)
  obtain ⟨number, limit⟩ := steady_settle link { w with
    sender := (e.pieces w.sender.maxFragmentBytes freshId).foldl StreamSender.queue w.sender }
  rw [send_eq_settle]
  exact ⟨number.trans next, limit.trans alike.maxFragmentBytes⟩

/-- Whatever calls fail, the events of a run are numbered one after the other. -/
theorem laid_sent (link : Link σ) (w : Sending σ) (acts : List Act) :
    Laid w.sender.maxFragmentBytes w.sender.nextSeq (w.sent link acts) ∧
      (w.run link acts).sender.nextSeq = w.sender.nextSeq
        + (envelopes w.sender.maxFragmentBytes (w.sent link acts)).length := by
  induction acts generalizing w with
  | nil => exact ⟨trivial, rfl⟩
  | cons a rest ih =>
      obtain ⟨laid, next⟩ := ih (w.act link a)
      have quiet (steady : Steady w (w.act link a)) (none : w.sentBy a = []) :
          Laid w.sender.maxFragmentBytes w.sender.nextSeq (w.sent link (a :: rest)) ∧
            (w.run link (a :: rest)).sender.nextSeq = w.sender.nextSeq
              + (envelopes w.sender.maxFragmentBytes (w.sent link (a :: rest))).length := by
        rw [sent, none, List.nil_append, ← steady.1, ← steady.2]
        exact ⟨laid, next⟩
      cases a with
      | flush => exact quiet (steady_flush link w) rfl
      | control c => exact quiet (steady_retransmit link _ _) rfl
      | send e freshId =>
          obtain ⟨number, limit⟩ := nextSeq_send link w e freshId
          have count : (e.pieces w.sender.maxFragmentBytes freshId).length
              = Sent.count w.sender.maxFragmentBytes ⟨e, freshId, w.sender.nextSeq⟩ := rfl
          have act : w.act link (.send e freshId) = (w.send link e freshId).1 := rfl
          rw [act, number, limit, count] at laid next
          refine ⟨⟨rfl, laid⟩, ?_⟩
          rw [run, act, next, sent, sentBy, List.singleton_append, envelopes, envelopes,
            List.flatMap_cons, List.length_append, Sent.length_envelopes, Nat.add_assoc, act]

end Sending
/-! ## Where the parts of an event come from -/

section Origin

variable {maxBytes first : Nat} {sent : List Sent} {s t : Sent} {id : String} {n i : Nat}
  {before : List Event} {e x y : Event}

/-- Whether `t` was cut into as many pieces as `s` and under the same id. -/
structure Sent.Alike (maxBytes : Nat) (s t : Sent) : Prop where
  cut : t.isCut maxBytes = true
  name : t.name = s.name
  count : t.count maxBytes = s.count maxBytes

theorem Sent.getElem?_envelopes (cut : t.isCut maxBytes = true) (i : Nat) :
    (t.envelopes maxBytes)[i]? = (t.chunks maxBytes)[i]?.map (t.envelope maxBytes i) := by
  rw [Sent.envelopes_of_cut cut, List.getElem?_mapIdx]

theorem Sent.getLast?_envelopes : (t.envelopes maxBytes).getLast?
    = (t.envelopes maxBytes)[t.count maxBytes - 1]? := by
  rw [List.getLast?_eq_getElem?, Sent.length_envelopes]

structure Lawful (maxBytes first : Nat) (sent : List Sent) : Prop where
  laid : Sending.Laid maxBytes first sent
  fits : first + (Sending.envelopes maxBytes sent).length ≤ UInt64.size
  plain : ∀ s ∈ sent, s.event.frag = none
  few : ∀ s ∈ sent, s.count maxBytes < UInt32.size

/-- The number of an envelope. -/
theorem Lawful.seq (lawful : Lawful maxBytes first sent) (member : t ∈ sent)
    (here : (t.envelopes maxBytes)[i]? = some x) :
    x.seq.toNat = t.first + i ∧ i < t.count maxBytes := by
  obtain ⟨inside, rfl⟩ := List.getElem?_eq_some_iff.mp here
  rw [Sent.length_envelopes] at inside
  have bounds := lawful.laid.bounds member
  have fits := lawful.fits
  refine ⟨?_, inside⟩
  simp only [Sent.envelopes, List.getElem_mapIdx]
  exact UInt64.toNat_ofNat_of_lt' (by omega)

/-- What an envelope of an event that is cut is a piece of. -/
theorem Sent.isPiece_envelope (cut : t.isCut maxBytes = true) (few : t.count maxBytes < UInt32.size)
    (here : (t.envelopes maxBytes)[i]? = some x) :
    Joiner.isPiece t.name (t.count maxBytes) i x = true := by
  rw [Sent.getElem?_envelopes cut] at here
  obtain ⟨chunk, there, rfl⟩ := Option.map_eq_some_iff.mp here
  obtain ⟨index, total, -⟩ := Joiner.place_of_envelope cut few there rfl
  exact Joiner.isPiece_iff.mpr ⟨rfl, _, rfl, total, index⟩

/-- Which events have an envelope that is a piece. -/
theorem Lawful.of_isPiece (lawful : Lawful maxBytes first sent) (member : t ∈ sent)
    (drawn : x ∈ t.envelopes maxBytes) (piece : Joiner.isPiece id n i x = true) :
    t.isCut maxBytes = true ∧ t.name = id ∧ t.count maxBytes = n ∧
      (t.envelopes maxBytes)[i]? = some x := by
  obtain ⟨named, place, frag, rfl, rfl⟩ := Joiner.isPiece_iff.mp piece
  rcases Sent.mem_envelopes drawn (lawful.plain t member) with ⟨-, rfl⟩ | ⟨cut, k, chunk, there, rfl⟩
  · cases frag
  · obtain ⟨index, total, -⟩ := Joiner.place_of_envelope cut (lawful.few t member) there frag
    refine ⟨cut, Option.some.inj named, total.symm, ?_⟩
    rw [Sent.getElem?_envelopes cut, index, there]
    rfl

/-- Where the parts come from that the last piece of `s` is completed with, when the envelopes `came`
were let through. -/
structure Stitched (maxBytes : Nat) (sent : List Sent) (came : List Event) (s : Sent)
    (pieces : List Event) : Prop where
  count : pieces.length = s.count maxBytes
  own : ∀ (i : Nat) (x : Event), (s.envelopes maxBytes)[i]? = some x → x ∈ came → pieces[i]? = some x
  /-- What is not its own is from an earlier event of that id and number of pieces, the last piece of
  which was never let through. -/
  origin : ∀ (i : Nat) (x : Event), pieces[i]? = some x → x ∈ came ∧
    ∃ t ∈ sent, Sent.Alike maxBytes s t ∧ (t.envelopes maxBytes)[i]? = some x ∧
      (t = s ∨ t.last maxBytes < s.first ∧
        ∀ y, (t.envelopes maxBytes).getLast? = some y → y ∉ came)
  latest : ∀ (i : Nat) (x : Event), pieces[i]? = some x → ∀ t ∈ sent, Sent.Alike maxBytes s t →
    ∀ y, (t.envelopes maxBytes)[i]? = some y → y ∈ came → y.seq.toNat ≤ x.seq.toNat

/-- A part that is chosen for the last piece of `s` is a piece of `s`, or of an event before it that
was left incomplete. -/
theorem Lawful.origin (lawful : Lawful maxBytes first sent) (mine : s ∈ sent)
    (last : (s.envelopes maxBytes)[s.count maxBytes - 1]? = some e)
    (drawn : ∀ x ∈ before ++ [e], x ∈ Sending.envelopes maxBytes sent)
    (chosen : Joiner.Chosen s.name (s.count maxBytes) i before e x)
    (ascending : Joiner.Ascending (before ++ [e])) :
    ∃ t ∈ sent, Sent.Alike maxBytes s t ∧ (t.envelopes maxBytes)[i]? = some x ∧
      (t = s ∨ t.last maxBytes < s.first ∧
        ∀ y, (t.envelopes maxBytes).getLast? = some y → y ∉ before ++ [e]) := by
  obtain ⟨t, other, envelope⟩ := List.mem_flatMap.mp (drawn x chosen.came)
  obtain ⟨also, name, count, here⟩ := lawful.of_isPiece other envelope chosen.piece
  refine ⟨t, other, ⟨also, name, count⟩, here, ?_⟩
  obtain ⟨number, inside⟩ := lawful.seq other here
  obtain ⟨final, -⟩ := lawful.seq mine last
  have behind : x.seq.toNat ≤ e.seq.toNat := by
    rcases List.mem_append.mp chosen.came with earlier | now
    · obtain ⟨-, -, across⟩ := List.pairwise_append.mp ascending
      exact Nat.le_of_lt (across x earlier e List.mem_cons_self)
    · exact Nat.le_of_eq (congrArg (·.seq.toNat) (List.mem_singleton.mp now))
  rcases lawful.laid.apart other mine with same | before | after
  · exact .inl same
  · have final : t.last maxBytes < s.first := by
      have positive : 0 < t.count maxBytes := Sent.count_pos
      rw [Sent.last]
      omega
    refine .inr ⟨final, fun y ended came => ?_⟩
    rw [Sent.getLast?_envelopes] at ended
    obtain ⟨top, -⟩ := lawful.seq other ended
    have piece := Sent.isPiece_envelope also (lawful.few t other) ended
    rw [name, count] at piece
    rcases List.mem_append.mp came with earlier | now
    · have := chosen.unfinished y earlier _ piece (Nat.sub_add_cancel s.count_pos)
      omega
    · rw [List.mem_singleton.mp now] at top
      omega
  · omega

theorem Lawful.stitched (lawful : Lawful maxBytes first sent) {j : Joiner}
    (inv : Joiner.Recent before j) (ascending : Joiner.Ascending (before ++ [e]))
    (drawn : ∀ x ∈ before ++ [e], x ∈ Sending.envelopes maxBytes sent) {whole : Event}
    (cut : e.frag ≠ none) (done : Joiner.completed (j.push e).2 = some whole) :
    ∃ s ∈ sent, ∃ pieces, s.isCut maxBytes = true ∧ (s.envelopes maxBytes).getLast? = some e ∧
      Stitched maxBytes sent (before ++ [e]) s pieces ∧
      whole = { e with frag := none, data := some (String.join (pieces.filterMap (·.data))) } := by
  obtain ⟨place, piece⟩ := Option.ne_none_iff_exists'.mp cut
  obtain ⟨id, n, pieces, last, long, chosen, same⟩ :=
    Joiner.completed_chosen inv ascending piece done
  obtain ⟨s, mine, envelope⟩ :=
    List.mem_flatMap.mp (drawn e (List.mem_append_right _ List.mem_cons_self))
  obtain ⟨cut, rfl, rfl, here⟩ := lawful.of_isPiece mine envelope last
  have origin {i : Nat} {x : Event} (there : pieces[i]? = some x) :=
    lawful.origin mine here drawn (chosen i x there) ascending
  have latest {i : Nat} {x y : Event} {t : Sent} (there : pieces[i]? = some x) (other : t ∈ sent)
      (alike : Sent.Alike maxBytes s t) (own : (t.envelopes maxBytes)[i]? = some y)
      (came : y ∈ before ++ [e]) : y.seq.toNat ≤ x.seq.toNat := by
    have piece := Sent.isPiece_envelope alike.cut (lawful.few t other) own
    rw [alike.name, alike.count] at piece
    exact (chosen i x there).latest y came piece
  refine ⟨s, mine, pieces, cut, Sent.getLast?_envelopes.trans here, ⟨long, ?_, ?_, ?_⟩, same⟩
  · intro i x own came
    obtain ⟨number, inside⟩ := lawful.seq mine own
    rw [← long] at inside
    have there := List.getElem?_eq_getElem inside
    have above := latest there mine ⟨cut, rfl, rfl⟩ own came
    obtain ⟨t, other, alike, found, same | ⟨early, -⟩⟩ := origin there
    · rw [same, own] at found
      rw [there, found]
    · -- A piece of an earlier event has a smaller number.
      obtain ⟨less, short⟩ := lawful.seq other found
      rw [Sent.last] at early
      omega
  · intro i x there
    exact ⟨(chosen i x there).came, origin there⟩
  · intro i x there t other alike y own came
    exact latest there other alike own came

/-- Where no earlier event was left incomplete, the parts are its own. -/
theorem Stitched.pieces_eq {came pieces : List Event}
    (stitched : Stitched maxBytes sent came s pieces)
    (finished : ∀ t ∈ sent, Sent.Alike maxBytes s t → t.last maxBytes < s.first →
      (∃ x ∈ t.envelopes maxBytes, x ∈ came) →
      ∃ y ∈ came, (t.envelopes maxBytes).getLast? = some y) :
    pieces = s.envelopes maxBytes := by
  have own {i : Nat} {x : Event} (there : pieces[i]? = some x) :
      (s.envelopes maxBytes)[i]? = some x := by
    obtain ⟨came, t, member, alike, found, same | ⟨early, lost⟩⟩ := stitched.origin i x there
    · exact same ▸ found
    · obtain ⟨y, here, last⟩ :=
        finished t member alike early ⟨x, List.mem_of_getElem? found, came⟩
      exact absurd here (lost y last)
  refine List.ext_getElem ?_ fun i inside there => ?_
  · rw [stitched.count, Sent.length_envelopes]
  · have here := own (List.getElem?_eq_getElem inside)
    exact (List.getElem?_eq_some_iff.mp here).2.symm

theorem Lawful.seqs (lawful : Lawful maxBytes first sent) (member : s ∈ sent) :
    (s.envelopes maxBytes).map (·.seq.toNat) = List.range' s.first (s.count maxBytes) := by
  refine List.ext_getElem ?_ fun i inside there => ?_
  · rw [List.length_map, Sent.length_envelopes, List.length_range']
  · rw [List.length_map] at inside
    rw [List.getElem_map, List.getElem_range', Nat.one_mul]
    exact (lawful.seq member (List.getElem?_eq_getElem inside)).1

theorem Sent.whole_of_envelopes (cut : s.isCut maxBytes = true)
    (last : (s.envelopes maxBytes).getLast? = some e) :
    { e with frag := none, data := some (String.join ((s.envelopes maxBytes).filterMap (·.data))) }
      = s.whole maxBytes := by
  have texts : (s.envelopes maxBytes).filterMap (·.data) = (s.chunks maxBytes).map String.ofList := by
    have data : (fun piece : List Char × Nat => (s.envelope maxBytes piece.2 piece.1).data)
        = some ∘ (String.ofList ∘ Prod.fst) := rfl
    rw [Sent.envelopes_of_cut cut, List.mapIdx_eq_zipIdx_map, List.filterMap_map, Function.comp_def,
      data, List.filterMap_eq_map, ← List.map_map, List.zipIdx_map_fst]
  rw [Sent.getLast?_envelopes, Sent.getElem?_envelopes cut] at last
  obtain ⟨chunk, -, rfl⟩ := Option.map_eq_some_iff.mp last
  have final : s.first + (s.count maxBytes - 1) = s.last maxBytes := by
    have positive : 0 < s.count maxBytes := Sent.count_pos
    rw [Sent.last]
    omega
  rw [texts, ← Sent.data_of_cut cut, Sent.envelope, final, Sent.whole, if_pos cut]
  rfl

/-- Whatever calls fail and whatever is lost, repeated, delayed or skipped on the way: an event that
is completed from pieces is completed by the last piece of an event that was sent.  Each part is its own
piece if that one was let through, and otherwise that of an earlier event of the same id and number of
pieces which was left incomplete.  Where no such event is, the parts are all its own and their numbers
follow one another. -/
theorem completed_from_latest {σ : Type} (link : Link σ) (w : Sending σ) (acts : List Sending.Act)
    (maxHeld maxFragments : Nat) {arrivals before after : List Event} {ps : List ReorderBuffer.Push}
    {e whole : Event} :
    let maxBytes := w.sender.maxFragmentBytes
    let sent := w.sent link acts
    (w.run link acts).sender.nextSeq ≤ UInt64.size →
    (∀ s ∈ sent, s.event.frag = none ∧ s.count maxBytes < UInt32.size) →
    (∀ x ∈ arrivals, x ∈ Sending.envelopes maxBytes sent) →
    (ReorderBuffer.new maxHeld).pushAll arrivals = some ps →
    ReorderBuffer.delivered ps = before ++ e :: after →
    e.frag ≠ none →
    Joiner.completed (((Joiner.new maxFragments).run before).1.push e).2 = some whole →
    ∃ s ∈ sent, ∃ pieces, (s.envelopes maxBytes).getLast? = some e ∧
      Stitched maxBytes sent (before ++ [e]) s pieces ∧
      whole = { e with frag := none, data := some (String.join (pieces.filterMap (·.data))) } ∧
      ((∀ t ∈ sent, Sent.Alike maxBytes s t → t.last maxBytes < s.first →
          (∃ x ∈ t.envelopes maxBytes, x ∈ before ++ [e]) →
          ∃ y ∈ before ++ [e], (t.envelopes maxBytes).getLast? = some y) →
        pieces = s.envelopes maxBytes ∧ whole = s.whole maxBytes ∧
          pieces.map (·.seq.toNat) = List.range' s.first (s.count maxBytes)) := by
  intro maxBytes sent small events drawn run delivered cut done
  obtain ⟨laid, next⟩ := Sending.laid_sent link w acts
  have lawful : Lawful maxBytes w.sender.nextSeq sent :=
    ⟨laid, next ▸ small, fun s member => (events s member).1, fun s member => (events s member).2⟩
  have tallied := ReorderBuffer.tallied_of_pushAll run (List.prefix_refl ps)
  have split : before ++ e :: after = (before ++ [e]) ++ after := by
    rw [List.append_assoc, List.singleton_append]
  have ascending : Joiner.Ascending (before ++ [e]) := by
    have all := tallied.ascending
    rw [delivered, split] at all
    exact (List.pairwise_append.mp all).1
  have came : ∀ x ∈ before ++ [e], x ∈ Sending.envelopes maxBytes sent := by
    intro x member
    have taken : x ∈ ReorderBuffer.delivered ps := by
      rw [delivered, split]
      exact List.mem_append_left _ member
    have accepted := tallied.kept.mem_iff.mp (List.mem_append_left _ taken)
    obtain ⟨p, mine, rfl⟩ := List.mem_map.mp accepted
    have arrived := List.mem_map_of_mem (f := ReorderBuffer.Push.event) (List.mem_of_mem_filter mine)
    rw [ReorderBuffer.events_of_pushAll run] at arrived
    exact drawn _ arrived
  have recent : Joiner.Recent before ((Joiner.new maxFragments).run before).1 := by
    have run := Joiner.recent_run (Joiner.recent_new maxFragments) before
    exact run
  obtain ⟨s, mine, pieces, isCut, last, stitched, same⟩ :=
    lawful.stitched recent ascending came cut done
  refine ⟨s, mine, pieces, last, stitched, same, fun finished => ?_⟩
  have all := stitched.pieces_eq finished
  rw [all, Sent.whole_of_envelopes isCut last] at same
  exact ⟨all, same, (congrArg _ all).trans (lawful.seqs mine)⟩

/-- Two events of two pieces each, both with the id "x", and a short one. -/
def stitchingSent : List Sent := [
  ⟨{ Event.new "token" "abcdef" with id := some "x" }, "", 0⟩,
  ⟨{ Event.new "token" "uvwxyz" with id := some "x" }, "", 2⟩,
  ⟨Event.new "token" "z", "", 4⟩]

def stitchingActs : List Sending.Act := stitchingSent.map fun s => .send s.event s.freshId

def stitchingPiece (seq : UInt64) (i : UInt32) (data : String) : Event :=
  { Event.new "token" data with id := some "x", seq, frag := some ⟨i, 2⟩ }

/-- What is let through: the first piece of the first event and the last one of the second. -/
def stitchingCame : List Event := [
  stitchingPiece 0 0 "abc", stitchingPiece 3 1 "xyz", { Event.new "token" "z" with seq := 4 }]

def stitching : Sending Unit := { net := (), sender := Sending.sampleSender }

theorem stitching_sent : stitching.sent Sending.sink stitchingActs = stitchingSent := by
  decide +kernel

theorem stitching_delivered : ∃ ps, (ReorderBuffer.new 1).pushAll stitchingCame = some ps ∧
    ReorderBuffer.delivered ps = stitchingCame :=
  ⟨_, rfl, by decide +kernel⟩

theorem sample_completed_from_latest : ∃ s ∈ stitchingSent, ∃ pieces,
    (s.envelopes 3).getLast? = some (stitchingPiece 3 1 "xyz") ∧
      Stitched 3 stitchingSent [stitchingPiece 0 0 "abc", stitchingPiece 3 1 "xyz"] s pieces ∧
      "abcxyz" = String.join (pieces.filterMap (·.data)) := by
  obtain ⟨ps, run, delivered⟩ := stitching_delivered
  have origin := @completed_from_latest Unit Sending.sink stitching stitchingActs 1 2 stitchingCame
    [stitchingPiece 0 0 "abc"] [{ Event.new "token" "z" with seq := 4 }] ps (stitchingPiece 3 1 "xyz")
    { Event.new "token" "abcxyz" with id := some "x", seq := 3 }
  rw [stitching_sent] at origin
  obtain ⟨s, member, pieces, last, stitched, whole, -⟩ := origin (by decide +kernel)
    (by decide +kernel) (by decide +kernel) run delivered (by decide) (by decide +kernel)
  exact ⟨s, member, pieces, last, stitched, Option.some.inj (congrArg Event.data whole)⟩

/-- The event that is completed has the first half of one event and the second half of the other: the
envelope with the number 2 was lost. -/
theorem completed_from_two_events :
    stitching.sent Sending.sink stitchingActs = stitchingSent ∧
      (∀ x ∈ stitchingCame, x ∈ Sending.envelopes 3 stitchingSent ∧ x.seq ≠ 2) ∧
      ((ReorderBuffer.new 1).pushAll stitchingCame).map ReorderBuffer.delivered
        = some stitchingCame ∧
      ({ Event.new "token" "abcxyz" with id := some "x", seq := 3 } : Event)
        ∈ (Joiner.new 2).joined stitchingCame ∧
      ∀ s ∈ stitchingSent, (s.whole 3).data ≠ some "abcxyz" := by
  decide +kernel

end Origin
end FlexLink
