import FlexLink.Stream.Reorder

/-! # What leaves a reorder buffer

`Ordered` is the invariant of the buffer and `Advances` everything that taking an event in does to
it: the events that leave have consecutive numbers from behind the gap that is given up, and they
and the events that stay are those that were there. -/
set_option autoImplicit false
namespace FlexLink.ReorderBuffer

open scoped List

structure Ordered (b : ReorderBuffer) : Prop where
  ascending : b.held.Pairwise fun x y => x.seq.toNat < y.seq.toNat
  ahead : ∀ h ∈ b.held, b.next < h.seq.toNat

theorem ordered_new (maxHeld : Nat) : (ReorderBuffer.new maxHeld).Ordered :=
  ⟨.nil, fun _ none => absurd none List.not_mem_nil⟩

theorem insertEvent_perm (e : Event) (held : List Event) : insertEvent e held ~ e :: held := by
  induction held with
  | nil => exact .refl _
  | cons h rest ih =>
      rw [insertEvent]
      split
      · exact .refl _
      · exact (ih.cons h).trans (.swap e h rest)

theorem insertEvent_ascending (e : Event) (held : List Event)
    (ascending : held.Pairwise fun x y => x.seq.toNat < y.seq.toNat)
    (fresh : ∀ h ∈ held, h.seq.toNat ≠ e.seq.toNat) :
    (insertEvent e held).Pairwise fun x y => x.seq.toNat < y.seq.toNat := by
  induction held with
  | nil => exact List.pairwise_singleton _ _
  | cons h rest ih =>
      obtain ⟨first, others⟩ := List.pairwise_cons.mp ascending
      rw [insertEvent]
      by_cases before : e.seq < h.seq
      · rw [if_pos before]
        have lower : e.seq.toNat < h.seq.toNat := before
        refine List.pairwise_cons.mpr ⟨fun x member => ?_, ascending⟩
        rcases List.mem_cons.mp member with rfl | later
        · exact lower
        · exact Nat.lt_trans lower (first x later)
      · rw [if_neg before]
        have upper : ¬ e.seq.toNat < h.seq.toNat := before
        have other := fresh h List.mem_cons_self
        have sorted := ih others fun x member => fresh x (List.mem_cons_of_mem _ member)
        refine List.pairwise_cons.mpr ⟨fun x member => ?_, sorted⟩
        rcases List.mem_cons.mp ((insertEvent_perm e rest).mem_iff.mp member) with rfl | later
        · omega
        · exact first x later

theorem successor?_eq_some {n m : Nat} (behind : successor? n = some m) : m = n + 1 ∧ n < lastSeq := by
  rw [successor?] at behind
  split at behind
  · next below => exact ⟨(Option.some.inj behind).symm, below⟩
  · cases behind

theorem drain_spec {held ready later : List Event} {next after : Nat}
    (ascending : held.Pairwise fun x y => x.seq.toNat < y.seq.toNat)
    (ahead : ∀ h ∈ held, next ≤ h.seq.toNat)
    (drained : drain next held = some (ready, after, later)) :
    held = ready ++ later ∧ ready.map (·.seq.toNat) = List.range' next ready.length ∧
      after = next + ready.length ∧ (∀ h ∈ later, after < h.seq.toNat) ∧
      (next ≤ lastSeq → after ≤ lastSeq) := by
  induction held generalizing next ready with
  | nil =>
      cases drained
      exact ⟨rfl, rfl, rfl, fun _ none => absurd none List.not_mem_nil, id⟩
  | cons h rest ih =>
      obtain ⟨first, others⟩ := List.pairwise_cons.mp ascending
      rw [drain] at drained
      by_cases here : h.seq.toNat = next
      · rw [if_pos here] at drained
        cases behind : successor? next with
        | none => rw [behind] at drained; cases drained
        | some following =>
            obtain ⟨step, below⟩ := successor?_eq_some behind
            rw [behind] at drained
            simp only at drained
            cases more : drain following rest with
            | none => rw [more] at drained; cases drained
            | some found =>
                obtain ⟨ready', after', later'⟩ := found
                rw [more] at drained
                obtain ⟨rfl, rfl, rfl⟩ : h :: ready' = ready ∧ after' = after ∧ later' = later := by
                  cases drained
                  exact ⟨rfl, rfl, rfl⟩
                rw [step] at more
                have beyond : ∀ x ∈ rest, next + 1 ≤ x.seq.toNat := by
                  intro x member
                  have := first x member
                  omega
                -- `h` was next, so the rest is drained from the number behind it.
                obtain ⟨split, numbers, total, far, top⟩ := ih others beyond more
                refine ⟨by rw [split]; rfl, ?_, ?_, far, fun _ => top below⟩
                · rw [List.map_cons, numbers, here, List.length_cons, List.range'_succ]
                · rw [total, List.length_cons]
                  omega
      · rw [if_neg here] at drained
        cases drained
        refine ⟨rfl, rfl, rfl, fun x member => ?_, id⟩
        have low := ahead h List.mem_cons_self
        rcases List.mem_cons.mp member with rfl | later
        · omega
        · have := first x later
          omega

/-- What delivering the next events does, where the first of those held may be the next. -/
theorem settle_spec {b after : ReorderBuffer} {out total : Reordered}
    (ascending : b.held.Pairwise fun x y => x.seq.toNat < y.seq.toNat)
    (ahead : ∀ h ∈ b.held, b.next ≤ h.seq.toNat) (settled : b.settle out = some (after, total)) :
    ∃ more, total = { out with ready := out.ready ++ more } ∧
      more.map (·.seq.toNat) = List.range' b.next more.length ∧
      after.next = b.next + more.length ∧ b.held = more ++ after.held ∧ after.Ordered ∧
      after.maxHeld = b.maxHeld ∧ after.reported = b.reported.filter (after.next ≤ ·) ∧
      (b.next ≤ lastSeq → after.next ≤ lastSeq) := by
  rw [settle] at settled
  cases found : drain b.next b.held with
  | none => rw [found] at settled; cases settled
  | some drained =>
      obtain ⟨more, next, held⟩ := drained
      rw [found] at settled
      cases settled
      obtain ⟨split, numbers, total, far, top⟩ := drain_spec ascending ahead found
      refine ⟨more, rfl, numbers, total, split, ⟨?_, far⟩, rfl, rfl, top⟩
      rw [split] at ascending
      exact (List.pairwise_append.mp ascending).2.1

theorem holds_eq_false {b : ReorderBuffer} {n : Nat} (fresh : b.holds n = false) :
    ∀ h ∈ b.held, h.seq.toNat ≠ n := by
  intro h member same
  have := List.any_eq_false.mp fresh h member
  exact this (beq_iff_eq.mpr same)

theorem holds_iff {b : ReorderBuffer} {n : Nat} : b.holds n = true ↔ ∃ h ∈ b.held, h.seq.toNat = n := by
  simp [holds]

theorem seq_le_lastSeq (e : Event) : e.seq.toNat ≤ lastSeq := by
  have below := e.seq.toNat_lt
  rw [lastSeq]
  omega

/-! ## What is asked for -/

theorem mem_gap {b : ReorderBuffer} {e : Event} {n : Nat} :
    n ∈ b.gap e.seq.toNat ↔ b.next ≤ n ∧ n < e.seq.toNat ∧ n < b.next + Control.nackLimit ∧
      b.holds n = false ∧ n ∉ b.reported := by
  have top := seq_le_lastSeq e
  simp only [gap, List.mem_filter, List.mem_map, List.mem_range, Bool.and_eq_true,
    Bool.not_eq_true', List.contains_eq_mem, decide_eq_false_iff_not]
  constructor
  · rintro ⟨⟨k, inside, rfl⟩, unheld, new⟩
    exact ⟨by omega, by omega, by omega, unheld, new⟩
  · rintro ⟨low, high, near, unheld, new⟩
    exact ⟨⟨n - b.next, by omega, by omega⟩, unheld, new⟩

theorem nodup_gap (b : ReorderBuffer) (n : Nat) : (b.gap n).Nodup := by
  rw [gap, ← List.range'_eq_map_range]
  apply List.Pairwise.filter
  exact List.nodup_range'

theorem length_gap_le (b : ReorderBuffer) (n : Nat) : (b.gap n).length ≤ Control.nackLimit := by
  have short := List.length_filter_le (fun s => !b.holds s && !b.reported.contains s)
    ((List.range (min n (min (b.next + Control.nackLimit) lastSeq) - b.next)).map (b.next + ·))
  rw [List.length_map, List.length_range] at short
  exact Nat.le_trans short (by omega)

/-! ## What one push does -/

/-- The least number there is once `e` is held. -/
def least (e : Event) : List Event → Nat
  | [] => e.seq.toNat
  | h :: _ => min e.seq.toNat h.seq.toNat

/-- The number that delivering begins with once `e` is taken in: the one that is next or, where `e`
is one event too many, the least there is. -/
def turn (b : ReorderBuffer) (e : Event) : Nat :=
  if b.held.length < b.maxHeld then b.next else least e b.held

theorem insertEvent_least {e first : Event} {held rest : List Event}
    (inserted : insertEvent e held = first :: rest) : first.seq.toNat = least e held := by
  cases held with
  | nil =>
      cases inserted
      rfl
  | cons h held =>
      rw [insertEvent] at inserted
      rw [least]
      by_cases before : e.seq < h.seq
      · have lower : e.seq.toNat < h.seq.toNat := before
        rw [if_pos before] at inserted
        cases inserted
        omega
      · have upper : ¬ e.seq.toNat < h.seq.toNat := before
        rw [if_neg before] at inserted
        cases inserted
        omega

theorem turn_of_next {b : ReorderBuffer} {e : Event} (ordered : b.Ordered)
    (here : e.seq.toNat = b.next) : b.turn e = b.next := by
  rw [turn]
  split
  · rfl
  · cases held : b.held with
    | nil => exact here
    | cons h rest =>
        have far := ordered.ahead h (by simp [held])
        simp only [least]
        omega

theorem turn_le_lastSeq {b : ReorderBuffer} (e : Event) (below : b.next ≤ lastSeq) :
    b.turn e ≤ lastSeq := by
  have top := seq_le_lastSeq e
  rw [turn]
  split
  · exact below
  · cases b.held with
    | nil => exact top
    | cons h rest =>
        simp only [least]
        omega

structure Advances (b : ReorderBuffer) (e : Event) (after : ReorderBuffer) (out : Reordered) :
    Prop where
  fresh : b.next ≤ e.seq.toNat ∧ b.holds e.seq.toNat = false
  ordered : after.Ordered
  numbers : out.ready.map (·.seq.toNat) = List.range' (b.next + out.skipped) out.ready.length
  next : after.next = b.next + out.skipped + out.ready.length
  /-- Nothing is lost and nothing made up. -/
  kept : out.ready ++ after.held ~ e :: b.held
  counted : out.duplicate = false
  maxHeld : after.maxHeld = b.maxHeld
  missing : out.missing = if e.seq.toNat = b.next then [] else b.gap e.seq.toNat
  reported : after.reported = (b.reported ++ out.missing).filter (after.next ≤ ·)
  room : b.held.length ≤ b.maxHeld → after.held.length ≤ b.maxHeld
  turn : b.turn e = b.next + out.skipped
  top : b.next ≤ lastSeq → after.next ≤ lastSeq

/-- How far a push has come when it begins to deliver: `mid` is the buffer by then and `out` what is
told. -/
structure Admits (b : ReorderBuffer) (e : Event) (mid : ReorderBuffer) (out : Reordered) :
    Prop where
  fresh : b.next ≤ e.seq.toNat ∧ b.holds e.seq.toNat = false
  ascending : mid.held.Pairwise fun x y => x.seq.toNat < y.seq.toNat
  ahead : ∀ h ∈ mid.held, mid.next ≤ h.seq.toNat
  turn : b.turn e = b.next + out.skipped
  numbers : out.ready.map (·.seq.toNat) = List.range' (b.next + out.skipped) out.ready.length
  next : mid.next = b.next + out.skipped + out.ready.length
  kept : out.ready ++ mid.held ~ e :: b.held
  counted : out.duplicate = false
  maxHeld : mid.maxHeld = b.maxHeld
  missing : out.missing = if e.seq.toNat = b.next then [] else b.gap e.seq.toNat
  reported : mid.reported = b.reported ++ out.missing
  /-- An event too many is made up for by one that can be delivered. -/
  room : b.held.length ≤ b.maxHeld → mid.held.length ≤ b.maxHeld ∨
    mid.held.length = b.maxHeld + 1 ∧ ∃ h ∈ mid.held, h.seq.toNat = mid.next
  top : b.next ≤ lastSeq → mid.next ≤ lastSeq

theorem Admits.settle {b mid after : ReorderBuffer} {e : Event} {out total : Reordered}
    (admits : Admits b e mid out) (settled : mid.settle out = some (after, total)) :
    Advances b e after total := by
  obtain ⟨more, rfl, later, reached, split, ordered, same, asked, top⟩ :=
    settle_spec admits.ascending admits.ahead settled
  refine ⟨admits.fresh, ordered, ?_, ?_, ?_, admits.counted, same.trans admits.maxHeld,
    admits.missing, ?_, ?_, admits.turn, top ∘ admits.top⟩
  · show (out.ready ++ more).map _ = List.range' (b.next + out.skipped) (out.ready ++ more).length
    rw [List.map_append, admits.numbers, later, admits.next, List.length_append,
      List.range'_append_1]
  · show after.next = b.next + out.skipped + (out.ready ++ more).length
    rw [reached, admits.next, List.length_append, Nat.add_assoc]
  · show (out.ready ++ more) ++ after.held ~ e :: b.held
    rw [List.append_assoc, ← split]
    exact admits.kept
  · rw [asked, admits.reported]
  · intro few
    have lengths : mid.held.length = more.length + after.held.length := by
      rw [split, List.length_append]
    rcases admits.room few with fits | ⟨full, h, member, first⟩
    · omega
    · -- What can be delivered is not held any more.
      have gone : h ∈ more := by
        rw [split] at member
        apply (List.mem_append.mp member).resolve_right
        intro stays
        have far := ordered.ahead h stays
        omega
      have := List.length_pos_of_mem gone
      omega

/-- The event is the next one. -/
theorem admits_next {b : ReorderBuffer} {e : Event} (ordered : b.Ordered)
    (fresh : b.next ≤ e.seq.toNat ∧ b.holds e.seq.toNat = false) (here : e.seq.toNat = b.next)
    (below : b.next < lastSeq) :
    Admits b e { b with next := b.next + 1 } { ready := [e] } := by
  have number : [e].map (·.seq.toNat) = List.range' b.next 1 := by
    rw [List.map_singleton, here]
    rfl
  refine ⟨fresh, ordered.ascending, ordered.ahead, turn_of_next ordered here, number, rfl, .refl _,
    rfl, rfl, ?_, ?_, ?_, fun _ => below⟩
  · rw [if_pos here]
  · exact (List.append_nil _).symm
  · exact fun few => .inl few

/-- The event is held; if that is too much, the gap before the first held event is given up. -/
theorem admits_early {b : ReorderBuffer} {e first : Event} {rest : List Event}
    (ordered : b.Ordered) (fresh : b.next ≤ e.seq.toNat ∧ b.holds e.seq.toNat = false)
    (early : e.seq.toNat ≠ b.next) (inserted : insertEvent e b.held = first :: rest) :
    let missing := b.gap e.seq.toNat
    let held := first :: rest
    let reported := b.reported ++ missing
    if b.maxHeld < held.length then
      Admits b e { b with next := first.seq.toNat, held, reported }
        { missing, skipped := first.seq.toNat - b.next }
    else Admits b e { b with held, reported } { missing } := by
  intro missing held reported
  have perm := insertEvent_perm e b.held
  have ascending := insertEvent_ascending e b.held ordered.ascending (holds_eq_false fresh.2)
  have first_eq := insertEvent_least inserted
  rw [inserted] at perm ascending
  have ahead : ∀ h ∈ held, b.next < h.seq.toNat := by
    intro h member
    rcases List.mem_cons.mp (perm.mem_iff.mp member) with rfl | old
    · have := fresh.1
      omega
    · exact ordered.ahead h old
  have count : held.length = b.held.length + 1 := perm.length_eq
  have asked : missing = if e.seq.toNat = b.next then [] else b.gap e.seq.toNat :=
    (if_neg early).symm
  split
  · next full =>
    -- Too many: the first held event is the next one now, whatever came before it.
    have low := ahead first List.mem_cons_self
    have ahead' : ∀ h ∈ held, first.seq.toNat ≤ h.seq.toNat := by
      intro h member
      rcases List.mem_cons.mp member with rfl | later
      · exact Nat.le_refl _
      · exact Nat.le_of_lt ((List.pairwise_cons.mp ascending).1 h later)
    have start : first.seq.toNat = b.next + (first.seq.toNat - b.next) := by omega
    refine ⟨fresh, ascending, ahead', ?_, rfl, start, perm, rfl, rfl, asked, rfl, ?_,
      fun _ => seq_le_lastSeq first⟩
    · rw [turn, if_neg (by omega), ← first_eq]
      exact start
    · intro few
      exact .inr ⟨by show held.length = _; omega, first, List.mem_cons_self, rfl⟩
  · next fits =>
    have ahead' : ∀ h ∈ held, b.next ≤ h.seq.toNat := fun h member => Nat.le_of_lt (ahead h member)
    refine ⟨fresh, ascending, ahead', ?_, rfl, rfl, perm, rfl, rfl, asked, rfl, ?_, id⟩
    · rw [turn, if_pos (by omega)]
      rfl
    · intro _
      exact .inl (Nat.le_of_not_lt fits)

/-- Everything that a push can do: it passes over what it knows, it needs the number behind the
last one, or it admits the event and delivers. -/
theorem push_cases {b : ReorderBuffer} {e : Event} (ordered : b.Ordered) :
    (b.push e = some (b, { duplicate := true }) ∧
      (e.seq.toNat < b.next ∨ b.holds e.seq.toNat = true)) ∨
    (b.push e = none ∧ e.seq.toNat = b.next ∧ b.holds e.seq.toNat = false ∧ lastSeq ≤ b.next) ∨
    ∃ mid out, b.push e = mid.settle out ∧ Admits b e mid out := by
  rw [push]
  by_cases old : e.seq.toNat < b.next ∨ b.holds e.seq.toNat = true
  · left
    rw [if_pos old]
    exact ⟨rfl, old⟩
  · right
    obtain ⟨notLow, notHeld⟩ := not_or.mp old
    have fresh : b.next ≤ e.seq.toNat ∧ b.holds e.seq.toNat = false :=
      ⟨Nat.le_of_not_lt notLow, Bool.eq_false_iff.mpr notHeld⟩
    rw [if_neg old]
    by_cases here : e.seq.toNat = b.next
    · rw [if_pos here, successor?]
      by_cases below : b.next < lastSeq
      · right
        rw [if_pos below]
        exact ⟨_, _, rfl, admits_next ordered fresh here below⟩
      · left
        rw [if_neg below]
        exact ⟨rfl, here, fresh.2, Nat.le_of_not_lt below⟩
    · right
      rw [if_neg here]
      cases inserted : insertEvent e b.held with
      | nil => exact absurd (inserted ▸ insertEvent_perm e b.held).length_eq (by simp)
      | cons first rest =>
          have admits := admits_early ordered fresh here inserted
          simp only at admits ⊢
          split at admits
          · next full =>
            rw [if_pos full]
            exact ⟨_, _, rfl, admits⟩
          · next fits =>
            rw [if_neg fits]
            exact ⟨_, _, rfl, admits⟩

/-- An event is either known already, and changes nothing, or the buffer advances. -/
theorem push_spec {b after : ReorderBuffer} {e : Event} {out : Reordered} (ordered : b.Ordered)
    (pushed : b.push e = some (after, out)) :
    (after = b ∧ out = { duplicate := true } ∧
      (e.seq.toNat < b.next ∨ b.holds e.seq.toNat = true)) ∨ Advances b e after out := by
  rcases push_cases ordered with ⟨known, old⟩ | ⟨ended, -⟩ | ⟨mid, told, same, admits⟩
  · rw [known] at pushed
    cases pushed
    exact .inl ⟨rfl, rfl, old⟩
  · rw [ended] at pushed
    cases pushed
  · rw [same] at pushed
    exact .inr (admits.settle pushed)

/-- Events that leave together extend those that left before. -/
theorem Advances.ascending {b after : ReorderBuffer} {e : Event} {out : Reordered}
    {taken : List Event} (advances : b.Advances e after out)
    (ascending : taken.Pairwise fun x y => x.seq.toNat < y.seq.toNat)
    (behind : ∀ e ∈ taken, e.seq.toNat < b.next) :
    (taken ++ out.ready).Pairwise (fun x y => x.seq.toNat < y.seq.toNat) ∧
      ∀ e ∈ taken ++ out.ready, e.seq.toNat < after.next := by
  have numbers : out.ready.Pairwise fun x y => x.seq.toNat < y.seq.toNat := by
    rw [← List.pairwise_map (f := fun e : Event => e.seq.toNat) (R := (· < ·)), advances.numbers]
    exact List.pairwise_lt_range'
  have range (e : Event) (member : e ∈ out.ready) :
      b.next + out.skipped ≤ e.seq.toNat ∧ e.seq.toNat < after.next := by
    have found := List.mem_map_of_mem (f := fun e : Event => e.seq.toNat) member
    rw [advances.numbers, List.mem_range'_1] at found
    rw [advances.next]
    exact found
  constructor
  · refine List.pairwise_append.mpr ⟨ascending, numbers, fun x old y new => ?_⟩
    have low := behind x old
    have high := (range y new).1
    omega
  · intro x member
    rcases List.mem_append.mp member with old | new
    · have low := behind x old
      rw [advances.next]
      omega
    · exact (range x new).2

/-- A buffer that holds nothing lets the next event through. -/
theorem push_in_order {maxHeld n : Nat} {e : Event} (here : e.seq.toNat = n) (below : n < lastSeq) :
    push ⟨maxHeld, n, [], []⟩ e = some (⟨maxHeld, n + 1, [], []⟩, { ready := [e] }) := by
  have fresh : ¬ (e.seq.toNat < n ∨ holds ⟨maxHeld, n, [], []⟩ e.seq.toNat = true) := by
    rw [here]
    exact not_or.mpr ⟨Nat.lt_irrefl n, Bool.false_ne_true⟩
  rw [push, if_neg fresh, if_pos here, successor?, if_pos below]
  rfl

end FlexLink.ReorderBuffer
