import FlexLink.Proofs.Stream.Pushing

/-! # The books of a reorder buffer

Every number below the next one was either delivered or given up, and every event that is no
duplicate was either delivered or is held.  `Tallied` is the invariant that one push preserves, and
`books_balance` says what follows for whole runs. -/
set_option autoImplicit false
namespace FlexLink.ReorderBuffer

open scoped List

section Books

variable (ps : List Push)

def delivered : List Event := ps.flatMap (·.out.ready)

def abandoned : List Nat := ps.flatMap fun p => List.range' p.before.next p.out.skipped

def skips : List Push → Nat
  | [] => 0
  | p :: rest => p.out.skipped + skips rest

def asked : List Nat := ps.flatMap (·.out.missing)

def accepted : List Event := (ps.filter fun p => !p.out.duplicate).map (·.event)

variable (done : List Push) (p : Push)

theorem delivered_snoc : delivered (done ++ [p]) = delivered done ++ p.out.ready := by
  simp [delivered]

theorem abandoned_snoc :
    abandoned (done ++ [p]) = abandoned done ++ List.range' p.before.next p.out.skipped := by
  simp [abandoned]

theorem asked_snoc : asked (done ++ [p]) = asked done ++ p.out.missing := by
  simp [asked]

theorem accepted_snoc :
    accepted (done ++ [p]) = accepted done ++ if p.out.duplicate then [] else [p.event] := by
  cases known : p.out.duplicate <;> simp [accepted, known]

theorem length_abandoned : (abandoned ps).length = skips ps := by
  induction ps with
  | nil => rfl
  | cons p rest ih =>
      rw [abandoned] at ih ⊢
      rw [List.flatMap_cons, List.length_append, List.length_range', ih, skips]

end Books

structure Tallied (maxHeld : Nat) (ps : List Push) (b : ReorderBuffer) : Prop where
  sound : b.Sound
  maxHeld : b.maxHeld = max maxHeld 1
  ascending : (delivered ps).Pairwise fun x y => x.seq.toNat < y.seq.toNat
  behind : ∀ e ∈ delivered ps, e.seq.toNat < b.next
  kept : delivered ps ++ b.held ~ accepted ps
  numbers : (delivered ps).map (·.seq.toNat) ++ abandoned ps ~ List.range b.next
  reported : ∀ n, n ∈ b.reported ↔ n ∈ asked ps ∧ b.next ≤ n
  once : (asked ps).Nodup
  seen : ∀ p ∈ ps, p.event.seq.toNat < b.next ∨ b.holds p.event.seq.toNat = true

variable {maxHeld : Nat} {ps : List Push} {b after : ReorderBuffer} {e : Event} {out : Reordered}

theorem tallied_new (maxHeld : Nat) : Tallied maxHeld [] (new maxHeld) := by
  refine ⟨sound_new maxHeld, rfl, .nil, ?_, .refl _, .refl _, ?_, .nil, ?_⟩
  · intro e none
    cases none
  · intro n
    simp [new, asked]
  · intro p none
    cases none

theorem Tallied.duplicate (tallied : Tallied maxHeld ps b)
    (old : e.seq.toNat < b.next ∨ b.holds e.seq.toNat = true) :
    Tallied maxHeld (ps ++ [⟨b, e, b, { duplicate := true }⟩]) b := by
  obtain ⟨sound, limit, ascending, behind, kept, numbers, reported, once, seen⟩ := tallied
  refine ⟨sound, limit, ?_, ?_, ?_, ?_, ?_, ?_, ?_⟩
  · simpa [delivered_snoc] using ascending
  · simpa [delivered_snoc] using behind
  · simpa [delivered_snoc, accepted_snoc] using kept
  · simpa [delivered_snoc, abandoned_snoc] using numbers
  · simpa [asked_snoc] using reported
  · simpa [asked_snoc] using once
  · intro p member
    rcases List.mem_append.mp member with earlier | last
    · exact seen p earlier
    · rw [List.mem_singleton.mp last]
      exact old

/-- What is asked for now was not asked for before. -/
theorem Tallied.missing_new (tallied : Tallied maxHeld ps b) {n : Nat}
    (found : n ∈ b.gap e.seq.toNat) : n ∉ asked ps := by
  obtain ⟨low, -, -, -, new⟩ := mem_gap.mp found
  intro before
  exact new ((tallied.reported n).mpr ⟨before, low⟩)

/-- What is known stays known: it is held until it is next. -/
theorem Advances.stays (advances : b.Advances e after out) {n : Nat}
    (known : n < b.next ∨ (∃ h ∈ e :: b.held, h.seq.toNat = n)) :
    n < after.next ∨ after.holds n = true := by
  rcases known with low | ⟨h, member, rfl⟩
  · left
    rw [advances.next]
    omega
  · rcases List.mem_append.mp (advances.kept.mem_iff.mpr member) with left | stays
    · have found := List.mem_map_of_mem (f := fun e : Event => e.seq.toNat) left
      rw [advances.numbers, List.mem_range'_1] at found
      rw [advances.next]
      exact .inl found.2
    · exact .inr (holds_iff.mpr ⟨h, stays, rfl⟩)

theorem Advances.missing_subset (advances : b.Advances e after out) :
    ∀ n ∈ out.missing, n ∈ b.gap e.seq.toNat := by
  intro n member
  rw [advances.missing] at member
  split at member
  · cases member
  · exact member

theorem Advances.missing_nodup (advances : b.Advances e after out) : out.missing.Nodup := by
  rw [advances.missing]
  split
  · exact .nil
  · exact nodup_gap b _

/-- The numbers that a push goes past are given up or delivered. -/
theorem Advances.numbers_perm (advances : b.Advances e after out) {taken : List Event}
    {lost : List Nat} (numbers : taken.map (·.seq.toNat) ++ lost ~ List.range b.next) :
    (taken ++ out.ready).map (·.seq.toNat) ++ (lost ++ List.range' b.next out.skipped)
      ~ List.range after.next := by
  let gap := List.range' b.next out.skipped
  let turn := List.range' (b.next + out.skipped) out.ready.length
  let before := taken.map (·.seq.toNat)
  have onward : gap ++ turn = List.range' b.next (out.skipped + out.ready.length) :=
    List.range'_append_1
  have reach : List.range b.next ++ (gap ++ turn) = List.range after.next := by
    have all : List.range' 0 b.next ++ List.range' (0 + b.next) (out.skipped + out.ready.length)
        = List.range' 0 (b.next + (out.skipped + out.ready.length)) := List.range'_append_1
    rw [onward, advances.next, List.range_eq_range', List.range_eq_range', Nat.add_assoc]
    rwa [Nat.zero_add] at all
  rw [List.map_append, advances.numbers]
  calc (before ++ turn) ++ (lost ++ gap)
      = before ++ (turn ++ (lost ++ gap)) := List.append_assoc ..
    _ ~ before ++ ((lost ++ gap) ++ turn) := List.perm_append_comm.append_left _
    _ = (before ++ lost) ++ (gap ++ turn) := by simp only [List.append_assoc]
    _ ~ List.range b.next ++ (gap ++ turn) := numbers.append_right _
    _ = List.range after.next := reach

theorem Tallied.advance (tallied : Tallied maxHeld ps b) (pushed : b.push e = some (after, out))
    (advances : b.Advances e after out) : Tallied maxHeld (ps ++ [⟨b, e, after, out⟩]) after := by
  obtain ⟨sorted, before⟩ := advances.ascending tallied.ascending tallied.behind
  have onward : b.next ≤ after.next := by
    rw [advances.next]
    omega
  refine ⟨tallied.sound.push pushed, advances.maxHeld.trans tallied.maxHeld, ?_, ?_, ?_, ?_, ?_, ?_,
    ?_⟩
  · rw [delivered_snoc]
    exact sorted
  · rw [delivered_snoc]
    exact before
  · rw [delivered_snoc, accepted_snoc, List.append_assoc]
    simp only [advances.counted, Bool.false_eq_true, if_false]
    calc delivered ps ++ (out.ready ++ after.held)
        ~ delivered ps ++ e :: b.held := advances.kept.append_left _
      _ ~ e :: (delivered ps ++ b.held) := List.perm_middle
      _ ~ e :: accepted ps := tallied.kept.cons e
      _ ~ accepted ps ++ [e] := (List.perm_append_singleton e _).symm
  · rw [delivered_snoc, abandoned_snoc]
    exact advances.numbers_perm tallied.numbers
  · intro n
    rw [advances.reported, asked_snoc, List.mem_filter, List.mem_append, List.mem_append,
      tallied.reported, decide_eq_true_eq]
    constructor
    · rintro ⟨⟨old, -⟩ | new, low⟩
      · exact ⟨.inl old, low⟩
      · exact ⟨.inr new, low⟩
    · rintro ⟨old | new, low⟩
      · exact ⟨.inl ⟨old, Nat.le_trans onward low⟩, low⟩
      · exact ⟨.inr new, low⟩
  · rw [asked_snoc]
    refine List.nodup_append.mpr ⟨tallied.once, advances.missing_nodup, ?_⟩
    intro n old m new same
    exact tallied.missing_new (advances.missing_subset m new) (same ▸ old)
  · intro p member
    apply advances.stays
    rcases List.mem_append.mp member with earlier | last
    · rcases tallied.seen p earlier with low | held
      · exact .inl low
      · obtain ⟨h, held, number⟩ := holds_iff.mp held
        exact .inr ⟨h, List.mem_cons_of_mem _ held, number⟩
    · rw [List.mem_singleton.mp last]
      exact .inr ⟨e, List.mem_cons_self, rfl⟩

theorem Tallied.push (tallied : Tallied maxHeld ps b) (pushed : b.push e = some (after, out)) :
    Tallied maxHeld (ps ++ [⟨b, e, after, out⟩]) after := by
  rcases push_spec tallied.sound.ordered pushed with ⟨rfl, rfl, old⟩ | advances
  · exact tallied.duplicate old
  · exact tallied.advance pushed advances

theorem tallied_of_pushAll {es : List Event} (run : (new maxHeld).pushAll es = some ps)
    {done : List Push} (part : done <+: ps) :
    Tallied maxHeld done ((new maxHeld).afterAll done) :=
  pushAll_preserves (Tallied maxHeld) Tallied.push [] (tallied_new maxHeld) run done part

/-! ## Whole runs -/

structure Balanced (maxHeld : Nat) (ps : List Push) (b : ReorderBuffer) : Prop where
  ascending : (delivered ps).Pairwise fun x y => x.seq < y.seq
  new : ∀ e ∈ delivered ps, e ∈ accepted ps
  counted : (delivered ps).length + skips ps = b.next
  /-- Each number below the next one was delivered or given up, and none both or twice. -/
  numbers : (delivered ps).map (·.seq.toNat) ++ abandoned ps ~ List.range b.next
  ahead : ∀ h ∈ b.held, b.next < h.seq.toNat
  room : b.held.length ≤ max 1 maxHeld

structure Push.Answered (p : Push) : Prop where
  duplicate : p.out.duplicate = true ↔
    p.event.seq.toNat < p.before.next ∨ ∃ h ∈ p.before.held, h.seq = p.event.seq
  unchanged : p.out.duplicate = true → p.after = p.before ∧ p.out = { duplicate := true }
  few : p.out.missing.length ≤ 512
  onward : ∀ n ∈ p.out.missing, p.before.next ≤ n
  unheld : ∀ n ∈ p.out.missing, ∀ h ∈ p.before.held ++ p.after.held, h.seq.toNat ≠ n

theorem Tallied.balanced (tallied : Tallied maxHeld ps b) : Balanced maxHeld ps b := by
  refine ⟨tallied.ascending, fun e member => ?_, ?_, tallied.numbers, tallied.sound.ordered.ahead, ?_⟩
  · exact tallied.kept.mem_iff.mp (List.mem_append_left _ member)
  · have total := tallied.numbers.length_eq
    rw [List.length_append, List.length_map, length_abandoned, List.length_range] at total
    exact total
  · rw [Nat.max_comm, ← tallied.maxHeld]
    exact tallied.sound.room

theorem known_iff (b : ReorderBuffer) (e : Event) :
    b.holds e.seq.toNat = true ↔ ∃ h ∈ b.held, h.seq = e.seq := by
  simp only [holds_iff, UInt64.toNat_inj]

theorem answered_of_push (ordered : b.Ordered) (pushed : b.push e = some (after, out)) :
    Push.Answered ⟨b, e, after, out⟩ := by
  rcases push_spec ordered pushed with ⟨rfl, rfl, old⟩ | advances
  · rw [known_iff] at old
    refine ⟨⟨fun _ => old, fun _ => rfl⟩, fun _ => ⟨rfl, rfl⟩, Nat.zero_le _, ?_, ?_⟩
    · intro n none
      cases none
    · intro n none
      cases none
  · have new : out.duplicate ≠ true := by
      rw [advances.counted]
      exact Bool.false_ne_true
    have fresh : ¬ (e.seq.toNat < b.next ∨ ∃ h ∈ b.held, h.seq = e.seq) := by
      rw [← known_iff, advances.fresh.2]
      have := advances.fresh.1
      simp only [Bool.false_eq_true, or_false]
      omega
    refine ⟨⟨fun known => absurd known new, fun known => absurd known fresh⟩,
      fun known => absurd known new, ?_, ?_, ?_⟩
    · show out.missing.length ≤ 512
      rw [advances.missing]
      split
      · exact Nat.zero_le _
      · exact length_gap_le b _
    · intro n member
      exact (mem_gap.mp (advances.missing_subset n member)).1
    · intro n member h held
      obtain ⟨-, below, -, free, -⟩ := mem_gap.mp (advances.missing_subset n member)
      have other := holds_eq_false free
      rcases List.mem_append.mp held with old | stays
      · exact other h old
      · rcases List.mem_cons.mp (advances.kept.mem_iff.mp (List.mem_append_right _ stays)) with
          rfl | old
        · omega
        · exact other h old

theorem answered_of_pushAll {es : List Event} (run : (new maxHeld).pushAll es = some ps) :
    ∀ p ∈ ps, p.Answered := by
  intro p member
  obtain ⟨done, part, before, pushed⟩ := mem_pushAll run member
  have earlier : done <+: ps := (List.prefix_append done [p]).trans part
  have ordered : p.before.Ordered := before ▸ (tallied_of_pushAll run earlier).sound.ordered
  exact answered_of_push ordered pushed

/-- Where nothing is given up, the numbers below `n` are delivered once all of them came. -/
theorem Tallied.complete (tallied : Tallied maxHeld ps b)
    (unskipped : ∀ p ∈ ps, p.out.skipped = 0) {n : Nat}
    (came : ∀ k < n, ∃ p ∈ ps, p.event.seq.toNat = k) :
    ∀ k < n, ∃ e ∈ delivered ps, e.seq.toNat = k := by
  have none : abandoned ps = [] := by
    refine List.flatMap_eq_nil_iff.mpr fun p member => ?_
    rw [unskipped p member]
    rfl
  have reached : n ≤ b.next := by
    apply Nat.le_of_not_lt
    intro short
    obtain ⟨p, member, next⟩ := came b.next short
    -- What came is behind the next number or held, and what is held is ahead of it.
    rcases tallied.seen p member with low | held
    · omega
    · obtain ⟨h, stays, number⟩ := holds_iff.mp held
      have := tallied.sound.ordered.ahead h stays
      omega
  intro k below
  have found := tallied.numbers.mem_iff.mpr (List.mem_range.mpr (Nat.lt_of_lt_of_le below reached))
  rw [none, List.append_nil] at found
  exact List.mem_map.mp found

/-- Events none of which has the last number are all taken in.  Up to any point of the run the books
balance, every push is answered as it should be, no number is asked for twice, and where no number
is given up every initial stretch of numbers that came is delivered. -/
theorem books_balance (maxHeld : Nat) (es : List Event) (small : ∀ e ∈ es, e.seq.toNat < lastSeq) :
    ∃ ps, (new maxHeld).pushAll es = some ps ∧ ps.map (·.event) = es ∧
      (∀ done, done <+: ps → Balanced maxHeld done ((new maxHeld).afterAll done)) ∧
      (∀ p ∈ ps, p.Answered) ∧ (asked ps).Nodup ∧
      ∀ n, (∀ p ∈ ps, p.out.skipped = 0) → (∀ k < n, ∃ e ∈ es, e.seq.toNat = k) →
        ∀ k < n, ∃ e ∈ delivered ps, e.seq.toNat = k := by
  obtain ⟨ps, run⟩ := pushAll_of_lt (sound_new maxHeld) (fun h none => by cases none) small
  have events := events_of_pushAll run
  have all := tallied_of_pushAll run (List.prefix_refl ps)
  refine ⟨ps, run, events, fun done part => (tallied_of_pushAll run part).balanced,
    answered_of_pushAll run, all.once, fun n unskipped came => all.complete unskipped ?_⟩
  intro k below
  obtain ⟨e, member, number⟩ := came k below
  rw [← events] at member
  obtain ⟨p, mine, rfl⟩ := List.mem_map.mp member
  exact ⟨p, mine, number⟩

/-- A buffer for two events is given too many: it gives up the number 1 and takes it for a duplicate
when it comes. -/
theorem books_of_overflow :
    ∃ ps, (new 2).pushAll (numbered [0, 2, 3, 4, 1]) = some ps ∧
      (delivered ps).length + skips ps = 5 ∧ (asked ps).Nodup := by
  have small : ∀ e ∈ numbered [0, 2, 3, 4, 1], e.seq.toNat < lastSeq := by decide
  obtain ⟨ps, run, -, balanced, -, once, -⟩ := books_balance 2 _ small
  refine ⟨ps, run, ?_, once⟩
  have counted := (balanced ps (List.prefix_refl ps)).counted
  have next : ∀ qs, (new 2).pushAll (numbered [0, 2, 3, 4, 1]) = some qs →
      ((new 2).afterAll qs).next = 5 := by
    intro qs same
    cases same
    rfl
  rw [counted, next ps run]

end FlexLink.ReorderBuffer
