import FlexLink.Proofs.Stream.Ordering

/-! # Runs of a reorder buffer

A buffer takes in events one after the other, and every push is recorded with the buffer before and
after it.  What one push preserves holds after every part of a run: `pushAll_preserves`.  A run can
stop for one reason only, the number behind the last one, and `overflow_iff` says when it is
needed. -/
set_option autoImplicit false
namespace FlexLink.ReorderBuffer

open scoped List

structure Push where
  before : ReorderBuffer
  event : Event
  after : ReorderBuffer
  out : Reordered

/-- Takes events in as long as no number behind the last one is needed. -/
def pushAll (b : ReorderBuffer) : List Event → Option (List Push)
  | [] => some []
  | e :: rest =>
    match b.push e with
    | none => none
    | some (after, out) =>
      match after.pushAll rest with
      | none => none
      | some ps => some (⟨b, e, after, out⟩ :: ps)

def afterAll (b : ReorderBuffer) (ps : List Push) : ReorderBuffer := ps.foldl (fun _ p => p.after) b

def numbered (seqs : List UInt64) : List Event := seqs.map fun seq => { v := 1, ev := "token", seq }

theorem pushAll_cons {b : ReorderBuffer} {e : Event} {rest : List Event} {ps : List Push}
    (run : b.pushAll (e :: rest) = some ps) :
    ∃ after out more, b.push e = some (after, out) ∧ after.pushAll rest = some more ∧
      ps = ⟨b, e, after, out⟩ :: more := by
  rw [pushAll] at run
  cases pushed : b.push e with
  | none =>
      rw [pushed] at run
      cases run
  | some result =>
      obtain ⟨after, out⟩ := result
      simp only [pushed] at run
      cases later : after.pushAll rest with
      | none =>
          rw [later] at run
          cases run
      | some more =>
          rw [later] at run
          cases run
          exact ⟨after, out, more, rfl, later, rfl⟩

theorem events_of_pushAll {b : ReorderBuffer} {es : List Event} {ps : List Push}
    (run : b.pushAll es = some ps) : ps.map (·.event) = es := by
  induction es generalizing b ps with
  | nil =>
      cases run
      rfl
  | cons e rest ih =>
      obtain ⟨after, out, more, -, later, rfl⟩ := pushAll_cons run
      rw [List.map_cons, ih later]

/-- What a push preserves of the pushes so far and the buffer holds after every part of a run. -/
theorem pushAll_preserves (Inv : List Push → ReorderBuffer → Prop)
    (step : ∀ {past b e after out}, Inv past b → b.push e = some (after, out) →
      Inv (past ++ [⟨b, e, after, out⟩]) after)
    {b : ReorderBuffer} {es : List Event} (past : List Push) {ps : List Push} (start : Inv past b)
    (run : b.pushAll es = some ps) :
    ∀ done, done <+: ps → Inv (past ++ done) (b.afterAll done) := by
  induction es generalizing b past ps with
  | nil =>
      cases run
      intro done part
      rw [List.prefix_nil.mp part, List.append_nil]
      exact start
  | cons e rest ih =>
      obtain ⟨after, out, more, pushed, later, rfl⟩ := pushAll_cons run
      intro done part
      rcases List.prefix_cons_iff.mp part with rfl | ⟨following, rfl, rest⟩
      · rw [List.append_nil]
        exact start
      · rw [List.append_cons]
        exact ih _ (step start pushed) later following rest

/-- The place of a push in its run. -/
theorem mem_pushAll {b : ReorderBuffer} {es : List Event} {ps : List Push} {p : Push}
    (run : b.pushAll es = some ps) (member : p ∈ ps) :
    ∃ done, done ++ [p] <+: ps ∧ p.before = b.afterAll done ∧
      p.before.push p.event = some (p.after, p.out) := by
  induction es generalizing b ps with
  | nil =>
      cases run
      cases member
  | cons e rest ih =>
      obtain ⟨after, out, more, pushed, later, rfl⟩ := pushAll_cons run
      rcases List.mem_cons.mp member with rfl | behind
      · exact ⟨[], ⟨more, rfl⟩, rfl, pushed⟩
      · obtain ⟨done, part, before, own⟩ := ih later behind
        exact ⟨⟨b, e, after, out⟩ :: done, List.prefix_cons_inj _ |>.mpr part, before, own⟩

/-! ## Where a run stops -/

/-- A buffer as it can become: no event is held that is next, none too many, and there is a number
for the next one. -/
structure Sound (b : ReorderBuffer) : Prop where
  ordered : b.Ordered
  next : b.next ≤ lastSeq
  room : b.held.length ≤ b.maxHeld

theorem sound_new (maxHeld : Nat) : (new maxHeld).Sound :=
  ⟨ordered_new maxHeld, Nat.zero_le _, Nat.zero_le _⟩

theorem Sound.push {b after : ReorderBuffer} {e : Event} {out : Reordered} (sound : b.Sound)
    (pushed : b.push e = some (after, out)) : after.Sound := by
  rcases push_spec sound.ordered pushed with ⟨rfl, -, -⟩ | advances
  · exact sound
  · refine ⟨advances.ordered, advances.top sound.next, ?_⟩
    rw [advances.maxHeld]
    exact advances.room sound.room

theorem sound_of_pushAll {b : ReorderBuffer} {es : List Event} {ps : List Push} (sound : b.Sound)
    (run : b.pushAll es = some ps) {done : List Push} (part : done <+: ps) :
    (b.afterAll done).Sound :=
  pushAll_preserves (fun _ b => b.Sound) Sound.push [] sound run done part

theorem drain_here {h : Event} {rest : List Event} {next : Nat} (here : h.seq.toNat = next)
    (below : next < lastSeq) :
    drain next (h :: rest) = (drain (next + 1) rest).map fun r => (h :: r.1, r.2) := by
  rw [drain, if_pos here, successor?, if_pos below]
  cases more : drain (next + 1) rest with
  | none =>
      simp only [more]
      rfl
  | some drained =>
      simp only [more]
      rfl

theorem drain_eq_none_iff {held : List Event} {next : Nat}
    (ascending : held.Pairwise fun x y => x.seq.toNat < y.seq.toNat)
    (ahead : ∀ h ∈ held, next ≤ h.seq.toNat) (below : next ≤ lastSeq) :
    drain next held = none ↔ ∀ n, next ≤ n → n ≤ lastSeq → ∃ h ∈ held, h.seq.toNat = n := by
  induction held generalizing next with
  | nil =>
      constructor
      · intro ended
        cases ended
      · intro all
        obtain ⟨h, none, -⟩ := all next (Nat.le_refl _) below
        cases none
  | cons h rest ih =>
      obtain ⟨first, others⟩ := List.pairwise_cons.mp ascending
      by_cases here : h.seq.toNat = next
      · by_cases more : next < lastSeq
        · have beyond : ∀ x ∈ rest, next + 1 ≤ x.seq.toNat := by
            intro x member
            have := first x member
            omega
          rw [drain_here here more, Option.map_eq_none_iff, ih others beyond more]
          constructor
          · intro all n low high
            rcases Nat.eq_or_lt_of_le low with rfl | low
            · exact ⟨h, List.mem_cons_self, here⟩
            · obtain ⟨x, member, number⟩ := all n low high
              exact ⟨x, List.mem_cons_of_mem _ member, number⟩
          · intro all n low high
            obtain ⟨x, member, number⟩ := all n (by omega) high
            rcases List.mem_cons.mp member with rfl | behind
            · omega
            · exact ⟨x, behind, number⟩
        · rw [drain, if_pos here, successor?, if_neg more]
          refine ⟨fun _ n low high => ?_, fun _ => rfl⟩
          exact ⟨h, List.mem_cons_self, by omega⟩
      · rw [drain, if_neg here]
        constructor
        · intro ended
          cases ended
        · intro all
          obtain ⟨x, member, number⟩ := all next (Nat.le_refl _) below
          have low := ahead h List.mem_cons_self
          rcases List.mem_cons.mp member with rfl | behind
          · exact absurd number here
          · have := first x behind
            omega

theorem settle_eq_none_iff {b : ReorderBuffer} {out : Reordered} :
    b.settle out = none ↔ drain b.next b.held = none := by
  rw [settle]
  cases drain b.next b.held <;> simp

/-- Whether delivering with `e` goes on up to the last number. -/
def Exhausts (b : ReorderBuffer) (e : Event) : Prop :=
  b.next ≤ e.seq.toNat ∧ b.holds e.seq.toNat = false ∧
    ∀ n, b.turn e ≤ n → n ≤ lastSeq → n = e.seq.toNat ∨ b.holds n = true

/-- Where delivering begins, every number from the turn on that is at hand is still held. -/
theorem Admits.exhausts_iff {b mid : ReorderBuffer} {e : Event} {out : Reordered}
    (admits : Admits b e mid out) :
    b.Exhausts e ↔ ∀ n, mid.next ≤ n → n ≤ lastSeq → ∃ h ∈ mid.held, h.seq.toNat = n := by
  have present (n : Nat) : (n = e.seq.toNat ∨ b.holds n = true)
      ↔ ∃ h ∈ out.ready ++ mid.held, h.seq.toNat = n := by
    simp only [admits.kept.mem_iff, List.mem_cons, holds_iff, exists_eq_or_imp]
    rw [eq_comm]
  have reach := admits.next
  constructor
  · rintro ⟨-, -, all⟩ n low high
    obtain ⟨h, member, number⟩ := (present n).mp (all n (by rw [admits.turn]; omega) high)
    rcases List.mem_append.mp member with left | stays
    · have found := List.mem_map_of_mem (f := fun e : Event => e.seq.toNat) left
      rw [admits.numbers, List.mem_range'_1, number] at found
      omega
    · exact ⟨h, stays, number⟩
  · intro all
    refine ⟨admits.fresh.1, admits.fresh.2, fun n low high => (present n).mpr ?_⟩
    rw [admits.turn] at low
    by_cases left : n < mid.next
    · have found : n ∈ out.ready.map (·.seq.toNat) := by
        rw [admits.numbers, List.mem_range'_1]
        omega
      obtain ⟨h, member, number⟩ := List.mem_map.mp found
      exact ⟨h, List.mem_append_left _ member, number⟩
    · obtain ⟨h, member, number⟩ := all n (Nat.le_of_not_lt left) high
      exact ⟨h, List.mem_append_right _ member, number⟩

theorem push_eq_none_iff {b : ReorderBuffer} {e : Event} (sound : b.Sound) :
    b.push e = none ↔ b.Exhausts e := by
  rcases push_cases (e := e) sound.ordered with
    ⟨known, old⟩ | ⟨ended, here, new, top⟩ | ⟨mid, out, same, admits⟩
  · rw [known]
    constructor
    · intro ended
      cases ended
    · rintro ⟨low, new, -⟩
      rcases old with before | held
      · omega
      · rw [new] at held
        cases held
  · -- The event itself has the last number and is next.
    refine ⟨fun _ => ⟨Nat.le_of_eq here.symm, new, fun n low high => .inl ?_⟩, fun _ => ended⟩
    rw [turn_of_next sound.ordered here] at low
    omega
  · rw [same, settle_eq_none_iff, admits.exhausts_iff]
    exact drain_eq_none_iff admits.ascending admits.ahead (admits.top sound.next)

/-- Events none of which has the last number never stop a run. -/
theorem pushAll_of_lt {b : ReorderBuffer} {es : List Event} (sound : b.Sound)
    (held : ∀ h ∈ b.held, h.seq.toNat < lastSeq) (small : ∀ e ∈ es, e.seq.toNat < lastSeq) :
    ∃ ps, b.pushAll es = some ps := by
  induction es generalizing b with
  | nil => exact ⟨[], rfl⟩
  | cons e rest ih =>
      obtain ⟨here, others⟩ := List.forall_mem_cons.mp small
      cases pushed : b.push e with
      | none =>
          obtain ⟨-, -, all⟩ := (push_eq_none_iff sound).mp pushed
          rcases all lastSeq (turn_le_lastSeq e sound.next) (Nat.le_refl _) with own | other
          · omega
          · obtain ⟨h, member, number⟩ := holds_iff.mp other
            have := held h member
            omega
      | some result =>
          obtain ⟨after, out⟩ := result
          have still : ∀ h ∈ after.held, h.seq.toNat < lastSeq := by
            rcases push_spec sound.ordered pushed with ⟨rfl, -, -⟩ | advances
            · exact held
            · intro h member
              have kept := advances.kept.mem_iff.mp (List.mem_append_right _ member)
              rcases List.mem_cons.mp kept with rfl | old
              · exact here
              · exact held h old
          obtain ⟨more, later⟩ := ih (sound.push pushed) still others
          refine ⟨⟨b, e, after, out⟩ :: more, ?_⟩
          rw [pushAll]
          simp only [pushed, later]

theorem pushAll_eq_none_iff {b : ReorderBuffer} {es : List Event} (sound : b.Sound) :
    b.pushAll es = none ↔ ∃ done e later ps, es = done ++ e :: later ∧
      b.pushAll done = some ps ∧ (b.afterAll ps).Exhausts e := by
  induction es generalizing b with
  | nil =>
      constructor
      · intro ended
        cases ended
      · rintro ⟨done, e, later, ps, split, -⟩
        exact absurd split.symm (by simp)
  | cons e rest ih =>
      cases pushed : b.push e with
      | none =>
          have stops : b.pushAll (e :: rest) = none := by
            rw [pushAll]
            simp only [pushed]
          refine ⟨fun _ => ⟨[], e, rest, [], rfl, rfl, (push_eq_none_iff sound).mp pushed⟩,
            fun _ => stops⟩
      | some result =>
          obtain ⟨after, out⟩ := result
          have goes (more : List Event) : b.pushAll (e :: more)
              = (after.pushAll more).map (⟨b, e, after, out⟩ :: ·) := by
            rw [pushAll]
            simp only [pushed]
            cases after.pushAll more <;> rfl
          rw [goes, Option.map_eq_none_iff, ih (sound.push pushed)]
          constructor
          · rintro ⟨done, x, later, ps, rfl, run, exhausts⟩
            refine ⟨e :: done, x, later, ⟨b, e, after, out⟩ :: ps, rfl, ?_, exhausts⟩
            rw [goes, run]
            rfl
          · rintro ⟨done, x, later, ps, split, run, exhausts⟩
            cases done with
            | nil =>
                cases split
                cases run
                rw [(push_eq_none_iff sound).mpr exhausts] at pushed
                cases pushed
            | cons y done =>
                cases split
                rw [goes] at run
                obtain ⟨more, own, rfl⟩ := Option.map_eq_some_iff.mp run
                exact ⟨done, x, later, more, rfl, own, exhausts⟩

/-- A run from an empty buffer stops exactly where everything from the turn up to the last number is
at hand, for then the number behind the last one is needed.  Up to there the next number is a
number, and what is given up is what lies before the turn. -/
theorem overflow_iff (maxHeld : Nat) (es : List Event) :
    ((new maxHeld).pushAll es = none ↔ ∃ done e later ps, es = done ++ e :: later ∧
      (new maxHeld).pushAll done = some ps ∧ ((new maxHeld).afterAll ps).Exhausts e) ∧
    ∀ ps, (new maxHeld).pushAll es = some ps →
      (∀ done, done <+: ps → ((new maxHeld).afterAll done).next ≤ lastSeq) ∧
      ∀ p ∈ ps, p.out.duplicate = false →
        p.before.next + p.out.skipped = p.before.turn p.event := by
  have sound := sound_new maxHeld
  refine ⟨pushAll_eq_none_iff sound, fun ps run => ⟨fun done part => ?_, fun p member fresh => ?_⟩⟩
  · exact (sound_of_pushAll sound run part).next
  · obtain ⟨done, part, before, pushed⟩ := mem_pushAll run member
    have earlier : done <+: ps := (List.prefix_append done [p]).trans part
    have ordered : p.before.Ordered := before ▸ (sound_of_pushAll sound run earlier).ordered
    rcases push_spec ordered pushed with ⟨-, known, -⟩ | advances
    · rw [known] at fresh
      cases fresh
    · exact advances.turn.symm

theorem exhausted_at_top :
    ∃ done e later ps,
      numbered [0xFFFFFFFFFFFFFFFF, 0xFFFFFFFFFFFFFFFE] = done ++ e :: later ∧
        (new 1).pushAll done = some ps ∧ ((new 1).afterAll ps).Exhausts e := by
  obtain ⟨stops, -⟩ := overflow_iff 1 (numbered [0xFFFFFFFFFFFFFFFF, 0xFFFFFFFFFFFFFFFE])
  exact stops.mp rfl

/-- Where one event at most is held, the last number and then the one before it stop a run. -/
theorem top_overflows :
    (new 1).pushAll (numbered [0xFFFFFFFFFFFFFFFF, 0xFFFFFFFFFFFFFFFE]) = none := by
  rfl

end FlexLink.ReorderBuffer
