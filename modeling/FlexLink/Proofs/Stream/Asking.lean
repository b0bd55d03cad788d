import FlexLink.Proofs.Stream.Accounting

/-! # What a reorder buffer asks for

A buffer that holds events waits for the number that is next.  It has asked for that number exactly
if an early event came while the number was in the window of one request, `awaited_asked_iff`; gaps
that fit into one request are therefore always asked for.  A longer gap is not asked for again as the
window moves, `gap_not_asked_again`: events that come in their turn move the window and ask for
nothing. -/
set_option autoImplicit false
namespace FlexLink.ReorderBuffer

open scoped List

def Push.Early (p : Push) : Prop := p.out.duplicate = false ∧ p.event.seq.toNat ≠ p.before.next

/-- Whether a number lies before the event of a push and in reach of one request. -/
def Push.Window (p : Push) (n : Nat) : Prop :=
  p.before.next ≤ n ∧ n < p.event.seq.toNat ∧ n < p.before.next + Control.nackLimit

structure Sought (maxHeld : Nat) (ps : List Push) (b : ReorderBuffer) : Prop where
  tallied : Tallied maxHeld ps b
  covered : ∀ p ∈ ps, p.Early → ∀ n, p.Window n → n < b.next ∨ b.holds n = true ∨ n ∈ asked ps
  source : ∀ h ∈ b.held, ∃ p ∈ ps, p.Early ∧ p.event = h ∧ p.before.next ≤ b.next
  named : ∀ n ∈ asked ps, ∃ p ∈ ps, p.Early ∧ p.Window n

variable {maxHeld : Nat} {ps : List Push} {b after : ReorderBuffer} {e : Event} {out : Reordered}

theorem sought_new (maxHeld : Nat) : Sought maxHeld [] (new maxHeld) := by
  refine ⟨tallied_new maxHeld, ?_, ?_, ?_⟩
  · intro p none
    cases none
  · intro h none
    cases none
  · intro n none
    cases none

theorem Sought.duplicate (sought : Sought maxHeld ps b)
    (old : e.seq.toNat < b.next ∨ b.holds e.seq.toNat = true) :
    Sought maxHeld (ps ++ [⟨b, e, b, { duplicate := true }⟩]) b := by
  have same : asked (ps ++ [⟨b, e, b, { duplicate := true }⟩]) = asked ps := by
    simp [asked_snoc]
  refine ⟨sought.tallied.duplicate old, ?_, ?_, ?_⟩
  · intro p member early
    rw [same]
    rcases List.mem_append.mp member with earlier | last
    · exact sought.covered p earlier early
    · rw [List.mem_singleton.mp last] at early
      cases early.1
  · intro h held
    obtain ⟨p, member, from_here⟩ := sought.source h held
    exact ⟨p, List.mem_append_left _ member, from_here⟩
  · intro n member
    rw [same] at member
    obtain ⟨p, mine, window⟩ := sought.named n member
    exact ⟨p, List.mem_append_left _ mine, window⟩

/-- A number in the window of an early event was asked for before, or is asked for now, or is at
hand. -/
theorem Sought.window_covered (sought : Sought maxHeld ps b) (advances : b.Advances e after out)
    (early : Push.Early ⟨b, e, after, out⟩) {n : Nat} (window : Push.Window ⟨b, e, after, out⟩ n) :
    b.holds n = true ∨ n ∈ asked ps ++ out.missing := by
  obtain ⟨low, below, near⟩ := window
  by_cases held : b.holds n = true
  · exact .inl held
  · right
    apply List.mem_append.mpr
    by_cases reported : n ∈ b.reported
    · exact .inl ((sought.tallied.reported n).mp reported).1
    · right
      rw [advances.missing, if_neg early.2]
      exact mem_gap.mpr ⟨low, below, near, Bool.eq_false_iff.mpr held, reported⟩

theorem Sought.advance (sought : Sought maxHeld ps b) (pushed : b.push e = some (after, out))
    (advances : b.Advances e after out) : Sought maxHeld (ps ++ [⟨b, e, after, out⟩]) after := by
  have onward : b.next ≤ after.next := by
    rw [advances.next]
    omega
  have stays {n : Nat} (held : b.holds n = true) : n < after.next ∨ after.holds n = true := by
    obtain ⟨h, member, number⟩ := holds_iff.mp held
    exact advances.stays (.inr ⟨h, List.mem_cons_of_mem _ member, number⟩)
  refine ⟨sought.tallied.advance pushed advances, ?_, ?_, ?_⟩
  · intro p member early n window
    rw [asked_snoc, ← or_assoc]
    rcases List.mem_append.mp member with earlier | last
    · rcases sought.covered p earlier early n window with low | held | old
      · exact .inl (.inl (Nat.lt_of_lt_of_le low onward))
      · exact .inl (stays held)
      · exact .inr (List.mem_append_left _ old)
    · rw [List.mem_singleton.mp last] at early window
      rcases sought.window_covered advances early window with held | found
      · exact .inl (stays held)
      · exact .inr found
  · intro h held
    rcases List.mem_cons.mp (advances.kept.mem_iff.mp (List.mem_append_right _ held)) with rfl | old
    · -- What is held after its own push came early: its number is ahead of the next one.
      have ahead := advances.ordered.ahead h held
      exact ⟨_, List.mem_append_right _ List.mem_cons_self,
        ⟨advances.counted, by show h.seq.toNat ≠ b.next; omega⟩, rfl, onward⟩
    · obtain ⟨p, member, early, event, low⟩ := sought.source h old
      exact ⟨p, List.mem_append_left _ member, early, event, Nat.le_trans low onward⟩
  · intro n member
    rw [asked_snoc] at member
    rcases List.mem_append.mp member with old | new
    · obtain ⟨p, mine, window⟩ := sought.named n old
      exact ⟨p, List.mem_append_left _ mine, window⟩
    · obtain ⟨low, below, near, -, -⟩ := mem_gap.mp (advances.missing_subset n new)
      exact ⟨_, List.mem_append_right _ List.mem_cons_self,
        ⟨advances.counted, by show e.seq.toNat ≠ b.next; omega⟩, low, below, near⟩

theorem Sought.push (sought : Sought maxHeld ps b) (pushed : b.push e = some (after, out)) :
    Sought maxHeld (ps ++ [⟨b, e, after, out⟩]) after := by
  rcases push_spec sought.tallied.sound.ordered pushed with ⟨rfl, rfl, old⟩ | advances
  · exact sought.duplicate old
  · exact sought.advance pushed advances

theorem sought_of_pushAll {es : List Event} (run : (new maxHeld).pushAll es = some ps) :
    Sought maxHeld ps ((new maxHeld).afterAll ps) :=
  pushAll_preserves (Sought maxHeld) Sought.push [] (sought_new maxHeld) run ps (List.prefix_refl ps)

theorem Sought.next_asked_iff (sought : Sought maxHeld ps b) :
    b.next ∈ asked ps ↔ ∃ p ∈ ps, p.Early ∧ p.Window b.next := by
  constructor
  · exact sought.named b.next
  · rintro ⟨p, member, early, window⟩
    rcases sought.covered p member early b.next window with low | held | found
    · exact absurd low (Nat.lt_irrefl _)
    · obtain ⟨h, stays, number⟩ := holds_iff.mp held
      have := sought.tallied.sound.ordered.ahead h stays
      omega
    · exact found

/-- The number that a buffer waits for was asked for exactly if some early event came while that
number was in the window of one request.  So it always was where no event comes further ahead than
one request reaches. -/
theorem awaited_asked_iff (maxHeld : Nat) (es : List Event) {ps : List Push}
    (run : (new maxHeld).pushAll es = some ps)
    (waits : ((new maxHeld).afterAll ps).held ≠ []) :
    let next := ((new maxHeld).afterAll ps).next
    (next ∈ asked ps ↔ ∃ p ∈ ps, p.Early ∧ p.Window next) ∧
      ((∀ p ∈ ps, p.event.seq.toNat ≤ p.before.next + Control.nackLimit) → next ∈ asked ps) := by
  have sought := sought_of_pushAll run
  refine ⟨sought.next_asked_iff, fun near => sought.next_asked_iff.mpr ?_⟩
  obtain ⟨h, held⟩ := List.exists_mem_of_ne_nil _ waits
  obtain ⟨p, member, early, rfl, low⟩ := sought.source h held
  have ahead := sought.tallied.sound.ordered.ahead _ held
  have reach := near p member
  exact ⟨p, member, early, low, ahead, by omega⟩

/-- Two events come too early, and the number that both wait for was asked for. -/
theorem near_gap_asked :
    ∃ ps, (new 4).pushAll (numbered [0, 3, 512]) = some ps ∧
      ((new 4).afterAll ps).next = 1 ∧ 1 ∈ asked ps := by
  refine ⟨_, rfl, rfl, ?_⟩
  obtain ⟨-, near⟩ := awaited_asked_iff 4 (numbered [0, 3, 512]) rfl (List.cons_ne_nil _ _)
  apply near
  decide +kernel

/-- A gap of a thousand numbers: 512 are asked for and come in order, and then the number 512 is
waited for and was not asked for. -/
theorem gap_not_asked_again :
    ∃ ps, (new 64).pushAll (numbered (1000 :: (List.range 512).map UInt64.ofNat)) = some ps ∧
      ((new 64).afterAll ps).held ≠ [] ∧ ((new 64).afterAll ps).next ∉ asked ps := by
  have short : ((new 64).pushAll (numbered (1000 :: (List.range 512).map UInt64.ofNat))).any
      (fun ps => !((new 64).afterAll ps).held.isEmpty
        && !(asked ps).contains ((new 64).afterAll ps).next) = true := by
    decide +kernel
  cases run : (new 64).pushAll (numbered (1000 :: (List.range 512).map UInt64.ofNat)) with
  | none =>
    rw [run] at short
    cases short
  | some ps =>
    rw [run] at short
    refine ⟨ps, rfl, ?_⟩
    simpa using short

end FlexLink.ReorderBuffer
