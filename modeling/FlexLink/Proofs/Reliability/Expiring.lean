import FlexLink.Proofs.Reliability.Suppressing

/-! # When a replay cache forgets

A correlation whose latest acceptance is a window old should be forgotten at the next check.  It is,
unless it stands in the queue behind an entry that was queued later: `expired_remembered_iff`.  That
happens only to correlations that were accepted again while they were remembered, and for less than
one more window.  `renewed_outlives_window` is such a run. -/
set_option autoImplicit false
namespace FlexLink.ReplayCache

/-- Whether an accepted correlation was still remembered. -/
def Check.Renews (k : Check) : Prop :=
  k.request.corr ∈ (k.before.sweep k.request.time).seen.keys

/-- Whether an entry that was queued within the window stands in front of a correlation. -/
def Delays (c : ReplayCache) (corr : String) (now : Nat) : Prop :=
  ∃ front e back, c.queue = front ++ e :: back ∧ e.1 = corr ∧ ∃ f ∈ front, now < f.2 + c.lifetime

variable {c : ReplayCache} {corr : String} {clock now : Nat}

/-! ## What the queue says of the latest acceptances -/

/-- How the queue and the latest acceptances `last` hang together.  Only a renewed acceptance can be
later than its entry or than one behind which it stands. -/
structure Dated (last : String → Option Check) (c : ReplayCache) : Prop where
  latest : ∀ corr a, c.seen.get? corr = some a → ∃ k, last corr = some k ∧ a = k.acceptance
  own : ∀ e ∈ c.queue, ∀ k, last e.1 = some k → ¬ k.Renews → e.2 = k.request.time
  turn : c.queue.Pairwise fun x y =>
    ∀ k, last y.1 = some k → ¬ k.Renews → x.2 ≤ k.request.time

variable {last : String → Option Check}

theorem dated_new (window maxEntries : Nat) (last : String → Option Check) :
    Dated last (new window maxEntries) := by
  refine ⟨?_, ?_, List.Pairwise.nil⟩
  · intro corr a none
    cases none
  · intro e none
    cases none

theorem Dated.sweep (dated : Dated last c) (coherent : c.Coherent clock) (now : Nat) :
    Dated last (c.sweep now) := by
  have different := coherent.queued
  constructor
  case latest =>
    intro corr a found
    exact dated.latest corr a (mem_of_get?_sweep coherent found)
  case own =>
    rw [queue_sweep different]
    intro e member k latest fresh
    rcases List.mem_append.mp member with young | again
    · exact dated.own e ((List.dropWhile_sublist _).subset young) k latest fresh
    · obtain ⟨x, -, a, found, -, rfl⟩ := mem_renewed.mp again
      obtain ⟨k', same, rfl⟩ := dated.latest x.1 a found
      rw [same] at latest
      cases latest
      rfl
  case turn =>
    -- An entry that goes to the back was accepted after it was queued, so its acceptance renews.
    have renews {y : String × Nat} (again : y ∈ (c.queue.takeWhile (c.old now)).filterMap
        (renewed? c.seen c.lifetime now)) {k : Check} (latest : last y.1 = some k) : k.Renews := by
      obtain ⟨x, first, a, found, fresh, rfl⟩ := mem_renewed.mp again
      obtain ⟨k', same, rfl⟩ := dated.latest x.1 a found
      rw [same] at latest
      cases latest
      by_contra entered
      have queued := dated.own x ((List.takeWhile_sublist _).subset first) k same entered
      have past : c.old now x = true := List.mem_takeWhile_imp first
      simp only [old, decide_eq_true_eq, Check.acceptance] at past fresh
      omega
    rw [queue_sweep different, List.pairwise_append]
    refine ⟨dated.turn.sublist (List.dropWhile_sublist _), ?_, ?_⟩
    · apply List.pairwise_of_forall_mem_list
      intro x _ y second k latest entered
      exact absurd (renews second latest) entered
    · intro x _ y second k latest entered
      exact absurd (renews second latest) entered

def withLatest (last : String → Option Check) (k : Check) (corr : String) : Option Check :=
  if k.request.corr = corr then some k else last corr

theorem Dated.without {e : String × Nat} {rest : List (String × Nat)} (dated : Dated last c)
    (queue : c.queue = e :: rest) : Dated last (c.without e rest) := by
  have part : rest.Sublist c.queue := queue ▸ List.sublist_cons_self e rest
  refine ⟨?_, fun x member => dated.own x (part.subset member), dated.turn.sublist part⟩
  intro name a found
  apply dated.latest name a
  have same : (c.without e rest).seen.get? name = if name = e.1 then none else c.seen.get? name :=
    Table.get?_erase _ _ _
  rw [same] at found
  split at found
  · cases found
  · exact found

theorem Dated.insert {k : Check} (dated : Dated last c) :
    ∀ corr a, (c.seen.insert k.request.corr k.acceptance).get? corr = some a →
      ∃ k', withLatest last k corr = some k' ∧ a = k'.acceptance := by
  intro corr a found
  rw [Table.get?_insert] at found
  rw [withLatest]
  by_cases own : corr = k.request.corr
  · rw [if_pos own] at found
    cases found
    exact ⟨k, if_pos own.symm, rfl⟩
  · rw [if_neg own] at found
    rw [if_neg (Ne.symm own)]
    exact dated.latest corr a found

theorem Dated.enter {k : Check} (dated : Dated last c) (coherent : c.Coherent k.request.time)
    (absent : k.request.corr ∉ c.seen.keys) :
    Dated (withLatest last k) (c.enter k.request.corr k.request.ts k.request.time) := by
  have unlisted {e : String × Nat} (member : e ∈ c.queue) : k.request.corr ≠ e.1 := by
    intro same
    apply absent
    rw [same]
    exact (coherent.listed e.1).mp (List.mem_map_of_mem member)
  have before {e : String × Nat} (member : e ∈ c.queue) :
      withLatest last k e.1 = last e.1 := if_neg (unlisted member)
  have ends : (c.enter k.request.corr k.request.ts k.request.time).queue
      = c.queue ++ [(k.request.corr, k.request.time)] := rfl
  constructor
  case latest => exact dated.insert
  case own =>
    rw [ends]
    intro e member k' latest entered
    rcases List.mem_append.mp member with earlier | new
    · rw [before earlier] at latest
      exact dated.own e earlier k' latest entered
    · rw [List.mem_singleton.mp new] at latest ⊢
      rw [withLatest, if_pos rfl] at latest
      cases latest
      rfl
  case turn =>
    rw [ends, List.pairwise_append]
    refine ⟨?_, List.pairwise_singleton _ _, ?_⟩
    · apply dated.turn.imp_of_mem
      intro x y _ second turn k' latest entered
      rw [before second] at latest
      exact turn k' latest entered
    · intro x first y new k' latest entered
      rw [List.mem_singleton.mp new, withLatest, if_pos rfl] at latest
      cases latest
      exact coherent.queuedAt_le first

theorem Dated.renew {k : Check} (dated : Dated last c) (renews : k.Renews) :
    Dated (withLatest last k)
      { c with seen := c.seen.insert k.request.corr k.acceptance } := by
  have before {corr : String} {k' : Check} (latest : withLatest last k corr = some k')
      (entered : ¬ k'.Renews) : last corr = some k' := by
    rw [withLatest] at latest
    split at latest
    · cases latest
      exact absurd renews entered
    · exact latest
  constructor
  case latest => exact dated.insert
  case own =>
    intro e member k' latest entered
    exact dated.own e member k' (before latest entered) entered
  case turn =>
    apply dated.turn.imp
    intro x y turn k' latest entered
    exact turn k' (before latest entered) entered

theorem Dated.check {log : List Check} (x : Arrival) (coherent : c.Coherent clock)
    (later : clock ≤ x.time) (dated : Dated (latest? · log) c) :
    Dated (latest? · (log ++ [⟨c, x, (c.check x.corr x.ts x.time).1,
      (c.check x.corr x.ts x.time).2⟩])) (c.check x.corr x.ts x.time).1 := by
  have swept := dated.sweep coherent x.time
  rcases check_cases coherent later x.corr x.ts with ⟨a, -, -, same⟩ | ⟨after, takes, same⟩
  · simp only [same, latest?_snoc, reduceCtorEq, and_false, if_false]
    exact swept
  · let k : Check := ⟨c, x, after, .accepted⟩
    have grown : (latest? · (log ++ [k])) = withLatest (latest? · log) k := by
      funext corr
      simp only [latest?_snoc, and_true, withLatest, k]
    have shape := coherent.sweep later
    simp only [same]
    rw [grown]
    cases takes with
    | renewed known elapsed =>
      have renews : k.Renews := (Table.mem_keys_iff _ _).mpr ⟨_, known⟩
      exact swept.renew renews
    | entered absent room => exact swept.enter shape absent
    | displaced absent queue full =>
      refine (swept.without queue).enter (shape.without queue) ?_
      show x.corr ∉ (Table.erase _ _).keys
      rw [Table.keys_erase]
      intro member
      exact absent (List.mem_filter.mp member).1

theorem dated_afterAll {xs : List Arrival} (window maxEntries : Nat)
    (ordered : xs.Pairwise fun x y => x.time ≤ y.time) (upTo : ∀ x ∈ xs, x.time ≤ now) :
    Dated (latest? · ((new window maxEntries).checkAll xs))
      ((new window maxEntries).afterAll xs) := by
  let Inv (log : List Check) (clock : Nat) (c : ReplayCache) : Prop :=
    c.Coherent clock ∧ Dated (latest? · log) c
  have start : Inv [] 0 (new window maxEntries) :=
    ⟨coherent_new window maxEntries 0, dated_new window maxEntries _⟩
  obtain ⟨clock, -, -, dated⟩ := checkAll_preserves start (by
    intro log clock c x ⟨coherent, dated⟩ later
    exact ⟨coherent.check later _ _, dated.check x coherent later⟩) ordered upTo
  exact dated

/-! ## What outlives its window -/

theorem takeWhile_append_of_mem {α : Type} {p : α → Bool} {xs ys : List α} {x : α}
    (member : x ∈ xs) (stops : p x = false) : (xs ++ ys).takeWhile p = xs.takeWhile p := by
  rw [List.takeWhile_append]
  apply if_neg
  intro whole
  have all : xs.takeWhile p = xs := (List.takeWhile_sublist p).eq_of_length whole
  rw [← all] at member
  rw [List.mem_takeWhile_imp member] at stops
  cases stops

/-- A sweep keeps a correlation past its window exactly if it stands behind a younger entry. -/
theorem Coherent.mem_sweep_iff {a : Acceptance} (coherent : c.Coherent clock)
    (found : c.seen.get? corr = some a) (expired : a.time + c.lifetime ≤ now) :
    corr ∈ (c.sweep now).seen.keys ↔ c.Delays corr now := by
  have parts : c.queue.takeWhile (c.old now) ++ c.queue.dropWhile (c.old now) = c.queue :=
    List.takeWhile_append_dropWhile
  rw [Table.mem_keys_iff, get?_sweep coherent.queued, found]
  constructor
  · rintro ⟨a', kept⟩
    split at kept
    · obtain ⟨same, fresh⟩ := Option.filter_eq_some_iff.mp kept
      cases same
      have := of_decide_eq_true fresh
      omega
    · next behind =>
      have listed := (coherent.listed corr).mpr ((Table.mem_keys_iff _ _).mpr ⟨a, found⟩)
      rw [← parts, List.map_append, List.mem_append] at listed
      obtain ⟨e, member, rfl⟩ := List.mem_map.mp (listed.resolve_left behind)
      cases young : c.queue.dropWhile (c.old now) with
      | nil =>
        rw [young] at member
        cases member
      | cons y rest =>
        rw [young] at parts member
        have head : c.old now y = false := by
          have := List.head?_dropWhile_not (c.old now) c.queue
          simpa [young] using this
        have fresh : now < y.2 + c.lifetime := by
          simpa [old] using head
        rcases List.mem_cons.mp member with rfl | later
        · have := coherent.dated e (parts ▸ List.mem_append_right _ member) a found
          omega
        · obtain ⟨mid, back, rfl⟩ := List.append_of_mem later
          refine ⟨c.queue.takeWhile (c.old now) ++ y :: mid, e, back, ?_, rfl, y, ?_, fresh⟩
          · rw [List.append_assoc, List.cons_append]
            exact parts.symm
          · exact List.mem_append_right _ List.mem_cons_self
  · rintro ⟨front, e, back, queue, rfl, f, first, young⟩
    have fresh : c.old now f = false := by
      simp [old]
      omega
    have different := coherent.queued
    rw [queue, List.map_append, List.nodup_append] at different
    have behind : e.1 ∉ (c.queue.takeWhile (c.old now)).map (·.1) := by
      rw [queue, takeWhile_append_of_mem first fresh]
      intro member
      have earlier := ((List.takeWhile_sublist _).map _).subset member
      exact different.2.2 _ earlier _ List.mem_cons_self rfl
    exact ⟨a, if_neg behind⟩

/-- An acceptance that is still remembered a window later renewed an earlier one, and it is not
remembered for another window. -/
theorem Dated.late {k : Check} (dated : Dated last c) (coherent : c.Coherent clock)
    (later : clock ≤ now) (latest : last corr = some k)
    (expired : k.request.time + c.lifetime ≤ now) (delays : c.Delays corr now) :
    k.Renews ∧ now < k.request.time + 2 * c.lifetime := by
  obtain ⟨front, e, back, queue, rfl, f, first, young⟩ := delays
  have member : e ∈ c.queue := by simp [queue]
  have behind {R : String × Nat → String × Nat → Prop} (pairs : c.queue.Pairwise R) : R f e := by
    rw [queue, List.pairwise_append] at pairs
    exact pairs.2.2 f first e List.mem_cons_self
  constructor
  · by_contra entered
    have := behind dated.turn k latest entered
    omega
  · obtain ⟨a, found⟩ := (Table.mem_keys_iff _ _).mp
      ((coherent.listed e.1).mp (List.mem_map_of_mem member))
    obtain ⟨k', same, rfl⟩ := dated.latest e.1 a found
    rw [latest] at same
    cases same
    have := behind coherent.near
    have := coherent.dated e member _ found
    have := coherent.queuedAt_le (e := f) (by simp [queue, first])
    simp only [Check.acceptance] at *
    omega

/-- A correlation that was accepted a window ago or earlier is forgotten by the next check, unless it
stands behind an entry that was queued within the window.  Then its acceptance renewed an earlier one
and is less than two windows old, and a request is suppressed as if the window were not over. -/
theorem expired_remembered_iff (window maxEntries : Nat) {past : List Arrival} {corr : String}
    {now : Nat} {k : Check} (ordered : past.Pairwise fun x y => x.time ≤ y.time)
    (upTo : ∀ x ∈ past, x.time ≤ now)
    (latest : latest? corr ((new window maxEntries).checkAll past) = some k)
    (expired : k.request.time + nanos window ≤ now) :
    let c := (new window maxEntries).afterAll past
    (corr ∈ (c.sweep now).seen.keys ↔ c.Delays corr now) ∧
      (c.Delays corr now → k.Renews ∧ now < k.request.time + 2 * nanos window) ∧
      ∀ ts, (c.check corr ts now).2 = .suppressed ↔
        c.Delays corr now ∧ ts.toNat < k.request.ts.toNat + window := by
  intro c
  obtain ⟨coherent, same⟩ := coherent_afterAll window maxEntries ordered upTo
  have lifetime : c.lifetime = nanos window := same.lifetime
  have span : c.window = window := same.window
  have dated := dated_afterAll window maxEntries ordered upTo
  have owned {a : Acceptance} (found : c.seen.get? corr = some a) : a = k.acceptance := by
    obtain ⟨k', same, own⟩ := dated.latest corr a found
    rw [latest] at same
    cases same
    exact own
  have late (delays : c.Delays corr now) : k.Renews ∧ now < k.request.time + 2 * nanos window := by
    rw [← lifetime] at expired ⊢
    exact dated.late coherent (Nat.le_refl now) latest expired delays
  have remembered : corr ∈ (c.sweep now).seen.keys ↔ c.Delays corr now := by
    cases found : c.seen.get? corr with
    | some a =>
      apply coherent.mem_sweep_iff found
      rw [owned found, lifetime]
      exact expired
    | none =>
      constructor
      · intro known
        obtain ⟨a, kept⟩ := (Table.mem_keys_iff _ _).mp known
        rw [mem_of_get?_sweep coherent kept] at found
        cases found
      · rintro ⟨front, e, back, queue, rfl, -⟩
        have member : e ∈ c.queue := by
          rw [queue]
          simp
        have listed := (coherent.listed e.1).mp (List.mem_map_of_mem member)
        exact absurd listed ((Table.get?_eq_none_iff _ _).mp found)
  refine ⟨remembered, late, fun ts => ?_⟩
  rcases check_cases coherent (Nat.le_refl now) corr ts with
    ⟨a, found, near, same⟩ | ⟨after, takes, same⟩
  · have verdict : (c.check corr ts now).2 = .suppressed := congrArg Prod.snd same
    simp only [verdict, true_iff]
    refine ⟨remembered.mp ((Table.mem_keys_iff _ _).mpr ⟨a, found⟩), ?_⟩
    rw [owned (mem_of_get?_sweep coherent found), span] at near
    simp only [Check.acceptance] at near
    omega
  · have verdict : (c.check corr ts now).2 = .accepted := congrArg Prod.snd same
    simp only [verdict, reduceCtorEq, false_iff]
    rintro ⟨delays, close⟩
    have known := remembered.mpr delays
    obtain ⟨-, soon⟩ := late delays
    cases takes with
    | renewed found elapsed =>
      rw [owned (mem_of_get?_sweep coherent found), (settings_sweep coherent.queued _).window, span]
        at elapsed
      simp only [Check.acceptance, nanos] at elapsed expired soon
      omega
    | entered absent _ => exact absent known
    | displaced absent _ _ => exact absent known

/-- A correlation that is accepted after 0 and 1 milliseconds stands behind one that came after 2 once
the queue has been swept after 10.  A window of 10 is over after 11, and still only a timestamp of the
next window is accepted. -/
theorem delayed_behind_younger :
    let c := (new 10 100).afterAll
      [⟨"a", 0, 0⟩, ⟨"a", 10, nanos 1⟩, ⟨"b", 0, nanos 2⟩, ⟨"b", 0, nanos 10⟩]
    c.Delays "a" (nanos 11) ∧ (c.check "a" 19 (nanos 11)).2 = .suppressed ∧
      (c.check "a" 20 (nanos 11)).2 ≠ .suppressed := by
  let past : List Arrival :=
    [⟨"a", 0, 0⟩, ⟨"a", 10, nanos 1⟩, ⟨"b", 0, nanos 2⟩, ⟨"b", 0, nanos 10⟩]
  have delays : ((new 10 100).afterAll past).Delays "a" (nanos 11) :=
    ⟨[("b", nanos 2)], ("a", nanos 1), [], rfl, rfl, ("b", nanos 2), List.mem_cons_self, by decide⟩
  have ordered : past.Pairwise fun x y => x.time ≤ y.time := by decide
  have upTo : ∀ x ∈ past, x.time ≤ nanos 11 := by decide
  have latest : latest? "a" ((new 10 100).checkAll past) = some _ := rfl
  obtain ⟨-, -, verdict⟩ := expired_remembered_iff 10 100 ordered upTo latest (by decide)
  refine ⟨delays, (verdict 19).mpr ⟨delays, by decide⟩, fun suppressed => ?_⟩
  have close := ((verdict 20).mp suppressed).2
  revert close
  decide

/-- The last repetition comes a whole window after the acceptance at one millisecond. -/
theorem renewed_outlives_window :
    ((new 10 100).checkAll [⟨"a", 0, 0⟩, ⟨"a", 10, nanos 1⟩, ⟨"b", 0, nanos 2⟩, ⟨"b", 0, nanos 10⟩,
        ⟨"a", 10, nanos 11⟩]).map (·.verdict)
      = [.accepted, .accepted, .accepted, .suppressed, .suppressed] := by
  decide

end FlexLink.ReplayCache
