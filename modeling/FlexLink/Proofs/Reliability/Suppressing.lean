import Mathlib.Data.List.Induction
import Mathlib.Data.List.Perm.Subperm
import FlexLink.Proofs.Reliability.Remembering

/-! # Runs of a replay cache

Requests come one after the other, and every check is recorded with the cache before and after it.
What one check preserves holds after every run: `checkAll_preserves`.  Where no more different
correlations come than the cache can hold, the latest acceptance of each is remembered for a full
window, so a repetition within the window is suppressed: `repetition_suppressed`. -/
set_option autoImplicit false
namespace FlexLink.ReplayCache

structure Arrival where
  corr : String
  ts : Millis
  time : Nat

structure Check where
  before : ReplayCache
  request : Arrival
  after : ReplayCache
  verdict : ReplayVerdict

def checkAll (c : ReplayCache) : List Arrival → List Check
  | [] => []
  | x :: rest =>
    let (after, verdict) := c.check x.corr x.ts x.time
    ⟨c, x, after, verdict⟩ :: after.checkAll rest

def afterAll (c : ReplayCache) (xs : List Arrival) : ReplayCache :=
  xs.foldl (fun c x => (c.check x.corr x.ts x.time).1) c

/-- The check that accepted a correlation last. -/
def latest? (corr : String) (log : List Check) : Option Check :=
  log.reverse.find? fun k => decide (k.request.corr = corr ∧ k.verdict = .accepted)

def Check.acceptance (k : Check) : Acceptance := ⟨k.request.ts, k.request.time⟩

variable {c : ReplayCache} {log : List Check} {xs : List Arrival} {x : Arrival} {clock now : Nat}

theorem afterAll_snoc (c : ReplayCache) (xs : List Arrival) (x : Arrival) :
    c.afterAll (xs ++ [x]) = ((c.afterAll xs).check x.corr x.ts x.time).1 := by
  simp [afterAll]

theorem checkAll_snoc (c : ReplayCache) (xs : List Arrival) (x : Arrival) :
    c.checkAll (xs ++ [x]) = c.checkAll xs ++ [⟨c.afterAll xs, x,
      ((c.afterAll xs).check x.corr x.ts x.time).1,
      ((c.afterAll xs).check x.corr x.ts x.time).2⟩] := by
  induction xs generalizing c with
  | nil => rfl
  | cons y rest ih =>
    have goes (more : List Arrival) : c.checkAll (y :: more)
        = ⟨c, y, (c.check y.corr y.ts y.time).1, (c.check y.corr y.ts y.time).2⟩
          :: (c.check y.corr y.ts y.time).1.checkAll more := rfl
    rw [List.cons_append, goes, goes, ih]
    rfl

theorem requests_checkAll (c : ReplayCache) (xs : List Arrival) :
    (c.checkAll xs).map (·.request) = xs := by
  induction xs generalizing c with
  | nil => rfl
  | cons x rest ih => simp [checkAll, ih]

theorem latest?_snoc (corr : String) (log : List Check) (k : Check) :
    latest? corr (log ++ [k])
      = if k.request.corr = corr ∧ k.verdict = .accepted then some k else latest? corr log := by
  rw [latest?, List.reverse_append, List.reverse_singleton, List.singleton_append, List.find?_cons]
  by_cases own : k.request.corr = corr ∧ k.verdict = .accepted
  · simp [own]
  · simp only [decide_eq_false own, if_neg own]
    rfl

/-- What a check preserves of the checks so far, the clock and the cache holds after every run. -/
theorem checkAll_preserves {Inv : List Check → Nat → ReplayCache → Prop} (start : Inv [] 0 c)
    (step : ∀ {log clock c} (x : Arrival), Inv log clock c → clock ≤ x.time →
      Inv (log ++ [⟨c, x, (c.check x.corr x.ts x.time).1, (c.check x.corr x.ts x.time).2⟩]) x.time
        (c.check x.corr x.ts x.time).1)
    (ordered : xs.Pairwise fun x y => x.time ≤ y.time) (upTo : ∀ x ∈ xs, x.time ≤ now) :
    ∃ clock ≤ now, Inv (c.checkAll xs) clock (c.afterAll xs) := by
  induction xs using List.reverseRecOn generalizing now with
  | nil => exact ⟨0, Nat.zero_le _, start⟩
  | append_singleton xs x ih =>
    obtain ⟨earlier, -, last⟩ := List.pairwise_append.mp ordered
    obtain ⟨clock, before, inv⟩ := ih earlier fun y member => last y member x List.mem_cons_self
    refine ⟨x.time, upTo x (List.mem_append_right _ List.mem_cons_self), ?_⟩
    rw [checkAll_snoc, afterAll_snoc]
    exact step x inv before

/-- A cache keeps its settings and its shape. -/
theorem coherent_afterAll (window maxEntries : Nat)
    (ordered : xs.Pairwise fun x y => x.time ≤ y.time) (upTo : ∀ x ∈ xs, x.time ≤ now) :
    ((new window maxEntries).afterAll xs).Coherent now ∧
      SameSettings (new window maxEntries) ((new window maxEntries).afterAll xs) := by
  let Inv (_ : List Check) (clock : Nat) (c : ReplayCache) : Prop :=
    c.Coherent clock ∧ SameSettings (new window maxEntries) c
  have start : Inv [] 0 (new window maxEntries) :=
    ⟨coherent_new window maxEntries 0, rfl, rfl, rfl⟩
  obtain ⟨clock, later, coherent, same⟩ := checkAll_preserves start (by
    intro log clock c x ⟨coherent, same⟩ later
    exact ⟨coherent.check later _ _, same.trans (coherent.settings_check later x.corr x.ts)⟩)
    ordered upTo
  exact ⟨coherent.mono later, same⟩

/-! ## Enough room -/

/-- What a sweep finds within the window stays. -/
theorem Coherent.get?_sweep_fresh {corr : String} {a : Acceptance} (coherent : c.Coherent clock)
    (found : c.seen.get? corr = some a) (fresh : now < a.time + c.lifetime) :
    (c.sweep now).seen.get? corr = some a := by
  rw [get?_sweep coherent.queued, found]
  split
  · simp [Option.filter_some, fresh]
  · rfl

theorem Coherent.keys_sweep_subset (coherent : c.Coherent clock) :
    (c.sweep now).seen.keys ⊆ c.seen.keys := by
  rw [sweep_eq coherent.queued]
  exact (keys_forget_sublist _ _).subset

/-- A cache that has room for every correlation among `names`. -/
structure Ample (names : List String) (log : List Check) (clock : Nat) (c : ReplayCache) :
    Prop where
  coherent : c.Coherent clock
  room : names.length ≤ c.capacity
  came : ∀ corr ∈ c.seen.keys, ∃ k ∈ log, k.request.corr = corr
  latest : (∀ k ∈ log, k.request.corr ∈ names) → ∀ corr k, latest? corr log = some k →
    clock < k.request.time + c.lifetime → c.seen.get? corr = some k.acceptance

variable {names : List String}

theorem ample_new {window maxEntries : Nat}
    (room : names.length ≤ (new window maxEntries).capacity) :
    Ample names [] 0 (new window maxEntries) := by
  refine ⟨coherent_new window maxEntries 0, room, ?_, ?_⟩
  · intro corr none
    cases none
  · intro _ corr k none
    cases none

/-- Where every correlation is among `names`, none has to leave for a new one. -/
theorem Ample.no_displacement {corr : String} (ample : Ample names log clock c)
    (named : ∀ k ∈ log, k.request.corr ∈ names) (own : corr ∈ names)
    (absent : corr ∉ (c.sweep now).seen.keys) (later : clock ≤ now) :
    (c.sweep now).seen.size < c.capacity := by
  have different : (corr :: (c.sweep now).seen.keys).Nodup :=
    List.nodup_cons.mpr ⟨absent, (ample.coherent.sweep later).keyed⟩
  have part : corr :: (c.sweep now).seen.keys ⊆ names := by
    apply List.cons_subset.mpr
    refine ⟨own, fun name known => ?_⟩
    obtain ⟨k, member, rfl⟩ := ample.came name (ample.coherent.keys_sweep_subset known)
    exact named k member
  have few := (different.subperm part).length_le
  have := ample.room
  rw [List.length_cons, ← Table.size_eq] at few
  omega

theorem Ample.check (x : Arrival) (ample : Ample names log clock c) (later : clock ≤ x.time) :
    Ample names
      (log ++ [⟨c, x, (c.check x.corr x.ts x.time).1, (c.check x.corr x.ts x.time).2⟩]) x.time
      (c.check x.corr x.ts x.time).1 := by
  have settings := ample.coherent.settings_check later x.corr x.ts
  have swept {corr : String} {a : Acceptance} (found : c.seen.get? corr = some a)
      (fresh : x.time < a.time + c.lifetime) : (c.sweep x.time).seen.get? corr = some a :=
    ample.coherent.get?_sweep_fresh found fresh
  refine ⟨ample.coherent.check later _ _, settings.capacity ▸ ample.room, ?_, ?_⟩
  · intro corr known
    rcases Decidable.eq_or_ne x.corr corr with mine | other
    · exact ⟨_, List.mem_append_right _ List.mem_cons_self, mine⟩
    · obtain ⟨k, member, own⟩ := ample.came corr (ample.coherent.keys_check later (.symm other) known)
      exact ⟨k, List.mem_append_left _ member, own⟩
  · intro named corr k latest fresh
    rw [settings.lifetime] at fresh
    have namedBefore : ∀ k ∈ log, k.request.corr ∈ names :=
      fun k member => named k (List.mem_append_left _ member)
    have own : x.corr ∈ names := named _ (List.mem_append_right _ List.mem_cons_self)
    have kept {k : Check} (earlier : latest? corr log = some k)
        (fresh : x.time < k.request.time + c.lifetime) :
        (c.sweep x.time).seen.get? corr = some k.acceptance :=
      ample.coherent.get?_sweep_fresh
        (ample.latest namedBefore corr k earlier (Nat.lt_of_le_of_lt later fresh)) fresh
    rw [latest?_snoc] at latest
    rcases check_cases ample.coherent later x.corr x.ts with
      ⟨a, -, -, same⟩ | ⟨after, takes, same⟩
    · simp only [same, reduceCtorEq, and_false, if_false] at latest ⊢
      exact kept latest fresh
    · simp only [same, and_true] at latest ⊢
      by_cases mine : x.corr = corr
      · rw [if_pos mine] at latest
        cases latest
        exact mine ▸ takes.get?_self
      · rw [if_neg mine] at latest
        rcases takes.get?_other (Ne.symm mine) with found | ⟨-, absent, full⟩
        · exact found.trans (kept latest fresh)
        · have := ample.no_displacement namedBefore own absent later
          have := (settings_sweep ample.coherent.queued x.time).capacity
          omega

/-- A request that repeats the correlation of an accepted one is suppressed for a full window of
local time, unless its timestamp is a window ahead of the accepted one.  The cache must have room for
the correlations that come. -/
theorem repetition_suppressed (window maxEntries : Nat) {past : List Arrival} {x : Arrival}
    {k : Check} {names : List String}
    (ordered : (past ++ [x]).Pairwise fun y z => y.time ≤ z.time)
    (named : ∀ y ∈ past, y.corr ∈ names) (few : names.length ≤ max 1 maxEntries)
    (latest : latest? x.corr ((new window maxEntries).checkAll past) = some k)
    (soon : x.time < k.request.time + nanos window)
    (close : x.ts.toNat < k.request.ts.toNat + window) :
    (((new window maxEntries).afterAll past).check x.corr x.ts x.time).2 = .suppressed := by
  obtain ⟨earlier, -, last⟩ := List.pairwise_append.mp ordered
  have upTo : ∀ y ∈ past, y.time ≤ x.time := fun y member => last y member x List.mem_cons_self
  have room : names.length ≤ (new window maxEntries).capacity := by
    rw [Nat.max_comm] at few
    exact few
  obtain ⟨clock, later, ample⟩ := checkAll_preserves (ample_new room) Ample.check earlier upTo
  obtain ⟨-, same⟩ := coherent_afterAll window maxEntries earlier upTo
  have span : ((new window maxEntries).afterAll past).lifetime = nanos window := same.lifetime
  have came : ∀ k ∈ (new window maxEntries).checkAll past, k.request.corr ∈ names := by
    intro k member
    apply named
    rw [← requests_checkAll (new window maxEntries) past]
    exact List.mem_map_of_mem member
  have known : ((new window maxEntries).afterAll past).seen.get? x.corr = some k.acceptance := by
    apply ample.latest came x.corr k latest
    rw [span]
    exact Nat.lt_of_le_of_lt later soon
  have kept := ample.coherent.get?_sweep_fresh known (span.symm ▸ soon)
  rcases check_cases ample.coherent later x.corr x.ts with ⟨-, -, -, same⟩ | ⟨after, takes, -⟩
  · rw [same]
  · -- Taking it would need a timestamp that is a window ahead.
    cases takes with
    | renewed found elapsed =>
      rw [kept] at found
      cases found
      have ahead : window ≤ x.ts.toNat - k.request.ts.toNat := by
        rwa [(settings_sweep ample.coherent.queued _).window, same.window] at elapsed
      have := ample.coherent.past _ _ known
      simp only [Check.acceptance, nanos] at this soon
      omega
    | entered absent _ =>
      exact absurd ((Table.mem_keys_iff _ _).mpr ⟨_, kept⟩) absent
    | displaced absent _ _ =>
      exact absurd ((Table.mem_keys_iff _ _).mpr ⟨_, kept⟩) absent

/-- Two correlations share a cache for two.  One is accepted a second time and then repeated in the
last moment of its new window. -/
theorem last_moment_suppressed :
    (((new 100 2).afterAll [⟨"a", 50, 0⟩, ⟨"b", 0xFFFFFFFFFFFFFFFF, nanos 30⟩, ⟨"a", 150, nanos 60⟩,
      ⟨"b", 7, nanos 110⟩]).check "a" 249 (nanos 160 - 1)).2 = .suppressed := by
  let past : List Arrival :=
    [⟨"a", 50, 0⟩, ⟨"b", 0xFFFFFFFFFFFFFFFF, nanos 30⟩, ⟨"a", 150, nanos 60⟩, ⟨"b", 7, nanos 110⟩]
  let x : Arrival := ⟨"a", 249, nanos 160 - 1⟩
  have ordered : (past ++ [x]).Pairwise fun y z => y.time ≤ z.time := by decide
  have named : ∀ y ∈ past, y.corr ∈ ["a", "b"] := by decide
  exact repetition_suppressed 100 2 ordered named (by decide) rfl (by decide) (by decide)

end FlexLink.ReplayCache
