import FlexLink.Proofs.Reliability.Suppressing

/-! # The queue of a replay cache

Table and queue change in three places: a new correlation enters both, a sweep takes old entries from
the front and puts those that were accepted again to the back, and a full cache gives up its front.
After every check they name the same correlations, and the loop of the sweep, which feeds the queue
that it empties, has come to its own end. -/
set_option autoImplicit false
namespace FlexLink.ReplayCache

variable {c : ReplayCache} {cutoff now : Nat} {names : List String} {corr : String}

/-! ## The loop of the sweep -/

/-- The loop of a sweep runs from `c` to `last` and takes the entries of these correlations from the
front of the queue, one after the other. -/
inductive Loops (cutoff : Nat) : (c : ReplayCache) → List String → (last : ReplayCache) → Prop where
  | ends {c : ReplayCache} (idle : c.sweepStep cutoff = none) : Loops cutoff c [] c
  | looks {c next last : ReplayCache} {e : String × Nat} {rest : List (String × Nat)}
      {names : List String} (front : c.queue = e :: rest) (step : c.sweepStep cutoff = some next)
      (more : Loops cutoff next names last) : Loops cutoff c (e.1 :: names) last

/-- What a turn of the loop leaves in the queue: the entries behind the front, and perhaps a young
one at the end. -/
theorem queue_sweepStep {next : ReplayCache} {e : String × Nat} {rest : List (String × Nat)}
    (front : c.queue = e :: rest) (step : c.sweepStep cutoff = some next) :
    ∃ again, next.queue = rest ++ again ∧ ∀ x ∈ again, cutoff < x.2 := by
  obtain ⟨name, queuedAt⟩ := e
  simp only [sweepStep, front] at step
  split at step
  · cases step
  · split at step
    · next a fresh =>
      cases step
      refine ⟨[(name, a.time)], rfl, ?_⟩
      intro x member
      rw [List.mem_singleton.mp member]
      simpa using (Option.filter_eq_some_iff.mp fresh).2
    · cases step
      refine ⟨[], ?_, ?_⟩
      · simp
      · simp

theorem sweepStep_of_young {fresh : List (String × Nat)} (queue : c.queue = fresh)
    (young : ∀ e ∈ fresh, cutoff < e.2) : c.sweepStep cutoff = none := by
  cases fresh with
  | nil => simp [sweepStep, queue]
  | cons e fresh => simp [sweepStep, queue, young e List.mem_cons_self]

/-- The loop ends before it meets an entry that it put to the back itself: those are young. -/
theorem exists_loops {todo fresh : List (String × Nat)} (queue : c.queue = todo ++ fresh)
    (young : ∀ e ∈ fresh, cutoff < e.2) :
    ∃ names last, Loops cutoff c names last ∧ names <+: todo.map (·.1) := by
  induction todo generalizing c fresh with
  | nil => exact ⟨[], c, .ends (sweepStep_of_young queue young), List.nil_prefix⟩
  | cons e todo ih =>
    cases step : c.sweepStep cutoff with
    | none => exact ⟨[], c, .ends step, List.nil_prefix⟩
    | some next =>
      have front : c.queue = e :: (todo ++ fresh) := queue
      obtain ⟨again, left, later⟩ := queue_sweepStep front step
      rw [List.append_assoc] at left
      obtain ⟨names, last, loops, first⟩ := ih left (by
        intro x member
        rcases List.mem_append.mp member with here | there
        · exact young x here
        · exact later x there)
      refine ⟨e.1 :: names, last, .looks front step loops, ?_⟩
      simpa using first

theorem Loops.sweepFor {last : ReplayCache} (loops : Loops cutoff c names last) {steps : Nat}
    (enough : names.length ≤ steps) : sweepFor cutoff steps c = last := by
  induction loops generalizing steps with
  | ends idle => exact sweepFor_of_none idle steps
  | looks front step more ih =>
    cases steps with
    | zero => simp at enough
    | succ steps =>
      rw [ReplayCache.sweepFor, step]
      exact ih (by simpa using enough)

/-- A sweep is its loop, run to the end, and looks at a front part of the queue as it was before. -/
theorem loops_sweep (c : ReplayCache) (late : c.lifetime ≤ now) :
    ∃ names, Loops (now - c.lifetime) c names (c.sweep now) ∧ names <+: c.queue.map (·.1) := by
  obtain ⟨names, last, loops, first⟩ : ∃ names last,
      Loops (now - c.lifetime) c names last ∧ names <+: c.queue.map (·.1) :=
    exists_loops (List.append_nil _).symm (by simp)
  have enough : names.length ≤ c.queue.length := by
    simpa using first.length_le
  have same : c.sweep now = last := by
    rw [sweep, if_neg (Nat.not_lt.mpr late), loops.sweepFor enough]
  rw [same]
  exact ⟨names, loops, first⟩

/-! ## Checks -/

def queued (c : ReplayCache) : List String := c.queue.map (·.1)

/-- What a check does to the queue and the table of a cache for `room` entries. -/
structure Check.Orderly (room : Nat) (k : Check) : Prop where
  bounded : k.after.size ≤ room
  once : k.after.queued.Nodup
  listed : ∀ corr, corr ∈ k.after.queued ↔ k.after.contains corr
  cached : k.verdict = .accepted → k.after.contains k.request.corr
  /-- The loop of the sweep ends and looks at no correlation twice. -/
  swept : k.before.lifetime ≤ k.request.time → ∃ names,
    Loops (k.request.time - k.before.lifetime) k.before names (k.before.sweep k.request.time) ∧
      names <+: k.before.queued ∧ names.Nodup
  /-- A correlation that is known after the sweep moves nothing. -/
  kept : (k.before.sweep k.request.time).contains k.request.corr →
    k.after.queue = (k.before.sweep k.request.time).queue
  /-- Behind one that is new, entries leave from the front, as many as are too many. -/
  evicted : ¬ (k.before.sweep k.request.time).contains k.request.corr → ∃ gone,
    (k.before.sweep k.request.time).queue ++ [(k.request.corr, k.request.time)]
        = gone ++ k.after.queue ∧
      gone.length = (k.before.sweep k.request.time).size + 1 - room

theorem contains_iff (c : ReplayCache) (corr : String) :
    c.contains corr = true ↔ corr ∈ c.seen.keys :=
  Table.contains_iff c.seen corr

theorem contains_of_get? {a : Acceptance} (found : c.seen.get? corr = some a) :
    c.contains corr = true := by
  rw [contains_iff, Table.mem_keys_iff]
  exact ⟨a, found⟩

/-- What becomes of the queue when a request is taken. -/
theorem Takes.queue {after : ReplayCache} {ts : Millis} (takes : c.Takes corr ts now after) :
    (c.contains corr → after.queue = c.queue) ∧
      (¬ c.contains corr → ∃ gone, c.queue ++ [(corr, now)] = gone ++ after.queue ∧
        gone.length = c.seen.size + 1 - c.capacity) := by
  cases takes with
  | renewed found elapsed =>
    have known := contains_of_get? found
    exact ⟨fun _ => rfl, fun absent => absurd known absent⟩
  | entered absent room =>
    refine ⟨fun known => absurd ((contains_iff c corr).mp known) absent, fun _ => ⟨[], rfl, ?_⟩⟩
    rw [List.length_nil]
    omega
  | @displaced e rest absent front full =>
    refine ⟨fun known => absurd ((contains_iff c corr).mp known) absent, fun _ => ⟨[e], ?_, ?_⟩⟩
    · rw [front]
      rfl
    · rw [List.length_singleton]
      omega

theorem Coherent.orderly {clock : Nat} (coherent : c.Coherent clock) (x : Arrival)
    (later : clock ≤ x.time) :
    Check.Orderly c.capacity
      ⟨c, x, (c.check x.corr x.ts x.time).1, (c.check x.corr x.ts x.time).2⟩ := by
  have after := coherent.check later x.corr x.ts
  have settings := (coherent.settings_check later x.corr x.ts).capacity
  have settings' := (settings_sweep coherent.queued x.time).capacity
  have moves :
      ((c.sweep x.time).contains x.corr →
        (c.check x.corr x.ts x.time).1.queue = (c.sweep x.time).queue) ∧
      (¬ (c.sweep x.time).contains x.corr → ∃ gone,
        (c.sweep x.time).queue ++ [(x.corr, x.time)]
            = gone ++ (c.check x.corr x.ts x.time).1.queue ∧
          gone.length = (c.sweep x.time).seen.size + 1 - c.capacity) := by
    rcases check_cases coherent later x.corr x.ts with ⟨a, found, -, same⟩ | ⟨next, takes, same⟩
    · rw [same]
      exact ⟨fun _ => rfl, fun absent => absurd (contains_of_get? found) absent⟩
    · rw [same, ← settings']
      exact takes.queue
  constructor
  case bounded => exact settings ▸ after.room
  case once => exact after.queued
  case listed =>
    intro corr
    rw [contains_iff]
    exact after.listed corr
  case cached =>
    intro accepted
    rcases check_cases coherent later x.corr x.ts with ⟨a, -, -, same⟩ | ⟨next, takes, same⟩
    · simp [same] at accepted
    · simp only [same]
      exact contains_of_get? takes.get?_self
  case swept =>
    intro late
    obtain ⟨names, loops, first⟩ := loops_sweep c late
    exact ⟨names, loops, first, coherent.queued.sublist first.sublist⟩
  case kept => exact moves.1
  case evicted => exact moves.2

/-- Along every run the queue names each remembered correlation once and nothing else, no more than
there is room for.  An accepted one is among them, a full cache gives up the front of the queue, and
every sweep comes to its end. -/
theorem queue_follows_table (window maxEntries : Nat) {xs : List Arrival}
    (ordered : xs.Pairwise fun x y => x.time ≤ y.time) :
    ∀ k ∈ (new window maxEntries).checkAll xs, k.Orderly (max 1 maxEntries) := by
  let Inv (log : List Check) (clock : Nat) (c : ReplayCache) : Prop :=
    c.Coherent clock ∧ c.capacity = max 1 maxEntries ∧ ∀ k ∈ log, k.Orderly (max 1 maxEntries)
  have start : Inv [] 0 (new window maxEntries) :=
    ⟨coherent_new window maxEntries 0, Nat.max_comm _ _, by simp⟩
  have upTo : ∀ x ∈ xs, x.time ≤ (xs.map (·.time)).max?.getD 0 := by
    intro x member
    exact List.le_max?_getD_of_mem (List.mem_map_of_mem member)
  obtain ⟨-, -, -, -, orderly⟩ := checkAll_preserves start (by
    intro log clock c x ⟨coherent, size, before⟩ later
    refine ⟨coherent.check later _ _, (coherent.settings_check later _ _).capacity.trans size, ?_⟩
    intro k member
    rcases List.mem_append.mp member with earlier | last
    · exact before k earlier
    · rw [List.mem_singleton.mp last, ← size]
      exact coherent.orderly x later) ordered upTo
  exact orderly

/-- The last sweep looks at "a" alone, which was accepted again after 5 milliseconds and goes behind "b";
"c" then pushes "b" out. -/
theorem queue_follows_table_of_three :
    let xs : List Arrival :=
      [⟨"a", 0, 0⟩, ⟨"a", 10, nanos 5⟩, ⟨"b", 0, nanos 6⟩, ⟨"c", 0, nanos 11⟩]
    (xs.Pairwise fun x y => x.time ≤ y.time) ∧
      (∀ k ∈ (new 10 2).checkAll xs, k.Orderly 2) ∧
      ((new 10 2).afterAll xs).queue = [("a", nanos 5), ("c", nanos 11)] := by
  intro xs
  have ordered : xs.Pairwise fun x y => x.time ≤ y.time := by decide
  exact ⟨ordered, queue_follows_table 10 2 ordered, by decide⟩

end FlexLink.ReplayCache
