import Mathlib.Data.List.Nodup
import FlexLink.Proofs.Reliability.Sweeping

/-! # What a replay cache remembers

`check_cases` says all that a check can do: after the sweep a request is suppressed, or the cache
`Takes` it in one of three ways.  From this every cache is `Coherent`: its queue names each remembered
correlation once, and nothing stands behind an entry that was queued a window later. -/
set_option autoImplicit false
namespace FlexLink.ReplayCache

variable {c : ReplayCache} {now clock : Nat} {corr : String} {ts : Millis} {a : Acceptance}
  {e : String × Nat} {rest : List (String × Nat)}

/-- A cache as it can become by the local time `clock`. -/
structure Coherent (c : ReplayCache) (clock : Nat) : Prop where
  positive : 0 < c.capacity
  queued : (c.queue.map (·.1)).Nodup
  keyed : c.seen.keys.Nodup
  listed : ∀ corr, corr ∈ c.queue.map (·.1) ↔ corr ∈ c.seen.keys
  dated : ∀ e ∈ c.queue, ∀ a, c.seen.get? e.1 = some a → e.2 ≤ a.time
  past : ∀ corr a, c.seen.get? corr = some a → a.time ≤ clock
  room : c.seen.size ≤ c.capacity
  /-- Nothing stands behind an entry that was queued a window later. -/
  near : c.queue.Pairwise fun x y => x.2 < y.2 + max 1 c.lifetime

theorem coherent_new (window maxEntries clock : Nat) : (new window maxEntries).Coherent clock := by
  refine ⟨?_, List.nodup_nil, List.nodup_nil, fun corr => Iff.rfl, ?_, ?_, Nat.zero_le _,
    List.Pairwise.nil⟩
  · show 0 < max maxEntries 1
    omega
  · intro e none
    cases none
  · intro corr a none
    cases none

theorem Coherent.mono (coherent : c.Coherent clock) (later : clock ≤ now) : c.Coherent now :=
  { coherent with past := fun corr a found => Nat.le_trans (coherent.past corr a found) later }

theorem Coherent.length_queue (coherent : c.Coherent clock) : c.queue.length = c.seen.size := by
  rw [Table.size_eq, ← List.length_map (f := (·.1))]
  apply List.Perm.length_eq
  exact (List.perm_ext_iff_of_nodup coherent.queued coherent.keyed).mpr coherent.listed

theorem Coherent.queuedAt_le (coherent : c.Coherent clock) (member : e ∈ c.queue) :
    e.2 ≤ clock := by
  have known := (coherent.listed e.1).mp (List.mem_map_of_mem member)
  obtain ⟨a, found⟩ := (Table.mem_keys_iff c.seen e.1).mp known
  exact Nat.le_trans (coherent.dated e member a found) (coherent.past e.1 a found)

theorem mem_of_get?_sweep (coherent : c.Coherent clock)
    (found : (c.sweep now).seen.get? corr = some a) : c.seen.get? corr = some a := by
  rw [get?_sweep coherent.queued] at found
  split at found
  · exact (Option.filter_eq_some_iff.mp found).1
  · exact found

structure SameSettings (c d : ReplayCache) : Prop where
  window : d.window = c.window
  lifetime : d.lifetime = c.lifetime
  capacity : d.capacity = c.capacity

theorem SameSettings.trans {d e : ReplayCache} (first : SameSettings c d)
    (second : SameSettings d e) : SameSettings c e :=
  ⟨second.window.trans first.window, second.lifetime.trans first.lifetime,
    second.capacity.trans first.capacity⟩

theorem settings_sweep (different : (c.queue.map (·.1)).Nodup) (now : Nat) :
    SameSettings c (c.sweep now) := by
  rw [sweep_eq different]
  exact ⟨rfl, rfl, rfl⟩

theorem Coherent.sweep (coherent : c.Coherent clock) (later : clock ≤ now) :
    (c.sweep now).Coherent now := by
  have different := coherent.queued
  have parts : c.queue.takeWhile (c.old now) ++ c.queue.dropWhile (c.old now) = c.queue :=
    List.takeWhile_append_dropWhile
  obtain ⟨-, lifetime, capacity⟩ := settings_sweep different now
  have names : ((c.sweep now).queue.map (·.1)) = (c.queue.dropWhile (c.old now)).map (·.1)
      ++ ((c.queue.takeWhile (c.old now)).map (·.1)).filter fun corr =>
          (c.seen.get? corr).any fun a => decide (now < a.time + c.lifetime) := by
    rw [queue_sweep different, List.map_append, names_renewed]
  have kept : (c.sweep now).seen.keys.Sublist c.seen.keys := by
    rw [sweep_eq different]
    exact keys_forget_sublist _ _
  have split := different
  rw [← parts, List.map_append, List.nodup_append] at split
  obtain ⟨front, behind, apart⟩ := split
  have origin {e : String × Nat} (member : e ∈ (c.sweep now).queue) :
      e ∈ c.queue.dropWhile (c.old now) ∨ ∃ x ∈ c.queue.takeWhile (c.old now),
        ∃ a, c.seen.get? x.1 = some a ∧ now < a.time + c.lifetime ∧ e = (x.1, a.time) := by
    rw [queue_sweep different, List.mem_append, mem_renewed] at member
    exact member
  constructor
  case positive => exact capacity ▸ coherent.positive
  case queued =>
    rw [names, List.nodup_append]
    refine ⟨behind, front.filter _, ?_⟩
    intro x left y right same
    exact apart y (List.mem_of_mem_filter right) x left same.symm
  case keyed => exact coherent.keyed.sublist kept
  case listed =>
    intro corr
    have known := coherent.listed corr
    rw [← parts, List.map_append, List.mem_append] at known
    rw [names, List.mem_append, List.mem_filter, Table.mem_keys_iff, get?_sweep different]
    rw [Table.mem_keys_iff] at known
    by_cases first : corr ∈ (c.queue.takeWhile (c.old now)).map (·.1)
    · have second : corr ∉ (c.queue.dropWhile (c.old now)).map (·.1) :=
        fun second => apart corr first corr second rfl
      rw [if_pos first]
      simp [first, second, Option.any_eq_true, Option.filter_eq_some_iff]
    · rw [if_neg first]
      simpa [first] using known
  case dated =>
    intro e member a found
    have before := mem_of_get?_sweep coherent found
    rcases origin member with young | ⟨x, -, a', again, -, rfl⟩
    · exact coherent.dated e ((List.dropWhile_sublist _).subset young) a before
    · rw [again] at before
      cases before
      exact Nat.le_refl _
  case past =>
    intro corr a found
    exact Nat.le_trans (coherent.past corr a (mem_of_get?_sweep coherent found)) later
  case room =>
    rw [capacity]
    apply Nat.le_trans _ coherent.room
    rw [Table.size_eq, Table.size_eq]
    exact kept.length_le
  case near =>
    have soon {e : String × Nat} (member : e ∈ (c.sweep now).queue) : e.2 ≤ now := by
      rcases origin member with young | ⟨x, -, a, again, -, rfl⟩
      · have := coherent.queuedAt_le ((List.dropWhile_sublist _).subset young)
        omega
      · have := coherent.past x.1 a again
        show a.time ≤ now
        omega
    have renewed {e : String × Nat} (member : e ∈ (c.queue.takeWhile (c.old now)).filterMap
        (renewed? c.seen c.lifetime now)) : now < e.2 + c.lifetime := by
      obtain ⟨x, -, a, -, fresh, rfl⟩ := mem_renewed.mp member
      exact fresh
    -- What goes to the back was accepted within the window, and all else was queued by now.
    have behind {x y : String × Nat} (first : x ∈ (c.sweep now).queue)
        (second : y ∈ (c.queue.takeWhile (c.old now)).filterMap (renewed? c.seen c.lifetime now)) :
        x.2 < y.2 + max 1 c.lifetime := by
      have := soon first
      have := renewed second
      omega
    rw [queue_sweep different] at behind
    rw [lifetime, queue_sweep different, List.pairwise_append]
    refine ⟨coherent.near.sublist (List.dropWhile_sublist _), ?_, ?_⟩
    · apply List.pairwise_of_forall_mem_list
      intro x first y second
      exact behind (List.mem_append_right _ first) second
    · intro x first y second
      exact behind (List.mem_append_left _ first) second

def enter (c : ReplayCache) (corr : String) (ts : Millis) (now : Nat) : ReplayCache :=
  { c with seen := c.seen.insert corr ⟨ts, now⟩, queue := c.queue ++ [(corr, now)] }

def without (c : ReplayCache) (e : String × Nat) (rest : List (String × Nat)) : ReplayCache :=
  { c with seen := c.seen.erase e.1, queue := rest }

/-- What a swept cache becomes when it accepts a request. -/
inductive Takes (c : ReplayCache) (corr : String) (ts : Millis) (now : Nat) : ReplayCache → Prop where
  | renewed {a : Acceptance} (known : c.seen.get? corr = some a)
      (elapsed : c.window ≤ ts.toNat - a.ts.toNat) :
      Takes c corr ts now { c with seen := c.seen.insert corr ⟨ts, now⟩ }
  | entered (absent : corr ∉ c.seen.keys) (room : c.seen.size < c.capacity) :
      Takes c corr ts now (c.enter corr ts now)
  | displaced {e : String × Nat} {rest : List (String × Nat)} (absent : corr ∉ c.seen.keys)
      (queue : c.queue = e :: rest) (full : c.seen.size = c.capacity) :
      Takes c corr ts now ((c.without e rest).enter corr ts now)

theorem Takes.get?_self {after : ReplayCache} (takes : c.Takes corr ts now after) :
    after.seen.get? corr = some ⟨ts, now⟩ := by
  cases takes <;> exact (Table.get?_insert _ _ _ _).trans (if_pos rfl)

theorem Takes.get?_other {after : ReplayCache} {name : String} (takes : c.Takes corr ts now after)
    (other : name ≠ corr) :
    after.seen.get? name = c.seen.get? name ∨
      after.seen.get? name = none ∧ corr ∉ c.seen.keys ∧ c.seen.size = c.capacity := by
  cases takes with
  | renewed known elapsed => exact .inl ((Table.get?_insert _ _ _ _).trans (if_neg other))
  | entered absent room => exact .inl ((Table.get?_insert _ _ _ _).trans (if_neg other))
  | @displaced e rest absent queue full =>
    have left : ((c.without e rest).enter corr ts now).seen.get? name
        = if name = e.1 then none else c.seen.get? name :=
      (Table.get?_insert _ _ _ _).trans ((if_neg other).trans (Table.get?_erase _ _ _))
    rw [left]
    by_cases first : name = e.1
    · exact .inr ⟨if_pos first, absent, full⟩
    · exact .inl (if_neg first)

theorem evict_of_room (room : c.seen.size ≤ c.capacity) (queue : List (String × Nat)) :
    evict c queue = { c with queue := queue } := by
  cases queue with
  | nil => rfl
  | cons e rest => rw [evict, if_neg (Nat.not_lt.mpr room)]

theorem size_erase_lt {seen : Table String Acceptance} (known : corr ∈ seen.keys) :
    (seen.erase corr).size < seen.size := by
  rw [Table.size_eq, Table.size_eq, Table.keys_erase]
  apply List.length_filter_lt_length_iff_exists.mpr
  exact ⟨corr, known, by simp⟩

theorem Coherent.takes_new (coherent : c.Coherent clock) (absent : corr ∉ c.seen.keys)
    (ts : Millis) (now : Nat) :
    c.Takes corr ts now
      (evict { c with seen := c.seen.insert corr ⟨ts, now⟩ } (c.queue ++ [(corr, now)])) := by
  have grown : (c.seen.insert corr ⟨ts, now⟩).size = c.seen.size + 1 := by
    simp [Table.size_eq, Table.keys_insert_of_notMem absent]
  rcases Nat.lt_or_eq_of_le coherent.room with room | full
  · rw [evict_of_room]
    · exact .entered absent room
    · show (c.seen.insert corr ⟨ts, now⟩).size ≤ c.capacity
      omega
  · have lengths := coherent.length_queue
    have positive := coherent.positive
    cases queue : c.queue with
    | nil =>
      rw [queue, List.length_nil] at lengths
      omega
    | cons e rest =>
      have first : e.1 ∈ c.seen.keys := (coherent.listed e.1).mp (by simp [queue])
      have other : corr ≠ e.1 := fun same => absent (same ▸ first)
      have excess : c.capacity < (c.seen.insert corr ⟨ts, now⟩).size := by omega
      have fits : ((c.seen.insert corr ⟨ts, now⟩).erase e.1).size ≤ c.capacity := by
        have inserted : e.1 ∈ (c.seen.insert corr ⟨ts, now⟩).keys := by
          rw [Table.keys_insert_of_notMem absent]
          exact List.mem_append_left _ first
        have := size_erase_lt inserted
        omega
      rw [List.cons_append, evict]
      refine (if_pos excess).symm ▸ ?_
      rw [evict_of_room fits]
      simp only [Table.erase_insert absent other]
      exact .displaced absent queue full

theorem check_cases (coherent : c.Coherent clock) (later : clock ≤ now) (corr : String)
    (ts : Millis) :
    (∃ a, (c.sweep now).seen.get? corr = some a ∧ ts.toNat - a.ts.toNat < c.window ∧
      c.check corr ts now = (c.sweep now, .suppressed)) ∨
    ∃ after, (c.sweep now).Takes corr ts now after ∧ c.check corr ts now = (after, .accepted) := by
  have window := (settings_sweep coherent.queued now).window
  cases found : (c.sweep now).seen.get? corr with
  | none =>
    right
    refine ⟨_, (coherent.sweep later).takes_new ((Table.get?_eq_none_iff _ _).mp found) ts now, ?_⟩
    simp only [check, found]
  | some a =>
    by_cases elapsed : c.window ≤ ts.toNat - a.ts.toNat
    · right
      refine ⟨_, .renewed found (window ▸ elapsed), ?_⟩
      simp only [check, found, window, if_pos elapsed]
    · left
      refine ⟨a, rfl, Nat.lt_of_not_le elapsed, ?_⟩
      simp only [check, found, window, if_neg elapsed]

theorem Coherent.enter (coherent : c.Coherent now) (absent : corr ∉ c.seen.keys)
    (room : c.seen.size < c.capacity) (ts : Millis) : (c.enter corr ts now).Coherent now := by
  have keys : (c.enter corr ts now).seen.keys = c.seen.keys ++ [corr] :=
    Table.keys_insert_of_notMem absent _
  have names : (c.enter corr ts now).queue.map (·.1) = c.queue.map (·.1) ++ [corr] := by
    simp [ReplayCache.enter]
  have unlisted : corr ∉ c.queue.map (·.1) := mt (coherent.listed corr).mp absent
  have found (name : String) : (c.enter corr ts now).seen.get? name
      = if name = corr then some ⟨ts, now⟩ else c.seen.get? name :=
    Table.get?_insert _ _ _ _
  have entries {e : String × Nat} (member : e ∈ (c.enter corr ts now).queue) :
      e ∈ c.queue ∨ e = (corr, now) := by
    simpa [ReplayCache.enter] using member
  constructor
  case positive => exact coherent.positive
  case queued =>
    rw [names, ← List.concat_eq_append]
    exact coherent.queued.concat unlisted
  case keyed =>
    rw [keys, ← List.concat_eq_append]
    exact coherent.keyed.concat absent
  case listed =>
    intro name
    rw [names, keys, List.mem_append, List.mem_append, coherent.listed]
  case dated =>
    intro e member a known
    rw [found] at known
    rcases entries member with earlier | rfl
    · have other : e.1 ≠ corr := by
        intro same
        exact unlisted (same ▸ List.mem_map_of_mem earlier)
      rw [if_neg other] at known
      exact coherent.dated e earlier a known
    · rw [if_pos rfl] at known
      cases known
      exact Nat.le_refl _
  case past =>
    intro name a known
    rw [found] at known
    split at known
    · cases known
      exact Nat.le_refl _
    · exact coherent.past name a known
  case room =>
    rw [Table.size_eq, keys, List.length_append, ← Table.size_eq]
    exact room
  case near =>
    have ends : (c.enter corr ts now).queue = c.queue ++ [(corr, now)] := rfl
    rw [ends, List.pairwise_append]
    refine ⟨coherent.near, List.pairwise_singleton _ _, ?_⟩
    intro x member y last
    rw [List.mem_singleton.mp last]
    have := coherent.queuedAt_le member
    show x.2 < now + max 1 c.lifetime
    omega

theorem Coherent.without (coherent : c.Coherent now) (queue : c.queue = e :: rest) :
    (c.without e rest).Coherent now := by
  have found (name : String) : (c.without e rest).seen.get? name
      = if name = e.1 then none else c.seen.get? name :=
    Table.get?_erase _ _ _
  have keys : (c.without e rest).seen.keys = c.seen.keys.filter (· ≠ e.1) := Table.keys_erase _ _
  have queued := coherent.queued
  rw [queue, List.map_cons, List.nodup_cons] at queued
  have part : rest.Sublist c.queue := queue ▸ List.sublist_cons_self e rest
  constructor
  case positive => exact coherent.positive
  case queued => exact queued.2
  case keyed =>
    rw [keys]
    exact coherent.keyed.filter _
  case listed =>
    intro name
    have listed := coherent.listed name
    rw [queue, List.map_cons, List.mem_cons] at listed
    rw [keys, List.mem_filter, ← listed]
    show name ∈ rest.map (·.1) ↔ _
    by_cases first : name = e.1
    · simp [first, queued.1]
    · simp [first]
  case dated =>
    intro x member a known
    rw [found] at known
    split at known
    · cases known
    · exact coherent.dated x (part.subset member) a known
  case past =>
    intro name a known
    rw [found] at known
    split at known
    · cases known
    · exact coherent.past name a known
  case room =>
    apply Nat.le_trans _ coherent.room
    rw [Table.size_eq, keys, Table.size_eq]
    exact List.length_filter_le _ _
  case near => exact coherent.near.sublist part

theorem Coherent.renew (coherent : c.Coherent now) (known : corr ∈ c.seen.keys) (ts : Millis) :
    Coherent { c with seen := c.seen.insert corr ⟨ts, now⟩ } now := by
  have keys : (c.seen.insert corr ⟨ts, now⟩).keys = c.seen.keys :=
    Table.keys_insert_of_mem known _
  constructor
  case positive => exact coherent.positive
  case queued => exact coherent.queued
  case keyed => exact keys ▸ coherent.keyed
  case listed => exact keys ▸ coherent.listed
  case dated =>
    intro e member a same
    rw [Table.get?_insert] at same
    split at same
    · cases same
      exact coherent.queuedAt_le member
    · exact coherent.dated e member a same
  case past =>
    intro name a same
    rw [Table.get?_insert] at same
    split at same
    · cases same
      exact Nat.le_refl _
    · exact coherent.past name a same
  case room =>
    show (c.seen.insert corr ⟨ts, now⟩).size ≤ c.capacity
    rw [Table.size_eq, keys, ← Table.size_eq]
    exact coherent.room
  case near => exact coherent.near

theorem Coherent.takes {after : ReplayCache} (coherent : c.Coherent now)
    (takes : c.Takes corr ts now after) : after.Coherent now := by
  cases takes with
  | renewed known elapsed =>
    exact coherent.renew ((Table.mem_keys_iff _ _).mpr ⟨_, known⟩) ts
  | entered absent room => exact coherent.enter absent room ts
  | @displaced e rest absent queue full =>
    have first : e.1 ∈ c.seen.keys := (coherent.listed e.1).mp (by simp [queue])
    have smaller : (c.without e rest).seen.size < c.capacity := full ▸ size_erase_lt first
    have still : corr ∉ (c.without e rest).seen.keys := by
      show corr ∉ (c.seen.erase e.1).keys
      rw [Table.keys_erase]
      intro member
      exact absent (List.mem_filter.mp member).1
    exact (coherent.without queue).enter still smaller ts

theorem Coherent.check (coherent : c.Coherent clock) (later : clock ≤ now) (corr : String)
    (ts : Millis) : (c.check corr ts now).1.Coherent now := by
  rcases check_cases coherent later corr ts with ⟨a, -, -, same⟩ | ⟨after, takes, same⟩
  · rw [same]
    exact coherent.sweep later
  · rw [same]
    exact (coherent.sweep later).takes takes

/-- A check brings no other correlation than its own. -/
theorem Coherent.keys_check {name : String} (coherent : c.Coherent clock) (later : clock ≤ now)
    (other : name ≠ corr) (known : name ∈ (c.check corr ts now).1.seen.keys) :
    name ∈ c.seen.keys := by
  obtain ⟨a, found⟩ := (Table.mem_keys_iff _ _).mp known
  apply (Table.mem_keys_iff _ _).mpr
  rcases check_cases coherent later corr ts with ⟨-, -, -, same⟩ | ⟨after, takes, same⟩
  · rw [same] at found
    exact ⟨a, mem_of_get?_sweep coherent found⟩
  · rw [same] at found
    rcases takes.get?_other other with left | ⟨gone, -⟩
    · exact ⟨a, mem_of_get?_sweep coherent (left ▸ found)⟩
    · rw [gone] at found
      cases found

theorem Coherent.settings_check (coherent : c.Coherent clock) (later : clock ≤ now) (corr : String)
    (ts : Millis) : SameSettings c (c.check corr ts now).1 := by
  have swept := settings_sweep coherent.queued now
  rcases check_cases coherent later corr ts with ⟨a, -, -, same⟩ | ⟨after, takes, same⟩
  · rw [same]
    exact swept
  · rw [same]
    cases takes <;> exact ⟨swept.window, swept.lifetime, swept.capacity⟩

end FlexLink.ReplayCache
