import Mathlib.Data.List.Basic
import Mathlib.Data.List.TakeWhile
import FlexLink.Proofs.Tables
import FlexLink.Reliability.Replay

/-! # The sweep of a replay cache

A sweep looks at the queue entry by entry.  `sweep_eq` says at once what it does: the old front of the
queue leaves, and what was accepted again since it was queued goes to the back. -/
set_option autoImplicit false
namespace FlexLink.ReplayCache

variable {c : ReplayCache} {now : Nat} {e : String × Nat} {todo rest : List (String × Nat)}

/-- Whether an entry was queued a full window ago. -/
def old (c : ReplayCache) (now : Nat) (e : String × Nat) : Bool := decide (e.2 + c.lifetime ≤ now)

/-- The entry that takes the place of an old one: its correlation was accepted again within the
window. -/
def renewed? (seen : Table String Acceptance) (lifetime now : Nat) (e : String × Nat) :
    Option (String × Nat) :=
  ((seen.get? e.1).filter fun a => decide (now < a.time + lifetime)).map fun a => (e.1, a.time)

theorem mem_renewed {seen : Table String Acceptance} {lifetime : Nat} :
    e ∈ todo.filterMap (renewed? seen lifetime now)
      ↔ ∃ x ∈ todo, ∃ a, seen.get? x.1 = some a ∧ now < a.time + lifetime ∧ e = (x.1, a.time) := by
  simp only [List.mem_filterMap, renewed?, Option.map_eq_some_iff, Option.filter_eq_some_iff,
    decide_eq_true_eq, and_assoc, eq_comm (a := e)]

/-- The names of renewed entries, in their order. -/
theorem names_renewed (seen : Table String Acceptance) (lifetime now : Nat)
    (todo : List (String × Nat)) :
    (todo.filterMap (renewed? seen lifetime now)).map (·.1)
      = (todo.map (·.1)).filter fun corr =>
          (seen.get? corr).any fun a => decide (now < a.time + lifetime) := by
  induction todo with
  | nil => rfl
  | cons e todo ih =>
    rw [List.map_cons, List.filter_cons, ← ih, List.filterMap_cons, renewed?]
    cases seen.get? e.1 with
    | none => simp
    | some a =>
      rw [Option.filter_some, Option.any_some]
      by_cases fresh : now < a.time + lifetime
      · simp only [fresh, decide_true, if_true, Option.map_some, List.map_cons]
      · simp only [fresh, decide_false, Bool.false_eq_true, if_false, Option.map_none]

def forget (seen : Table String Acceptance) (entries : List (String × Nat)) :
    Table String Acceptance :=
  entries.foldl (fun t e => t.erase e.1) seen

theorem get?_forget (seen : Table String Acceptance) (entries : List (String × Nat))
    (corr : String) :
    (forget seen entries).get? corr
      = if corr ∈ entries.map (·.1) then none else seen.get? corr := by
  induction entries generalizing seen with
  | nil => simp [forget]
  | cons e entries ih =>
    have step : forget seen (e :: entries) = forget (seen.erase e.1) entries := rfl
    rw [step, ih, Table.get?_erase]
    by_cases here : corr = e.1
    · simp [here]
    · simp only [List.map_cons, List.mem_cons, here, false_or, if_false]

theorem keys_forget_sublist (seen : Table String Acceptance) (entries : List (String × Nat)) :
    (forget seen entries).keys.Sublist seen.keys := by
  induction entries generalizing seen with
  | nil => exact List.Sublist.refl _
  | cons e entries ih =>
    have step : forget seen (e :: entries) = forget (seen.erase e.1) entries := rfl
    rw [step]
    apply (ih _).trans
    rw [Table.keys_erase]
    exact List.filter_sublist

theorem sweepStep_young (queue : c.queue = e :: rest) (young : c.old now e = false)
    (late : c.lifetime ≤ now) : c.sweepStep (now - c.lifetime) = none := by
  have fresh : now - c.lifetime < e.2 := by
    simp [old] at young
    omega
  simp [sweepStep, queue, fresh]

theorem sweepFor_of_none {cutoff : Nat} (idle : c.sweepStep cutoff = none) (steps : Nat) :
    sweepFor cutoff steps c = c := by
  cases steps with
  | zero => rfl
  | succ steps => simp [sweepFor, idle]

/-- What a sweep makes of the old entries at the front of the queue. -/
def passed (c : ReplayCache) (now : Nat) (todo rest : List (String × Nat)) : ReplayCache :=
  { c with
    seen := forget c.seen (todo.filter fun e => (renewed? c.seen c.lifetime now e).isNone)
    queue := rest ++ todo.filterMap (renewed? c.seen c.lifetime now) }

theorem sweepStep_old (queue : c.queue = e :: rest) (past : c.old now e = true)
    (late : c.lifetime ≤ now) :
    c.sweepStep (now - c.lifetime) = some (match renewed? c.seen c.lifetime now e with
      | some entry => { c with queue := rest ++ [entry] }
      | none => { c with seen := c.seen.erase e.1, queue := rest }) := by
  have due : ¬ now - c.lifetime < e.2 := by
    simp [old] at past
    omega
  have same (a : Acceptance) :
      decide (now - c.lifetime < a.time) = decide (now < a.time + c.lifetime) := by
    rw [decide_eq_decide]
    omega
  simp only [sweepStep, queue, if_neg due, renewed?, same]
  cases (c.seen.get? e.1).filter fun a => decide (now < a.time + c.lifetime) <;> rfl

theorem sweepFor_old (late : c.lifetime ≤ now) (queue : c.queue = todo ++ rest)
    (past : ∀ e ∈ todo, c.old now e = true) (different : (todo.map (·.1)).Nodup) (more : Nat) :
    sweepFor (now - c.lifetime) (todo.length + more) c
      = sweepFor (now - c.lifetime) more (c.passed now todo rest) := by
  -- The cache changes with every entry, so the induction is over all caches with this queue.
  induction todo generalizing c rest with
  | nil =>
    have same : c.passed now [] rest = c := by
      rw [List.nil_append] at queue
      simp [passed, forget, ← queue]
    rw [same, List.length_nil, Nat.zero_add]
  | cons e todo ih =>
    obtain ⟨here, others⟩ := List.forall_mem_cons.mp past
    obtain ⟨apart, different⟩ := List.nodup_cons.mp different
    have steps : (e :: todo).length + more = (todo.length + more) + 1 := by
      rw [List.length_cons]
      omega
    rw [steps, sweepFor, sweepStep_old queue here late]
    cases again : renewed? c.seen c.lifetime now e with
    | some entry =>
      let next : ReplayCache := { c with queue := todo ++ rest ++ [entry] }
      have queue' : next.queue = todo ++ (rest ++ [entry]) := by simp [next]
      have shifted := ih (c := next) late queue' others different
      have same : next.passed now todo (rest ++ [entry]) = c.passed now (e :: todo) rest := by
        simp [passed, again, next]
      exact same ▸ shifted
    | none =>
      let next : ReplayCache := { c with seen := c.seen.erase e.1, queue := todo ++ rest }
      have unchanged : ∀ x ∈ todo,
          renewed? next.seen next.lifetime now x = renewed? c.seen c.lifetime now x := by
        intro x member
        have other : x.1 ≠ e.1 := by
          intro same
          apply apart
          show e.1 ∈ todo.map (·.1)
          rw [← same]
          exact List.mem_map_of_mem member
        simp only [renewed?, Table.get?_erase, if_neg other, next]
      have queue' : next.queue = todo ++ rest := rfl
      have shifted := ih (c := next) late queue' others different
      have same : next.passed now todo rest = c.passed now (e :: todo) rest := by
        have left : todo.filter (fun x => (renewed? next.seen next.lifetime now x).isNone)
            = todo.filter fun x => (renewed? c.seen c.lifetime now x).isNone :=
          List.filter_congr fun x member => by rw [unchanged x member]
        simp only [passed, List.filterMap_congr unchanged, left, List.filter_cons,
          List.filterMap_cons, again]
        rfl
      exact same ▸ shifted

/-- A sweep takes the old entries from the front of the queue and puts those that were accepted
again behind the others. -/
theorem sweep_eq (different : (c.queue.map (·.1)).Nodup) (now : Nat) :
    c.sweep now = c.passed now (c.queue.takeWhile (c.old now)) (c.queue.dropWhile (c.old now)) := by
  have parts : c.queue = c.queue.takeWhile (c.old now) ++ c.queue.dropWhile (c.old now) :=
    List.takeWhile_append_dropWhile.symm
  rw [sweep]
  by_cases early : now < c.lifetime
  · -- Nothing can be old before one window has passed.
    have young : c.queue.takeWhile (c.old now) = [] := by
      cases c.queue with
      | nil => rfl
      | cons e rest =>
        have fresh : c.old now e = false := by
          simp [old]
          omega
        simp [fresh]
    rw [if_pos early, young]
    rw [young, List.nil_append] at parts
    simp [passed, forget, ← parts]
  · have late : c.lifetime ≤ now := Nat.le_of_not_lt early
    have enough : c.queue.length
        = (c.queue.takeWhile (c.old now)).length + (c.queue.dropWhile (c.old now)).length := by
      rw [← List.length_append, ← parts]
    have past : ∀ e ∈ c.queue.takeWhile (c.old now), c.old now e = true := by
      intro e member
      exact List.mem_takeWhile_imp member
    rw [if_neg early, enough, sweepFor_old late parts past]
    · cases young : c.queue.dropWhile (c.old now) with
      | nil => rfl
      | cons e rest =>
        have fresh : c.old now e = false := by
          have head := List.head?_dropWhile_not (c.old now) c.queue
          simpa [young] using head
        have queue : (c.passed now (c.queue.takeWhile (c.old now)) (e :: rest)).queue = e :: _ := rfl
        exact sweepFor_of_none (sweepStep_young queue fresh late) _
    · exact different.sublist ((List.takeWhile_sublist _).map _)

theorem queue_sweep (different : (c.queue.map (·.1)).Nodup) (now : Nat) :
    (c.sweep now).queue = c.queue.dropWhile (c.old now)
      ++ (c.queue.takeWhile (c.old now)).filterMap (renewed? c.seen c.lifetime now) := by
  rw [sweep_eq different]
  rfl

/-- What stood at the front of the queue when it was old is remembered only if it was accepted
within the window; everything else is left as it was. -/
theorem get?_sweep (different : (c.queue.map (·.1)).Nodup) (now : Nat) (corr : String) :
    (c.sweep now).seen.get? corr
      = if corr ∈ (c.queue.takeWhile (c.old now)).map (·.1) then
          (c.seen.get? corr).filter fun a => decide (now < a.time + c.lifetime)
        else c.seen.get? corr := by
  have gone : corr ∈ ((c.queue.takeWhile (c.old now)).filter fun e =>
        (renewed? c.seen c.lifetime now e).isNone).map (·.1)
      ↔ corr ∈ (c.queue.takeWhile (c.old now)).map (·.1)
        ∧ (c.seen.get? corr).filter (fun a => decide (now < a.time + c.lifetime)) = none := by
    simp only [List.mem_map, List.mem_filter, renewed?, Option.isNone_map, Option.isNone_iff_eq_none]
    constructor
    · rintro ⟨e, ⟨member, none⟩, rfl⟩
      exact ⟨⟨e, member, rfl⟩, none⟩
    · rintro ⟨⟨e, member, rfl⟩, none⟩
      exact ⟨e, ⟨member, none⟩, rfl⟩
  rw [sweep_eq different]
  simp only [passed, get?_forget, gone]
  by_cases front : corr ∈ (c.queue.takeWhile (c.old now)).map (·.1)
  · cases kept : (c.seen.get? corr).filter fun a => decide (now < a.time + c.lifetime) with
    | none => simp only [front, true_and, if_true]
    | some a =>
      have found := (Option.filter_eq_some_iff.mp kept).1
      simp only [front, true_and, reduceCtorEq, if_false, if_true, found]
  · simp only [front, false_and, if_false]

/-! ## What was never accepted -/

variable {corr : String} {cutoff : Nat}

theorem get?_sweepStep {next : ReplayCache} (absent : c.seen.get? corr = none)
    (step : c.sweepStep cutoff = some next) : next.seen.get? corr = none := by
  rw [sweepStep] at step
  split at step
  · cases step
  · split at step
    · cases step
    · split at step
      · cases step
        exact absent
      · cases step
        show (c.seen.erase _).get? corr = none
        rw [Table.get?_erase, absent, ite_self]

theorem get?_sweepFor (absent : c.seen.get? corr = none) (steps : Nat) :
    (sweepFor cutoff steps c).seen.get? corr = none := by
  induction steps generalizing c with
  | zero => exact absent
  | succ steps ih =>
    rw [sweepFor]
    split
    · next next step => exact ih (get?_sweepStep absent step)
    · exact absent

/-- Of the rest of the cache nothing need be known. -/
theorem accepted_of_absent (absent : c.seen.get? corr = none) (ts : Millis) (now : Nat) :
    (c.check corr ts now).2 = .accepted := by
  have still : (c.sweep now).seen.get? corr = none := by
    rw [sweep]
    split
    · exact absent
    · exact get?_sweepFor absent _
  rw [check]
  simp only [still]

end FlexLink.ReplayCache
