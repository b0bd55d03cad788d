import Mathlib.Data.List.Forall2
import Mathlib.Data.List.Induction
import Mathlib.Data.List.Perm.Subperm
import FlexLink.Proofs.Bridge.Performing
import FlexLink.Proofs.Envelope.RoundTrip
import FlexLink.Proofs.Reliability.Resending

/-! # The accounts of a bridge

What came to a bridge is one list, what it did another.  `Accounts` says that they agree, but for the
tasks that wait: a request that the replay cache accepts is acknowledged and handled once, what the
handler gave for it is concluded once, a text that cannot be read is refused once, and nothing is sent
again that no control message asked for.  Every move keeps the accounts: `Accounts.run`. -/
set_option autoImplicit false
namespace FlexLink

/-! ## What came -/

structure Inbound where
  time : Nat
  content : Except CodecError Command

namespace Inbound

def undecodable (x : Inbound) : List CodecError :=
  match x.content with
  | .error why => [why]
  | .ok _ => []

def controls (x : Inbound) : List (Control String) :=
  match x.content with
  | .error _ => []
  | .ok e => (Control.ofCommand? e).toList

def requests (x : Inbound) : List (Nat × Command) :=
  match x.content with
  | .error _ => []
  | .ok e => if e.isReply || e.isControl then [] else [(x.time, e)]

theorem controls_of_ordinary (time : Nat) {e : Command}
    (request : (e.isReply || e.isControl) = false) : controls ⟨time, .ok e⟩ = [] := by
  simp [controls, Control.ofCommand?, (Bool.or_eq_false_iff.mp request).2]

end Inbound

/-- The assembler after a move, and everything that came so far. -/
def Inbound.note : Assembler × List Inbound → Move → Assembler × List Inbound
  | (a, came), .take now batch =>
    ((a.pushAll batch).1,
      came ++ (a.pushAll batch).2.map fun text => ⟨now, parseOutcome Command.shape text⟩)
  | state, .perform _ _ _ => state

/-- Everything that the batches of a run hold. -/
def incoming (moves : List Move) : List Inbound := (moves.foldl Inbound.note ({}, [])).2

namespace ReplayCache

/-- The cache after a request, and those that it accepted so far. -/
def accept : ReplayCache × List Command → Nat × Command → ReplayCache × List Command
  | (c, accepted), (now, request) =>
    ((c.check request.corr request.ts now).1,
      accepted ++ if (c.check request.corr request.ts now).2 = .accepted then [request] else [])

/-- The cache after everything that came, and the requests that it accepted. -/
def admission (c : ReplayCache) (came : List Inbound) : ReplayCache × List Command :=
  (came.flatMap Inbound.requests).foldl accept (c, [])

theorem admission_snoc (c : ReplayCache) (came : List Inbound) (x : Inbound) :
    c.admission (came ++ [x]) = x.requests.foldl accept (c.admission came) := by
  rw [admission, List.flatMap_append, List.flatMap_singleton, List.foldl_append]
  rfl

end ReplayCache

/-! ## What was done, and what is still to be done -/

abbrev HandlerResult := Except DispatchError Reply

namespace Deed

def refusals : Deed → List CodecError
  | .refused _ why => [why]
  | _ => []

def repeats : Deed → List (List Packet)
  | .repeated packets => [packets]
  | _ => []

def receipts : Deed → List Command
  | .acknowledged _ request => [request]
  | _ => []

def outcomes : Deed → List (Command × HandlerResult)
  | .handled request handling => handling.result.toList.map fun outcome => (request, outcome)
  | _ => []

def finals : Deed → List (Command × HandlerResult)
  | .concluded _ request outcome => [(request, outcome)]
  | _ => []

end Deed

namespace Task

def refusals : Task → List CodecError
  | .refuse why => [why]
  | _ => []

def repeats : Task → List (List Packet)
  | .resend found => found.map (·.2)
  | _ => []

def unserved : Task → List Command
  | .serve request => [request]
  | _ => []

def unfinished : Task → List (Command × HandlerResult)
  | .conclude request _ outcome => [(request, outcome)]
  | _ => []

end Task

namespace Bridge

variable {σ τ ρ α : Type} {b : Bridge σ τ ρ} {w v : Serving σ τ ρ} {came : List Inbound}
  {story : List Deed} {cache : ReplayCache}

/-! ## One performance -/

/-- A task that is performed gives way to what is left of it. -/
theorem flatMap_performAt {task : Task} {k : Nat} (found : w.tasks[k]? = some task) (now : Millis)
    (time : Nat) (due : Task → List α) :
    (due task ++ (b.performAt now time w k).tasks.flatMap due).Perm
      ((b.rest time w.desk task).toList.flatMap due ++ w.tasks.flatMap due) := by
  obtain ⟨inside, rfl⟩ := List.getElem?_eq_some_iff.mp found
  have place : w.tasks = w.tasks.take k ++ w.tasks[k] :: w.tasks.drop (k + 1) := by
    rw [← List.drop_eq_getElem_cons inside, List.take_append_drop]
  generalize w.tasks[k] = task at found place
  have waiting : w.tasks.flatMap due
      = (w.tasks.take k).flatMap due ++ (due task ++ (w.tasks.drop (k + 1)).flatMap due) := by
    rw [← List.flatMap_cons, ← List.flatMap_append, ← place]
  rw [performAt_eq found, waiting]
  simp only [List.flatMap_append, List.append_assoc]
  refine (List.perm_append_comm_assoc _ _ _).trans ?_
  refine (List.Perm.append_left _ (List.perm_append_comm_assoc _ _ _)).trans ?_
  exact List.perm_append_comm_assoc _ _ _

/-- What is done and what is still due, after a task is performed as far as it goes. -/
theorem ledger_performAt {done : Deed → List α} {due : Task → List α} {more : List α} {now : Millis}
    {time k : Nat} {task : Task} (story : List Deed) (found : w.tasks[k]? = some task)
    (balance : ((b.deeds now time w.desk task).flatMap done
      ++ (b.rest time w.desk task).toList.flatMap due).Perm (due task ++ more)) :
    ((story ++ b.deeds now time w.desk task).flatMap done
        ++ (b.performAt now time w k).tasks.flatMap due).Perm
      (story.flatMap done ++ w.tasks.flatMap due ++ more) := by
  rw [List.flatMap_append, List.append_assoc, List.append_assoc]
  refine List.Perm.append_left _ ((List.perm_append_left_iff (due task)).mp ?_)
  -- What was due of the task stands on both sides.
  refine (List.perm_append_comm_assoc _ _ _).trans ?_
  refine (List.Perm.append_left _ (flatMap_performAt found now time due)).trans ?_
  rw [← List.append_assoc]
  refine (balance.append_right _).trans ?_
  rw [List.append_assoc]
  exact List.Perm.append_left _ List.perm_append_comm

/-- What a performance can be. -/
inductive Performs (now : Millis) (time : Nat) : Task → List Deed → Option Task → Prop where
  | refuse (why : CodecError) : Performs now time (.refuse why) [.refused now why] none
  | resend (found : List (String × List Packet)) :
      Performs now time (.resend found) (found.map fun f => .repeated f.2) none
  | breakDown (request : Command) (handling : Handling) (broken : handling.result = none) :
      Performs now time (.serve request) [.acknowledged now request, .handled request handling] none
  | begin (request : Command) (handling : Handling) (due : Nat) (result : HandlerResult)
      (given : handling.result = some result) :
      Performs now time (.serve request) [.acknowledged now request, .handled request handling]
        (some (.conclude request due result))
  | serve (request : Command) (handling : Handling) (result : HandlerResult)
      (given : handling.result = some result) :
      Performs now time (.serve request)
        [.acknowledged now request, .handled request handling, .concluded now request result] none
  | wait (request : Command) (due : Nat) (result : HandlerResult) :
      Performs now time (.conclude request due result) [] (some (.conclude request due result))
  | conclude (request : Command) (due : Nat) (result : HandlerResult) :
      Performs now time (.conclude request due result) [.concluded now request result] none

theorem performs (now : Millis) (time : Nat) (desk : ρ) (task : Task) :
    Performs now time task (b.deeds now time desk task) (b.rest time desk task) := by
  cases task with
  | refuse why => exact .refuse why
  | resend found => exact .resend found
  | serve request =>
    rw [deeds, rest]
    generalize (b.handler.call desk request).2 = handling
    cases given : handling.result with
    | none => exact .breakDown request handling given
    | some result =>
      by_cases instant : handling.delay = 0
      · simp only [if_pos instant]
        exact .serve request handling result given
      · simp only [if_neg instant]
        exact .begin request handling _ result given
  | conclude request due result =>
    rw [deeds, rest]
    by_cases ready : due ≤ time
    · rw [if_pos ready, if_pos ready]
      exact .conclude request due result
    · rw [if_neg ready, if_neg ready]
      exact .wait request due result

theorem repeated_of_mem (found : List (String × List Packet)) :
    ∀ d ∈ found.map fun f => Deed.repeated f.2, ∃ packets, d = .repeated packets := by
  intro d member
  obtain ⟨f, -, rfl⟩ := List.mem_map.mp member
  exact ⟨f.2, rfl⟩

/-- What is no matter of a reply that is sent again has no entry for one. -/
theorem flatMap_repeated {done : Deed → List α} {told : List Deed}
    (nothing : ∀ packets, done (.repeated packets) = [])
    (again : ∀ d ∈ told, ∃ packets, d = .repeated packets) : told.flatMap done = [] := by
  refine List.flatMap_eq_nil_iff.mpr fun d member => ?_
  obtain ⟨packets, rfl⟩ := again d member
  exact nothing packets

namespace Performs

variable {now : Millis} {time : Nat} {task : Task} {ds : List Deed} {left : Option Task}

theorem refusals (p : Performs now time task ds left) :
    ds.flatMap Deed.refusals ++ left.toList.flatMap Task.refusals = task.refusals := by
  cases p <;> simp [Deed.refusals, Task.refusals, List.flatMap_map]

theorem repeats (p : Performs now time task ds left) :
    ds.flatMap Deed.repeats ++ left.toList.flatMap Task.repeats = task.repeats := by
  cases p with
  | resend found =>
    rw [List.flatMap_map, Option.toList_none, List.flatMap_nil, List.append_nil]
    exact List.map_eq_flatMap.symm
  | _ => simp [Deed.repeats, Task.repeats]

theorem receipts (p : Performs now time task ds left) :
    ds.flatMap Deed.receipts ++ left.toList.flatMap Task.unserved = task.unserved := by
  cases p <;> simp [Deed.receipts, Task.unserved, List.flatMap_map]

theorem calls (p : Performs now time task ds left) :
    (ds.flatMap Deed.calls).map (·.1) = ds.flatMap Deed.receipts := by
  cases p with
  | resend found =>
    have again := repeated_of_mem found
    rw [flatMap_repeated (fun _ => rfl) again, flatMap_repeated (fun _ => rfl) again]
    rfl
  | _ => simp [Deed.calls, Deed.receipts]

theorem finals (p : Performs now time task ds left) :
    ds.flatMap Deed.finals ++ left.toList.flatMap Task.unfinished
      = task.unfinished ++ ds.flatMap Deed.outcomes := by
  cases p with
  | resend found =>
    have again := repeated_of_mem found
    rw [flatMap_repeated (fun _ => rfl) again, flatMap_repeated (fun _ => rfl) again]
    rfl
  | breakDown request handling broken => simp [Deed.outcomes, Deed.finals, Task.unfinished, broken]
  | begin request handling due result given =>
    simp [Deed.outcomes, Deed.finals, Task.unfinished, given]
  | serve request handling result given =>
    simp [Deed.outcomes, Deed.finals, Task.unfinished, given]
  | _ => simp [Deed.outcomes, Deed.finals, Task.unfinished]

/-- A final reply is the last deed of a performance, and a call comes behind its receipt. -/
theorem order (p : Performs now time task ds left) {told : List Deed} (begun : told <+: ds) :
    (told = ds ∨ told.flatMap Deed.finals = []) ∧
      ((told.flatMap Deed.calls).map (·.1)).Sublist (told.flatMap Deed.receipts) := by
  cases p with
  | refuse why =>
    simp only [List.prefix_cons_iff, List.prefix_nil] at begun
    rcases begun with rfl | ⟨t, rfl, rfl⟩
    · exact ⟨.inr rfl, List.Sublist.refl _⟩
    · exact ⟨.inl rfl, List.Sublist.refl _⟩
  | resend found =>
    have again := fun d member => repeated_of_mem found d (begun.subset member)
    rw [flatMap_repeated (fun _ => rfl) again, flatMap_repeated (fun _ => rfl) again]
    exact ⟨.inr rfl, List.nil_sublist _⟩
  | breakDown request handling | begin request handling =>
    simp only [List.prefix_cons_iff, List.prefix_nil] at begun
    rcases begun with rfl | ⟨t, rfl, rfl | ⟨u, rfl, rfl⟩⟩
    all_goals simp [Deed.calls, Deed.receipts, Deed.finals]
  | serve request handling =>
    simp only [List.prefix_cons_iff, List.prefix_nil] at begun
    rcases begun with rfl | ⟨t, rfl, rfl | ⟨u, rfl, rfl | ⟨x, rfl, rfl⟩⟩⟩
    all_goals simp [Deed.calls, Deed.receipts, Deed.finals]
  | wait request due result =>
    rw [List.prefix_nil.mp begun]
    exact ⟨.inl rfl, List.Sublist.refl _⟩
  | conclude request due result =>
    simp only [List.prefix_cons_iff, List.prefix_nil] at begun
    rcases begun with rfl | ⟨t, rfl, rfl⟩
    · exact ⟨.inr rfl, List.Sublist.refl _⟩
    · exact ⟨.inl rfl, List.Sublist.refl _⟩

end Performs

/-! ## One text -/

/-- Whether the replies found are ones that a control message asks for, in its order. -/
def Asked (control : Control String) (found : List (String × List Packet)) : Prop :=
  (found.map (·.1)).Sublist (control.nack.getD [])

/-- What came is noted as new tasks: a refusal or a request to serve, or replies to send again. -/
structure Adds (w v : Serving σ τ ρ) (x : Inbound) (new : List Task) : Prop where
  tasks : v.tasks = w.tasks ++ new
  ended : v.ended = w.ended
  coming : v.coming = w.coming
  admitted : ∀ accepted, (v.reliability.replay, accepted ++ new.flatMap Task.unserved)
    = x.requests.foldl ReplayCache.accept (w.reliability.replay, accepted)
  unfinished : new.flatMap Task.unfinished = []
  refusals : new.flatMap Task.refusals = x.undecodable
  repeats : ∃ answers, List.Forall₂ Asked x.controls answers ∧
    new.flatMap Task.repeats = answers.flatten.map (·.2)

theorem adds_of_heard {now : Nat} {content : Except CodecError Command}
    (heard : Heard w now content v) : ∃ new, Adds w v ⟨now, content⟩ new := by
  cases heard with
  | refused why =>
    refine ⟨[.refuse why], rfl, rfl, rfl, fun accepted => ?_, rfl, rfl, [], .nil, rfl⟩
    simp [Inbound.requests, Task.unserved, Serving.add]
  | ignored e aside empty =>
    refine ⟨[], (List.append_nil _).symm, rfl, rfl, fun accepted => ?_, rfl, rfl, [], ?_, rfl⟩
    · simp [Inbound.requests, aside]
    · simp [Inbound.controls, empty]
  | controlled e control aside read =>
    have asked : Asked control (w.reliability.handle control).2 :=
      ResendBuffer.lookup_keys_sublist _ _
    have one : List.Forall₂ Asked (Inbound.controls ⟨now, .ok e⟩)
        [(w.reliability.handle control).2] := by
      simp [Inbound.controls, read, asked]
    generalize (w.reliability.handle control).2 = found at one
    refine ⟨_, rfl, rfl, rfl, fun accepted => ?_, ?_, ?_, [found], one, ?_⟩
    all_goals cases found
    all_goals simp [Inbound.requests, Inbound.undecodable, aside, Task.unserved, Task.unfinished,
      Task.refusals, Task.repeats, Reliability.handle]
  | requested e request =>
    have apart := Inbound.controls_of_ordinary now request
    have admits (accepted : List Command) :
        (Inbound.requests ⟨now, .ok e⟩).foldl ReplayCache.accept (w.reliability.replay, accepted)
          = ((w.reliability.checkReplay e now).1.replay, accepted
            ++ if (w.reliability.checkReplay e now).2 = .accepted then [e] else []) := by
      simp only [Inbound.requests, request]
      rfl
    refine ⟨_, rfl, rfl, rfl, fun accepted => ?_, ?_, ?_, [], apart ▸ .nil, ?_⟩
    · rw [admits]
      by_cases fresh : (w.reliability.checkReplay e now).2 = .accepted
      · simp [fresh, Task.unserved]
      · simp [fresh]
    all_goals by_cases fresh : (w.reliability.checkReplay e now).2 = .accepted
    all_goals simp [fresh, Inbound.undecodable, Task.unfinished, Task.refusals, Task.repeats]

/-- A request that comes by itself, in the packets that it is encoded in. -/
theorem onBatch_encode {c : Command} (now : Nat) (lane : Lane) (working : w.ended = false)
    (idle : w.coming.opened = none) (request : (c.isReply || c.isControl) = false)
    (canonical : c.body.Canonical) (integral : c.body.Integral) (shallow : c.body.depth ≤ 126) :
    w.onBatch now (lane.encode c)
      = { w with
          reliability := (w.reliability.checkReplay c now).1
          tasks := w.tasks ++ if (w.reliability.checkReplay c now).2 = .accepted then [.serve c]
            else [] } := by
  have free := zero_notMem_of_plain (c.plain integral)
  have texts : w.coming.pushAll (lane.encode c) = (w.coming, [.ok (Utf8.encode c.render)]) :=
    Assembler.pushAll_pack_idle idle lane free
  have single : w.onBatch now (lane.encode c) = w.onText now (.ok (Utf8.encode c.render)) := by
    rw [onBatch_serving working, texts]
    rfl
  have parsed : parseOutcome Command.shape (.ok (Utf8.encode c.render)) = .ok c :=
    parseText_encode (c.parse_render canonical integral shallow)
  have heard := heard_onText w now (.ok (Utf8.encode c.render))
  rw [parsed, ← single] at heard
  generalize w.onBatch now (lane.encode c) = v at heard
  cases heard with
  | ignored e aside => exact absurd aside (Bool.eq_false_iff.mp request)
  | controlled e control aside => exact absurd aside (Bool.eq_false_iff.mp request)
  | requested => rfl

/-! ## Accounts -/

structure Accounts (cache : ReplayCache) (came : List Inbound) (story : List Deed)
    (w : Serving σ τ ρ) : Prop where
  serving : w.ended = false
  replay : w.reliability.replay = (cache.admission came).1
  receipts : (story.flatMap Deed.receipts ++ w.tasks.flatMap Task.unserved).Perm
    (cache.admission came).2
  calls : (story.flatMap Deed.calls).map (·.1) = story.flatMap Deed.receipts
  finals : (story.flatMap Deed.finals ++ w.tasks.flatMap Task.unfinished).Perm
    (story.flatMap Deed.outcomes)
  refusals : (story.flatMap Deed.refusals ++ w.tasks.flatMap Task.refusals).Perm
    (came.flatMap Inbound.undecodable)
  repeats : ∃ answers, List.Forall₂ Asked (came.flatMap Inbound.controls) answers ∧
    (story.flatMap Deed.repeats ++ w.tasks.flatMap Task.repeats).Perm (answers.flatten.map (·.2))
  /-- At no time are there more final replies than outcomes, or more calls than receipts. -/
  order : ∀ told, told <+: story →
    (told.flatMap Deed.finals).Subperm (told.flatMap Deed.outcomes) ∧
    ((told.flatMap Deed.calls).map (·.1)).Subperm (told.flatMap Deed.receipts)

namespace Accounts

theorem new (net : σ) (store : τ) (desk : ρ) (settings : ReliabilitySettings) :
    Accounts (.new settings.replayWindowMs settings.maxReplayEntries) [] []
      (Serving.new net store desk settings) where
  serving := rfl
  replay := rfl
  receipts := List.Perm.refl _
  calls := rfl
  finals := List.Perm.refl _
  refusals := List.Perm.refl _
  repeats := ⟨[], .nil, List.Perm.refl _⟩
  order told none := by
    rw [List.prefix_nil.mp none]
    exact ⟨List.Subperm.refl _, List.Subperm.refl _⟩

/-- What is due grows by the tasks that are added. -/
theorem ledger_add {done : List α} {due : Task → List α} {new : List Task} {total more : List α}
    (tasks : v.tasks = w.tasks ++ new) (kept : (done ++ w.tasks.flatMap due).Perm total)
    (noted : new.flatMap due = more) : (done ++ v.tasks.flatMap due).Perm (total ++ more) := by
  rw [tasks, List.flatMap_append, noted, ← List.append_assoc]
  exact kept.append_right more

theorem hear {x : Inbound} {new : List Task} (kept : Accounts cache came story w)
    (adds : Adds w v x new) : Accounts cache (came ++ [x]) story v := by
  have admitted := adds.admitted (cache.admission came).2
  rw [kept.replay, ← ReplayCache.admission_snoc] at admitted
  obtain ⟨answers, asked, again⟩ := kept.repeats
  obtain ⟨answers', asked', again'⟩ := adds.repeats
  refine ⟨adds.ended.trans kept.serving, ?_, ?_, kept.calls, ?_, ?_, ?_, kept.order⟩
  · rw [← admitted]
  · rw [← admitted]
    exact ledger_add adds.tasks kept.receipts rfl
  · have finals := ledger_add adds.tasks kept.finals adds.unfinished
    rwa [List.append_nil] at finals
  · rw [List.flatMap_append, List.flatMap_singleton]
    exact ledger_add adds.tasks kept.refusals adds.refusals
  · refine ⟨answers ++ answers', ?_, ?_⟩
    · rw [List.flatMap_append, List.flatMap_singleton]
      exact List.rel_append asked asked'
    · rw [List.flatten_append, List.map_append]
      exact ledger_add adds.tasks again again'

theorem hearAll (now : Nat) (texts : List (Except RunError (List UInt8)))
    (kept : Accounts cache came story w) :
    Accounts cache (came ++ texts.map fun text => ⟨now, parseOutcome Command.shape text⟩)
        story (texts.foldl (Serving.onText now) w) ∧
      (texts.foldl (Serving.onText now) w).coming = w.coming := by
  induction texts generalizing w came with
  | nil => exact ⟨by rwa [List.map_nil, List.append_nil], rfl⟩
  | cons text texts ih =>
    obtain ⟨new, adds⟩ := adds_of_heard (heard_onText w now text)
    obtain ⟨later, coming⟩ := ih (kept.hear adds)
    rw [List.map_cons, List.append_cons]
    exact ⟨later, coming.trans adds.coming⟩

theorem order_snoc {now : Millis} {time : Nat} {task : Task} {ds told : List Deed} {left : Option Task}
    (p : Performs now time task ds left) (kept : Accounts cache came story w)
    (finals : ((story ++ ds).flatMap Deed.finals).Subperm ((story ++ ds).flatMap Deed.outcomes))
    (begun : told <+: story ++ ds) :
    (told.flatMap Deed.finals).Subperm (told.flatMap Deed.outcomes) ∧
      ((told.flatMap Deed.calls).map (·.1)).Subperm (told.flatMap Deed.receipts) := by
  obtain ⟨more, whole⟩ := begun
  rcases List.append_eq_append_iff.mp whole with ⟨early, split, -⟩ | ⟨part, split, cut⟩
  · exact kept.order told ⟨early, split.symm⟩
  · have start : part <+: ds := ⟨more, cut.symm⟩
    obtain ⟨last, received⟩ := p.order start
    subst split
    constructor
    · rcases last with rfl | unsaid
      · exact finals
      · have before := (kept.order story List.prefix_rfl).1
        rw [List.flatMap_append, unsaid, List.append_nil, List.flatMap_append]
        exact before.trans (List.sublist_append_left _ _).subperm
    · rw [List.flatMap_append, List.flatMap_append, List.map_append, kept.calls]
      exact (received.append_left _).subperm

theorem perform {now : Millis} {time k : Nat} {task : Task}
    (kept : Accounts cache came story w) (found : w.tasks[k]? = some task) :
    Accounts cache came (story ++ b.deeds now time w.desk task) (b.performAt now time w k) := by
  have p := performs (b := b) now time w.desk task
  have side := sameSide_carriedOut (b := b) w (b.deeds now time w.desk task)
  have settle {β : Type} {done : Deed → List β} {due : Task → List β} {total : List β}
      (balance : (b.deeds now time w.desk task).flatMap done
        ++ (b.rest time w.desk task).toList.flatMap due = due task) (before : (story.flatMap done ++ w.tasks.flatMap due).Perm total) :
      ((story ++ b.deeds now time w.desk task).flatMap done
        ++ (b.performAt now time w k).tasks.flatMap due).Perm total := by
    have even : ((b.deeds now time w.desk task).flatMap done
        ++ (b.rest time w.desk task).toList.flatMap due).Perm (due task ++ []) := by
      rw [balance, List.append_nil]
    have ledger := ledger_performAt story found even
    rw [List.append_nil] at ledger
    exact ledger.trans before
  have finals := (ledger_performAt story found (List.Perm.of_eq p.finals)).trans
    (kept.finals.append_right _)
  rw [← List.flatMap_append] at finals
  obtain ⟨found', asked, again⟩ := kept.repeats
  refine ⟨?_, ?_, settle p.receipts kept.receipts, ?_, finals, settle p.refusals kept.refusals,
    ⟨found', asked, settle p.repeats again⟩, ?_⟩
  · rw [performAt_eq found]
    exact side.ended.trans kept.serving
  · rw [performAt_eq found]
    exact side.replay.trans kept.replay
  · rw [List.flatMap_append, List.flatMap_append, List.map_append, kept.calls, p.calls]
  · intro told begun
    exact kept.order_snoc p ((List.sublist_append_left _ _).subperm.trans finals.subperm) begun

theorem step {a : Assembler} (coming : w.coming = a) (kept : Accounts cache came story w) (m : Move) :
    (b.step w m).coming = (Inbound.note (a, came) m).1 ∧
      Accounts cache (Inbound.note (a, came) m).2 (story ++ b.deedsOf w m) (b.step w m) := by
  cases m with
  | take now batch =>
    have reading : Accounts cache came story { w with coming := (a.pushAll batch).1 } :=
      { kept with }
    obtain ⟨later, same⟩ := reading.hearAll now (a.pushAll batch).2
    rw [Bridge.step, deedsOf, List.append_nil, onBatch_serving kept.serving, coming]
    exact ⟨same, later⟩
  | perform now time k =>
    rw [Bridge.step, deedsOf]
    cases found : w.tasks[k]? with
    | none =>
      rw [performAt_none found, Option.toList_none, List.flatMap_nil, List.append_nil]
      exact ⟨coming, kept⟩
    | some task =>
      rw [Option.toList_some, List.flatMap_singleton]
      refine ⟨?_, kept.perform found⟩
      rw [performAt_eq found]
      exact (sameSide_carriedOut w _).coming.trans coming

/-- Every run keeps the accounts. -/
theorem run (net : σ) (store : τ) (desk : ρ) (settings : ReliabilitySettings) (moves : List Move) :
    (b.run (.new net store desk settings) moves).coming = (moves.foldl Inbound.note ({}, [])).1 ∧
      Accounts (.new settings.replayWindowMs settings.maxReplayEntries) (incoming moves)
        (b.story (.new net store desk settings) moves)
        (b.run (.new net store desk settings) moves) := by
  induction moves using List.reverseRecOn with
  | nil => exact ⟨rfl, new net store desk settings⟩
  | append_singleton moves m ih =>
    obtain ⟨coming, kept⟩ := ih
    rw [run_append, story_append, incoming, List.foldl_append]
    have next := kept.step (b := b) coming m
    rw [story, story, List.append_nil]
    exact next

end Accounts

end Bridge
end FlexLink
