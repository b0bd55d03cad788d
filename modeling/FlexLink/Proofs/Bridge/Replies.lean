import FlexLink.Proofs.Bridge.Accounts

/-! # Every request gets its two replies

As long as a task waits there is a move that goes on with it, so every run can be brought to where no
task waits, and there the accounts of the bridge are even. -/
set_option autoImplicit false
namespace FlexLink

namespace Bridge

variable {σ τ ρ : Type} {b : Bridge σ τ ρ} {w : Serving σ τ ρ}

/-! ## Runs that end -/

theorem tasks_performAt_front {task : Task} {others : List Task} (front : w.tasks = task :: others)
    (now : Millis) (time : Nat) :
    (b.performAt now time w 0).tasks = (b.rest time w.desk task).toList ++ others := by
  have found : w.tasks[0]? = some task := by rw [front]; rfl
  rw [performAt_eq found, front]
  rfl

/-- What is left of a task has a time when it is due. -/
theorem rest_cases (time : Nat) (desk : ρ) (task : Task) :
    b.rest time desk task = none ∨ ∃ r due o, b.rest time desk task = some (.conclude r due o) := by
  have p := performs (b := b) 0 time desk task
  generalize b.rest time desk task = left at p ⊢
  generalize b.deeds 0 time desk task = ds at p
  cases p with
  | begin request handling due result => exact .inr ⟨_, _, _, rfl⟩
  | wait request due result => exact .inr ⟨_, _, _, rfl⟩
  | _ => exact .inl rfl

/-- The task in front is done after at most two moves. -/
theorem front_done {task : Task} {others : List Task} (front : w.tasks = task :: others) :
    ∃ moves : List Move, (∀ m ∈ moves, ∃ now time k, m = .perform now time k) ∧
      (b.run w moves).tasks = others := by
  have first := tasks_performAt_front (b := b) front 0 0
  rcases b.rest_cases 0 w.desk task with done | ⟨r, due, o, left⟩
  · refine ⟨[.perform 0 0 0], List.forall_mem_singleton.mpr ⟨0, 0, 0, rfl⟩, ?_⟩
    rw [done] at first
    exact first
  · rw [left] at first
    refine ⟨[.perform 0 0 0, .perform 0 due 0], ?_, ?_⟩
    · exact List.forall_mem_cons.mpr
        ⟨⟨0, 0, 0, rfl⟩, List.forall_mem_singleton.mpr ⟨0, due, 0, rfl⟩⟩
    · have second := tasks_performAt_front (b := b) first 0 due
      rw [rest, if_pos (Nat.le_refl due)] at second
      exact second

/-- Wherever a run stands, its tasks can be brought to an end. -/
theorem completes (w : Serving σ τ ρ) :
    ∃ moves : List Move, (∀ m ∈ moves, ∃ now time k, m = .perform now time k) ∧
      (b.run w moves).tasks = [] := by
  generalize waiting : w.tasks = tasks
  induction tasks generalizing w with
  | nil => exact ⟨[], fun m none => (by cases none), waiting⟩
  | cons task others ih =>
    obtain ⟨moves, performing, done⟩ := front_done (b := b) waiting
    obtain ⟨more, performing', done'⟩ := ih (b.run w moves) done
    refine ⟨moves ++ more, List.forall_mem_append.mpr ⟨performing, performing'⟩, ?_⟩
    rw [run_append]
    exact done'

end Bridge

theorem Link.logged_tells {σ : Type} {link : Link σ}
    (accepts : ∀ net packets, (link.send net packets).2 = .ok ()) (net : σ × List (List Packet))
    (packets : List Packet) : (link.logged.send net packets).1.2 = packets :: net.2 := by
  have taken := accepts net.1 packets
  cases sent : link.send net.1 packets with
  | mk next result =>
    rw [sent] at taken
    cases taken
    simp only [logged, sent]

theorem Handler.logged_tells {ρ : Type} (handler : Handler ρ) (desk : ρ × List (Command × Handling))
    (request : Command) :
    (handler.logged.call desk request).1.2 = (request, (handler.logged.call desk request).2) :: desk.2 :=
  rfl

/-- Where the handler does not break down, what its calls came to is what they gave. -/
theorem Bridge.outcomes_eq {story : List Deed}
    (given : ∀ c ∈ story.flatMap Deed.calls, c.2.result ≠ none) :
    (story.flatMap Deed.outcomes).map (fun f => (f.1, some f.2))
      = (story.flatMap Deed.calls).map fun c => (c.1, c.2.result) := by
  induction story with
  | nil => rfl
  | cons deed story ih =>
    rw [List.flatMap_cons] at given
    obtain ⟨here, others⟩ := List.forall_mem_append.mp given
    rw [List.flatMap_cons, List.flatMap_cons, List.map_append, List.map_append, ih others]
    congr 1
    cases deed with
    | handled request handling =>
      obtain ⟨outcome, has⟩ := Option.ne_none_iff_exists'.mp (here _ List.mem_cons_self)
      have has : handling.result = some outcome := has
      simp [Deed.outcomes, Deed.calls, has]
    | _ => rfl

/-- The replies of a bridge.  Whatever came and in whatever order its tasks were performed, the
packets sent are those of the deeds that were done, in that order, and the calls that the handler noted
are those of the deeds; at no time were there more final replies than calls of the handler, each with
what its call gave, or more calls than acknowledgements.  Once no task waits, and every run can be
brought there, each request that the replay cache accepted was acknowledged once, handled once and
concluded once with what its call gave, each text that could not be read was refused once, and all that
was sent again was asked for by control messages. -/
theorem Bridge.two_replies_each {σ τ ρ : Type} {link : Link σ} (journal : Journal τ)
    {handler : Handler ρ} (lane : Lane)
    (accepts : ∀ net packets, (link.send net packets).2 = .ok ())
    (answers : ∀ desk request, (handler.call desk request).2.result ≠ none)
    (net : σ) (store : τ) (desk : ρ) (settings : ReliabilitySettings) (moves : List Move) :
    let b : Bridge (σ × List (List Packet)) τ (ρ × List (Command × Handling)) :=
      ⟨link.logged, journal, handler.logged, lane⟩
    let start := Serving.new (net, []) store (desk, []) settings
    let w := b.run start moves
    let story := b.story start moves
    let came := incoming moves
    let accepted := (start.reliability.replay.admission came).2
    let calls := w.desk.2.reverse
    (w.net.2.reverse = story.flatMap (Deed.sent lane) ∧ calls = story.flatMap Deed.calls) ∧
    (∀ told, told <+: story →
      ((told.flatMap Deed.finals).map fun f => (f.1, some f.2)).Subperm
        ((told.flatMap Deed.calls).map fun c => (c.1, c.2.result)) ∧
      ((told.flatMap Deed.calls).map (·.1)).Subperm (told.flatMap Deed.receipts)) ∧
    (w.tasks = [] →
      (story.flatMap Deed.receipts).Perm accepted ∧
      (calls.map (·.1)).Perm accepted ∧
      ((story.flatMap Deed.finals).map fun f => (f.1, some f.2)).Perm
        (calls.map fun c => (c.1, c.2.result)) ∧
      (story.flatMap Deed.refusals).Perm (came.flatMap Inbound.undecodable) ∧
      ∃ found, List.Forall₂ Bridge.Asked (came.flatMap Inbound.controls) found ∧
        (story.flatMap Deed.repeats).Perm (found.flatten.map (·.2))) ∧
    ∃ more : List Move, (∀ m ∈ more, ∃ now time k, m = .perform now time k) ∧
      (b.run start (moves ++ more)).tasks = [] := by
  intro b start w story came accepted calls
  let told (net : σ × List (List Packet)) : List (List Packet) := net.2
  have tells : ∀ net packets, told (b.link.send net packets).1 = packets :: told net :=
    Link.logged_tells accepts
  have sent : w.net.2.reverse = story.flatMap (Deed.sent lane) := by
    have all := Bridge.net_run tells start moves
    have none : told start.net = [] := rfl
    rw [none, List.append_nil] at all
    exact (congrArg List.reverse all).trans (List.reverse_reverse _)
  have noted : calls = story.flatMap Deed.calls := by
    have all := Bridge.desk_run (b := b) handler.logged_tells start moves
    have none : start.desk.2 = [] := rfl
    rw [none, List.append_nil] at all
    exact (congrArg List.reverse all).trans (List.reverse_reverse _)
  have given : ∀ c ∈ story.flatMap Deed.calls, c.2.result ≠ none := by
    intro c member
    obtain ⟨kept, same⟩ := Bridge.handling_of_mem_story start moves c member
    rw [same]
    exact answers kept.1 c.1
  obtain ⟨-, kept⟩ := Bridge.Accounts.run (b := b) (net, []) store (desk, []) settings moves
  refine ⟨⟨sent, noted⟩, fun told begun => ?_, ?_, ?_⟩
  · obtain ⟨finals, received⟩ := kept.order told begun
    have part : ∀ c ∈ told.flatMap Deed.calls, c.2.result ≠ none := by
      obtain ⟨more, whole⟩ := begun
      intro c member
      refine given c ?_
      rw [← whole, List.flatMap_append]
      exact List.mem_append_left _ member
    obtain ⟨some, same, among⟩ := finals
    rw [← Bridge.outcomes_eq part]
    exact ⟨⟨_, same.map _, among.map _⟩, received⟩
  · intro done
    obtain ⟨found, asked, again⟩ := kept.repeats
    have receipts := kept.receipts
    have finals := kept.finals
    have refusals := kept.refusals
    rw [done, List.flatMap_nil, List.append_nil] at receipts finals refusals again
    refine ⟨receipts, ?_, ?_, refusals, found, asked, again⟩
    · rw [noted, kept.calls]
      exact receipts
    · rw [noted, ← Bridge.outcomes_eq given]
      exact finals.map _
  · obtain ⟨more, performing, done⟩ := Bridge.completes (b := b) w
    refine ⟨more, performing, ?_⟩
    rw [Bridge.run_append]
    exact done

namespace Bridge

variable {σ τ ρ : Type} {w : Serving σ τ ρ}

def samplePing : Command := ⟨1, 1000, "abc", "ping", .object []⟩

def sampleStray : Command := ⟨1, 1000, "def", "status", .object []⟩

def sampleRouter : Router Unit := ({} : Router Unit).register "ping" .ping

/-- A link that takes everything, a journal that takes nothing. -/
def routerBridge : Bridge (Unit × List (List Packet)) Unit (Unit × List (Command × Handling)) :=
  ⟨Link.logged ⟨fun net _ => (net, .ok ())⟩, .refusing, sampleRouter.handler.logged, .base⟩

/-- A request that comes twice, and one behind it. -/
def strayMoves : List Move :=
  [.take 0 (Lane.base.encode samplePing), .take 1 (Lane.base.encode samplePing),
    .take 2 (Lane.base.encode sampleStray), .perform 5 3 0, .perform 6 4 0]

theorem onBatch_plain {c : Command} (now : Nat) (working : w.ended = false)
    (idle : w.coming.opened = none) (request : (c.isReply || c.isControl) = false)
    (plain : c.body = .object []) :
    w.onBatch now (Lane.base.encode c)
      = { w with
          reliability := (w.reliability.checkReplay c now).1
          tasks := w.tasks
            ++ if (w.reliability.checkReplay c now).2 = .accepted then [.serve c] else [] } := by
  refine onBatch_encode now Lane.base working idle request ?_ ?_ ?_
  all_goals rw [plain]
  · exact ⟨trivial, trivial⟩
  · exact trivial
  · decide

theorem story_strayMoves : routerBridge.story (.new ((), []) () ((), []) {}) strayMoves
    = [.acknowledged 5 samplePing, .handled samplePing ⟨0, some (.ok .succeeded)⟩,
      .concluded 5 samplePing (.ok .succeeded), .acknowledged 6 sampleStray,
      .handled sampleStray ⟨0, some (.error (.notFound "status"))⟩,
      .concluded 6 sampleStray (.error (.notFound "status"))] := by
  rw [strayMoves, story, story, story, story, story, story, step, step, step,
    onBatch_plain 0 rfl rfl rfl rfl, onBatch_plain 1 rfl rfl rfl rfl, onBatch_plain 2 rfl rfl rfl rfl]
  rfl

/-- The repetition is not served, and the request without a route fails. -/
theorem ping_twice_replied_once :
    let w := routerBridge.run (.new ((), []) () ((), []) {}) strayMoves
    w.net.2.reverse
        = [Lane.base.encode (.ofReply 5 "abc" { ack := true }),
          Lane.base.encode (.ofReply 5 "abc" { ack := true, success := some true }),
          Lane.base.encode (.ofReply 6 "def" { ack := true }),
          Lane.base.encode
            (.ofReply 6 "def" { ack := false, error := some "no route for intent \"status\"" })] ∧
      w.desk.2.reverse.map (·.1) = [samplePing, sampleStray] := by
  let link : Link Unit := ⟨fun net _ => (net, .ok ())⟩
  have accepts : ∀ net packets, (link.send net packets).2 = .ok () := fun _ _ => rfl
  have answers : ∀ desk request, (sampleRouter.handler.call desk request).2.result ≠ none := by
    intro desk request
    have routed : sampleRouter.routes.get? request.intent
        = if request.intent = "ping" then some .ping else none := Table.get?_insert _ _ _ _
    rw [Router.handler]
    by_cases ping : request.intent = "ping"
    · rw [if_pos ping] at routed
      simp [routed, Handler.ping, Handler.steady]
    · rw [if_neg ping] at routed
      simp [routed]
  have law := two_replies_each .refusing Lane.base accepts answers () () () {} strayMoves
  obtain ⟨⟨sent, noted⟩, -⟩ := law
  refine ⟨sent.trans ?_, (congrArg (List.map (·.1)) noted).trans ?_⟩
  · show (routerBridge.story _ strayMoves).flatMap _ = _
    rw [story_strayMoves]
    rfl
  · show ((routerBridge.story _ strayMoves).flatMap _).map _ = _
    rw [story_strayMoves]
    rfl

end Bridge
end FlexLink
