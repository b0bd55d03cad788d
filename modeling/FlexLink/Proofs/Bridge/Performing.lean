import FlexLink.Bridge.Serving

/-! # What a bridge does

Batches come and tasks are performed, in any order: these are the moves of a bridge.  A performance
is a list of deeds, carried out one after the other (`perform_eq`), so what a link and a handler keep of
their calls can be read off the deeds of a run: `net_run` and `desk_run`.  What the deeds send does not
depend on whether those of different tasks come between each other: `net_carriedOut`. -/
set_option autoImplicit false
namespace FlexLink

inductive Deed where
  | refused (now : Millis) (why : CodecError)
  | repeated (packets : List Packet)
  | acknowledged (now : Millis) (request : Command)
  | handled (request : Command) (handling : Handling)
  | concluded (now : Millis) (request : Command) (outcome : Except DispatchError Reply)

namespace Deed

/-- The packets that leave, the replies among them member by member. -/
def sent (lane : Lane) : Deed → List (List Packet)
  | .refused now why =>
    [lane.encode (.ofReply now "unknown" { ack := false, error := some why.message })]
  | .repeated packets => [packets]
  | .acknowledged now request => [lane.encode (.ofReply now request.corr { ack := true })]
  | .handled _ _ => []
  | .concluded now request (.ok r) =>
    [lane.encode (.ofReply now request.corr
      { ack := true, success := some (r.success.getD true), progress := r.progress, error := r.error })]
  | .concluded now request (.error why) =>
    [lane.encode (.ofReply now request.corr { ack := false, error := some why.message })]

def calls : Deed → List (Command × Handling)
  | .handled request handling => [(request, handling)]
  | _ => []

theorem sent_concluded (lane : Lane) (now : Millis) (request : Command)
    (outcome : Except DispatchError Reply) :
    sent lane (.concluded now request outcome)
      = [lane.encode (.ofReply now request.corr (.ofOutcome outcome))] := by
  cases outcome with
  | ok r =>
    have either : r.success.or (some true) = some (r.success.getD true) := by cases r.success <;> rfl
    rw [sent, Reply.ofOutcome, either]
  | error why => rfl

end Deed

inductive Move where
  | take (now : Nat) (batch : List Packet)
  | perform (now : Millis) (time k : Nat)

namespace Bridge

variable {σ τ ρ : Type}

/-! ## Tasks as deeds -/

def deeds (b : Bridge σ τ ρ) (now : Millis) (time : Nat) (desk : ρ) : Task → List Deed
  | .refuse why => [.refused now why]
  | .resend found => found.map fun f => .repeated f.2
  | .serve request =>
    let handling := (b.handler.call desk request).2
    .acknowledged now request :: .handled request handling ::
      match handling.result with
      | none => []
      | some outcome => if handling.delay = 0 then [.concluded now request outcome] else []
  | .conclude request due outcome => if due ≤ time then [.concluded now request outcome] else []

def rest (b : Bridge σ τ ρ) (time : Nat) (desk : ρ) : Task → Option Task
  | .refuse _ => none
  | .resend _ => none
  | .serve request =>
    let handling := (b.handler.call desk request).2
    match handling.result with
    | none => none
    | some outcome =>
      if handling.delay = 0 then none
      else some (.conclude request (time + handling.delay) outcome)
  | .conclude request due outcome =>
    if due ≤ time then none else some (.conclude request due outcome)

def carryOut (b : Bridge σ τ ρ) (w : Serving σ τ ρ) : Deed → Serving σ τ ρ
  | .refused now why => b.send w (b.replyPackets now Command.unknownCorr (.failed why.message))
  | .repeated packets => b.send w packets
  | .acknowledged now request => b.acknowledge w now request
  | .handled request _ => (b.handle w request).1
  | .concluded now request outcome => b.conclude w now request outcome

variable {b : Bridge σ τ ρ} {w : Serving σ τ ρ}

theorem perform_eq (now : Millis) (time : Nat) (w : Serving σ τ ρ) (task : Task) :
    b.perform now time w task
      = ((b.deeds now time w.desk task).foldl b.carryOut w, b.rest time w.desk task) := by
  cases task with
  | refuse why => rfl
  | resend found =>
    rw [deeds, List.foldl_map]
    rfl
  | serve request =>
    have handle (handling : Handling) :
        b.handle (b.acknowledge w now request) request
          = (b.carryOut (b.carryOut w (.acknowledged now request)) (.handled request handling),
            (b.handler.call w.desk request).2) := rfl
    rw [perform, deeds, rest, handle (b.handler.call w.desk request).2]
    simp only [List.foldl_cons]
    generalize (b.handler.call w.desk request).2 = handling
    cases handling.result with
    | none => rfl
    | some outcome =>
      by_cases instant : handling.delay = 0
      · simp only [if_pos instant]
        rfl
      · simp only [if_neg instant]
        rfl
  | conclude request due outcome =>
    rw [perform, deeds, rest]
    by_cases ready : due ≤ time
    · simp only [if_pos ready]
      rfl
    · simp only [if_neg ready]
      rfl

/-- Behind the call of the handler a request is concluded at most. -/
theorem deeds_serve (b : Bridge σ τ ρ) (now : Millis) (time : Nat) (desk : ρ) (request : Command) :
    let called : List Deed :=
      [.acknowledged now request, .handled request (b.handler.call desk request).2]
    b.deeds now time desk (.serve request) = called ∨
      ∃ outcome, b.deeds now time desk (.serve request) = called ++ [.concluded now request outcome] := by
  intro called
  rw [deeds]
  cases (b.handler.call desk request).2.result with
  | none => exact .inl rfl
  | some outcome =>
    by_cases instant : (b.handler.call desk request).2.delay = 0
    · simp only [if_pos instant]
      exact .inr ⟨outcome, rfl⟩
    · simp only [if_neg instant]
      exact .inl rfl

theorem deeds_conclude (b : Bridge σ τ ρ) (now : Millis) (time : Nat) (desk : ρ) (request : Command)
    (due : Nat) (outcome : Except DispatchError Reply) :
    b.deeds now time desk (.conclude request due outcome) = [] ∨
      b.deeds now time desk (.conclude request due outcome) = [.concluded now request outcome] := by
  rw [deeds]
  split
  · exact .inr rfl
  · exact .inl rfl

/-- What no deed touches: the reading side of a bridge and its tasks. -/
structure SameSide (v w : Serving σ τ ρ) : Prop where
  coming : v.coming = w.coming
  ended : v.ended = w.ended
  tasks : v.tasks = w.tasks
  replay : v.reliability.replay = w.reliability.replay

theorem sameSide_carryOut (w : Serving σ τ ρ) (deed : Deed) : SameSide (b.carryOut w deed) w := by
  cases deed <;> exact ⟨rfl, rfl, rfl, rfl⟩

theorem sameSide_carriedOut (w : Serving σ τ ρ) (story : List Deed) :
    SameSide (story.foldl b.carryOut w) w := by
  induction story generalizing w with
  | nil => exact ⟨rfl, rfl, rfl, rfl⟩
  | cons deed story ih =>
    have here := sameSide_carryOut (b := b) w deed
    have later := ih (b.carryOut w deed)
    exact ⟨later.coming.trans here.coming, later.ended.trans here.ended,
      later.tasks.trans here.tasks, later.replay.trans here.replay⟩

/-! ## Texts that come -/

/-- What an envelope that comes, or the reason why there is none, makes of a bridge. -/
inductive Heard (w : Serving σ τ ρ) (now : Nat) : Except CodecError Command → Serving σ τ ρ → Prop where
  | refused (why : CodecError) : Heard w now (.error why) (w.add (.refuse why))
  | ignored (e : Command) (aside : (e.isReply || e.isControl) = true)
      (empty : Control.ofCommand? (κ := String) e = none) : Heard w now (.ok e) w
  | controlled (e : Command) (control : Control String) (aside : (e.isReply || e.isControl) = true)
      (read : Control.ofCommand? e = some control) :
      Heard w now (.ok e)
        { w with
          reliability := (w.reliability.handle control).1
          tasks := w.tasks ++ if (w.reliability.handle control).2.isEmpty then []
            else [.resend (w.reliability.handle control).2] }
  | requested (e : Command) (request : (e.isReply || e.isControl) = false) :
      Heard w now (.ok e)
        { w with
          reliability := (w.reliability.checkReplay e now).1
          tasks := w.tasks ++ if (w.reliability.checkReplay e now).2 = .accepted then [.serve e]
            else [] }

theorem isControl_of_isReply {e : Command} (reply : e.isReply = true) : e.isControl = false := by
  have intent : e.intent = Command.replyIntent := by simpa [Command.isReply] using reply
  rw [Command.isControl, intent]
  decide

theorem heard_onText (w : Serving σ τ ρ) (now : Nat) (text : Except RunError (List UInt8)) :
    Heard w now (parseOutcome Command.shape text) (w.onText now text) := by
  rw [Serving.onText]
  cases parseOutcome Command.shape text with
  | error why => exact .refused why
  | ok e =>
    by_cases reply : e.isReply = true
    · simp only [if_pos reply]
      refine .ignored e (by rw [reply, Bool.true_or]) ?_
      rw [Control.ofCommand?, isControl_of_isReply reply]
      rfl
    · simp only [if_neg reply]
      by_cases control : e.isControl = true
      · have aside : (e.isReply || e.isControl) = true := by rw [control, Bool.or_true]
        simp only [if_pos control, Serving.onControl]
        cases read : Control.ofCommand? (κ := String) e with
        | none => exact .ignored e aside read
        | some control =>
          have heard : Heard w now (.ok e) _ := .controlled e control aside read
          cases empty : (w.reliability.handle control).2.isEmpty with
          | true => simpa [empty] using heard
          | false => simpa [empty, Serving.add] using heard
      · have request : (e.isReply || e.isControl) = false := by
          rw [Bool.eq_false_iff.mpr reply, Bool.eq_false_iff.mpr control]
          rfl
        have heard : Heard w now (.ok e) _ := .requested e request
        simp only [if_neg control]
        cases verdict : w.reliability.checkReplay e now with
        | mk reliability verdict' =>
          cases verdict' with
          | accepted => simpa [verdict, Serving.add] using heard
          | suppressed => simpa [verdict] using heard

/-- A bridge that has not ended takes the texts of a batch one by one. -/
theorem onBatch_serving (serving : w.ended = false) (now : Nat) (batch : List Packet) :
    w.onBatch now batch = (w.coming.pushAll batch).2.foldl (Serving.onText now)
      { w with coming := (w.coming.pushAll batch).1 } := by
  rw [Serving.onBatch, serving]
  rfl

/-! ## Runs -/

def step (b : Bridge σ τ ρ) (w : Serving σ τ ρ) : Move → Serving σ τ ρ
  | .take now batch => w.onBatch now batch
  | .perform now time k => b.performAt now time w k

def run (b : Bridge σ τ ρ) (w : Serving σ τ ρ) (moves : List Move) : Serving σ τ ρ := moves.foldl b.step w

def deedsOf (b : Bridge σ τ ρ) (w : Serving σ τ ρ) : Move → List Deed
  | .take _ _ => []
  | .perform now time k => w.tasks[k]?.toList.flatMap (b.deeds now time w.desk)

def story (b : Bridge σ τ ρ) (w : Serving σ τ ρ) : List Move → List Deed
  | [] => []
  | m :: moves => b.deedsOf w m ++ b.story (b.step w m) moves

theorem run_append (w : Serving σ τ ρ) (moves more : List Move) :
    b.run w (moves ++ more) = b.run (b.run w moves) more :=
  List.foldl_append

theorem story_append (w : Serving σ τ ρ) (moves more : List Move) :
    b.story w (moves ++ more) = b.story w moves ++ b.story (b.run w moves) more := by
  induction moves generalizing w with
  | nil => rfl
  | cons m moves ih =>
    rw [List.cons_append, story, ih, story, List.append_assoc]
    rfl

theorem performAt_eq {task : Task} {k : Nat} (found : w.tasks[k]? = some task) (now : Millis)
    (time : Nat) :
    b.performAt now time w k
      = { (b.deeds now time w.desk task).foldl b.carryOut w with
          tasks := w.tasks.take k ++ (b.rest time w.desk task).toList ++ w.tasks.drop (k + 1) } := by
  rw [performAt, found]
  simp only [perform_eq]

theorem performAt_none {k : Nat} (nothing : w.tasks[k]? = none) (now : Millis) (time : Nat) :
    b.performAt now time w k = w := by
  rw [performAt, nothing]

/-! ## Packets that leave -/

section Net

variable {told : σ → List (List Packet)}

theorem net_carriedOut (tells : ∀ net packets, told (b.link.send net packets).1 = packets :: told net)
    (w : Serving σ τ ρ) (story : List Deed) :
    told (story.foldl b.carryOut w).net = (story.flatMap (Deed.sent b.lane)).reverse ++ told w.net := by
  induction story generalizing w with
  | nil => rfl
  | cons deed story ih =>
    have here : told (b.carryOut w deed).net = (deed.sent b.lane).reverse ++ told w.net := by
      cases deed with
      | handled request handling => rfl
      | concluded now request outcome =>
        rw [Deed.sent_concluded]
        exact tells _ _
      | _ => exact tells _ _
    rw [List.foldl_cons, ih, here, List.flatMap_cons, List.reverse_append, List.append_assoc]

/-- What came touches nothing outside. -/
theorem Heard.outside {v : Serving σ τ ρ} {now : Nat} {outcome : Except CodecError Command}
    (heard : Heard w now outcome v) : v.net = w.net ∧ v.journal = w.journal ∧ v.desk = w.desk := by
  cases heard <;> exact ⟨rfl, rfl, rfl⟩

theorem outside_onBatch (w : Serving σ τ ρ) (now : Nat) (batch : List Packet) :
    (w.onBatch now batch).net = w.net ∧ (w.onBatch now batch).journal = w.journal ∧
      (w.onBatch now batch).desk = w.desk := by
  have all (texts : List (Except RunError (List UInt8))) (w : Serving σ τ ρ) :
      (texts.foldl (Serving.onText now) w).net = w.net ∧
        (texts.foldl (Serving.onText now) w).journal = w.journal ∧
        (texts.foldl (Serving.onText now) w).desk = w.desk := by
    induction texts generalizing w with
    | nil => exact ⟨rfl, rfl, rfl⟩
    | cons text texts ih =>
      obtain ⟨net, journal, desk⟩ := (heard_onText w now text).outside
      obtain ⟨net', journal', desk'⟩ := ih (w.onText now text)
      exact ⟨net'.trans net, journal'.trans journal, desk'.trans desk⟩
  rw [Serving.onBatch]
  split
  · exact ⟨rfl, rfl, rfl⟩
  · exact all _ _

theorem net_step (tells : ∀ net packets, told (b.link.send net packets).1 = packets :: told net)
    (w : Serving σ τ ρ) (m : Move) :
    told (b.step w m).net = ((b.deedsOf w m).flatMap (Deed.sent b.lane)).reverse ++ told w.net := by
  cases m with
  | take now batch => exact congrArg told (outside_onBatch w now batch).1
  | perform now time k =>
    rw [step, deedsOf]
    cases found : w.tasks[k]? with
    | none =>
      rw [performAt_none found]
      rfl
    | some task =>
      rw [performAt_eq found, Option.toList_some, List.flatMap_singleton]
      exact net_carriedOut tells w _

/-- What a link is told in a run: the packets of all deeds, newest first. -/
theorem net_run (tells : ∀ net packets, told (b.link.send net packets).1 = packets :: told net)
    (w : Serving σ τ ρ) (moves : List Move) :
    told (b.run w moves).net
      = ((b.story w moves).flatMap (Deed.sent b.lane)).reverse ++ told w.net := by
  induction moves generalizing w with
  | nil => rfl
  | cons m moves ih =>
    have onward : b.run w (m :: moves) = b.run (b.step w m) moves := rfl
    rw [onward, ih, net_step tells, story, List.flatMap_append, List.reverse_append,
      List.append_assoc]

end Net

/-! ## Calls of the handler -/

def callsOf (b : Bridge σ τ ρ) (desk : ρ) : Task → List (Command × Handling)
  | .serve request => [(request, (b.handler.call desk request).2)]
  | _ => []

theorem calls_deeds (now : Millis) (time : Nat) (desk : ρ) (task : Task) :
    (b.deeds now time desk task).flatMap Deed.calls = b.callsOf desk task := by
  cases task with
  | refuse why => rfl
  | resend found => simp [deeds, callsOf, List.flatMap_map, Deed.calls]
  | serve request =>
    rcases b.deeds_serve now time desk request with all | ⟨outcome, all⟩ <;> rw [all] <;> rfl
  | conclude request due outcome =>
    rcases b.deeds_conclude now time desk request due outcome with all | all <;> rw [all] <;> rfl

/-- What a call gave is what the handler makes of the request. -/
theorem handling_of_mem_story (w : Serving σ τ ρ) (moves : List Move) :
    ∀ c ∈ (b.story w moves).flatMap Deed.calls, ∃ desk, c.2 = (b.handler.call desk c.1).2 := by
  induction moves generalizing w with
  | nil => exact List.forall_mem_nil _
  | cons m moves ih =>
    rw [story, List.flatMap_append]
    refine List.forall_mem_append.mpr ⟨?_, ih _⟩
    cases m with
    | take now batch => exact List.forall_mem_nil _
    | perform now time k =>
      rw [deedsOf]
      cases w.tasks[k]? with
      | none => exact List.forall_mem_nil _
      | some task =>
        rw [Option.toList_some, List.flatMap_singleton, calls_deeds]
        cases task with
        | serve request => exact List.forall_mem_singleton.mpr ⟨w.desk, rfl⟩
        | _ => exact List.forall_mem_nil _

section Desk

variable {told : ρ → List (Command × Handling)}

theorem desk_performed
    (tells : ∀ desk request, told (b.handler.call desk request).1
      = (request, (b.handler.call desk request).2) :: told desk)
    (now : Millis) (time : Nat) (w : Serving σ τ ρ) (task : Task) :
    told ((b.deeds now time w.desk task).foldl b.carryOut w).desk
      = (b.callsOf w.desk task).reverse ++ told w.desk := by
  cases task with
  | refuse why => rfl
  | resend found =>
    have sends (found : List (String × List Packet)) (w : Serving σ τ ρ) :
        ((found.map fun f => Deed.repeated f.2).foldl b.carryOut w).desk = w.desk := by
      induction found generalizing w with
      | nil => rfl
      | cons f found ih => exact ih _
    rw [deeds, sends]
    rfl
  | serve request =>
    have once := tells w.desk request
    rcases b.deeds_serve now time w.desk request with all | ⟨outcome, all⟩ <;> rw [all] <;> exact once
  | conclude request due outcome =>
    rcases b.deeds_conclude now time w.desk request due outcome with all | all <;> rw [all] <;> rfl

/-- What a handler is called with in a run, newest first. -/
theorem desk_run
    (tells : ∀ desk request, told (b.handler.call desk request).1
      = (request, (b.handler.call desk request).2) :: told desk)
    (w : Serving σ τ ρ) (moves : List Move) :
    told (b.run w moves).desk = ((b.story w moves).flatMap Deed.calls).reverse ++ told w.desk := by
  induction moves generalizing w with
  | nil => rfl
  | cons m moves ih =>
    have here : told (b.step w m).desk = ((b.deedsOf w m).flatMap Deed.calls).reverse ++ told w.desk := by
      cases m with
      | take now batch => exact congrArg told (outside_onBatch w now batch).2.2
      | perform now time k =>
        rw [step, deedsOf]
        cases found : w.tasks[k]? with
        | none =>
          rw [performAt_none found]
          rfl
        | some task =>
          rw [performAt_eq found, Option.toList_some, List.flatMap_singleton, calls_deeds]
          exact desk_performed tells now time w task
    have onward : b.run w (m :: moves) = b.run (b.step w m) moves := rfl
    rw [onward, ih, here, story, List.flatMap_append, List.reverse_append, List.append_assoc]

end Desk

end Bridge
end FlexLink
