import FlexLink.Proofs.Bridge.Replies
import FlexLink.Proofs.Client.Conversation
import FlexLink.Proofs.Journal.Unseen
import FlexLink.Proofs.Reliability.Sweeping

/-! # Client and bridge agree

An exchange goes through four stages at the bridge: the request is on its way, it waits to be served,
it is acknowledged, it is concluded.  Each `Stage` says which commands are on their way to the bridge
and what it has said so far, and no act leads out of them (`Agrees.step`).  A client that goes on at
its deadlines so ends with the acknowledgement and the final reply. -/
set_option autoImplicit false
namespace FlexLink

theorem Reply.isFinal_ofOutcome (outcome : HandlerResult) : (ofOutcome outcome).isFinal = true := by
  cases outcome with
  | ok r => cases r.success <;> simp [ofOutcome, isFinal]
  | error why => rfl

theorem Reply.upToFinal_said (outcome : HandlerResult) (more : List Reply) :
    upToFinal (.acknowledged :: ofOutcome outcome :: more) = [.acknowledged, ofOutcome outcome] := by
  have first : acknowledged.isFinal = false := rfl
  simp [upToFinal, first, isFinal_ofOutcome]

namespace Bridge

variable {σ τ ρ : Type} {b : Bridge σ τ ρ} {w v : Serving σ τ ρ} {now : Nat}

theorem Heard.same {content : Except CodecError Command} (heard : Heard w now content v) :
    v.ended = w.ended ∧ v.coming = w.coming ∧ v.journal = w.journal ∧ v.desk = w.desk := by
  cases heard <;> exact ⟨rfl, rfl, rfl, rfl⟩

/-- A request that was never seen is going to be served. -/
theorem Heard.request {request : Command} (heard : Heard w now (.ok request) v)
    (ordinary : (request.isReply || request.isControl) = false)
    (unseen : w.reliability.replay.seen.get? request.corr = none) :
    v.tasks = w.tasks ++ [.serve request] ∧ v.reliability.buffer = w.reliability.buffer := by
  have accepted : (w.reliability.checkReplay request now).2 = .accepted :=
    ReplayCache.accepted_of_absent unseen request.ts now
  cases heard with
  | ignored e aside => exact absurd aside (Bool.eq_false_iff.mp ordinary)
  | controlled e control aside => exact absurd aside (Bool.eq_false_iff.mp ordinary)
  | requested => exact ⟨by rw [if_pos accepted], rfl⟩

theorem Heard.control {c : Control String} {ts : Millis} (heard : Heard w now (.ok (c.toCommand ts)) v) :
    v.reliability = (w.reliability.handle c).1 ∧
      v.tasks = w.tasks ++ if (w.reliability.handle c).2.isEmpty then []
        else [.resend (w.reliability.handle c).2] := by
  have known := c.ofCommand?_toCommand ts
  cases heard with
  | ignored e aside empty => cases empty.symm.trans known
  | controlled e control aside read =>
      cases read.symm.trans known
      exact ⟨rfl, rfl⟩
  | requested e request => cases request

theorem Heard.acked {corr : String} {ts : Millis}
    (heard : Heard w now (.ok ((Control.ofAck corr).toCommand ts)) v) :
    v.tasks = w.tasks ∧ v.reliability.buffer.frames.get? corr = none := by
  obtain ⟨reliability, tasks⟩ := heard.control
  refine ⟨tasks.trans (List.append_nil _), ?_⟩
  rw [reliability]
  show (w.reliability.buffer.release corr).1.frames.get? corr = none
  rw [ResendBuffer.get?_release]
  exact if_pos (beq_self_eq_true corr)

theorem Heard.nacked {corr : String} {ts : Millis}
    (heard : Heard w now (.ok ((Control.ofNack [corr]).toCommand ts)) v) :
    v.reliability = w.reliability ∧
      v.tasks = w.tasks ++ ((w.reliability.buffer.frames.get? corr).map fun packets =>
        Task.resend [(corr, packets)]).toList := by
  obtain ⟨reliability, tasks⟩ := heard.control
  have found : (w.reliability.handle (Control.ofNack [corr])).2
      = ((w.reliability.buffer.frames.get? corr).map fun packets => (corr, packets)).toList := by
    have looked : (w.reliability.handle (Control.ofNack [corr])).2
        = w.reliability.buffer.lookup [corr] := rfl
    rw [looked, ResendBuffer.lookup, List.filterMap_cons]
    cases w.reliability.buffer.frames.get? corr <;> rfl
  refine ⟨reliability, ?_⟩
  rw [tasks, found]
  cases w.reliability.buffer.frames.get? corr <;> rfl

end Bridge

namespace Conversation

variable {τ ρ : Type}

section Stages

variable (b : Bridge (List Packet) τ ρ) (request : Command) (outcome : HandlerResult) (store : τ)
  (desk : ρ)

/-- A bridge on a queue whose handler, as it stands, has this outcome for a request, and says nothing of
progress. -/
structure Handles : Prop where
  queue : b.link = .queue
  ordinary : (request.isReply || request.isControl) = false
  answers : (b.handler.call desk request).2.result = some outcome
  whole : (Reply.ofOutcome outcome).progress = none

def Concludes (packets : List Packet) : Prop :=
  ∃ now, packets = b.lane.encode (.ofReply now request.corr (.ofOutcome outcome))

def Settles (c : Command) : Prop :=
  ∃ now, c = (Control.ofAck request.corr).toCommand now ∨
    c = (Control.ofNack [request.corr]).toCommand now

/-- How far a bridge is with a request: the commands on their way to it, and the replies that it has
sent. -/
inductive Stage : List Command → List Reply → Serving (List Packet) τ ρ → Prop where
  | unheard {w : Serving (List Packet) τ ρ} (tasks : w.tasks = []) (journal : w.journal = store)
      (kept : w.desk = desk)
      (unseen : w.reliability.replay.seen.get? request.corr = none)
      (unkept : w.reliability.buffer.frames.get? request.corr = none) : Stage [request] [] w
  | heard {w : Serving (List Packet) τ ρ} (tasks : w.tasks = [.serve request])
      (journal : w.journal = store) (kept : w.desk = desk)
      (unkept : w.reliability.buffer.frames.get? request.corr = none) : Stage [] [] w
  | acknowledged {w : Serving (List Packet) τ ρ} {cs : List Command} (due : Nat) (now : Millis)
      (controls : ∀ c ∈ cs, Settles request c) (tasks : w.tasks = [.conclude request due outcome])
      (journal : w.journal
        = (b.journal.write store now request.corr .request request.toJson).1)
      (unkept : w.reliability.buffer.frames.get? request.corr = none) : Stage cs [.acknowledged] w
  | concluded {w : Serving (List Packet) τ ρ} {cs : List Command} {more : List Reply} (now later : Millis)
      (controls : ∀ c ∈ cs, Settles request c)
      (tasks : ∀ task ∈ w.tasks, ∃ packets, Concludes b request outcome packets ∧
        task = .resend [(request.corr, packets)])
      (journal : w.journal
        = (b.journal.write (b.journal.write store now request.corr .request request.toJson).1 later
            request.corr .response (Reply.ofOutcome outcome).toBody).1)
      (kept : ∀ packets, w.reliability.buffer.frames.get? request.corr = some packets →
        Concludes b request outcome packets)
      (again : ∀ r ∈ more, r = .ofOutcome outcome) :
      Stage cs (.acknowledged :: .ofOutcome outcome :: more) w

/-- The final reply is kept no longer, or its acknowledgement is on its way. -/
def Released (cs : List Command) (w : Serving (List Packet) τ ρ) : Prop :=
  w.reliability.buffer.frames.get? request.corr = none ∨
    ∃ now, (Control.ofAck request.corr).toCommand now ∈ cs

end Stages

variable {b : Bridge (List Packet) τ ρ} {request : Command} {outcome : HandlerResult} {store : τ}
  {desk : ρ}
  {cs : List Command} {said : List Reply} {w v : Serving (List Packet) τ ρ}

namespace Stage

theorem of_same (stage : Stage b request outcome store desk cs said w) (tasks : v.tasks = w.tasks)
    (journal : v.journal = w.journal) (same : v.desk = w.desk)
    (reliability : v.reliability = w.reliability) :
    Stage b request outcome store desk cs said v := by
  cases stage with
  | unheard none before kept unseen unkept =>
      exact .unheard (tasks.trans none) (journal.trans before) (same.trans kept)
        (reliability ▸ unseen) (reliability ▸ unkept)
  | heard one before kept unkept =>
      exact .heard (tasks.trans one) (journal.trans before) (same.trans kept) (reliability ▸ unkept)
  | acknowledged due now controls one noted unkept =>
      exact .acknowledged due now controls (tasks.trans one) (journal.trans noted)
        (reliability ▸ unkept)
  | concluded now later controls resends noted kept again =>
      exact .concluded now later controls (tasks ▸ resends) (journal.trans noted)
        (reliability ▸ kept) again

/-- A bridge that has said something is told more about the final reply. -/
theorem add {c : Command} (stage : Stage b request outcome store desk cs said w) (some : said ≠ [])
    (settles : Settles request c) : Stage b request outcome store desk (cs ++ [c]) said w := by
  have both {cs : List Command} (controls : ∀ c ∈ cs, Settles request c) :
      ∀ c' ∈ cs ++ [c], Settles request c' :=
    List.forall_mem_append.mpr ⟨controls, List.forall_mem_singleton.mpr settles⟩
  cases stage with
  | unheard => exact absurd rfl some
  | heard => exact absurd rfl some
  | acknowledged due now controls one noted unkept =>
      exact .acknowledged due now (both controls) one noted unkept
  | concluded now later controls resends noted kept again =>
      exact .concluded now later (both controls) resends noted kept again

/-- Only a bridge that has concluded has said something final. -/
theorem said_of_any (stage : Stage b request outcome store desk cs said w)
    (settled : said.any Reply.isFinal = true) :
    ∃ more, said = .acknowledged :: .ofOutcome outcome :: more := by
  cases stage with
  | unheard => cases settled
  | heard => cases settled
  | acknowledged => cases settled
  | concluded => exact ⟨_, rfl⟩

end Stage

/-! ## What the bridge hears -/

/-- After a control message no more is kept than before, and what is sent again was kept. -/
theorem Settles.hear {c : Command} {now : Nat} (settles : Settles request c)
    (heard : Bridge.Heard w now (.ok c) v) (cs : List Command) :
    (∀ packets, v.reliability.buffer.frames.get? request.corr = some packets →
      w.reliability.buffer.frames.get? request.corr = some packets) ∧
    (∃ new, v.tasks = w.tasks ++ new ∧ ∀ task ∈ new, ∃ packets,
      w.reliability.buffer.frames.get? request.corr = some packets ∧
        task = .resend [(request.corr, packets)]) ∧
    (Released request (c :: cs) w → Released request cs v) := by
  obtain ⟨ts, rfl | rfl⟩ := settles
  · obtain ⟨tasks, gone⟩ := heard.acked
    refine ⟨fun packets kept => ?_, ⟨[], by rw [tasks, List.append_nil], ?_⟩, fun _ => .inl gone⟩
    · cases gone.symm.trans kept
    · intro task none
      cases none
  · obtain ⟨reliability, tasks⟩ := heard.nacked
    rw [Released, Released, reliability]
    refine ⟨fun packets kept => kept, ⟨_, tasks, ?_⟩, ?_⟩
    · intro task member
      obtain ⟨packets, kept, rfl⟩ := Option.map_eq_some_iff.mp (Option.mem_toList.mp member)
      exact ⟨packets, kept, rfl⟩
    · rintro (gone | ⟨now, member⟩)
      · exact .inl gone
      · refine .inr ⟨now, (List.mem_cons.mp member).resolve_left fun same => ?_⟩
        -- An acknowledgement is no request for replies.
        have read := congrArg (Control.ofCommand? (κ := String)) same
        rw [Control.ofCommand?_toCommand, Control.ofCommand?_toCommand] at read
        cases read

namespace Stage

theorem hear {c : Command} {now : Nat} (stage : Stage b request outcome store desk (c :: cs) said w)
    (handles : Handles b request outcome desk) (heard : Bridge.Heard w now (.ok c) v) :
    Stage b request outcome store desk cs said v ∧
      (Released request (c :: cs) w → Released request cs v) := by
  obtain ⟨-, -, journal, same⟩ := heard.same
  cases stage with
  | unheard none before kept unseen unkept =>
      obtain ⟨tasks, buffer⟩ := heard.request handles.ordinary unseen
      have unkept : v.reliability.buffer.frames.get? request.corr = .none := buffer ▸ unkept
      rw [none, List.nil_append] at tasks
      exact ⟨.heard tasks (journal.trans before) (same.trans kept) unkept, fun _ => .inl unkept⟩
  | acknowledged due ts controls one noted unkept =>
      obtain ⟨settles, controls⟩ := List.forall_mem_cons.mp controls
      obtain ⟨kept, ⟨new, tasks, resends⟩, released⟩ := settles.hear heard cs
      have nothing : new = [] := by
        refine List.eq_nil_iff_forall_not_mem.mpr fun task member => ?_
        obtain ⟨packets, found, -⟩ := resends task member
        cases unkept.symm.trans found
      rw [nothing, List.append_nil] at tasks
      refine ⟨.acknowledged due ts controls (tasks.trans one) (journal.trans noted) ?_, released⟩
      refine Option.eq_none_iff_forall_ne_some.mpr fun packets found => ?_
      cases unkept.symm.trans (kept packets found)
  | concluded ts later controls resends noted kept again =>
      obtain ⟨settles, controls⟩ := List.forall_mem_cons.mp controls
      obtain ⟨still, ⟨new, tasks, fresh⟩, released⟩ := settles.hear heard cs
      refine ⟨.concluded ts later controls ?_ (journal.trans noted) ?_ again, released⟩
      · rw [tasks]
        refine List.forall_mem_append.mpr ⟨resends, fun task member => ?_⟩
        obtain ⟨packets, found, rfl⟩ := fresh task member
        exact ⟨packets, kept packets found, rfl⟩
      · intro packets found
        exact kept packets (still packets found)

theorem hearAll (handles : Handles b request outcome desk) (now : Nat) :
    ∀ (texts : List (Except RunError (List UInt8))) (got : List Command)
      (w : Serving (List Packet) τ ρ),
      texts.map (parseOutcome Command.shape) = got.map .ok →
      Stage b request outcome store desk (got ++ cs) said w →
        Stage b request outcome store desk cs said (texts.foldl (Serving.onText now) w) ∧
        (Released request (got ++ cs) w →
          Released request cs (texts.foldl (Serving.onText now) w)) ∧
        (texts.foldl (Serving.onText now) w).ended = w.ended ∧
        (texts.foldl (Serving.onText now) w).coming = w.coming ∧
        (texts.foldl (Serving.onText now) w).net = w.net := by
  intro texts
  induction texts with
  | nil =>
      intro got w read stage
      rw [List.map_eq_nil_iff.mp read.symm] at stage ⊢
      exact ⟨stage, id, rfl, rfl, rfl⟩
  | cons text texts ih =>
      intro got w read stage
      cases got with
      | nil => cases read
      | cons c got =>
          obtain ⟨first, others⟩ := List.cons.inj read
          have heard := Bridge.heard_onText w now text
          rw [first] at heard
          obtain ⟨next, released⟩ := stage.hear handles heard
          obtain ⟨last, releases, ended, coming, net⟩ := ih got _ others next
          obtain ⟨ended', coming', -⟩ := heard.same
          exact ⟨last, fun before => releases (released before), ended.trans ended',
            coming.trans coming', net.trans heard.outside.1⟩

/-! ## What the bridge does -/

/-- Performing a task, the bridge sends replies and is as far as it has said.  Once it has concluded, it
keeps what it keeps. -/
theorem perform {k : Nat} {task : Task} (stage : Stage b request outcome store desk cs said w)
    (handles : Handles b request outcome desk) (found : w.tasks[k]? = some task) (now : Millis)
    (time : Nat) :
    ∃ new : List (Millis × Reply),
      (∀ r ∈ new, r.2 = .acknowledged ∨ r.2 = .ofOutcome outcome) ∧
      (b.performAt now time w k).net
        = w.net ++ new.flatMap (fun r => b.lane.encode (.ofReply r.1 request.corr r.2)) ∧
      Stage b request outcome store desk cs (said ++ new.map (·.2)) (b.performAt now time w k) ∧
      (.ofOutcome outcome ∈ said → (b.performAt now time w k).reliability = w.reliability) := by
  have sends (w : Serving (List Packet) τ ρ) (packets : List Packet) :
      b.send w packets = { w with net := w.net ++ packets } := by
    rw [Bridge.send, handles.queue]
    rfl
  have acknowledges (w : Serving (List Packet) τ ρ) : b.acknowledge w now request
      = { w with
          net := w.net ++ b.lane.encode (.ofReply now request.corr .acknowledged)
          journal := (b.journal.write w.journal now request.corr .request request.toJson).1 } :=
    sends _ _
  have concludes (w : Serving (List Packet) τ ρ) : b.conclude w now request outcome
      = { w with
          net := w.net ++ b.lane.encode (.ofReply now request.corr (.ofOutcome outcome))
          journal := (b.journal.write w.journal now request.corr .response
            (Reply.ofOutcome outcome).toBody).1
          reliability := w.reliability.record request.corr
            (b.lane.encode (.ofReply now request.corr (.ofOutcome outcome))) } :=
    sends _ _
  have recorded {r : Reliability String} {packets : List Packet}
      (kept : (r.record request.corr
        (b.lane.encode (.ofReply now request.corr (.ofOutcome outcome)))).buffer.frames.get?
          request.corr = some packets) : Concludes b request outcome packets :=
    ⟨now, ResendBuffer.eq_of_get?_record kept⟩
  rw [Bridge.performAt_eq found]
  cases stage with
  | unheard none =>
      rw [none] at found
      cases found
  | heard one before kept unkept =>
      obtain ⟨rfl, rfl⟩ : k = 0 ∧ task = .serve request := by
        rw [one] at found
        simpa [List.getElem?_singleton, eq_comm] using found
      have answers := handles.answers
      generalize called : (b.handler.call desk request).2 = handling at answers
      have answered : (b.handler.call w.desk request).2 = handling := by rw [kept, called]
      by_cases instant : handling.delay = 0
      · simp only [Bridge.deeds, Bridge.rest, answered, answers, if_pos instant, List.foldl_cons,
          List.foldl_nil, Bridge.carryOut, Bridge.handle, acknowledges, concludes, one]
        refine ⟨[(now, .acknowledged), (now, .ofOutcome outcome)], by simp, by simp, ?_, by simp⟩
        refine .concluded now now (by simp) (by simp) ?_ (fun _ => recorded) (by simp)
        simp only [before]
      · simp only [Bridge.deeds, Bridge.rest, answered, answers, if_neg instant, List.foldl_cons,
          List.foldl_nil, Bridge.carryOut, Bridge.handle, acknowledges, one]
        refine ⟨[(now, .acknowledged)], by simp, by simp, ?_, by simp⟩
        refine .acknowledged (time + handling.delay) now (by simp) rfl ?_ unkept
        simp only [before]
  | acknowledged due ts controls one noted unkept =>
      obtain ⟨rfl, rfl⟩ : k = 0 ∧ task = .conclude request due outcome := by
        rw [one] at found
        simpa [List.getElem?_singleton, eq_comm] using found
      have other : Reply.ofOutcome outcome ≠ .acknowledged := by
        intro same
        have final := Reply.isFinal_ofOutcome outcome
        rw [same] at final
        cases final
      by_cases ready : due ≤ time
      · simp only [Bridge.deeds, Bridge.rest, if_pos ready, List.foldl_cons, List.foldl_nil,
          Bridge.carryOut, concludes, one]
        refine ⟨[(now, .ofOutcome outcome)], by simp, by simp, ?_, by simp [other]⟩
        refine .concluded ts now controls (by simp) ?_ (fun _ => recorded) (by simp)
        simp only [noted]
      · simp only [Bridge.deeds, Bridge.rest, if_neg ready, List.foldl_nil, one]
        refine ⟨[], by simp, by simp, ?_, fun _ => trivial⟩
        exact .acknowledged due ts controls rfl noted unkept
  | concluded ts later controls resends noted kept again =>
      obtain ⟨packets, ⟨stamp, rfl⟩, rfl⟩ := resends task (List.mem_of_getElem? found)
      simp only [Bridge.deeds, Bridge.rest, List.map_cons, List.map_nil, List.foldl_cons,
        List.foldl_nil, Bridge.carryOut, sends]
      refine ⟨[(stamp, .ofOutcome outcome)], by simp, by simp, ?_, fun _ => trivial⟩
      refine .concluded ts later controls ?_ noted kept ?_
      · intro task member
        apply resends
        simp only [Option.toList_none, List.append_nil] at member
        rcases List.mem_append.mp member with before | behind
        · exact List.mem_of_mem_take before
        · exact List.mem_of_mem_drop behind
      · exact List.forall_mem_append.mpr ⟨again, List.forall_mem_singleton.mpr rfl⟩

end Stage

/-! ## Both sides -/

/-- Where a client stands: it waits, it has the final reply and has said so, or it has given up at a
deadline, if it ever does. -/
inductive Stands (request : Command) (outcome : HandlerResult) (late : Prop) (cs : List Command)
    (said : List Reply) (c : Conversation τ ρ) : Prop where
  | waiting (awaits : c.client.Awaits c.bridge.net said)
  | finished (state : c.client.state = .finished)
      (replies : c.client.outcome.replies = [.acknowledged, .ofOutcome outcome])
      (concluded : .ofOutcome outcome ∈ said) (released : Released request cs c.bridge)
  | gaveUp (gives : late) (state : c.client.state = .finished)
      (unsettled : ∀ r ∈ c.client.outcome.replies, r.isFinal = false)
      (heard : c.client.outcome.replies <+: said)

/-- Client and bridge agree: the stage of the bridge fits what is on its way to it, and what it has said
fits what the client has. -/
structure Agrees (b : Bridge (List Packet) τ ρ) (request : Command) (outcome : HandlerResult) (store : τ)
    (desk : ρ) (late : Prop) (cs : List Command) (said : List Reply) (c : Conversation τ ρ) : Prop where
  serving : c.bridge.ended = false
  corr : c.client.outcome.corr = request.corr
  brings : c.bridge.coming.Brings c.client.net cs
  stage : Stage b request outcome store desk cs said c.bridge
  client : Stands request outcome late cs said c

namespace Agrees

variable {c : Conversation τ ρ} {late : Prop}

theorem up (agrees : Agrees b request outcome store desk late cs said c)
    (handles : Handles b request outcome desk) (now n : Nat) :
    ∃ left, Agrees b request outcome store desk late left said (c.step b (.up now n)) := by
  obtain ⟨serving, corr, brings, stage, client⟩ := agrees
  obtain ⟨got, left, rfl, read, later⟩ := brings.take n
  obtain ⟨next, released, ended, coming, net⟩ := Stage.hearAll handles now _ got
    { c.bridge with coming := (c.bridge.coming.pushAll (c.client.net.take n)).1 } read
    (stage.of_same rfl rfl rfl rfl)
  refine ⟨left, ?_⟩
  rw [step, Bridge.onBatch_serving serving]
  refine ⟨ended.trans serving, corr, ?_, next, ?_⟩
  · rw [coming]
    exact later
  · cases client with
    | waiting awaits =>
        refine .waiting ?_
        show Exchange.Awaits { c.client with net := _ } _ said
        rw [net]
        exact ⟨awaits.waiting, awaits.unsettled, awaits.brings⟩
    | finished state replies concluded before =>
        exact .finished state replies concluded (released before)
    | gaveUp gives state unsettled heard => exact .gaveUp gives state unsettled heard

theorem down (agrees : Agrees b request outcome store desk late cs said c) (now : Millis) (n : Nat) :
    ∃ left, Agrees b request outcome store desk late left said (c.step b (.down now n)) := by
  obtain ⟨serving, corr, brings, stage, client⟩ := agrees
  have after {cs} (stage : Stage b request outcome store desk cs said c.bridge) :
      Stage b request outcome store desk cs said { c.bridge with net := c.bridge.net.drop n } :=
    stage.of_same rfl rfl rfl rfl
  rw [step]
  cases client with
  | waiting awaits =>
      obtain ⟨next, same⟩ := awaits.onBatch now n
      rcases next with ⟨awaits, net⟩ | ⟨settled, finished, replies, net⟩
      · exact ⟨cs, serving, same.trans corr, net ▸ brings, after stage, .waiting awaits⟩
      · obtain ⟨more, rfl⟩ := stage.said_of_any settled
        have settles : Settles request ((Control.ofAck request.corr).toCommand now) :=
          ⟨now, .inl rfl⟩
        refine ⟨cs ++ [(Control.ofAck request.corr).toCommand now], serving, same.trans corr, ?_,
          after (stage.add (List.cons_ne_nil _ _) settles), .finished finished ?_ ?_ ?_⟩
        · rw [net, corr]
          exact brings.send ((Control.ofAck request.corr).readable now) c.client.lane
        · rw [replies, Reply.upToFinal_said]
        · simp
        · exact .inr ⟨now, by simp⟩
  | finished state replies concluded released =>
      rw [Exchange.onBatch_of_finished state]
      exact ⟨cs, serving, corr, brings, after stage, .finished state replies concluded released⟩
  | gaveUp gives state unsettled heard =>
      rw [Exchange.onBatch_of_finished state]
      exact ⟨cs, serving, corr, brings, after stage, .gaveUp gives state unsettled heard⟩

theorem deadline (agrees : Agrees b request outcome store desk late cs said c) (now : Millis)
    (patient : c.Patient (.deadline now) ∨ late) :
    ∃ left, Agrees b request outcome store desk late left said (c.step b (.deadline now)) := by
  obtain ⟨serving, corr, brings, stage, client⟩ := agrees
  rw [step]
  cases client with
  | waiting awaits =>
      obtain ⟨coming, down, all⟩ := awaits.brings
      cases enough : c.client.nacked || c.client.outcome.replies.isEmpty with
      | true =>
          have gives : late := by
            refine patient.resolve_left fun goes => ?_
            obtain ⟨some, first⟩ := goes awaits.waiting
            simp [first, some] at enough
          have ends : c.client.onDeadline .queue now = { c.client with state := .finished } := by
            rw [Exchange.onDeadline, awaits.waiting]
            exact if_pos enough
          rw [ends]
          refine ⟨cs, serving, corr, brings, stage, .gaveUp gives rfl awaits.unsettled ?_⟩
          rw [← all]
          exact List.prefix_append _ _
      | false =>
          have asks : c.client.onDeadline .queue now
              = { c.client with
                  nacked := true
                  net := c.client.net
                    ++ c.client.lane.encode ((Control.ofNack [request.corr]).toCommand now)
                  state := .waiting } := by
            rw [Exchange.onDeadline, awaits.waiting, ← corr]
            exact if_neg (by rw [enough]; decide)
          have told : said ≠ [] := by
            intro none
            rw [none] at all
            simp [(List.append_eq_nil_iff.mp all).1] at enough
          rw [asks]
          refine ⟨cs ++ [(Control.ofNack [request.corr]).toCommand now], serving, corr, ?_,
            stage.add told ⟨now, .inr rfl⟩, .waiting ⟨rfl, awaits.unsettled, awaits.brings⟩⟩
          exact brings.send ((Control.ofNack [request.corr]).readable now) c.client.lane
  | finished state replies concluded released =>
      rw [Exchange.onDeadline_of_finished state]
      exact ⟨cs, serving, corr, brings, stage, .finished state replies concluded released⟩
  | gaveUp gives state unsettled heard =>
      rw [Exchange.onDeadline_of_finished state]
      exact ⟨cs, serving, corr, brings, stage, .gaveUp gives state unsettled heard⟩

theorem perform (agrees : Agrees b request outcome store desk late cs said c)
    (handles : Handles b request outcome desk) (now : Millis) (time k : Nat) :
    ∃ told, Agrees b request outcome store desk late cs told (c.step b (.perform now time k)) := by
  obtain ⟨serving, corr, brings, stage, client⟩ := agrees
  rw [step]
  cases found : c.bridge.tasks[k]? with
  | none =>
      rw [Bridge.performAt_none found]
      exact ⟨said, serving, corr, brings, stage, client⟩
  | some task =>
      obtain ⟨new, plain, net, next, keeps⟩ := stage.perform handles found now time
      have sides := Bridge.sameSide_carriedOut (b := b) c.bridge (b.deeds now time c.bridge.desk task)
      have coming : (b.performAt now time c.bridge k).coming = c.bridge.coming := by
        rw [Bridge.performAt_eq found]
        exact sides.coming
      have ended : (b.performAt now time c.bridge k).ended = c.bridge.ended := by
        rw [Bridge.performAt_eq found]
        exact sides.ended
      refine ⟨_, ended.trans serving, corr, coming ▸ brings, next, ?_⟩
      cases client with
      | waiting awaits =>
          refine .waiting ?_
          show c.client.Awaits (b.performAt now time c.bridge k).net _
          rw [net, ← corr]
          refine Exchange.Awaits.hearAll b.lane new awaits fun r member => ?_
          rcases plain r member with same | same
          · rw [same]
            rfl
          · rw [same]
            exact handles.whole
      | finished state replies concluded released =>
          refine .finished state replies (List.mem_append_left _ concluded) ?_
          rw [Released, keeps concluded]
          exact released
      | gaveUp gives state unsettled heard =>
          exact .gaveUp gives state unsettled (heard.trans (List.prefix_append _ _))

/-! ## What the client has -/

end Agrees

/-! ## Runs -/

section Runs

variable {c : Conversation τ ρ} {late : Prop}

def Underway (b : Bridge (List Packet) τ ρ) (request : Command) (outcome : HandlerResult) (store : τ)
    (desk : ρ) (late : Prop) (c : Conversation τ ρ) : Prop :=
  ∃ cs said, Agrees b request outcome store desk late cs said c

namespace Underway

theorem step (underway : Underway b request outcome store desk late c)
    (handles : Handles b request outcome desk) {act : Act} (patient : c.Patient act ∨ late) :
    Underway b request outcome store desk late (c.step b act) := by
  obtain ⟨cs, said, agrees⟩ := underway
  cases act with
  | up now n =>
      obtain ⟨left, next⟩ := agrees.up handles now n
      exact ⟨left, said, next⟩
  | down now n =>
      obtain ⟨left, next⟩ := agrees.down now n
      exact ⟨left, said, next⟩
  | perform now time k =>
      obtain ⟨told, next⟩ := agrees.perform handles now time k
      exact ⟨cs, told, next⟩
  | deadline now =>
      obtain ⟨left, next⟩ := agrees.deadline now patient
      exact ⟨left, said, next⟩

theorem run (handles : Handles b request outcome desk) :
    ∀ (acts : List Act) {c : Conversation τ ρ}, Underway b request outcome store desk late c →
      c.InTime b acts ∨ late → Underway b request outcome store desk late (c.run b acts) := by
  intro acts
  induction acts with
  | nil =>
      intro c underway _
      exact underway
  | cons act acts ih =>
      intro c underway inTime
      exact ih (underway.step handles (inTime.imp_left And.left)) (inTime.imp_left And.right)

end Underway

/-! ## Every run can be brought to an end -/

/-- Moves of the bridge alone as acts. -/
theorem acts_of_moves : ∀ (moves : List Move), (∀ m ∈ moves, ∃ now time k, m = .perform now time k) →
    ∀ c : Conversation τ ρ, ∃ acts : List Act,
      c.InTime b acts ∧ c.run b acts = { c with bridge := b.run c.bridge moves } := by
  intro moves
  induction moves with
  | nil => exact fun _ c => ⟨[], trivial, rfl⟩
  | cons m moves ih =>
      intro performing c
      obtain ⟨⟨now, time, k, rfl⟩, others⟩ := List.forall_mem_cons.mp performing
      obtain ⟨acts, inTime, ran⟩ := ih others (c.step b (.perform now time k))
      exact ⟨.perform now time k :: acts, ⟨trivial, inTime⟩, ran⟩

/-- The bridge takes everything in and does everything, the client takes everything in. -/
theorem Underway.round (underway : Underway b request outcome store desk late c)
    (handles : Handles b request outcome desk) :
    ∃ acts : List Act, c.InTime b acts ∧ (c.run b acts).bridge.tasks = [] ∧
      (c.run b acts).bridge.net = [] ∧
      (c.client.state = .finished → (c.run b acts).client.net = []) ∧
      ((c.run b acts).client.net = [] ∨ (c.run b acts).client.state = .finished) := by
  obtain ⟨moves, performing, idle⟩ :=
    Bridge.completes (b := b) (c.step b (.up 0 c.client.net.length)).bridge
  obtain ⟨acts, inTime, ran⟩ := acts_of_moves (b := b) moves performing
    (c.step b (.up 0 c.client.net.length))
  have begun : c.InTime b (.up 0 c.client.net.length :: acts) := ⟨trivial, inTime⟩
  obtain ⟨cs, said, agrees⟩ := underway.run handles _ (.inl begun)
  have done : c.run b (.up 0 c.client.net.length :: acts) = _ := ran
  generalize onward : c.run b (.up 0 c.client.net.length :: acts) = d at agrees done
  have taken : d.client.net = [] := by
    rw [done]
    exact List.drop_length
  have same : d.client.state = c.client.state := by
    rw [done]
    rfl
  have tasks : d.bridge.tasks = [] := by
    rw [done]
    exact idle
  have last : c.run b (.up 0 c.client.net.length :: acts ++ [.down 0 d.bridge.net.length])
      = d.step b (.down 0 d.bridge.net.length) := by
    rw [run_append, onward]
    rfl
  refine ⟨_, (inTime_append _ [.down 0 d.bridge.net.length] c).mpr ⟨begun, trivial, trivial⟩, ?_⟩
  rw [last, Conversation.step]
  have still (finished : d.client.state = .finished) :
      (d.client.onBatch .queue 0 (d.bridge.net.take d.bridge.net.length)).net = [] := by
    rw [Exchange.onBatch_of_finished finished]
    exact taken
  refine ⟨tasks, List.drop_length, fun finished => still (same.trans finished), ?_⟩
  cases agrees.client with
  | waiting awaits =>
      rcases (awaits.onBatch 0 d.bridge.net.length).1 with ⟨-, net⟩ | ⟨-, finished, -⟩
      · exact .inl (net.trans taken)
      · exact .inr finished
  | finished state => exact .inl (still state)
  | gaveUp gives state => exact .inl (still state)

theorem Underway.settles (underway : Underway b request outcome store desk late c)
    (handles : Handles b request outcome desk) :
    ∃ acts : List Act, c.InTime b acts ∧ (c.run b acts).Quiet := by
  obtain ⟨first, inTime, tasks, net, -, up | finished⟩ := underway.round handles
  · exact ⟨first, inTime, up, net, tasks⟩
  · -- The client has just finished, and its acknowledgement is on its way.
    obtain ⟨second, inTime', tasks', net', up, -⟩ :=
      (underway.run handles first (.inl inTime)).round handles
    refine ⟨first ++ second, (inTime_append _ _ c).mpr ⟨inTime, inTime'⟩, ?_⟩
    rw [run_append]
    exact ⟨up finished, net', tasks'⟩

end Runs
end Conversation

end FlexLink
