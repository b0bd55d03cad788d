import FlexLink.Proofs.Bridge.Replies

/-! # Replies that are sent again

A history of a bridge is a list of final replies and control messages.  It tells which replies are
kept (`kept`), which packets each of them has (`latest?`), and so what every request for replies is
answered with (`answers`).  The buffer of a bridge holds just that, and each answer is carried out
once: `Retains.run`. -/
set_option autoImplicit false
namespace FlexLink

namespace Bridge

inductive Matter where
  | final (corr : String) (packets : List Packet)
  | control (c : Control String)

namespace Matter

def packetsFor (corr : String) : Matter → Option (List Packet)
  | .final other packets => if other = corr then some packets else none
  | .control _ => none

/-- The packets of the latest final reply to `corr`. -/
def latest? (corr : String) (past : List Matter) : Option (List Packet) :=
  (past.filterMap (packetsFor corr)).getLast?

/-- The correlations of the replies that are kept, oldest first, after one more matter.  A new one
pushes out the oldest if there is no room, one that is there keeps its age. -/
def keep (capacity : Nat) (kept : List String) : Matter → List String
  | .final corr _ =>
    if corr ∈ kept then kept else (kept ++ [corr]).drop (kept.length + 1 - capacity)
  | .control c =>
    match c.ack with
    | some acked => kept.filter fun corr => corr ≠ acked
    | none => kept

def kept (capacity : Nat) (past : List Matter) : List String := past.foldl (keep capacity) []

/-- What `c` is answered with after `past`, its acknowledgement counted first. -/
def answer (capacity : Nat) (past : List Matter) (c : Control String) : List (List Packet) :=
  (c.nack.getD []).filterMap fun corr =>
    if corr ∈ kept capacity (past ++ [.control c]) then latest? corr past else none

def answered (capacity : Nat) (past : List Matter) : Matter → List (List (List Packet))
  | .final _ _ => []
  | .control c => if answer capacity past c = [] then [] else [answer capacity past c]

/-- All answers in `rest`, which comes after `past`. -/
def answers (capacity : Nat) : (past rest : List Matter) → List (List (List Packet))
  | _, [] => []
  | past, matter :: rest => answered capacity past matter ++ answers capacity (past ++ [matter]) rest

theorem answers_snoc (capacity : Nat) (matter : Matter) :
    ∀ rest past : List Matter, answers capacity past (rest ++ [matter])
      = answers capacity past rest ++ answered capacity (past ++ rest) matter := by
  intro rest
  induction rest with
  | nil =>
      intro past
      simp [answers]
  | cons first rest ih =>
      intro past
      simp [answers, ih]

theorem kept_snoc (capacity : Nat) (past : List Matter) (matter : Matter) :
    kept capacity (past ++ [matter]) = keep capacity (kept capacity past) matter := by
  simp [kept]

theorem latest?_control (corr : String) (past : List Matter) (c : Control String) :
    latest? corr (past ++ [.control c]) = latest? corr past := by
  simp [latest?, packetsFor]

theorem latest?_final (corr other : String) (past : List Matter) (packets : List Packet) :
    latest? corr (past ++ [.final other packets])
      = if other = corr then some packets else latest? corr past := by
  by_cases same : other = corr
  · simp [latest?, packetsFor, same]
  · simp [latest?, packetsFor, same]

/-- Induction along a history, newest matter last. -/
theorem kept_induction {capacity : Nat} {P : List Matter → List String → Prop} (none : P [] [])
    (more : ∀ past matter, P past (kept capacity past) →
      P (past ++ [matter]) (keep capacity (kept capacity past) matter)) (past : List Matter) :
    P past (kept capacity past) := by
  induction past using List.reverseRecOn with
  | nil => exact none
  | append_singleton past matter ih =>
      rw [kept_snoc]
      exact more past matter ih

theorem length_kept_le (capacity : Nat) (past : List Matter) :
    (kept capacity past).length ≤ capacity := by
  refine kept_induction (P := fun _ kept => kept.length ≤ capacity) (Nat.zero_le _) ?_ past
  intro past matter room
  cases matter with
  | final corr packets =>
      rw [keep]
      split
      · exact room
      · simp only [List.length_drop, List.length_append, List.length_singleton]
        omega
  | control c =>
      rw [keep]
      split
      · exact Nat.le_trans (List.length_filter_le _ _) room
      · exact room

theorem nodup_kept (capacity : Nat) (past : List Matter) : (kept capacity past).Nodup := by
  refine kept_induction (P := fun _ kept => kept.Nodup) List.nodup_nil ?_ past
  intro past matter different
  cases matter with
  | final corr packets =>
      rw [keep]
      split
      · exact different
      · next new =>
          apply List.Nodup.sublist (List.drop_sublist _ _)
          exact Table.nodup_snoc different new
  | control c =>
      rw [keep]
      split
      · exact different.filter _
      · exact different

theorem latest?_of_kept {capacity : Nat} (past : List Matter) :
    ∀ corr ∈ kept capacity past, (latest? corr past).isSome = true := by
  refine kept_induction
    (P := fun past kept => ∀ corr ∈ kept, (latest? corr past).isSome = true) ?_ ?_ past
  · intro corr none
    cases none
  · intro past matter known corr member
    cases matter with
    | final fresh packets =>
        rw [latest?_final]
        split
        · rfl
        · next other =>
            apply known
            rw [keep] at member
            split at member
            · exact member
            · have inside := List.mem_of_mem_drop member
              rcases List.mem_append.mp inside with old | new
              · exact old
              · exact absurd (List.mem_singleton.mp new).symm other
    | control c =>
        rw [latest?_control]
        apply known
        rw [keep] at member
        split at member
        · exact (List.mem_filter.mp member).1
        · exact member

/-- A reply is no longer kept if it is acknowledged, or if it is the oldest of as many as there is room
for and a new one comes. -/
theorem not_kept {capacity : Nat} {past : List Matter} {matter : Matter} {corr : String}
    (before : corr ∈ kept capacity past) (after : corr ∉ kept capacity (past ++ [matter])) :
    (∃ c, matter = .control c ∧ c.ack = some corr) ∨
      ∃ fresh packets younger, matter = .final fresh packets ∧ fresh ∉ kept capacity past ∧
        kept capacity past = corr :: younger ∧ (kept capacity past).length = capacity := by
  have room := length_kept_le capacity past
  rw [kept_snoc] at after
  cases matter with
  | final fresh packets =>
      rw [keep] at after
      split at after
      · exact absurd before after
      · next new =>
          right
          generalize kept capacity past = old at before after new room
          by_cases full : old.length = capacity
          · -- Exactly the oldest one makes room.
            have one : old.length + 1 - capacity = 1 := by omega
            rw [one] at after
            cases old with
            | nil => cases before
            | cons oldest younger =>
                rcases List.mem_cons.mp before with rfl | later
                · exact ⟨fresh, packets, younger, rfl, new, rfl, full⟩
                · exact absurd (List.mem_append_left _ later) after
          · have none : old.length + 1 - capacity = 0 := by omega
            rw [none] at after
            exact absurd (List.mem_append_left _ before) after
  | control c =>
      left
      rw [keep] at after
      split at after
      · next acked given =>
          refine ⟨c, rfl, ?_⟩
          rw [given]
          by_cases same : corr = acked
          · rw [same]
          · exact absurd (List.mem_filter.mpr ⟨before, by simpa using same⟩) after
      · exact absurd before after

end Matter

/-! ## The buffer as the history tells it -/

open Matter

def remembered (capacity : Nat) (past : List Matter) : ResendBuffer String :=
  .holding capacity ((kept capacity past).map fun corr => (corr, (latest? corr past).getD []))

theorem order_remembered (capacity : Nat) (past : List Matter) :
    (remembered capacity past).order = kept capacity past := by
  simp [remembered, ResendBuffer.holding, Function.comp_def]

theorem get?_remembered (capacity : Nat) (past : List Matter) (corr : String) :
    (remembered capacity past).frames.get? corr
      = if corr ∈ kept capacity past then latest? corr past else none := by
  rw [remembered, ResendBuffer.holding, Table.get?_map]
  by_cases member : corr ∈ kept capacity past
  · obtain ⟨packets, known⟩ := Option.isSome_iff_exists.mp (latest?_of_kept past corr member)
    simp [member, known]
  · simp [member]

theorem record_remembered (capacity : Nat) (past : List Matter) (corr : String)
    (packets : List Packet) :
    (remembered capacity past).record corr packets
      = remembered capacity (past ++ [.final corr packets]) := by
  have different := nodup_kept capacity past
  have room := length_kept_le capacity past
  -- The packets of the replies that are kept, after this one.
  have value (other : String) : (latest? other (past ++ [.final corr packets])).getD []
      = if other = corr then packets else (latest? other past).getD [] := by
    rw [latest?_final]
    by_cases same : other = corr
    · rw [if_pos same, if_pos same.symm, Option.getD_some]
    · rw [if_neg same, if_neg (Ne.symm same)]
  rw [remembered, remembered, kept_snoc, keep]
  simp only [value]
  generalize kept capacity past = old at different room
  have names : (old.map fun other => (other, (latest? other past).getD [])).map (·.1) = old := by
    simp [Function.comp_def]
  by_cases present : corr ∈ old
  · rw [if_pos present, ← Table.put_map different present]
    refine ResendBuffer.record_holding_of_mem ?_ ?_ ?_ packets
    · rwa [names]
    · rwa [List.length_map]
    · rwa [names]
  · have unlike : (old.map fun other =>
          (other, if other = corr then packets else (latest? other past).getD []))
        = old.map fun other => (other, (latest? other past).getD []) := by
      refine List.map_congr_left fun other member => ?_
      have apart : other ≠ corr := fun same => present (same ▸ member)
      rw [if_neg apart]
    rw [if_neg present, List.map_drop, List.map_append, unlike, List.map_singleton, if_pos rfl,
      ResendBuffer.record_holding (names.symm ▸ different) (names.symm ▸ present),
      List.length_map]

theorem release_remembered (capacity : Nat) (past : List Matter) {c : Control String} {acked : String}
    (given : c.ack = some acked) :
    ((remembered capacity past).release acked).1 = remembered capacity (past ++ [.control c]) := by
  rw [remembered, ResendBuffer.release_holding, remembered, kept_snoc, keep]
  simp only [given, latest?_control, List.filter_map]
  congr 2
  refine List.filter_congr fun corr _ => ?_
  simp [ResendKey.covered, Bool.beq_eq_decide_eq]

/-- A control message finds the answer that the history has for it. -/
theorem handle_remembered {capacity : Nat} {past : List Matter} {r : Reliability String}
    (buffer : r.buffer = remembered capacity past) (c : Control String) :
    (r.handle c).1.buffer = remembered capacity (past ++ [.control c]) ∧
      (r.handle c).2.map (·.2) = answer capacity past c := by
  have next : (r.handle c).1.buffer = remembered capacity (past ++ [.control c]) := by
    rw [Reliability.handle]
    cases given : c.ack with
    | some acked =>
        simp only [buffer]
        exact release_remembered capacity past given
    | none =>
        simp only [buffer]
        rw [remembered, remembered, kept_snoc, keep, given]
        simp only [latest?_control]
  refine ⟨next, ?_⟩
  have found : (r.handle c).2 = (r.handle c).1.buffer.lookup (c.nack.getD []) := rfl
  rw [found, next, ResendBuffer.lookup_frames, answer]
  refine congrArg (List.filterMap · _) (funext fun corr => ?_)
  rw [get?_remembered, latest?_control]

end Bridge

/-! ## What happens in a run -/

def Deed.matters (lane : Lane) : Deed → List Bridge.Matter
  | .concluded now request outcome =>
    [.final request.corr (lane.encode (.ofReply now request.corr (.ofOutcome outcome)))]
  | _ => []

def Task.answers : Task → List (List (List Packet))
  | .resend found => [found.map (·.2)]
  | _ => []

namespace Bridge

open Matter

variable {σ τ ρ : Type} {b : Bridge σ τ ρ} {w v : Serving σ τ ρ} {capacity : Nat} {past : List Matter}
  {done : List (List (List Packet))}

def mattersOf (b : Bridge σ τ ρ) (w : Serving σ τ ρ) : Move → List Matter
  | .take now batch =>
    ((w.coming.pushAll batch).2.flatMap fun text =>
      Inbound.controls ⟨now, parseOutcome Command.shape text⟩).map .control
  | .perform now time k => (b.deedsOf w (.perform now time k)).flatMap (Deed.matters b.lane)

/-- The final replies and control messages of a run, in order. -/
def history (b : Bridge σ τ ρ) (w : Serving σ τ ρ) : List Move → List Matter
  | [] => []
  | m :: moves => b.mattersOf w m ++ b.history (b.step w m) moves

def resendsOf (w : Serving σ τ ρ) : Move → List (List (List Packet))
  | .take _ _ => []
  | .perform _ _ k => w.tasks[k]?.toList.flatMap Task.answers

/-- The answers that a run carries out, in order. -/
def resends (b : Bridge σ τ ρ) (w : Serving σ τ ρ) : List Move → List (List (List Packet))
  | [] => []
  | m :: moves => resendsOf w m ++ b.resends (b.step w m) moves

/-- The packets that are sent again are those of the answers, one call for each reply. -/
theorem repeats_eq_resends (w : Serving σ τ ρ) (moves : List Move) :
    (b.story w moves).flatMap Deed.repeats = (b.resends w moves).flatten := by
  have one (now : Millis) (time : Nat) (desk : ρ) (task : Task) :
      (b.deeds now time desk task).flatMap Deed.repeats = task.answers.flatten := by
    have p := performs (b := b) now time desk task
    generalize b.rest time desk task = left at p
    generalize b.deeds now time desk task = ds at p ⊢
    cases p with
    | resend found =>
        rw [List.flatMap_map, Task.answers, List.flatten_singleton]
        exact List.map_eq_flatMap.symm
    | _ => rfl
  induction moves generalizing w with
  | nil => rfl
  | cons m moves ih =>
      rw [story, resends, List.flatMap_append, List.flatten_append, ih]
      congr 1
      cases m with
      | take now batch => rfl
      | perform now time k =>
          rw [deedsOf, resendsOf]
          cases w.tasks[k]? with
          | none => rfl
          | some task =>
              rw [Option.toList_some, List.flatMap_singleton, List.flatMap_singleton]
              exact one now time w.desk task

/-- The buffer is what the history says, and every answer was carried out or waits. -/
structure Retains (capacity : Nat) (past : List Matter) (done : List (List (List Packet)))
    (w : Serving σ τ ρ) : Prop where
  serving : w.ended = false
  buffer : w.reliability.buffer = remembered capacity past
  answered : (done ++ w.tasks.flatMap Task.answers).Perm (answers capacity [] past)

namespace Retains

theorem hear {now : Nat} {content : Except CodecError Command} (kept : Retains capacity past done w)
    (heard : Heard w now content v) :
    Retains capacity (past ++ (Inbound.controls ⟨now, content⟩).map .control) done v := by
  cases heard with
  | refused why =>
      rw [Inbound.controls, List.map_nil, List.append_nil]
      exact ⟨kept.serving, kept.buffer, by simpa [Serving.add, Task.answers] using kept.answered⟩
  | ignored e aside empty =>
      simpa [Inbound.controls, empty] using kept
  | controlled e control aside read =>
      obtain ⟨buffer, found⟩ := handle_remembered kept.buffer control
      have one : Inbound.controls ⟨now, .ok e⟩ = [control] := by simp [Inbound.controls, read]
      rw [one, List.map_singleton]
      refine ⟨kept.serving, buffer, ?_⟩
      rw [answers_snoc, List.nil_append, Matter.answered, ← found]
      generalize (w.reliability.handle control).2 = resent
      cases resent with
      | nil => simpa using kept.answered
      | cons first more =>
          have grown := kept.answered.append_right [(first :: more).map (·.2)]
          simpa [Task.answers] using grown
  | requested e request =>
      rw [Inbound.controls_of_ordinary now request, List.map_nil, List.append_nil]
      refine ⟨kept.serving, kept.buffer, ?_⟩
      by_cases fresh : (w.reliability.checkReplay e now).2 = .accepted
      · simpa [fresh, Task.answers] using kept.answered
      · simpa [fresh] using kept.answered

theorem hearAll (now : Nat) (texts : List (Except RunError (List UInt8)))
    (kept : Retains capacity past done w) :
    Retains capacity (past ++ (texts.flatMap fun text =>
        Inbound.controls ⟨now, parseOutcome Command.shape text⟩).map .control) done
      (texts.foldl (Serving.onText now) w) := by
  induction texts generalizing w past with
  | nil => simpa using kept
  | cons text texts ih =>
      have later := ih (kept.hear (heard_onText w now text))
      rw [List.flatMap_cons, List.map_append, ← List.append_assoc]
      exact later

theorem carryOut (kept : Retains capacity past done w) (deed : Deed) :
    Retains capacity (past ++ deed.matters b.lane) done (b.carryOut w deed) := by
  cases deed with
  | concluded now request outcome =>
      refine ⟨kept.serving, ?_, ?_⟩
      · rw [Deed.matters, ← record_remembered, ← kept.buffer]
        rfl
      · rw [Deed.matters, answers_snoc, Matter.answered, List.append_nil]
        exact kept.answered
  | _ =>
      show Retains capacity (past ++ []) done _
      rw [List.append_nil]
      exact ⟨kept.serving, kept.buffer, kept.answered⟩

theorem carriedOut (kept : Retains capacity past done w) (story : List Deed) :
    Retains capacity (past ++ story.flatMap (Deed.matters b.lane)) done
      (story.foldl b.carryOut w) := by
  induction story generalizing w past with
  | nil => simpa using kept
  | cons deed story ih =>
      rw [List.flatMap_cons, ← List.append_assoc]
      exact ih (kept.carryOut deed)

theorem perform {k : Nat} {task : Task} (kept : Retains capacity past done w)
    (found : w.tasks[k]? = some task) (now : Millis) (time : Nat) :
    Retains capacity (past ++ (b.deeds now time w.desk task).flatMap (Deed.matters b.lane))
      (done ++ task.answers) (b.performAt now time w k) := by
  obtain ⟨serving, buffer, answered⟩ := kept.carriedOut (b := b) (b.deeds now time w.desk task)
  have unmoved := (sameSide_carriedOut (b := b) w (b.deeds now time w.desk task)).tasks
  have none : (b.rest time w.desk task).toList.flatMap Task.answers = [] := by
    have p := performs (b := b) now time w.desk task
    generalize b.rest time w.desk task = left at p ⊢
    generalize b.deeds now time w.desk task = ds at p
    cases p <;> rfl
  have moved := flatMap_performAt (b := b) found now time Task.answers
  rw [none, List.nil_append] at moved
  rw [unmoved] at answered
  have balance := (List.Perm.append_left done moved).trans answered
  rw [← List.append_assoc] at balance
  refine ⟨?_, ?_, balance⟩
  all_goals rw [performAt_eq found]
  · exact serving
  · exact buffer

theorem step (kept : Retains capacity past done w) (m : Move) :
    Retains capacity (past ++ b.mattersOf w m) (done ++ resendsOf w m) (b.step w m) := by
  cases m with
  | take now batch =>
      have reading : Retains capacity past done { w with coming := (w.coming.pushAll batch).1 } :=
        ⟨kept.serving, kept.buffer, kept.answered⟩
      rw [Bridge.step, resendsOf, List.append_nil, onBatch_serving kept.serving]
      exact reading.hearAll now _
  | perform now time k =>
      rw [Bridge.step, mattersOf, deedsOf, resendsOf]
      cases found : w.tasks[k]? with
      | none =>
          rw [performAt_none found, Option.toList_none, List.flatMap_nil, List.flatMap_nil,
            List.flatMap_nil, List.append_nil, List.append_nil]
          exact kept
      | some task =>
          rw [Option.toList_some, List.flatMap_singleton, List.flatMap_singleton]
          exact kept.perform found now time

theorem run (kept : Retains capacity past done w) (moves : List Move) :
    Retains capacity (past ++ b.history w moves) (done ++ b.resends w moves) (b.run w moves) := by
  induction moves generalizing w past done with
  | nil => simpa [history, resends, Bridge.run] using kept
  | cons m moves ih =>
      rw [history, resends, ← List.append_assoc, ← List.append_assoc]
      exact ih (kept.step m)

theorem new (net : σ) (store : τ) (desk : ρ) (settings : ReliabilitySettings) :
    Retains (max settings.maxBuffered 1) [] [] (Serving.new net store desk settings) :=
  ⟨rfl, rfl, List.Perm.refl _⟩

end Retains

/-- What is sent again.  In every run the buffer holds those replies that are kept, each with the
packets of the latest final reply.  The calls of the link are those of the deeds, and all that is sent
again is sent by answers to control messages: each that asks for replies that are kept when it comes,
its acknowledgement counted first, is answered once or its answer waits, and every run can be brought
to where no answer waits.  Only an acknowledgement of just that reply, or a new reply when it is the
oldest of as many as there is room for, makes a reply leave. -/
theorem resends_latest_replies {σ τ ρ : Type} (link : Link σ) (journal : Journal τ)
    (handler : Handler ρ) (lane : Lane) (net : σ) (store : τ) (desk : ρ)
    (settings : ReliabilitySettings) (moves : List Move) :
    let b : Bridge (σ × List (List Packet)) τ ρ := ⟨link.called, journal, handler, lane⟩
    let start := Serving.new (net, []) store desk settings
    let capacity := max settings.maxBuffered 1
    let past := b.history start moves
    let w := b.run start moves
    (w.reliability.buffer.order = kept capacity past ∧
      ∀ corr, w.reliability.buffer.frames.get? corr
        = if corr ∈ kept capacity past then latest? corr past else none) ∧
    w.net.2.reverse = (b.story start moves).flatMap (Deed.sent lane) ∧
    (b.story start moves).flatMap Deed.repeats = (b.resends start moves).flatten ∧
    (b.resends start moves ++ w.tasks.flatMap Task.answers).Perm (answers capacity [] past) ∧
    (∃ more : List Move, (∀ m ∈ more, ∃ now time k, m = .perform now time k) ∧
      (b.run start (moves ++ more)).tasks = []) ∧
    ∀ before matter after, past = before ++ matter :: after → ∀ corr ∈ kept capacity before,
      corr ∉ kept capacity (before ++ [matter]) →
        (∃ c, matter = .control c ∧ c.ack = some corr) ∨
        ∃ fresh packets younger, matter = .final fresh packets ∧ fresh ∉ kept capacity before ∧
          kept capacity before = corr :: younger ∧ (kept capacity before).length = capacity := by
  intro b start capacity past w
  have retains := (Retains.new (net, []) store desk settings).run (b := b) moves
  rw [List.nil_append, List.nil_append] at retains
  have buffer : w.reliability.buffer = remembered capacity past := retains.buffer
  refine ⟨⟨?_, ?_⟩, ?_, repeats_eq_resends start moves, retains.answered, ?_, ?_⟩
  · rw [buffer]
    exact order_remembered capacity past
  · intro corr
    rw [buffer]
    exact get?_remembered capacity past corr
  · let told (net : σ × List (List Packet)) : List (List Packet) := net.2
    have tells : ∀ net packets, told (b.link.send net packets).1 = packets :: told net :=
      fun _ _ => rfl
    have sent := net_run tells start moves
    have none : told start.net = [] := rfl
    rw [none, List.append_nil] at sent
    exact (congrArg List.reverse sent).trans (List.reverse_reverse _)
  · obtain ⟨more, performing, done⟩ := completes (b := b) w
    refine ⟨more, performing, ?_⟩
    rw [run_append]
    exact done
  · intro before matter after _ corr
    exact not_kept

/-- The reply to `b` is acknowledged with the request for it, that to `a` was produced twice. -/
example (p q r : List Packet) :
    answers 2 [] [.final "a" p, .final "b" q, .final "a" r,
      .control { ack := some "b", nack := some ["b", "a", "a"] }] = [[r, r]] := rfl

end Bridge
end FlexLink
