import FlexLink.Proofs.Bridge.Accounts
import FlexLink.Proofs.Client.Recalling
import FlexLink.Proofs.Reliability.Suppressing

/-! # Requests that are sent again to the bridge that served them

A request that is got from the journal and sent again has a new time and the old correlation, which the
replay cache may still remember.  `Coherent.check_again` says when the cache takes a correlation a second
time, `Hears.run` what cache a bridge has, and `node?_run` that a record stands for the rest of a run.
So a request that is sent again is served where the window is over, by its timestamps or by the local
clock, and is suppressed everywhere else. -/
set_option autoImplicit false
namespace FlexLink

/-! ## A second check -/

namespace ReplayCache

variable {c : ReplayCache} {clock now : Nat} {corr : String} {ts again : Millis}

/-- A window after its latest acceptance a cache remembers nothing. -/
theorem Coherent.get?_sweep_expired (coherent : c.Coherent clock) (expired : clock + c.lifetime ≤ now)
    (corr : String) : (c.sweep now).seen.get? corr = none := by
  have past : ∀ e ∈ c.queue, c.old now e = true := by
    intro e member
    have := coherent.queuedAt_le member
    exact decide_eq_true (by omega)
  rw [get?_sweep coherent.queued, List.takeWhile_eq_self_iff.mpr past]
  by_cases known : corr ∈ c.queue.map (·.1)
  · rw [if_pos known, Option.filter_eq_none_iff]
    intro a found
    have := coherent.past corr a found
    simp only [decide_eq_true_eq]
    omega
  · rw [if_neg known]
    exact (Table.get?_eq_none_iff _ _).mpr (mt (coherent.listed corr).mpr known)

/-- When a cache takes the correlation again that it took last. -/
theorem Coherent.check_again (coherent : c.Coherent clock)
    (found : c.seen.get? corr = some ⟨ts, clock⟩) (again : Millis) (now : Nat) :
    (c.check corr again now).2 = .accepted
      ↔ c.window ≤ again.toNat - ts.toNat ∨ clock + c.lifetime ≤ now := by
  have span := (settings_sweep coherent.queued now).window
  rw [ReplayCache.check]
  by_cases expired : clock + c.lifetime ≤ now
  · simp only [coherent.get?_sweep_expired expired corr]
    exact iff_of_true trivial (.inr expired)
  · have kept := coherent.get?_sweep_fresh found (Nat.lt_of_not_le expired)
    simp only [kept, span]
    by_cases elapsed : c.window ≤ again.toNat - ts.toNat
    · rw [if_pos elapsed]
      exact iff_of_true rfl (.inl elapsed)
    · rw [if_neg elapsed]
      refine iff_of_false ?_ (not_or.mpr ⟨elapsed, expired⟩)
      rintro ⟨⟩

def arrival (r : Nat × Command) : Arrival := ⟨r.2.corr, r.2.ts, r.1⟩

theorem admission_eq_afterAll (c : ReplayCache) (came : List Inbound) :
    (c.admission came).1 = c.afterAll ((came.flatMap Inbound.requests).map arrival) := by
  have all (requests : List (Nat × Command)) (c : ReplayCache) (accepted : List Command) :
      (requests.foldl accept (c, accepted)).1 = c.afterAll (requests.map arrival) := by
    induction requests generalizing c accepted with
    | nil => rfl
    | cons r rest ih => exact ih _ _
  exact all _ c []

end ReplayCache

namespace Bridge

/-! ## The replay cache of a bridge -/

section Hearing

variable {σ τ ρ : Type} {b : Bridge σ τ ρ} {w v : Serving σ τ ρ} {cache : ReplayCache} {a : Assembler}
  {came : List Inbound}

structure Hears (cache : ReplayCache) (a : Assembler) (came : List Inbound) (w : Serving σ τ ρ) :
    Prop where
  coming : w.coming = a
  serving : w.ended = false
  replay : w.reliability.replay = (cache.admission came).1

namespace Hears

theorem hear {x : Inbound} {new : List Task} (hears : Hears cache a came w) (adds : Adds w v x new) :
    Hears cache a (came ++ [x]) v := by
  have admitted := adds.admitted (cache.admission came).2
  rw [hears.replay, ← ReplayCache.admission_snoc] at admitted
  exact ⟨adds.coming.trans hears.coming, adds.ended.trans hears.serving, congrArg (·.1) admitted⟩

theorem hearAll (now : Nat) (texts : List (Except RunError (List UInt8)))
    (hears : Hears cache a came w) :
    Hears cache a (came ++ texts.map fun text => ⟨now, parseOutcome Command.shape text⟩)
      (texts.foldl (Serving.onText now) w) := by
  induction texts generalizing w came with
  | nil =>
      rw [List.map_nil, List.append_nil]
      exact hears
  | cons text texts ih =>
      obtain ⟨new, adds⟩ := adds_of_heard (heard_onText w now text)
      rw [List.map_cons, List.append_cons]
      exact ih (hears.hear adds)

theorem step (hears : Hears cache a came w) (m : Move) :
    Hears cache (Inbound.note (a, came) m).1 (Inbound.note (a, came) m).2 (b.step w m) := by
  cases m with
  | take now batch =>
      have reading : Hears cache (a.pushAll batch).1 came { w with coming := (a.pushAll batch).1 } :=
        ⟨rfl, hears.serving, hears.replay⟩
      rw [Bridge.step, onBatch_serving hears.serving, hears.coming]
      exact reading.hearAll now _
  | perform now time k =>
      rw [Bridge.step]
      cases found : w.tasks[k]? with
      | none =>
          rw [performAt_none found]
          exact hears
      | some task =>
          have side := sameSide_carriedOut (b := b) w (b.deeds now time w.desk task)
          rw [performAt_eq found]
          exact ⟨side.coming.trans hears.coming, side.ended.trans hears.serving,
            side.replay.trans hears.replay⟩

theorem run (net : σ) (store : τ) (desk : ρ) (settings : ReliabilitySettings) (moves : List Move) :
    Hears (.new settings.replayWindowMs settings.maxReplayEntries)
      (moves.foldl Inbound.note ({}, [])).1 (incoming moves)
      (b.run (.new net store desk settings) moves) := by
  induction moves using List.reverseRecOn with
  | nil => exact ⟨rfl, rfl, rfl⟩
  | append_singleton moves m ih =>
      rw [run_append, incoming, List.foldl_append]
      exact ih.step m

end Hears

end Hearing

/-! ## Records that stand -/

section Records

variable {σ ρ : Type} {b : Bridge σ JournalDirectory ρ} {w : Serving σ JournalDirectory ρ}
  {name : String} {file : FileNode} {corr : String} {role : JournalRole}

theorem node?_carryOut (kept : b.journal = .directory)
    (stands : w.journal.node? (RecordFile.name corr role) = some file) (deed : Deed) :
    (b.carryOut w deed).journal.node? (RecordFile.name corr role) = some file := by
  have still (now : Millis) (corr' : String) (role' : JournalRole) (payload : Json) :
      (b.note w now corr' role' payload).journal.node? (RecordFile.name corr role) = some file := by
    rw [note, kept]
    exact JournalDirectory.node?_write stands now corr' role' payload
  cases deed with
  | acknowledged now request => exact still now request.corr .request request.toJson
  | concluded now request outcome =>
      exact still now request.corr .response (Reply.ofOutcome outcome).toBody
  | _ => exact stands

theorem node?_step (kept : b.journal = .directory)
    (stands : w.journal.node? (RecordFile.name corr role) = some file) (m : Move) :
    (b.step w m).journal.node? (RecordFile.name corr role) = some file := by
  cases m with
  | take now batch =>
      rw [step, (outside_onBatch w now batch).2.1]
      exact stands
  | perform now time k =>
      have carriedOut (story : List Deed) {w : Serving σ JournalDirectory ρ}
          (stands : w.journal.node? (RecordFile.name corr role) = some file) :
          (story.foldl b.carryOut w).journal.node? (RecordFile.name corr role) = some file := by
        induction story generalizing w with
        | nil => exact stands
        | cons deed story ih => exact ih (node?_carryOut kept stands deed)
      rw [step]
      cases found : w.tasks[k]? with
      | none =>
          rw [performAt_none found]
          exact stands
      | some task =>
          rw [performAt_eq found]
          exact carriedOut _ stands

/-- A record stands for the rest of a run. -/
theorem node?_run (kept : b.journal = .directory)
    (stands : w.journal.node? (RecordFile.name corr role) = some file) (moves : List Move) :
    (b.run w moves).journal.node? (RecordFile.name corr role) = some file := by
  induction moves generalizing w with
  | nil => exact stands
  | cons m moves ih => exact ih (node?_step kept stands m)

end Records

/-! ## Sent again -/

section Again

variable {σ ρ : Type} {b : Bridge σ JournalDirectory ρ} {w : Serving σ JournalDirectory ρ}
  {moves : List Move} {c r : Command} {time now : Nat} {again : Millis}

def requests (moves : List Move) : List (Nat × Command) :=
  (incoming moves).flatMap Inbound.requests

/-- The latest request of a run is one that the replay cache accepted and the journal took. -/
structure Admitted (b : Bridge σ JournalDirectory ρ) (w : Serving σ JournalDirectory ρ)
    (moves : List Move) (time : Nat) (c : Command) : Prop where
  latest : ∃ earlier, requests moves = earlier ++ [(time, c)] ∧
    ((w.reliability.replay.afterAll (earlier.map ReplayCache.arrival)).check c.corr c.ts time).2
      = .accepted
  recorded : ∃ before stamp when k after, moves = before ++ .perform stamp when k :: after ∧
    (b.run w before).tasks[k]? = some (.serve c) ∧
    ((b.run w before).journal.write stamp c.corr .request c.toJson).2 = .ok ()

theorem node?_of_recorded (kept : b.journal = .directory) (admitted : Admitted b w moves time c) :
    ∃ stamp, (b.run w moves).journal.node? (RecordFile.name c.corr .request)
      = some (.text (JournalEntry.mk c.corr .request stamp c.toJson).render) := by
  obtain ⟨before, stamp, when, k, after, rfl, found, taken⟩ := admitted.recorded
  refine ⟨stamp, ?_⟩
  rw [run_append]
  refine node?_run kept ?_ after
  have stands := node?_serve (b := b) kept when (JournalDirectory.node?_of_taken taken).1
  rw [step, performAt, found]
  exact stands

theorem coherent_of_latest (settings : ReliabilitySettings) (net : σ) (store : JournalDirectory)
    (desk : ρ)
    (ordered : (requests moves).Pairwise fun x y => x.1 ≤ y.1)
    (admitted : Admitted b (.new net store desk settings) moves time c) :
    let cache := (b.run (.new net store desk settings) moves).reliability.replay
    cache.Coherent time ∧
      ReplayCache.SameSettings (.new settings.replayWindowMs settings.maxReplayEntries) cache ∧
      cache.seen.get? c.corr = some ⟨c.ts, time⟩ := by
  intro cache
  obtain ⟨earlier, came, accepted⟩ := admitted.latest
  let start : ReplayCache := .new settings.replayWindowMs settings.maxReplayEntries
  let past := earlier.map ReplayCache.arrival
  have latest : cache = ((start.afterAll past).check c.corr c.ts time).1 := by
    have hears := (Hears.run (b := b) net store desk settings moves).replay
    rw [ReplayCache.admission_eq_afterAll] at hears
    have came : (incoming moves).flatMap Inbound.requests = earlier ++ [(time, c)] := came
    rw [came, List.map_append, List.map_singleton, ReplayCache.afterAll_snoc] at hears
    exact hears
  rw [came] at ordered
  obtain ⟨earlierOrdered, -, last⟩ := List.pairwise_append.mp ordered
  have pastOrdered : past.Pairwise fun x y => x.time ≤ y.time := List.pairwise_map.mpr earlierOrdered
  have upTo : ∀ x ∈ past, x.time ≤ time := by
    intro x member
    obtain ⟨request, known, rfl⟩ := List.mem_map.mp member
    exact last request known (time, c) List.mem_cons_self
  obtain ⟨coherent, same⟩ := ReplayCache.coherent_afterAll settings.replayWindowMs
    settings.maxReplayEntries pastOrdered upTo
  have settled := coherent.settings_check (Nat.le_refl time) c.corr c.ts
  rw [latest]
  refine ⟨coherent.check (Nat.le_refl time) c.corr c.ts, same.trans settled, ?_⟩
  rcases ReplayCache.check_cases coherent (Nat.le_refl time) c.corr c.ts with
    ⟨-, -, -, same⟩ | ⟨after, takes, same⟩
  · have accepted : ((start.afterAll past).check c.corr c.ts time).2 = .accepted := accepted
    rw [same] at accepted
    cases accepted
  · rw [same]
    exact takes.get?_self

theorem content_of_incoming (moves : List Move) :
    ∀ x ∈ incoming moves, ∃ text, x.content = parseOutcome Command.shape text := by
  induction moves using List.reverseRecOn with
  | nil => exact List.forall_mem_nil _
  | append_singleton moves m ih =>
      rw [incoming, List.foldl_append]
      cases m with
      | perform stamp when k => exact ih
      | take when batch =>
          intro x member
          rcases List.mem_append.mp member with early | late
          · exact ih x early
          · obtain ⟨text, -, rfl⟩ := List.mem_map.mp late
            exact ⟨text, rfl⟩

/-- The members of whatever came are in order. -/
theorem canonical_of_request (came : (time, c) ∈ requests moves) : c.body.Canonical := by
  obtain ⟨x, member, own⟩ := List.mem_flatMap.mp came
  obtain ⟨text, content⟩ := content_of_incoming moves x member
  rw [Inbound.requests, content] at own
  cases read : parseOutcome Command.shape text with
  | error why =>
      rw [read] at own
      cases own
  | ok e =>
      have same : c = e := by
        rw [read] at own
        dsimp only at own
        split at own
        · cases own
        · exact congrArg (·.2) (List.mem_singleton.mp own)
      cases text with
      | error why => cases read
      | ok bytes =>
          obtain ⟨text, parsed⟩ := parse_of_parseText read
          obtain ⟨rest, found⟩ := Json.Shape.parse_ok parsed
          exact same ▸ (Command.within_of_read found).canonical

/-- A request that the bridge accepted and recorded is got from the journal with a new time, and with
another body at most where that holds real numbers.  If no request came after it, then the bridge takes
it again exactly if its new timestamp is a window ahead of the old one, or if it comes a window after it
was accepted. -/
theorem sent_again_accepted_iff (kept : b.journal = .directory) (net : σ) (store : JournalDirectory)
    (desk : ρ) (settings : ReliabilitySettings) (moves : List Move)
    (ordered : (requests moves).Pairwise fun x y => x.1 ≤ y.1)
    (admitted : Admitted b (.new net store desk settings) moves time c)
    (built : (b.run (.new net store desk settings) moves).journal.requestAgain c.corr again = .ok r)
    (now : Nat) :
    (∃ body, r = { c with body, ts := again } ∧ (c.body.Integral → body = c.body)) ∧
    (((b.run (.new net store desk settings) moves).reliability.checkReplay r now).2 = .accepted ↔
      settings.replayWindowMs ≤ again.toNat - c.ts.toNat ∨
        time + nanos settings.replayWindowMs ≤ now) := by
  obtain ⟨stamp, stands⟩ := node?_of_recorded kept admitted
  obtain ⟨body, rfl, same⟩ := JournalDirectory.requestAgain_of_node stands built
  obtain ⟨earlier, came, -⟩ := admitted.latest
  have canonical : c.body.Canonical :=
    canonical_of_request (came ▸ List.mem_append_right earlier List.mem_cons_self)
  refine ⟨⟨body, rfl, same canonical⟩, ?_⟩
  obtain ⟨coherent, same, found⟩ := coherent_of_latest settings net store desk ordered admitted
  have window : _ = settings.replayWindowMs := same.window
  have lifetime : _ = nanos settings.replayWindowMs := same.lifetime
  rw [← lifetime, ← window]
  exact coherent.check_again found again now

end Again

/-- A request of local time zero, which is served as soon as it comes. -/
def sampleRequest : Command := ⟨1, 1700000000000, "c-9", "ping", .object []⟩

def sampleMoves : List Move := [.take 0 (Lane.base.encode sampleRequest), .perform 7 0 0]

def sampleWaiting : Serving Unit JournalDirectory Unit :=
  { sampleServing with
    reliability := (sampleServing.reliability.checkReplay sampleRequest 0).1
    tasks := [.serve sampleRequest] }

theorem onBatch_sampleRequest :
    sampleServing.onBatch 0 (Lane.base.encode sampleRequest) = sampleWaiting :=
  onBatch_encode 0 Lane.base rfl rfl rfl ⟨trivial, trivial⟩ trivial (by decide)

theorem run_sampleMoves :
    sampleBridge.run sampleServing sampleMoves = sampleBridge.performAt 7 0 sampleWaiting 0 :=
  congrArg (sampleBridge.performAt 7 0 · 0) onBatch_sampleRequest

theorem requests_sampleMoves : requests sampleMoves = [(0, sampleRequest)] := by
  have integral : sampleRequest.body.Integral := trivial
  have free := zero_notMem_of_plain (sampleRequest.plain integral)
  have texts : ({} : Assembler).pushAll (Lane.base.encode sampleRequest)
      = ({}, [.ok (Utf8.encode sampleRequest.render)]) := Assembler.pushAll_pack_idle rfl .base free
  have parsed : parseOutcome Command.shape (.ok (Utf8.encode sampleRequest.render))
      = .ok sampleRequest :=
    parseText_encode (sampleRequest.parse_render ⟨trivial, trivial⟩ integral (by decide))
  simp only [requests, incoming, sampleMoves, List.foldl_cons, List.foldl_nil, Inbound.note, texts,
    List.map_cons, parsed]
  rfl

theorem admitted_sample : Admitted sampleBridge sampleServing sampleMoves 0 sampleRequest := by
  have first : sampleBridge.run sampleServing [.take 0 (Lane.base.encode sampleRequest)]
      = sampleWaiting := onBatch_sampleRequest
  refine ⟨⟨[], requests_sampleMoves, rfl⟩, [.take 0 (Lane.base.encode sampleRequest)], 7, 0, 0, [], rfl,
    ?_, ?_⟩
  · rw [first]
    rfl
  · rw [first]
    rfl

theorem requestAgain_sample (again : Millis) :
    (sampleBridge.run sampleServing sampleMoves).journal.requestAgain "c-9" again
      = .ok { sampleRequest with ts := again } := by
  rw [run_sampleMoves]
  have taken : (sampleWaiting.journal.write 7 "c-9" .request sampleRequest.toJson).2 = .ok () := rfl
  obtain ⟨shallow, -⟩ := read_journalAfter (b := sampleBridge) (c := sampleRequest) rfl
    ⟨trivial, trivial⟩ trivial taken 0 []
  exact JournalDirectory.requestAgain_of_read (shallow (by decide)) again

theorem sample_sent_again :
    ((sampleBridge.run sampleServing sampleMoves).reliability.checkReplay
      { sampleRequest with ts := 1700000060000 } (nanos 1000)).2 = .accepted := by
  have ordered : (requests sampleMoves).Pairwise fun x y => x.1 ≤ y.1 := by
    rw [requests_sampleMoves]
    exact List.pairwise_singleton _ _
  obtain ⟨-, accepted⟩ := sent_again_accepted_iff (b := sampleBridge) rfl ()
    { path := "journal", process := 7 } () {} sampleMoves ordered admitted_sample
    (requestAgain_sample 1700000060000) (nanos 1000)
  exact accepted.mpr (.inl (by decide))

/-- A request that is sent again one second after it came is suppressed. -/
theorem sample_suppressed :
    Admitted sampleBridge sampleServing sampleMoves 0 sampleRequest ∧
    (sampleBridge.run sampleServing sampleMoves).journal.requestAgain "c-9" 1700000001000
      = .ok { sampleRequest with ts := 1700000001000 } ∧
    ((sampleBridge.run sampleServing sampleMoves).reliability.checkReplay
      { sampleRequest with ts := 1700000001000 } (nanos 1000)).2 = .suppressed := by
  refine ⟨admitted_sample, requestAgain_sample _, ?_⟩
  rw [run_sampleMoves]
  rfl

end Bridge
end FlexLink
