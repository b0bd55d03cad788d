import FlexLink.Client.Records
import FlexLink.Bridge.Serving
import FlexLink.Proofs.Envelope.Values
import FlexLink.Proofs.Journal.Lengths
import FlexLink.Proofs.Journal.Limits
import FlexLink.Proofs.Journal.Unseen

/-! # Requests that are sent again from the journal

A request that came in packets is recorded when it is served, and nothing that is written later touches
its record.  The text of a record has one bracket more than the request's own text and the record itself
another one.  So a body as deep as a request can have makes a record that no reader takes back, and any
other comes back as it was. -/
set_option autoImplicit false
namespace FlexLink

namespace JournalDirectory

variable {d : JournalDirectory} {corr : String} {role : JournalRole} {now : Millis} {payload : Json}

/-- A write that is taken leaves its record in its file, whose name the system takes. -/
theorem node?_of_taken (taken : (d.write now corr role payload).2 = .ok ()) :
    (d.write now corr role payload).1.node? (RecordFile.name corr role)
        = some (.text (JournalEntry.mk corr role now payload).render) ∧
      fits (RecordFile.name corr role) = true := by
  rcases d.write_cases now corr role payload with ⟨n, why, same⟩ | ⟨files, -, -, fit, same⟩
  · rw [same] at taken
    cases taken
  · rw [same]
    refine ⟨?_, ?_⟩
    · show ((files.erase _).insert _ _).get? _ = _
      rw [Table.get?_insert, if_pos rfl]
    · refine decide_eq_true (Nat.le_trans ?_ (of_decide_eq_true fit))
      exact RecordFile.size_name_le corr role d.process d.drafts

theorem node?_write {file : FileNode} (stands : d.node? (RecordFile.name corr role) = some file)
    (now' : Millis) (corr' : String) (role' : JournalRole) (payload' : Json) :
    (d.write now' corr' role' payload').1.node? (RecordFile.name corr role) = some file := by
  rcases d.write_cases now' corr' role' payload' with ⟨n, why, same⟩ | ⟨files, standing, absent, -, same⟩
  · rw [same]
    exact stands
  · rw [same]
    rw [node?, standing] at stands absent
    have other : RecordFile.name corr role ≠ RecordFile.name corr' role' := by
      intro own
      rw [← own, stands] at absent
      cases absent
    show ((files.erase _).insert _ _).get? _ = _
    rw [Table.get?_insert, if_neg other, Table.get?_erase,
      if_neg (RecordFile.draftName_ne_name corr' corr role' role d.process d.drafts).symm]
    exact stands

theorem node?_records {file : FileNode} (stands : d.node? (RecordFile.name corr role) = some file)
    (log : List JournalEntry) (later : List Journal.Call) :
    (later.foldl Journal.directory.record (d, log)).1.node? (RecordFile.name corr role)
      = some file := by
  induction later generalizing d log with
  | nil => exact stands
  | cons call later ih =>
      cases call with
      | read _ _ => exact ih stands log
      | write now' corr' role' payload' =>
          have next := node?_write stands now' corr' role' payload'
          rw [List.foldl_cons, Journal.record]
          have own : Journal.directory.write d now' corr' role' payload'
              = d.write now' corr' role' payload' := rfl
          rw [own]
          cases written : d.write now' corr' role' payload' with
          | mk after result =>
              rw [written] at next
              cases result with
              | ok => exact ih next _
              | error why => exact ih next log

/-- Any record can be read that stands in its file, unless its payload is too deep. -/
theorem read_of_node {e : JournalEntry} (fit : fits (RecordFile.name e.corr e.role) = true)
    (stands : d.node? (RecordFile.name e.corr e.role) = some (.text e.render))
    (canonical : e.payload.Canonical) (integral : e.payload.Integral) :
    (e.payload.depth ≤ 126 → d.read e.corr e.role = .ok (some e)) ∧
      (126 < e.payload.depth → ∃ why, d.read e.corr e.role = .error (.serialize why)) := by
  refine ⟨fun shallow => ?_, fun deep => ?_⟩
  · exact read_node ⟨canonical, integral, shallow⟩ fit stands
  · obtain ⟨why, unread⟩ := e.parse_render_deep canonical integral deep
    refine ⟨why, ?_⟩
    rw [read]
    simp only [fit, Bool.not_true, Bool.and_false, Bool.false_eq_true, if_false, stands, unread]

/-- Where a record of a command is read, the command is got again. -/
theorem requestAgain_of_read {c : Command}
    (read : d.read c.corr .request = .ok (some ⟨c.corr, .request, now, c.toJson⟩)) (again : Millis) :
    d.requestAgain c.corr again = .ok { c with ts := again } := by
  rw [requestAgain, read]
  show JournalEntry.restamp _ again = _
  rw [JournalEntry.restamp, c.interpret_toJson]

end JournalDirectory

/-! ## What a bridge records -/

namespace Bridge

variable {σ ρ : Type} {b : Bridge σ JournalDirectory ρ} {w : Serving σ JournalDirectory ρ} {c : Command}
  {now : Millis}

/-- Serving a request records it, and may record its reply after that. -/
theorem node?_serve (kept : b.journal = .directory) (time : Nat) {file : FileNode}
    (stands : (w.journal.write now c.corr .request c.toJson).1.node?
      (RecordFile.name c.corr .request) = some file) :
    (b.perform now time w (.serve c)).1.journal.node? (RecordFile.name c.corr .request)
      = some file := by
  have recorded : (b.acknowledge w now c).journal
      = (w.journal.write now c.corr .request c.toJson).1 := by
    show (b.journal.write w.journal now c.corr .request c.toJson).1 = _
    rw [kept]
    rfl
  have replied (desk : ρ) (outcome : Except DispatchError Reply) :
      (b.conclude { b.acknowledge w now c with desk } now c outcome).journal
        = ((b.acknowledge w now c).journal.write now c.corr .response
            (Reply.ofOutcome outcome).toBody).1 := by
    show (b.journal.write _ now c.corr .response _).1 = _
    rw [kept]
    rfl
  rw [← recorded] at stands
  rw [perform]
  have answered : b.handle (b.acknowledge w now c) c
      = ({ b.acknowledge w now c with desk := (b.handler.call w.desk c).1 },
        (b.handler.call w.desk c).2) := rfl
  rw [answered]
  dsimp only
  cases (b.handler.call w.desk c).2.result with
  | none => exact stands
  | some outcome =>
    dsimp only
    split
    · rw [replied]
      exact JournalDirectory.node?_write stands now c.corr .response _
    · exact stands

/-- The journal at any time after a request was served. -/
def journalAfter (b : Bridge σ JournalDirectory ρ) (now : Millis) (time : Nat)
    (w : Serving σ JournalDirectory ρ) (c : Command) (later : List Journal.Call) : JournalDirectory :=
  (Journal.directory.recorded (b.perform now time w (.serve c)).1.journal later).1

theorem read_journalAfter (kept : b.journal = .directory) (canonical : c.body.Canonical)
    (integral : c.body.Integral)
    (taken : (w.journal.write now c.corr .request c.toJson).2 = .ok ()) (time : Nat)
    (later : List Journal.Call) :
    (c.body.depth ≤ 125 → (b.journalAfter now time w c later).read c.corr .request
        = .ok (some ⟨c.corr, .request, now, c.toJson⟩)) ∧
      (125 < c.body.depth → ∃ why, (b.journalAfter now time w c later).read c.corr .request
        = .error (.serialize why)) := by
  obtain ⟨stands, fit⟩ := JournalDirectory.node?_of_taken taken
  have still := JournalDirectory.node?_records (node?_serve kept time stands) [] later
  obtain ⟨shallow, deep⟩ := JournalDirectory.read_of_node (e := ⟨c.corr, .request, now, c.toJson⟩) fit
    still (c.canonical_toJson canonical) (c.integral_toJson integral)
  rw [c.depth_toJson] at shallow deep
  exact ⟨fun few => shallow (Nat.succ_le_succ few), fun many => deep (Nat.succ_lt_succ many)⟩

/-- A request with integers only, which came in packets and was recorded when it was served.  If its
body is not as deep as a body can be, then at any later time its record is read, holds the request as it
was, and the request is got again with nothing but a new time.  If its body is that deep, then the
record cannot be read. -/
theorem served_request_replays_unless_deepest {packets : List Packet} (decoded : decode packets = .ok c)
    (integral : c.body.Integral) (kept : b.journal = .directory)
    (taken : (w.journal.write now c.corr .request c.toJson).2 = .ok ()) (time : Nat)
    (later : List Journal.Call) :
    let d := b.journalAfter now time w c later
    c.body.depth ≤ 126 ∧
    (c.body.depth ≤ 125 →
      d.read c.corr .request = .ok (some ⟨c.corr, .request, now, c.toJson⟩) ∧
      Command.shape.interpret c.toJson = .ok c ∧
      ∀ again, d.requestAgain c.corr again = .ok { c with ts := again }) ∧
    (c.body.depth = 126 →
      (∃ why, d.read c.corr .request = .error (.serialize why)) ∧
      ∀ again, ∃ why, d.requestAgain c.corr again = .error why) := by
  intro d
  obtain ⟨bounded, canonical⟩ := Command.within_of_decode decoded
  obtain ⟨shallow, deep⟩ := read_journalAfter kept canonical integral taken time later
  refine ⟨Nat.le_of_lt_succ bounded, ?_, ?_⟩
  · intro few
    have read := shallow few
    exact ⟨read, c.interpret_toJson, JournalDirectory.requestAgain_of_read read⟩
  · intro full
    obtain ⟨why, unread⟩ := deep (by omega)
    refine ⟨⟨why, unread⟩, fun again => ?_⟩
    rw [JournalDirectory.requestAgain, unread]
    exact ⟨_, rfl⟩

def sampleBridge : Bridge Unit JournalDirectory Unit where
  link := ⟨fun net _ => (net, .ok ())⟩
  journal := .directory
  handler := Handler.ping
  lane := .base

def sampleServing : Serving Unit JournalDirectory Unit := .new () { path := "journal", process := 7 } () {}

def nested : Nat → Json
  | 0 => .array []
  | n + 1 => .array [nested n]

def nestedCommand (n : Nat) : Command := ⟨1, 5, "c", "ping", nested n⟩

theorem nested_fits (n : Nat) :
    (nested n).Canonical ∧ (nested n).Integral ∧ (nested n).depth = n + 1 := by
  induction n with
  | zero => exact ⟨trivial, trivial, rfl⟩
  | succ n ih =>
      obtain ⟨canonical, integral, depth⟩ := ih
      refine ⟨⟨canonical, trivial⟩, ⟨integral, trivial⟩, ?_⟩
      show max (nested n).depth 0 + 1 = _
      rw [depth, Nat.max_zero]

theorem decode_nested {n : Nat} (few : n ≤ 125) :
    decode (Lane.base.encode (nestedCommand n)) = .ok (nestedCommand n) := by
  obtain ⟨canonical, integral, depth⟩ := nested_fits n
  refine Lane.decode_command .base (nestedCommand n) canonical integral ?_
  show (nested n).depth ≤ 126
  omega

theorem nested_taken (n : Nat) :
    (sampleServing.journal.write 7 "c" .request (nestedCommand n).toJson).2 = .ok () := rfl

theorem sample_request_replays :
    decode (Lane.base.encode (nestedCommand 124)) = .ok (nestedCommand 124) ∧
      ∀ later again, (sampleBridge.journalAfter 7 0 sampleServing (nestedCommand 124) later).requestAgain
        "c" again = .ok { nestedCommand 124 with ts := again } := by
  obtain ⟨-, integral, depth⟩ := nested_fits 124
  have decoded := decode_nested (n := 124) (by decide)
  refine ⟨decoded, fun later => ?_⟩
  obtain ⟨-, shallow, -⟩ := served_request_replays_unless_deepest (b := sampleBridge) decoded integral
    rfl (nested_taken 124) 0 later
  exact (shallow (Nat.le_of_eq depth)).2.2

/-- A body of 126 lists in one another comes in packets and is recorded, but its record is lost. -/
theorem deepest_request_lost :
    decode (Lane.base.encode (nestedCommand 125)) = .ok (nestedCommand 125) ∧
      (nestedCommand 125).body.Integral ∧
      (sampleServing.journal.write 7 "c" .request (nestedCommand 125).toJson).2 = .ok () ∧
      ∃ why, (sampleBridge.journalAfter 7 0 sampleServing (nestedCommand 125) []).read "c" .request
        = .error (.serialize why) := by
  obtain ⟨canonical, integral, depth⟩ := nested_fits 125
  refine ⟨decode_nested (by decide), integral, nested_taken 125, ?_⟩
  have lost := read_journalAfter (b := sampleBridge) (c := nestedCommand 125) rfl canonical integral
    (nested_taken 125) 0 []
  refine lost.2 ?_
  show 125 < (nested 125).depth
  omega

end Bridge
end FlexLink
