import FlexLink.Stream.Sender
import FlexLink.Proofs.Stream.Pieces

/-! # Runs of a sender

A sender is told to send, to flush and to answer control messages in any order.  `sent` are the
events of a run with the numbers they start at; what a run queues are their envelopes in order, and
over a link that fails no call what it hands over and what waits are the packets of these. -/
set_option autoImplicit false
namespace FlexLink

namespace StreamSender

structure Alike (s t : StreamSender) : Prop where
  lane : t.lane = s.lane
  frameSize : t.frameSize = s.frameSize
  maxFragmentBytes : t.maxFragmentBytes = s.maxFragmentBytes

theorem Alike.refl (s : StreamSender) : Alike s s := ⟨rfl, rfl, rfl⟩

theorem Alike.trans {s t u : StreamSender} (first : Alike s t) (second : Alike t u) : Alike s u :=
  ⟨second.lane.trans first.lane, second.frameSize.trans first.frameSize,
    second.maxFragmentBytes.trans first.maxFragmentBytes⟩

theorem alike_queueAll (s : StreamSender) (es : List Event) : Alike s (es.foldl queue s) := by
  induction es generalizing s with
  | nil => exact .refl s
  | cons e es ih =>
      have first : Alike s (s.queue e) := ⟨rfl, rfl, rfl⟩
      exact first.trans (ih (s.queue e))

theorem nextSeq_queueAll (s : StreamSender) (es : List Event) :
    (es.foldl queue s).nextSeq = s.nextSeq + es.length := by
  induction es generalizing s with
  | nil => rfl
  | cons e es ih =>
      rw [List.foldl_cons, ih, List.length_cons]
      show s.nextSeq + 1 + es.length = _
      omega

theorem pending_queueAll (s : StreamSender) (es : List Event) :
    (es.foldl queue s).pending
      = s.pending ++ (es.mapIdx fun i e => { e with seq := UInt64.ofNat (s.nextSeq + i) }).flatMap
          s.lane.encodeEvent := by
  induction es generalizing s with
  | nil => exact (List.append_nil _).symm
  | cons e es ih =>
      rw [List.foldl_cons, ih, List.mapIdx_cons, List.flatMap_cons, ← List.append_assoc]
      have numbers (i : Nat) : (s.queue e).nextSeq + i = s.nextSeq + (i + 1) := by
        show s.nextSeq + 1 + i = _
        omega
      simp only [numbers]
      rfl

end StreamSender

namespace Link

variable {σ : Type}

/-- No call fails. -/
def Reliable (link : Link σ) : Prop := ∀ net packets, (link.send net packets).2 = .ok ()

theorem logged_send {link : Link σ} (reliable : link.Reliable) (s : σ × List (List Packet))
    (packets : List Packet) :
    link.logged.send s packets = (((link.send s.1 packets).1, packets :: s.2), .ok ()) := by
  have fine := reliable s.1 packets
  cases call : link.send s.1 packets with
  | mk net result =>
      rw [call] at fine
      cases fine
      simp only [logged, call]

end Link

namespace Sending

variable {σ : Type}

inductive Act where
  | send (e : Event) (freshId : String)
  | flush
  | control (c : Control UInt64)

def act (link : Link σ) (w : Sending σ) : Act → Sending σ
  | .send e freshId => (w.send link e freshId).1
  | .flush => (w.flush link).1
  | .control c => w.onControl link c

def run (link : Link σ) (w : Sending σ) : List Act → Sending σ
  | [] => w
  | a :: rest => (w.act link a).run link rest

def sentBy (w : Sending σ) : Act → List Sent
  | .send e freshId => [⟨e, freshId, w.sender.nextSeq⟩]
  | _ => []

def sent (link : Link σ) (w : Sending σ) : List Act → List Sent
  | [] => []
  | a :: rest => w.sentBy a ++ (w.act link a).sent link rest

def results (link : Link σ) (w : Sending σ) : List Act → List (Except StreamError Nat)
  | [] => []
  | .send e freshId :: rest =>
    (w.send link e freshId).2 :: (w.act link (.send e freshId)).results link rest
  | a :: rest => (w.act link a).results link rest

theorem run_append (link : Link σ) (w : Sending σ) (acts more : List Act) :
    w.run link (acts ++ more) = (w.run link acts).run link more := by
  induction acts generalizing w with
  | nil => rfl
  | cons a rest ih => exact ih (w.act link a)

/-- What acts queue over time, envelope by envelope. -/
def envelopes (maxBytes : Nat) (sent : List Sent) : List Event := sent.flatMap (·.envelopes maxBytes)

theorem seqs_envelopes (maxBytes : Nat) (s : Sent) :
    (s.envelopes maxBytes).map (·.seq)
      = (List.range' s.first (s.count maxBytes)).map UInt64.ofNat := by
  refine List.ext_getElem ?_ fun i inside _ => ?_
  · rw [List.length_map, Sent.length_envelopes, List.length_map, List.length_range']
  · rw [List.getElem_map, List.getElem_map, List.getElem_range', Nat.one_mul]
    simp only [Sent.envelopes, List.getElem_mapIdx]

/-! ## A network without failures -/

section Reliable

variable {link : Link σ} {w : Sending (σ × List (List Packet))}

def handed (w : Sending (σ × List (List Packet))) : List Packet := w.net.2.reverse.flatten

/-- An act that sends nothing again. -/
def Act.Quiet : Act → Prop
  | .control c => c.nack.getD [] = []
  | _ => True

/-- What an act does over a link that fails no call: `more` are the packets it queues. -/
structure Extends (w after : Sending (σ × List (List Packet))) (more : List Packet) : Prop where
  alike : StreamSender.Alike w.sender after.sender
  packets : after.handed ++ after.sender.pending = w.handed ++ w.sender.pending ++ more

theorem flush_logged (reliable : link.Reliable) :
    (w.flush link.logged).2 = .ok () ∧ (w.flush link.logged).1.sender.pending = [] ∧
      (w.flush link.logged).1.sender.nextSeq = w.sender.nextSeq ∧
      Extends w (w.flush link.logged).1 [] := by
  rw [flush]
  by_cases none : w.sender.pending.isEmpty = true
  · rw [if_pos none]
    exact ⟨rfl, List.isEmpty_iff.mp none, rfl, .refl _, (List.append_nil _).symm⟩
  · rw [if_neg none, transmit, Link.logged_send reliable]
    refine ⟨rfl, rfl, rfl, ⟨rfl, rfl, rfl⟩, ?_⟩
    show (w.sender.pending :: w.net.2).reverse.flatten ++ [] = _
    rw [List.reverse_cons, List.flatten_append, List.flatten_singleton, List.append_nil,
      List.append_nil]
    rfl

theorem send_logged (reliable : link.Reliable) (e : Event) (freshId : String) :
    let s : Sent := ⟨e, freshId, w.sender.nextSeq⟩
    let maxBytes := w.sender.maxFragmentBytes
    (w.send link.logged e freshId).2 = .ok (s.last maxBytes) ∧
      (w.send link.logged e freshId).1.sender.nextSeq = w.sender.nextSeq + s.count maxBytes ∧
      Extends w (w.send link.logged e freshId).1
        ((s.envelopes maxBytes).flatMap w.sender.lane.encodeEvent) := by
  intro s maxBytes
  let queued : Sending (σ × List (List Packet)) :=
    { w with sender := (e.pieces maxBytes freshId).foldl StreamSender.queue w.sender }
  have next : queued.sender.nextSeq = w.sender.nextSeq + s.count maxBytes :=
    StreamSender.nextSeq_queueAll w.sender _
  have alike : StreamSender.Alike w.sender queued.sender := StreamSender.alike_queueAll w.sender _
  have packets : queued.handed ++ queued.sender.pending
      = w.handed ++ w.sender.pending ++ (s.envelopes maxBytes).flatMap w.sender.lane.encodeEvent := by
    rw [List.append_assoc]
    exact congrArg (w.handed ++ ·) (StreamSender.pending_queueAll w.sender _)
  have last : queued.sender.nextSeq - 1 = s.last maxBytes := by rw [next]; rfl
  obtain ⟨fine, -, same, flushed⟩ := flush_logged (w := queued) reliable
  rw [send]
  split
  · exact ⟨congrArg Except.ok last, next, alike, packets⟩
  · split
    · next after call =>
      have call : queued.flush link.logged = (after, .ok ()) := call
      rw [call] at same flushed
      refine ⟨congrArg Except.ok last, same.trans next, alike.trans flushed.alike, ?_⟩
      rw [flushed.packets, List.append_nil, packets]
    · next after why call =>
      have call : queued.flush link.logged = (after, .error why) := call
      rw [call] at fine
      cases fine

theorem onControl_quiet {τ : Type} (any : Link τ) (u : Sending τ) {c : Control UInt64}
    (quiet : c.nack.getD [] = []) :
    ∃ reliability, u.onControl any c = { u with sender := { u.sender with reliability } } := by
  rw [onControl, Reliability.handle]
  simp only [quiet]
  exact ⟨_, rfl⟩

theorem act_logged (reliable : link.Reliable) {a : Act} (quiet : a.Quiet) :
    (w.act link.logged a).sender.nextSeq
        = w.sender.nextSeq + (envelopes w.sender.maxFragmentBytes (w.sentBy a)).length ∧
      Extends w (w.act link.logged a)
        ((envelopes w.sender.maxFragmentBytes (w.sentBy a)).flatMap w.sender.lane.encodeEvent) := by
  cases a with
  | send e freshId =>
      obtain ⟨-, next, extended⟩ := send_logged (w := w) reliable e freshId
      rw [sentBy, envelopes, List.flatMap_singleton, Sent.length_envelopes]
      exact ⟨next, extended⟩
  | flush =>
      obtain ⟨-, -, next, extended⟩ := flush_logged (w := w) reliable
      exact ⟨next, extended⟩
  | control c =>
      obtain ⟨reliability, same⟩ := onControl_quiet link.logged w quiet
      rw [act, same]
      exact ⟨rfl, ⟨rfl, rfl, rfl⟩, (List.append_nil _).symm⟩

/-- Over a whole run the packets handed over, and then those that wait, are the packets of the
envelopes in order. -/
theorem run_logged (reliable : link.Reliable) {acts : List Act} (quiet : ∀ a ∈ acts, a.Quiet) :
    (w.run link.logged acts).sender.nextSeq = w.sender.nextSeq
        + (envelopes w.sender.maxFragmentBytes (w.sent link.logged acts)).length ∧
      Extends w (w.run link.logged acts)
        ((envelopes w.sender.maxFragmentBytes (w.sent link.logged acts)).flatMap
          w.sender.lane.encodeEvent) := by
  induction acts generalizing w with
  | nil => exact ⟨rfl, .refl _, (List.append_nil _).symm⟩
  | cons a rest ih =>
      obtain ⟨here, others⟩ := List.forall_mem_cons.mp quiet
      obtain ⟨next, alike, packets⟩ := act_logged (w := w) reliable here
      obtain ⟨more, later⟩ := ih (w := w.act link.logged a) others
      rw [alike.maxFragmentBytes, alike.lane] at later
      rw [alike.maxFragmentBytes] at more
      rw [sent, envelopes, List.flatMap_append, List.flatMap_append, List.length_append]
      refine ⟨?_, alike.trans later.alike, ?_⟩
      · rw [run, more, next, Nat.add_assoc]
        rfl
      · rw [run, later.packets, packets, List.append_assoc]
        rfl

/-- The envelopes of a run are numbered one after the other. -/
theorem seqs_run (reliable : link.Reliable) {acts : List Act} (quiet : ∀ a ∈ acts, a.Quiet) :
    (envelopes w.sender.maxFragmentBytes (w.sent link.logged acts)).map (·.seq)
      = (List.range' w.sender.nextSeq
          (envelopes w.sender.maxFragmentBytes (w.sent link.logged acts)).length).map
        UInt64.ofNat := by
  induction acts generalizing w with
  | nil => rfl
  | cons a rest ih =>
      obtain ⟨here, others⟩ := List.forall_mem_cons.mp quiet
      obtain ⟨next, alike, -⟩ := act_logged (w := w) reliable here
      have later := ih (w := w.act link.logged a) others
      have own : (envelopes w.sender.maxFragmentBytes (w.sentBy a)).map (·.seq)
          = (List.range' w.sender.nextSeq
              (envelopes w.sender.maxFragmentBytes (w.sentBy a)).length).map UInt64.ofNat := by
        cases a with
        | send e freshId =>
            rw [sentBy, envelopes, List.flatMap_singleton, seqs_envelopes, Sent.length_envelopes]
        | flush => rfl
        | control c => rfl
      have split : envelopes w.sender.maxFragmentBytes (w.sent link.logged (a :: rest))
          = envelopes w.sender.maxFragmentBytes (w.sentBy a)
            ++ envelopes w.sender.maxFragmentBytes ((w.act link.logged a).sent link.logged rest) :=
        List.flatMap_append
      rw [alike.maxFragmentBytes, next] at later
      rw [split, List.map_append, own, later, List.length_append, ← List.range'_append_1,
        List.map_append]

theorem last_lt_run (reliable : link.Reliable) {acts : List Act} (quiet : ∀ a ∈ acts, a.Quiet) :
    ∀ s ∈ w.sent link.logged acts, s.last w.sender.maxFragmentBytes
      < w.sender.nextSeq
        + (envelopes w.sender.maxFragmentBytes (w.sent link.logged acts)).length := by
  induction acts generalizing w with
  | nil => exact fun _ none => absurd none List.not_mem_nil
  | cons a rest ih =>
      obtain ⟨here, others⟩ := List.forall_mem_cons.mp quiet
      obtain ⟨next, alike, -⟩ := act_logged (w := w) reliable here
      have later := ih (w := w.act link.logged a) others
      rw [alike.maxFragmentBytes, next] at later
      intro s member
      rw [sent, envelopes, List.flatMap_append, List.length_append]
      rcases List.mem_append.mp member with own | behind
      · cases a with
        | send e freshId =>
            rw [List.mem_singleton.mp own, sentBy, List.flatMap_singleton, Sent.length_envelopes]
            have some : 0 < Sent.count w.sender.maxFragmentBytes ⟨e, freshId, w.sender.nextSeq⟩ :=
              Sent.count_pos
            show w.sender.nextSeq + Sent.count _ _ - 1 < _
            omega
        | flush => cases own
        | control c => cases own
      · have := later s behind
        rw [envelopes, envelopes, Nat.add_assoc] at this
        exact this

/-- Every send returns the number of the last envelope of its event. -/
theorem results_logged (reliable : link.Reliable) {acts : List Act} (quiet : ∀ a ∈ acts, a.Quiet) :
    w.results link.logged acts = (w.sent link.logged acts).map fun s =>
      .ok (s.last w.sender.maxFragmentBytes) := by
  induction acts generalizing w with
  | nil => rfl
  | cons a rest ih =>
      obtain ⟨here, others⟩ := List.forall_mem_cons.mp quiet
      obtain ⟨-, alike, -⟩ := act_logged (w := w) reliable here
      have later := ih (w := w.act link.logged a) others
      rw [alike.maxFragmentBytes] at later
      cases a with
      | send e freshId =>
          obtain ⟨result, -, -⟩ := send_logged (w := w) reliable e freshId
          rw [results, later, result]
          rfl
      | flush => exact later
      | control c => exact later

end Reliable

/-! ## A small run -/

def sink : Link Unit where send _ _ := ((), .ok ())

/-- Data of at most three bytes a piece, and every second envelope acknowledged. -/
def sampleStream : StreamSettings := { maxFragmentBytes := 3, ackEvery := 2, maxReorder := 1 }

def sampleSender : StreamSender where
  lane := .base
  frameSize := 1
  maxFragmentBytes := 3
  reliability := .new {}

def sample : Sending (Unit × List (List Packet)) := { net := ((), []), sender := sampleSender }

/-- An event of three pieces, and one that fits in an envelope. -/
def sampleActs : List Act :=
  [.send (.new "token" "αβγ") "a-1", .control (.ofAck 0), .flush, .send (.new "token" "hi") "a-2"]

def sampleSent : List Sent := [⟨.new "token" "αβγ", "a-1", 0⟩, ⟨.new "token" "hi", "a-2", 3⟩]

theorem sample_sent : sample.sent sink.logged (sampleActs ++ [.flush]) = sampleSent := by
  decide +kernel

end Sending
end FlexLink
