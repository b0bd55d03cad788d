import FlexLink.Proofs.Stream.Keeping

/-! # A sender that several tasks share

A send holds the sender from its beginning to its end: it queues its pieces one by one, and then hands
over what fills a frame.  Control messages are answered all the while.  One may be taken in between any
two steps of a send, and what it asks for is sent again in calls of its own, between any other calls.
So a run is a list of single steps.  Whichever calls fail, what sends and flushes hand over is the
packets of the envelopes in order, each of them whole and once (`Orderly`). -/
set_option autoImplicit false
namespace FlexLink

inductive Caller where
  | send (k : Nat)
  | flush
  | resend (seq : UInt64)
deriving DecidableEq

def Caller.isFirst : Caller → Bool
  | .resend _ => false
  | _ => true

structure Call where
  caller : Caller
  packets : List Packet
  result : Except TransportError Unit

/-- The same link with its calls in order, failed ones too. -/
def Link.calledBy {σ : Type} (link : Link σ) (caller : Caller) : Link (σ × List Call) where
  send s packets :=
    let (net, result) := link.send s.1 packets
    ((net, s.2 ++ [⟨caller, packets, result⟩]), result)

theorem Link.send_calledBy {σ : Type} {link : Link σ} {net after : σ} {packets : List Packet}
    {result : Except TransportError Unit} (call : link.send net packets = (after, result))
    (caller : Caller) (calls : List Call) :
    (link.calledBy caller).send (net, calls) packets
      = ((after, calls ++ [⟨caller, packets, result⟩]), result) := by
  simp only [calledBy, call]

namespace Sending

variable {σ : Type} (link : Link σ)

/-- The end of a send: what fills a frame is handed over. -/
def settle (w : Sending σ) : Sending σ × Except StreamError Nat :=
  let last := w.sender.nextSeq - 1
  if w.sender.pending.length < w.sender.frameSize then (w, .ok last)
  else
    match w.flush link with
    | (w, .ok ()) => (w, .ok last)
    | (w, .error e) => (w, .error e)

theorem send_eq_settle (w : Sending σ) (e : Event) (freshId : String) :
    w.send link e freshId
      = settle link { w with
          sender := (e.pieces w.sender.maxFragmentBytes freshId).foldl StreamSender.queue w.sender } :=
  rfl

def plain (w : Sending (σ × List Call)) : Sending σ :=
  { net := w.net.1, sender := w.sender, returning := w.returning, listening := w.listening }

variable {w : Sending (σ × List Call)} (caller : Caller)

theorem transmit_calledBy (w : Sending (σ × List Call)) (packets : List Packet) :
    ∃ net metrics result,
      w.transmit (link.calledBy caller) packets = ({ w with
        net := (net, w.net.2 ++ [⟨caller, packets, result⟩])
        sender := { w.sender with metrics } }, result.mapError .transport) := by
  cases call : link.send w.net.1 packets with
  | mk net result =>
      rw [transmit, Link.send_calledBy call caller w.net.2]
      cases result with
      | ok => exact ⟨net, _, .ok (), rfl⟩
      | error why => exact ⟨net, w.sender.metrics, .error why, rfl⟩

theorem plain_transmit (w : Sending (σ × List Call)) (packets : List Packet) :
    ((w.transmit (link.calledBy caller) packets).1.plain,
      (w.transmit (link.calledBy caller) packets).2) = w.plain.transmit link packets := by
  cases call : link.send w.net.1 packets with
  | mk net result =>
      have same : link.send w.plain.net packets = (net, result) := call
      rw [transmit, transmit, Link.send_calledBy call caller w.net.2, same]
      cases result <;> rfl

theorem plain_flush (w : Sending (σ × List Call)) :
    ((w.flush (link.calledBy caller)).1.plain, (w.flush (link.calledBy caller)).2)
      = w.plain.flush link := by
  have same : w.plain.sender = w.sender := rfl
  rw [flush, flush, same]
  split
  · rfl
  · exact plain_transmit link caller { w with sender := { w.sender with pending := [] } } _

theorem plain_settle (w : Sending (σ × List Call)) :
    ((w.settle (link.calledBy caller)).1.plain, (w.settle (link.calledBy caller)).2)
      = w.plain.settle link := by
  have same : w.plain.sender = w.sender := rfl
  rw [settle, settle, same, ← plain_flush link caller]
  split
  · rfl
  · cases w.flush (link.calledBy caller) with
    | mk after result => cases result <;> rfl

theorem plain_retransmit (w : Sending (σ × List Call)) (frame : UInt64 × List Packet) :
    (w.retransmit (link.calledBy caller) [frame]).plain = w.plain.retransmit link [frame] := by
  obtain ⟨seq, packets⟩ := frame
  rw [retransmit, retransmit, ← plain_transmit link caller]
  cases w.transmit (link.calledBy caller) packets with
  | mk after result => cases result <;> rfl

theorem retransmit_cons (w : Sending σ) (frame : UInt64 × List Packet)
    (rest : List (UInt64 × List Packet)) :
    w.retransmit link (frame :: rest) = (w.retransmit link [frame]).retransmit link rest := by
  obtain ⟨seq, packets⟩ := frame
  rw [retransmit, retransmit]
  cases w.transmit link packets with
  | mk after result => cases result <;> rfl

theorem flush_calledBy (w : Sending (σ × List Call)) :
    (w.sender.pending = [] ∧ w.flush (link.calledBy caller) = (w, .ok ())) ∨
      ∃ net metrics result, w.flush (link.calledBy caller) = ({ w with
        net := (net, w.net.2 ++ [⟨caller, w.sender.pending, result⟩])
        sender := { w.sender with pending := [], metrics } }, result.mapError .transport) := by
  rw [flush]
  by_cases none : w.sender.pending.isEmpty = true
  · rw [if_pos none]
    exact .inl ⟨List.isEmpty_iff.mp none, rfl⟩
  · rw [if_neg none]
    right
    exact transmit_calledBy link caller { w with sender := { w.sender with pending := [] } } _

/-- Failed or not, a flush leaves nothing that waits. -/
theorem pending_flush (w : Sending (σ × List Call)) :
    (w.flush (link.calledBy caller)).1.sender.pending = [] := by
  rcases flush_calledBy link caller w with ⟨empty, same⟩ | ⟨net, metrics, result, same⟩
  · rw [same]
    exact empty
  · rw [same]

theorem settle_calledBy (w : Sending (σ × List Call)) :
    (w.sender.pending.length < w.sender.frameSize ∧
        w.settle (link.calledBy caller) = (w, .ok (w.sender.nextSeq - 1))) ∨
      (w.settle (link.calledBy caller)).1 = (w.flush (link.calledBy caller)).1 ∧
        (w.settle (link.calledBy caller)).2
          = (w.flush (link.calledBy caller)).2.map fun _ => w.sender.nextSeq - 1 := by
  rw [settle]
  split
  · next short => exact .inl ⟨short, rfl⟩
  · right
    cases w.flush (link.calledBy caller) with
    | mk after result => cases result <;> exact ⟨rfl, rfl⟩

theorem retransmit_calledBy (w : Sending (σ × List Call)) (frame : UInt64 × List Packet) :
    ∃ net metrics result, w.retransmit (link.calledBy caller) [frame] = { w with
      net := (net, w.net.2 ++ [⟨caller, frame.2, result⟩])
      sender := { w.sender with metrics } } := by
  obtain ⟨seq, packets⟩ := frame
  obtain ⟨net, metrics, result, same⟩ := transmit_calledBy link caller w packets
  rw [retransmit, same]
  cases result with
  | ok => exact ⟨net, _, .ok (), rfl⟩
  | error why => exact ⟨net, metrics, .error why, rfl⟩

end Sending

namespace StreamSender

def numberFrom (first : Nat) (pieces : List Event) : List Event :=
  pieces.mapIdx fun i p => { p with seq := UInt64.ofNat (first + i) }

theorem numberFrom_cons (first : Nat) (p : Event) (pieces : List Event) :
    numberFrom first (p :: pieces)
      = { p with seq := UInt64.ofNat first } :: numberFrom (first + 1) pieces := by
  have later (i : Nat) : first + 1 + i = first + (i + 1) := by omega
  simp only [numberFrom, List.mapIdx_cons, later, Nat.add_zero]

end StreamSender

structure SharedSender (σ : Type) where
  sending : Sending (σ × List Call)
  /-- What the send that holds the sender still has to queue. -/
  unqueued : Option (List Event) := none
  /-- Frames that are still to be sent again. -/
  owed : List (UInt64 × List Packet) := []
  begun : List Sent := []
  returned : List (Except StreamError Nat) := []

namespace SharedSender

variable {σ : Type}

inductive Move where
  | begin (e : Event) (freshId : String)
  | queue
  | finish
  | flush
  | control (c : Control UInt64)
  | resend

def start (sender : StreamSender) (net : σ) : SharedSender σ where
  sending := { net := (net, []), sender }

/-- What cannot be done now is not done: a send or a flush has to wait for the send that holds the
sender. -/
def step (link : Link σ) (x : SharedSender σ) : Move → SharedSender σ
  | .begin e freshId =>
    match x.unqueued with
    | some _ => x
    | none =>
      { x with
        unqueued := some (e.pieces x.sending.sender.maxFragmentBytes freshId)
        begun := x.begun ++ [⟨e, freshId, x.sending.sender.nextSeq⟩] }
  | .queue =>
    match x.unqueued with
    | some (p :: rest) =>
      { x with
        sending := { x.sending with sender := x.sending.sender.queue p }
        unqueued := some rest }
    | _ => x
  | .finish =>
    match x.unqueued with
    | some [] =>
      let (sending, result) := x.sending.settle (link.calledBy (.send x.returned.length))
      { x with sending, unqueued := none, returned := x.returned ++ [result] }
    | _ => x
  | .flush =>
    match x.unqueued with
    | some _ => x
    | none => { x with sending := (x.sending.flush (link.calledBy .flush)).1 }
  | .control c =>
    let (reliability, found) := x.sending.sender.reliability.handle c
    { x with
      sending := { x.sending with sender := { x.sending.sender with reliability } }
      owed := x.owed ++ found }
  | .resend =>
    match x.owed with
    | [] => x
    | frame :: rest =>
      { x with
        sending := x.sending.retransmit (link.calledBy (.resend frame.1)) [frame]
        owed := rest }

def run (link : Link σ) (x : SharedSender σ) (moves : List Move) : SharedSender σ :=
  moves.foldl (step link) x

def calls (x : SharedSender σ) : List Call := x.sending.net.2

variable {link : Link σ} {x : SharedSender σ}

/-! ## Operations that nothing comes between -/

theorem run_queue (link : Link σ) (rest : List Event) (held : x.unqueued = some rest) :
    x.run link (List.replicate rest.length .queue)
      = { x with
          sending := { x.sending with sender := rest.foldl StreamSender.queue x.sending.sender }
          unqueued := some [] } := by
  induction rest generalizing x with
  | nil =>
      obtain ⟨sending, unqueued, owed, begun, returned⟩ := x
      cases held
      rfl
  | cons p rest ih =>
      rw [List.length_cons, List.replicate_succ, run, List.foldl_cons]
      have next : x.step link .queue = { x with
          sending := { x.sending with sender := x.sending.sender.queue p }
          unqueued := some rest } := by
        simp only [step, held]
      rw [next]
      exact ih rfl

/-- A send from its beginning to its end is the sender's own. -/
theorem run_send (free : x.unqueued = none) (e : Event) (freshId : String) :
    let pieces := e.pieces x.sending.sender.maxFragmentBytes freshId
    let after := x.run link (.begin e freshId :: List.replicate pieces.length .queue ++ [.finish])
    after.unqueued = none ∧ after.owed = x.owed ∧
      (after.sending.plain, after.returned)
        = ((x.sending.plain.send link e freshId).1,
            x.returned ++ [(x.sending.plain.send link e freshId).2]) := by
  intro pieces after
  have begun : x.step link (.begin e freshId) = { x with
      unqueued := some pieces
      begun := x.begun ++ [⟨e, freshId, x.sending.sender.nextSeq⟩] } := by
    simp only [step, free]
    rfl
  have queued := run_queue link pieces (congrArg unqueued begun)
  have whole : after = ((x.step link (.begin e freshId)).run link
      (List.replicate pieces.length .queue)).step link .finish := by
    simp only [after, run, List.cons_append, List.foldl_cons, List.foldl_append, List.foldl_nil]
  rw [whole, queued, begun, Sending.send_eq_settle]
  have ends := Sending.plain_settle link (.send x.returned.length)
    { x.sending with sender := pieces.foldl StreamSender.queue x.sending.sender }
  have state := congrArg Prod.fst ends
  have returned := congrArg (fun r => x.returned ++ [r.2]) ends
  exact ⟨rfl, rfl, Prod.ext state returned⟩

theorem run_resend (owed : List (UInt64 × List Packet)) (all : x.owed = owed) :
    (x.run link (List.replicate owed.length .resend)).owed = [] ∧
      (x.run link (List.replicate owed.length .resend)).sending.plain
        = x.sending.plain.retransmit link owed := by
  induction owed generalizing x with
  | nil => exact ⟨all, rfl⟩
  | cons frame rest ih =>
      rw [List.length_cons, List.replicate_succ, run, List.foldl_cons]
      have next : x.step link .resend = { x with
          sending := x.sending.retransmit (link.calledBy (.resend frame.1)) [frame]
          owed := rest } := by
        simp only [step, all]
      obtain ⟨none, same⟩ := ih (x := x.step link .resend) (congrArg SharedSender.owed next)
      have first := Sending.plain_retransmit link (.resend frame.1) x.sending frame
      refine ⟨none, same.trans ?_⟩
      rw [Sending.retransmit_cons, ← first, next]

/-- A control message that is answered at once is answered as the sender does. -/
theorem run_control (settled : x.owed = []) (c : Control UInt64) :
    let found := (x.sending.sender.reliability.handle c).2
    let after := x.run link (.control c :: List.replicate found.length .resend)
    after.owed = [] ∧ after.sending.plain = x.sending.plain.onControl link c := by
  intro found after
  have owed : (x.step link (.control c)).owed = found := by
    show x.owed ++ found = found
    rw [settled, List.nil_append]
  exact run_resend (x := x.step link (.control c)) found owed

end SharedSender
end FlexLink
