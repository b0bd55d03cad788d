import FlexLink.Client.Exchange
import FlexLink.Proofs.Bridge.Performing
import FlexLink.Proofs.Envelope.Replies

/-! # A client and a bridge

Two queues of packets stand between a client and a bridge, and either side takes from its queue as many
packets at a time as it likes.  What packets hold for the side that they go to is a list of commands
(`Brings`).  A client that waits has had some replies and has others before it, together all that was
said; it ends with those up to the first final one (`Awaits.onBatch`). -/
set_option autoImplicit false
namespace FlexLink

/-- A link that loses nothing and keeps the order. -/
def Link.queue : Link (List Packet) := ⟨fun waiting packets => (waiting ++ packets, .ok ())⟩

/-! ## Packets that wait -/

/-- Whether packets hold just these commands for an assembler that takes them in. -/
structure Assembler.Brings (a : Assembler) (packets : List Packet) (cs : List Command) : Prop where
  texts : (a.pushAll packets).2.map (parseOutcome Command.shape) = cs.map .ok
  idle : (a.pushAll packets).1.opened = none

namespace Assembler.Brings

variable {a : Assembler} {packets : List Packet} {cs : List Command} {c : Command}

theorem nil (idle : a.opened = none) : a.Brings [] [] := ⟨rfl, idle⟩

theorem eq_nil (brings : a.Brings [] cs) : cs = [] := List.map_eq_nil_iff.mp brings.texts.symm

theorem send (brings : a.Brings packets cs) (readable : c.Readable) (lane : Lane) :
    a.Brings (packets ++ lane.encode c) (cs ++ [c]) := by
  have last : (a.pushAll packets).1.pushAll (lane.encode c)
      = ((a.pushAll packets).1, [.ok (Utf8.encode c.render)]) :=
    Assembler.pushAll_pack_idle brings.idle lane readable.free
  constructor
  · rw [Assembler.pushAll_append, last, List.map_append, List.map_append, brings.texts,
      List.map_singleton, List.map_singleton, readable.parse]
  · rw [Assembler.pushAll_append, last]
    exact brings.idle

/-- Taking some of the packets in. -/
theorem take (brings : a.Brings packets cs) (n : Nat) :
    ∃ got left, cs = got ++ left ∧
      (a.pushAll (packets.take n)).2.map (parseOutcome Command.shape) = got.map .ok ∧
      (a.pushAll (packets.take n)).1.Brings (packets.drop n) left := by
  obtain ⟨texts, idle⟩ := brings
  rw [← List.take_append_drop n packets, Assembler.pushAll_append] at texts idle
  rw [List.map_append] at texts
  obtain ⟨got, left, parts, here, later⟩ := List.map_eq_append_iff.mp texts.symm
  exact ⟨got, left, parts, here.symm, later.symm, idle⟩

end Assembler.Brings

/-! ## Replies -/

def Command.replyTo? (corr : String) (c : Command) : Option Reply :=
  if c.corr = corr then c.reply? else none

namespace Reply

variable {rs more : List Reply}

def upToFinal : List Reply → List Reply
  | [] => []
  | r :: rest => if r.isFinal then [r] else r :: upToFinal rest

theorem upToFinal_append (unsettled : ∀ r ∈ rs, r.isFinal = false) (more : List Reply) :
    upToFinal (rs ++ more) = rs ++ upToFinal more := by
  induction rs with
  | nil => rfl
  | cons r rs ih =>
      obtain ⟨first, others⟩ := List.forall_mem_cons.mp unsettled
      simp [upToFinal, first, ih others]

theorem upToFinal_of_unsettled (unsettled : ∀ r ∈ rs, r.isFinal = false) : upToFinal rs = rs := by
  have same := upToFinal_append unsettled []
  rwa [List.append_nil, upToFinal, List.append_nil] at same

theorem upToFinal_of_any (settled : rs.any isFinal = true) (more : List Reply) :
    upToFinal (rs ++ more) = upToFinal rs := by
  induction rs with
  | nil => cases settled
  | cons r rs ih =>
      rw [List.cons_append, upToFinal, upToFinal]
      cases last : r.isFinal with
      | true => rfl
      | false =>
          rw [List.any_cons, last, Bool.false_or] at settled
          simp [ih settled]

theorem any_upToFinal (rs : List Reply) : (upToFinal rs).any isFinal = rs.any isFinal := by
  induction rs with
  | nil => rfl
  | cons r rs ih =>
      rw [upToFinal]
      cases last : r.isFinal with
      | true => simp [last]
      | false => simp [last, ih]

end Reply

namespace Exchange

theorem replyTo?_eq (corr : String) (text : Except RunError (List UInt8)) :
    replyTo? corr text
      = (parseOutcome Command.shape text).toOption.bind (Command.replyTo? corr) := by
  rw [replyTo?]
  cases parseOutcome Command.shape text <;> rfl

theorem gather_eq_upToFinal (corr : String) (texts : List (Except RunError (List UInt8))) :
    gather corr texts = Reply.upToFinal (texts.filterMap (replyTo? corr)) := by
  induction texts with
  | nil => rfl
  | cons text texts ih =>
      rw [gather, List.filterMap_cons]
      cases replyTo? corr text with
      | none => exact ih
      | some r =>
          simp only [Reply.upToFinal]
          rw [ih]

/-- Gathering reads the replies off the commands. -/
theorem gather_eq (corr : String) (texts : List (Except RunError (List UInt8))) (got : List Command)
    (read : texts.map (parseOutcome Command.shape) = got.map .ok) :
    gather corr texts = Reply.upToFinal (got.filterMap (Command.replyTo? corr)) := by
  have replies : texts.filterMap (replyTo? corr)
      = (texts.map (parseOutcome Command.shape)).filterMap fun c =>
          c.toOption.bind (Command.replyTo? corr) := by
    rw [List.filterMap_map]
    exact congrArg (List.filterMap · texts) (funext (replyTo?_eq corr))
  rw [gather_eq_upToFinal, replies, read, List.filterMap_map]
  rfl

end Exchange

namespace Exchange

variable {x : Exchange (List Packet)} {net : List Packet} {said : List Reply}

/-- A client that waits: it has had no final reply, and together with those that come it has all that
was said. -/
structure Awaits (x : Exchange (List Packet)) (net : List Packet) (said : List Reply) : Prop where
  waiting : x.state = .waiting
  unsettled : ∀ r ∈ x.outcome.replies, r.isFinal = false
  brings : ∃ cs, x.coming.Brings net cs ∧
    x.outcome.replies ++ cs.filterMap (Command.replyTo? x.outcome.corr) = said

/-- A client that takes packets in goes on waiting, or it has all replies up to the first final one and
says so. -/
theorem Awaits.onBatch (awaits : x.Awaits net said) (now : Millis) (n : Nat) :
    ((x.onBatch .queue now (net.take n)).Awaits (net.drop n) said ∧
        (x.onBatch .queue now (net.take n)).net = x.net ∨
      said.any Reply.isFinal = true ∧
        (x.onBatch .queue now (net.take n)).state = .finished ∧
        (x.onBatch .queue now (net.take n)).outcome.replies = Reply.upToFinal said ∧
        (x.onBatch .queue now (net.take n)).net
          = x.net ++ x.lane.encode ((Control.ofAck x.outcome.corr).toCommand now)) ∧
    (x.onBatch .queue now (net.take n)).outcome.corr = x.outcome.corr := by
  obtain ⟨waiting, unsettled, cs, brings, rfl⟩ := awaits
  obtain ⟨got, left, rfl, read, later⟩ := brings.take n
  have gathered := gather_eq x.outcome.corr _ got read
  rw [Exchange.onBatch, waiting]
  simp only [gathered, Reply.any_upToFinal, List.filterMap_append]
  generalize got.filterMap (Command.replyTo? x.outcome.corr) = heard
  cases last : heard.any Reply.isFinal with
  | true =>
      refine ⟨.inr ⟨?_, rfl, ?_, rfl⟩, rfl⟩
      · simp [last]
      · rw [Reply.upToFinal_append unsettled, Reply.upToFinal_of_any last]
        rfl
  | false =>
      have none : ∀ r ∈ heard, r.isFinal = false := by simpa using last
      have all : Reply.upToFinal heard = heard := Reply.upToFinal_of_unsettled none
      refine ⟨.inl ⟨⟨rfl, ?_, left, later, ?_⟩, rfl⟩, rfl⟩
      · rw [all]
        exact List.forall_mem_append.mpr ⟨unsettled, none⟩
      · rw [all]
        exact List.append_assoc _ _ _

theorem onBatch_of_finished {σ : Type} {link : Link σ} {x : Exchange σ} (finished : x.state = .finished)
    (now : Millis) (batch : List Packet) : x.onBatch link now batch = x := by
  rw [onBatch, finished]

theorem onDeadline_of_finished {σ : Type} {link : Link σ} {x : Exchange σ}
    (finished : x.state = .finished) (now : Millis) : x.onDeadline link now = x := by
  rw [onDeadline, finished]

/-- A reply that is sent to a waiting client. -/
theorem Awaits.hear {r : Reply} (awaits : x.Awaits net said) (lane : Lane) (now : Millis)
    (whole : r.progress = none) :
    x.Awaits (net ++ lane.encode (.ofReply now x.outcome.corr r)) (said ++ [r]) := by
  obtain ⟨waiting, unsettled, cs, brings, rfl⟩ := awaits
  have reply : (Command.ofReply now x.outcome.corr r).replyTo? x.outcome.corr = some r :=
    (if_pos rfl).trans (Reply.reply?_ofReply whole now _)
  refine ⟨waiting, unsettled, _, brings.send (Reply.readable whole now _) lane, ?_⟩
  simp [reply]

theorem Awaits.hearAll (lane : Lane) (new : List (Millis × Reply)) :
    ∀ {net said}, x.Awaits net said → (∀ r ∈ new, r.2.progress = none) →
      x.Awaits (net ++ new.flatMap fun r => lane.encode (.ofReply r.1 x.outcome.corr r.2))
        (said ++ new.map (·.2)) := by
  induction new with
  | nil =>
      intro net said awaits _
      simpa using awaits
  | cons r new ih =>
      intro net said awaits whole
      obtain ⟨first, others⟩ := List.forall_mem_cons.mp whole
      have later := ih (awaits.hear lane r.1 first) others
      simpa [List.append_assoc] using later

end Exchange

/-! ## Both together -/

/-- A client and a bridge; the packets that one has sent and the other has not taken wait in its net. -/
structure Conversation (τ ρ : Type) where
  client : Exchange (List Packet)
  bridge : Serving (List Packet) τ ρ

namespace Conversation

variable {τ ρ : Type}

inductive Act where
  | up (now n : Nat)
  | down (now : Millis) (n : Nat)
  | perform (now : Millis) (time k : Nat)
  | deadline (now : Millis)

def step (b : Bridge (List Packet) τ ρ) (c : Conversation τ ρ) : Act → Conversation τ ρ
  | .up now n =>
    { client := { c.client with net := c.client.net.drop n }
      bridge := c.bridge.onBatch now (c.client.net.take n) }
  | .down now n =>
    { client := c.client.onBatch .queue now (c.bridge.net.take n)
      bridge := { c.bridge with net := c.bridge.net.drop n } }
  | .perform now time k => { c with bridge := b.performAt now time c.bridge k }
  | .deadline now => { c with client := c.client.onDeadline .queue now }

def run (b : Bridge (List Packet) τ ρ) (c : Conversation τ ρ) (acts : List Act) : Conversation τ ρ :=
  acts.foldl (step b) c

/-- Whether the client goes on: at a deadline it has had a reply and has not yet asked for the final
one again. -/
def Patient (c : Conversation τ ρ) : Act → Prop
  | .deadline _ =>
    c.client.state = .waiting → c.client.outcome.replies ≠ [] ∧ c.client.nacked = false
  | _ => True

def InTime (b : Bridge (List Packet) τ ρ) (c : Conversation τ ρ) : List Act → Prop
  | [] => True
  | act :: acts => c.Patient act ∧ InTime b (step b c act) acts

structure Quiet (c : Conversation τ ρ) : Prop where
  up : c.client.net = []
  down : c.bridge.net = []
  tasks : c.bridge.tasks = []

variable {b : Bridge (List Packet) τ ρ} {c : Conversation τ ρ}

theorem run_append (acts more : List Act) : c.run b (acts ++ more) = (c.run b acts).run b more :=
  List.foldl_append

theorem inTime_append : ∀ (acts more : List Act) (c : Conversation τ ρ),
    c.InTime b (acts ++ more) ↔ c.InTime b acts ∧ (c.run b acts).InTime b more := by
  intro acts
  induction acts with
  | nil => simp [InTime, run]
  | cons act acts ih =>
      intro more c
      simp only [List.cons_append, InTime, ih more, run, List.foldl_cons, and_assoc]

end Conversation
end FlexLink
