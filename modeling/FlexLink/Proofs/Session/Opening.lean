import FlexLink.Session.Basic

/-! # A session that cannot be opened

Opening a session sets what is known of it piece by piece, and each of its steps can fail.  Between any
two acts a session is either open or as it was when it was new (`Kept`), so one that fails to open is
again as it was. -/
set_option autoImplicit false
namespace FlexLink

theorem SessionState.localId_learn (s : SessionState) (mine : Proposal) (m : Negotiation) :
    (s.learn mine m).1.localId = s.localId := by
  unfold learn
  split
  · rfl
  · split <;> rfl

namespace Session

variable {σ : Type}

inductive Act (σ : Type) where
  | opened (now : Nat) (net : OpeningNet)
  | closed
  | receive (now : Nat) (data : List UInt8)
  | send (now : Nat) (net : σ) (packets : List Packet)
  | take

def step (socket : DatagramSocket σ) (s : Session) : Act σ → Session
  | .opened now net => (s.opened now net).1
  | .closed => s.closed
  | .receive now data => (s.receive now data).1
  | .send now net packets => (send socket now s net packets).1.1
  | .take => s.take.1

def run (socket : DatagramSocket σ) (s : Session) (acts : List (Act σ)) : Session :=
  acts.foldl (step socket) s

/-- Whether an act opens the session or finds it open. -/
def Opens (s : Session) : Act σ → Prop
  | .opened now net => (s.opened now net).2 = .ok ()
  | .closed | .receive _ _ | .send _ _ _ | .take => False

def EverOpened (socket : DatagramSocket σ) (s : Session) : List (Act σ) → Prop
  | [] => False
  | act :: acts => s.Opens act ∨ EverOpened socket (s.step socket act) acts

/-! ## What an act leaves as it is -/

structure Stands (base : Session) (going : Bool) (s : Session) : Prop where
  options : s.options = base.options
  localId : s.localId = base.localId
  openedBefore : s.openedBefore = base.openedBefore
  running : s.running.isSome = going
  accepting : s.accepting = going

section Stands

variable {base s : Session} {going : Bool}

theorem Stands.deliver (stands : Stands base going s) (packets : List Packet) :
    Stands base going (s.deliver packets) := by
  unfold Session.deliver
  split
  · exact stands
  · split
    · exact stands
    · split <;> exact { stands with }

theorem Stands.receive (stands : Stands base going s) (now : Nat) (data : List UInt8) :
    Stands base going (s.receive now data).1 := by
  unfold Session.receive
  split
  · exact stands
  · exact stands
  · exact stands.deliver _
  · next isOpen _ =>
      have running := stands.running
      rw [isOpen] at running
      exact { stands with
        localId := (s.state.localId_learn s.proposal _).trans stands.localId, running }

theorem Stands.receiveAll (arrivals : List (Nat × List UInt8)) :
    ∀ {s : Session}, Stands base going s →
      Stands base going (arrivals.foldl (fun s (time, data) => (s.receive time data).1) s) := by
  induction arrivals with
  | nil => exact id
  | cons arrival arrivals ih => exact fun stands => ih (stands.receive arrival.1 arrival.2)

theorem Stands.send (stands : Stands base going s) {σ : Type} (socket : DatagramSocket σ) (now : Nat)
    (net : σ) (packets : List Packet) :
    Stands base going (s.send socket now net packets).1.1 := by
  unfold Session.send
  split
  · exact stands
  · split
    · exact stands
    · split
      · exact stands
      · next isOpen =>
          split
          · exact stands
          · have running := stands.running
            rw [isOpen] at running
            exact { stands with running }

theorem Stands.take (stands : Stands base going s) : Stands base going s.take.1 := by
  unfold Session.take
  split <;> exact { stands with }

theorem Stands.stop (stands : Stands base going s) : Stands base false s.stop :=
  { stands with running := rfl, accepting := rfl }

theorem Stands.reset (stands : Stands base going s) : Stands base going s.reset :=
  { stands with }

theorem Stands.attach (stands : Stands base going s) (now : Nat) (bound peer : SocketAddress) :
    Stands base true (s.attach now bound peer) :=
  { stands with running := rfl, accepting := rfl }

/-- A session that has waited goes on exactly if it need not have waited longer. -/
theorem Stands.awaitPeer (stands : Stands base true s) (arrivals : List (Nat × List UInt8)) :
    Stands base (s.awaitPeer arrivals).2.isOk (s.awaitPeer arrivals).1 := by
  unfold Session.awaitPeer
  split
  · have waited := Stands.receiveAll arrivals stands
    dsimp only
    split
    · exact waited.stop
    · exact waited
  · exact stands

theorem Stands.start (stands : Stands base false s) (now : Nat) (net : OpeningNet) :
    Stands base (s.start now net).2.isOk (s.start now net).1 := by
  unfold Session.start
  split
  · exact stands
  · next bound _ =>
      have known : Stands base false { s with localAddress := some bound } := { stands with }
      dsimp only
      split
      · exact known
      · split
        · exact known
        · exact (known.attach now bound _).awaitPeer net.arrivals

end Stands

/-! ## Sessions that are not open -/

/-- Nothing is known of the session but what was known of it when it was new. -/
structure Idle (s : Session) : Prop where
  state : s.state = .new s.localId s.options.group s.options.channel
  localAddress : s.localAddress = none
  running : s.running = none
  accepting : s.accepting = false

section Idle

variable {s : Session}

theorem idle_new (options : SessionOptions) (id : EndpointId) : (new options id).Idle :=
  ⟨rfl, rfl, rfl, rfl⟩

theorem Stands.idle {base : Session} (stands : Stands base false s) : s.reset.Idle :=
  ⟨rfl, rfl, Option.not_isSome_iff_eq_none.mp (Bool.eq_false_iff.mp stands.running), stands.accepting⟩

theorem Idle.stands (idle : s.Idle) : Stands s false s :=
  ⟨rfl, rfl, rfl, by rw [idle.running]; rfl, idle.accepting⟩

theorem Idle.receive (idle : s.Idle) (now : Nat) (data : List UInt8) : s.receive now data = (s, none) := by
  rw [Session.receive, idle.running]

theorem Idle.send {σ : Type} (idle : s.Idle) (socket : DatagramSocket σ) (now : Nat) (net : σ)
    (packets : List Packet) :
    s.send socket now net packets
      = ((s, net), .error (if s.openedBefore then .sessionClosed else .notConnected)) := by
  rw [Session.send, idle.accepting]
  rfl

theorem Idle.closed (idle : s.Idle) : s.closed = s := by
  rw [Session.closed, idle.running]
  rfl

/-- A session that fails to open is idle again; one that does not is open. -/
theorem Idle.opened (idle : s.Idle) (now : Nat) (net : OpeningNet) :
    (∃ e, (s.opened now net).2 = .error e ∧ Stands s false (s.opened now net).1 ∧
        (s.opened now net).1.Idle) ∨
      (s.opened now net).2 = .ok () ∧
        Stands { s with openedBefore := true } true (s.opened now net).1 := by
  have stands := idle.stands
  rw [Session.opened, stands.running]
  dsimp only
  cases frameCapacity s.options.mtu with
  | error e =>
      -- The limit is checked before anything is set.
      exact .inl ⟨e, rfl, stands, idle⟩
  | ok _ =>
      have opening : Stands s false { s with state := { s.state with phase := .opening } } :=
        { stands with }
      have started := opening.start now net
      dsimp only
      cases call : { s with state := { s.state with phase := .opening } }.start now net with
      | mk after result =>
          rw [call] at started
          cases result with
          | error e => exact .inl ⟨e, rfl, started.reset, started.idle⟩
          | ok _ =>
              exact .inr ⟨rfl, { started with openedBefore := rfl }⟩

theorem Idle.take (idle : s.Idle) : s.take.1.Idle := by
  unfold Session.take
  split <;> exact { idle with }

end Idle

/-! ## Histories -/

structure Kept (options : SessionOptions) (id : EndpointId) (ever : Prop) (s : Session) : Prop where
  options : s.options = options
  localId : s.localId = id
  ever_iff : s.openedBefore = true ↔ ever
  stands : s.Idle ∨ Stands s true s ∧ s.openedBefore = true

section Histories

variable {options : SessionOptions} {id : EndpointId} {ever : Prop} {s after : Session}

theorem kept_new (options : SessionOptions) (id : EndpointId) : Kept options id False (new options id) :=
  ⟨rfl, rfl, iff_of_false Bool.false_ne_true not_false, .inl (idle_new options id)⟩

theorem Kept.of_stands (kept : Kept options id ever s) (was : s.openedBefore = true)
    (stands : Stands s true after) : Kept options id ever after where
  options := stands.options.trans kept.options
  localId := stands.localId.trans kept.localId
  ever_iff := by rw [stands.openedBefore, kept.ever_iff]
  stands := .inr ⟨⟨rfl, rfl, rfl, stands.running, stands.accepting⟩, stands.openedBefore.trans was⟩

theorem Kept.of_idle {going : Bool} (kept : Kept options id ever s) (stands : Stands s going after)
    (idle : after.Idle) : Kept options id ever after where
  options := stands.options.trans kept.options
  localId := stands.localId.trans kept.localId
  ever_iff := by rw [stands.openedBefore, kept.ever_iff]
  stands := .inl idle

theorem Kept.opened (kept : Kept options id ever s) (now : Nat) (net : OpeningNet) :
    Kept options id (ever ∨ (s.opened now net).2 = .ok ()) (s.opened now net).1 := by
  rcases kept.stands with idle | ⟨stands, was⟩
  · rcases idle.opened now net with ⟨e, failed, stands, idle⟩ | ⟨ok, stands⟩
    · have same : (ever ∨ (s.opened now net).2 = .ok ()) ↔ ever := by simp [failed]
      rw [same]
      exact kept.of_idle stands idle
    · exact ⟨stands.options.trans kept.options, stands.localId.trans kept.localId,
        iff_of_true stands.openedBefore (.inr ok),
        .inr ⟨⟨rfl, rfl, rfl, stands.running, stands.accepting⟩, stands.openedBefore⟩⟩
  · have same : s.opened now net = (s, .ok ()) := by rw [Session.opened, if_pos stands.running]
    rw [same]
    exact ⟨kept.options, kept.localId, iff_of_true was (.inr rfl), .inr ⟨stands, was⟩⟩

theorem Kept.closed (kept : Kept options id ever s) : Kept options id ever s.closed := by
  rcases kept.stands with idle | ⟨stands, _⟩
  · rwa [idle.closed]
  · rw [Session.closed, if_pos stands.running]
    exact kept.of_idle { stands.stop.reset with } { stands.stop.idle with }

theorem Kept.step {σ : Type} (kept : Kept options id ever s) (socket : DatagramSocket σ) (act : Act σ) :
    Kept options id (ever ∨ s.Opens act) (s.step socket act) := by
  cases act with
  | opened now net => exact kept.opened now net
  | closed =>
      rw [Opens, or_false]
      exact kept.closed
  | receive now data =>
      rw [Opens, or_false]
      rcases kept.stands with idle | ⟨stands, was⟩
      · rwa [Session.step, idle.receive]
      · exact kept.of_stands was (stands.receive now data)
  | send now net packets =>
      rw [Opens, or_false]
      rcases kept.stands with idle | ⟨stands, was⟩
      · rwa [Session.step, idle.send]
      · exact kept.of_stands was (stands.send socket now net packets)
  | take =>
      rw [Opens, or_false]
      rcases kept.stands with idle | ⟨stands, was⟩
      · exact kept.of_idle idle.stands.take idle.take
      · exact kept.of_stands was stands.take

theorem Kept.run {σ : Type} (socket : DatagramSocket σ) (acts : List (Act σ)) :
    ∀ {ever : Prop} {s : Session}, Kept options id ever s →
      Kept options id (ever ∨ s.EverOpened socket acts) (s.run socket acts) := by
  induction acts with
  | nil =>
      intro ever s kept
      rwa [EverOpened, or_false]
  | cons act acts ih =>
      intro ever s kept
      rw [EverOpened, ← or_assoc]
      exact ih (kept.step socket act)

end Histories

/-- Whatever was done with a session before, and at whatever step it fails to open, it then shows what a
new one shows.  It refuses packets as not connected if it was never opened, and as closed if it was. -/
theorem failed_open_leaves_nothing {σ : Type} (socket : DatagramSocket σ) (options : SessionOptions)
    (id : EndpointId) (acts : List (Act σ)) (now : Nat) (net : OpeningNet) (e : TransportError)
    (failed : (((new options id).run socket acts).opened now net).2 = .error e) :
    let s := (((new options id).run socket acts).opened now net).1
    s.state = ⟨.closed, id, none, protocolVersion, options.group, options.channel, none⟩ ∧
      s.localAddress = none ∧ s.running = none ∧
      ((new options id).EverOpened socket acts → ∀ now net packets,
        s.send socket now net packets = ((s, net), .error .sessionClosed)) ∧
      (¬ (new options id).EverOpened socket acts → ∀ now net packets,
        s.send socket now net packets = ((s, net), .error .notConnected)) := by
  intro s
  have before := (kept_new options id).run socket acts
  have after := before.opened now net
  rw [false_or] at before after
  have idle : s.Idle := by
    rcases before.stands with idle | ⟨stands, _⟩
    · rcases idle.opened now net with ⟨_, _, _, idle⟩ | ⟨ok, _⟩
      · exact idle
      · rw [failed] at ok
        cases ok
    · rw [Session.opened, if_pos stands.running] at failed
      cases failed
  have ever : s.openedBefore = true ↔ (new options id).EverOpened socket acts := by
    rw [after.ever_iff, failed]
    simp
  refine ⟨?_, idle.localAddress, idle.running, fun opened now net packets => ?_,
    fun never now net packets => ?_⟩
  · rw [idle.state, after.localId, after.options]
    rfl
  · rw [idle.send, if_pos (ever.mpr opened)]
  · rw [idle.send, if_neg fun was => never (ever.mp was)]

/-- A session that has talked to itself waits in vain for a peer that it has discovered. -/
theorem failed_open_of_discovered :
    let bind : SocketAddress := { ip := .v4 .loopback, port := 5004 }
    let peer : SocketAddress := { ip := .v4 .loopback, port := 5006 }
    let options : SessionOptions :=
      { bindAddress := bind, peerAddress := none, enableDiscovery := true, requireNegotiation := true }
    let alone : OpeningNet := { bound := .ok bind, connected := fun _ => .ok () }
    let socket : DatagramSocket Unit := ⟨fun net _ => (net, .ok ())⟩
    let s := (new options (.ofBytes [7])).run socket [.opened 0 alone, .closed]
    let net := { alone with discovered := some peer }
    (s.opened 1 net).2 = .error (.negotiationTimeout 2000) ∧
      (s.attach 1 bind peer).state.peer = some peer ∧ (s.opened 1 net).1.state.peer = none ∧
      send socket 2 (s.opened 1 net).1 () [] = (((s.opened 1 net).1, ()), .error .sessionClosed) := by
  intro bind peer options alone socket s net
  have failed : (s.opened 1 net).2 = .error (.negotiationTimeout 2000) := rfl
  obtain ⟨state, -, -, opened, -⟩ := failed_open_leaves_nothing socket options (.ofBytes [7])
    [.opened 0 alone, .closed] 1 net _ failed
  exact ⟨failed, rfl, by rw [state], opened (.inl rfl) 2 () []⟩

end Session
end FlexLink
