import Mathlib.Data.List.Basic
import Mathlib.Data.List.Induction
import FlexLink.Discovery.Registry
import FlexLink.Proofs.Discovery.Naming

/-! # Which peers a registry knows

Datagrams of any bytes and sweeps for silent peers come in any order.  `turn_cases` says all that one of
them can do to a registry; from this a peer stands in the registry exactly if its latest announcement
was spared by every turn since (`mem_after_iff`). -/
set_option autoImplicit false
namespace FlexLink.Registry

inductive Act where
  | datagram (data : List UInt8) (source : SocketAddress)
  | expire (ttl : Nat)

structure Turn where
  time : Nat
  act : Act

def turn (me : EndpointId) (r : Registry) (t : Turn) : Registry :=
  match t.act with
  | .datagram data source => (r.handle me t.time data source).1
  | .expire ttl => (r.expire t.time ttl).1

def after (me : EndpointId) (turns : List Turn) : Registry := turns.foldl (turn me) {}

/-- A turn brings an announcement of the service by another endpoint, which makes `p` known. -/
def Turn.Announces (me : EndpointId) (t : Turn) (p : Peer) : Prop :=
  ∃ (data : List UInt8) (source : SocketAddress) (a : Announcement),
    t.act = .datagram data source ∧ a.LiesIn data ∧
    a.service = rtpMidiHash ∧ a.endpoint ≠ me ∧
    p = ⟨a.endpoint, a.name, { ip := source.ip, port := a.port }, a.version, t.time⟩

/-- A turn neither replaces `p` nor finds it too old.  (A clock that went back has aged no peer.) -/
def Turn.Spares (me : EndpointId) (t : Turn) (p : Peer) : Prop :=
  (∀ q, t.Announces me q → q.endpoint ≠ p.endpoint) ∧
    ∀ ttl, t.act = .expire ttl → t.time - p.lastSeen < ttl

/-- `p` was announced, and every turn since has spared it. -/
def Stands (me : EndpointId) (turns : List Turn) (p : Peer) : Prop :=
  ∃ front t back, turns = front ++ t :: back ∧ t.Announces me p ∧ ∀ u ∈ back, u.Spares me p

variable {me id : EndpointId} {r : Registry} {t : Turn} {p q : Peer} {peers : List Peer}

/-- A browser turns with every datagram that gets through. -/
theorem browse_eq_foldl (me : EndpointId) (now : Nat) (source : SocketAddress)
    (carry : List UInt8 → Except SystemError (List UInt8)) (r : Registry) (sent : List (List UInt8)) :
    r.browse me now source carry sent
      = (sent.filterMap fun data =>
          (carry data).toOption.map fun data => ⟨now, .datagram data source⟩).foldl (turn me) r := by
  induction sent generalizing r with
  | nil => rfl
  | cons data sent ih =>
    rw [browse, List.foldl_cons, List.filterMap_cons]
    cases carry data with
    | error why => exact ih r
    | ok data => exact ih (r.handle me now data source).1

/-! ## Peers in the order of their ids -/

def Ascending (peers : List Peer) : Prop := peers.Pairwise fun p q => p.endpoint < q.endpoint

theorem Ascending.apart (ascending : Ascending (p :: peers)) (behind : q ∈ peers) :
    q.endpoint ≠ p.endpoint := by
  intro same
  exact EndpointId.lt_irrefl _ (same ▸ (List.pairwise_cons.mp ascending).1 q behind)

theorem Ascending.cons (ascending : Ascending (q :: peers)) (below : p.endpoint < q.endpoint) :
    Ascending (p :: q :: peers) := by
  refine List.pairwise_cons.mpr ⟨?_, ascending⟩
  intro x member
  rcases List.mem_cons.mp member with rfl | behind
  · exact below
  · exact EndpointId.lt_trans below ((List.pairwise_cons.mp ascending).1 x behind)

theorem Ascending.eq_of_endpoint (ascending : Ascending peers) (first : p ∈ peers)
    (second : q ∈ peers) (same : p.endpoint = q.endpoint) : p = q := by
  induction peers with
  | nil => cases first
  | cons x rest ih =>
    rcases List.mem_cons.mp first with rfl | here
    · rcases List.mem_cons.mp second with rfl | there
      · rfl
      · exact absurd same.symm (ascending.apart there)
    · rcases List.mem_cons.mp second with rfl | there
      · exact absurd same (ascending.apart here)
      · exact ih (List.pairwise_cons.mp ascending).2 here there

theorem mem_insertPeer (ascending : Ascending peers) :
    q ∈ insertPeer p peers ↔ q = p ∨ q ∈ peers ∧ q.endpoint ≠ p.endpoint := by
  induction peers with
  | nil => simp [insertPeer]
  | cons first rest ih =>
    unfold insertPeer
    split
    · next same =>
      rw [List.mem_cons, List.mem_cons, same]
      constructor
      · rintro (new | member)
        · exact .inl new
        · exact .inr ⟨.inr member, ascending.apart member⟩
      · rintro (new | ⟨replaced | member, other⟩)
        · exact .inl new
        · exact absurd (replaced ▸ rfl) other
        · exact .inr member
    · next other =>
      split
      · next below =>
        -- all that come from here on have greater ids, so none is replaced
        have above := ascending.cons below
        rw [List.mem_cons]
        constructor
        · rintro (new | member)
          · exact .inl new
          · exact .inr ⟨member, above.apart member⟩
        · rintro (new | ⟨member, -⟩)
          · exact .inl new
          · exact .inr member
      · rw [List.mem_cons, ih (List.pairwise_cons.mp ascending).2, List.mem_cons]
        constructor
        · rintro (rfl | new | ⟨member, apart⟩)
          · exact .inr ⟨.inl rfl, Ne.symm other⟩
          · exact .inl new
          · exact .inr ⟨.inr member, apart⟩
        · rintro (new | ⟨rfl | member, apart⟩)
          · exact .inr (.inl new)
          · exact .inl rfl
          · exact .inr (.inr ⟨member, apart⟩)

theorem ascending_insertPeer (ascending : Ascending peers) : Ascending (insertPeer p peers) := by
  induction peers with
  | nil => exact List.pairwise_singleton _ _
  | cons first rest ih =>
    obtain ⟨least, others⟩ := List.pairwise_cons.mp ascending
    unfold insertPeer
    split
    · next same => exact List.pairwise_cons.mpr ⟨same ▸ least, others⟩
    · next other =>
      split
      · next below => exact ascending.cons below
      · next above =>
        refine List.pairwise_cons.mpr ⟨?_, ih others⟩
        intro x member
        rcases (mem_insertPeer others).mp member with rfl | ⟨behind, -⟩
        · exact EndpointId.lt_of_not_lt other above
        · exact least x behind

theorem get?_eq_some_iff (ascending : Ascending r.peers) :
    r.get? id = some p ↔ p ∈ r.peers ∧ p.endpoint = id := by
  constructor
  · intro found
    exact ⟨List.mem_of_find?_eq_some found, by simpa using List.find?_some found⟩
  · rintro ⟨member, rfl⟩
    cases found : r.get? p.endpoint with
    | none =>
      have other := List.find?_eq_none.mp found p member
      simp at other
    | some q =>
      have same : q.endpoint = p.endpoint := by simpa using List.find?_some found
      rw [ascending.eq_of_endpoint (List.mem_of_find?_eq_some found) member same]

/-! ## One turn -/

theorem Turn.Announces.unique (one : t.Announces me p) (other : t.Announces me q) : p = q := by
  obtain ⟨data, source, a, act, lies, -, -, rfl⟩ := one
  obtain ⟨data', source', b, act', lies', -, -, rfl⟩ := other
  rw [act] at act'
  cases act'
  rw [lies.unique lies']

/-- What a turn does: it puts a peer in, or nothing, or drops silent peers. -/
theorem turn_cases (me : EndpointId) (r : Registry) (t : Turn) :
    (∃ p, t.Announces me p ∧ (∀ ttl, t.act ≠ .expire ttl) ∧ r.turn me t = r.insert p) ∨
      ((∀ p, ¬ t.Announces me p) ∧ (∀ ttl, t.act ≠ .expire ttl) ∧ r.turn me t = r) ∨
      ∃ ttl, t.act = .expire ttl ∧ r.turn me t = (r.expire t.time ttl).1 := by
  obtain ⟨time, act⟩ := t
  cases act with
  | expire ttl => exact .inr (.inr ⟨ttl, rfl, rfl⟩)
  | datagram data source =>
    have other : ∀ ttl, Act.datagram data source ≠ .expire ttl := by
      intro ttl same
      cases same
    cases read : Announcement.ofBytes? data with
    | none =>
      refine .inr (.inl ⟨?_, other, ?_⟩)
      · rintro p ⟨data', source', a, act, lies, -⟩
        cases act
        rw [Announcement.ofBytes?_eq_some_iff.mpr lies] at read
        cases read
      · simp [turn, handle, read]
    | some a =>
      have lies := Announcement.ofBytes?_eq_some_iff.mp read
      by_cases known : a.service = rtpMidiHash ∧ a.endpoint ≠ me
      · refine .inl ⟨_, ⟨data, source, a, rfl, lies, known.1, known.2, rfl⟩, other, ?_⟩
        simp [turn, handle, read, Announcement.isRtpMidi, known]
      · refine .inr (.inl ⟨?_, other, ?_⟩)
        · rintro p ⟨data', source', b, act, lies', service, foreign, -⟩
          cases act
          rw [lies.unique lies'] at known
          exact known ⟨service, foreign⟩
        · have passed : (!a.isRtpMidi || a.endpoint == me) = true := by
            by_cases service : a.service = rtpMidiHash
            · simp [not_and_not_right.mp known service]
            · simp [Announcement.isRtpMidi, service]
          simp [turn, handle, read, passed]

theorem ascending_turn (me : EndpointId) (ascending : Ascending r.peers) (t : Turn) :
    Ascending (r.turn me t).peers := by
  rcases turn_cases me r t with ⟨p, -, -, same⟩ | ⟨-, -, same⟩ | ⟨ttl, -, same⟩
  · rw [same]
    exact ascending_insertPeer ascending
  · rw [same]
    exact ascending
  · rw [same]
    exact ascending.sublist List.filter_sublist

/-- A peer is known after a turn that announces it, or spares it if it was known before. -/
theorem mem_turn_iff (ascending : Ascending r.peers) :
    p ∈ (r.turn me t).peers ↔ t.Announces me p ∨ p ∈ r.peers ∧ t.Spares me p := by
  rcases turn_cases me r t with ⟨q, brings, datagram, same⟩ | ⟨none, datagram, same⟩ | ⟨ttl, act, same⟩
  · have spares : t.Spares me p ↔ p.endpoint ≠ q.endpoint := by
      constructor
      · intro spared equal
        exact spared.1 q brings equal.symm
      · intro apart
        refine ⟨?_, fun ttl act => absurd act (datagram ttl)⟩
        intro x announced equal
        rw [announced.unique brings] at equal
        exact apart equal.symm
    have news : t.Announces me p ↔ p = q := by
      constructor
      · intro announced
        exact announced.unique brings
      · rintro rfl
        exact brings
    rw [same, spares, news]
    exact mem_insertPeer ascending
  · have spares : t.Spares me p :=
      ⟨fun q brings => absurd brings (none q), fun ttl act => absurd act (datagram ttl)⟩
    rw [same]
    simp [none p, spares]
  · have none : ∀ q, ¬ t.Announces me q := by
      rintro q ⟨data, source, a, datagram, -⟩
      rw [act] at datagram
      cases datagram
    have spares : t.Spares me p ↔ t.time - p.lastSeen < ttl := by
      constructor
      · intro spared
        exact spared.2 ttl act
      · intro young
        refine ⟨fun q brings => absurd brings (none q), ?_⟩
        intro ttl' act'
        rw [act] at act'
        cases act'
        exact young
    rw [same, spares]
    simp [expire, none p]

/-! ## All turns -/

theorem after_snoc (me : EndpointId) (turns : List Turn) (t : Turn) :
    after me (turns ++ [t]) = (after me turns).turn me t := by
  simp [after]

theorem ascending_after (me : EndpointId) (turns : List Turn) : Ascending (after me turns).peers := by
  induction turns using List.reverseRecOn with
  | nil => exact List.Pairwise.nil
  | append_singleton turns t ih =>
    rw [after_snoc]
    exact ascending_turn me ih t

theorem stands_snoc {turns : List Turn} :
    Stands me (turns ++ [t]) p ↔ t.Announces me p ∨ Stands me turns p ∧ t.Spares me p := by
  constructor
  · rintro ⟨front, u, back, split, announced, spared⟩
    rcases List.eq_nil_or_concat back with rfl | ⟨back, last, rfl⟩
    · obtain ⟨-, same⟩ := List.append_inj' split rfl
      exact .inl (List.singleton_inj.mp same ▸ announced)
    · rw [List.concat_eq_append, ← List.cons_append, ← List.append_assoc] at split
      obtain ⟨rfl, same⟩ := List.append_inj' split rfl
      obtain rfl := List.singleton_inj.mp same
      refine .inr ⟨⟨front, u, back, rfl, announced, ?_⟩, spared t (by simp)⟩
      intro x member
      exact spared x (by simp [member])
  · rintro (announced | ⟨⟨front, u, back, rfl, announced, spared⟩, last⟩)
    · exact ⟨turns, t, [], rfl, announced, by simp⟩
    · refine ⟨front, u, back ++ [t], by simp, announced, ?_⟩
      intro x member
      rcases List.mem_append.mp member with earlier | new
      · exact spared x earlier
      · exact List.mem_singleton.mp new ▸ last

theorem mem_after_iff (me : EndpointId) (turns : List Turn) (p : Peer) :
    p ∈ (after me turns).peers ↔ Stands me turns p := by
  induction turns using List.reverseRecOn with
  | nil =>
    constructor
    · intro member
      cases member
    · rintro ⟨front, t, back, split, -⟩
      simp at split
  | append_singleton turns t ih =>
    rw [after_snoc, mem_turn_iff (ascending_after me turns), ih, stands_snoc]

/-! ## Silent peers and the latest one -/

/-- As many are counted as are gone. -/
theorem count_expire (ascending : Ascending r.peers) (now ttl : Nat) :
    (r.expire now ttl).2
      = (r.peers.filter fun p => ((r.expire now ttl).1.get? p.endpoint).isNone).length := by
  have left : Ascending (r.expire now ttl).1.peers := ascending.sublist List.filter_sublist
  have gone : ∀ p ∈ r.peers, ((r.expire now ttl).1.get? p.endpoint).isNone
      = !decide (now - p.lastSeen < ttl) := by
    intro p member
    by_cases young : now - p.lastSeen < ttl
    · have kept : p ∈ (r.expire now ttl).1.peers := List.mem_filter.mpr ⟨member, by simp [young]⟩
      rw [(get?_eq_some_iff left).mpr ⟨kept, rfl⟩]
      simp [young]
    · cases found : (r.expire now ttl).1.get? p.endpoint with
      | none => simp [young]
      | some q =>
        obtain ⟨kept, same⟩ := (get?_eq_some_iff left).mp found
        obtain ⟨here, fresh⟩ := List.mem_filter.mp kept
        rw [ascending.eq_of_endpoint here member same] at fresh
        exact absurd (of_decide_eq_true fresh) young
  rw [List.filter_congr gone]
  have whole := r.peers.length_eq_length_filter_add fun p => decide (now - p.lastSeen < ttl)
  show r.peers.length - (r.peers.filter _).length = _
  omega

/-- The search ends at a peer that none of those it has seen was seen after. -/
theorem foldl_later (peers : List Peer) (best : Peer) :
    ∃ p, peers.foldl later (some best) = some p ∧ p ∈ best :: peers ∧
      ∀ q ∈ best :: peers, q.lastSeen ≤ p.lastSeen := by
  induction peers generalizing best with
  | nil => exact ⟨best, rfl, by simp, by simp⟩
  | cons next rest ih =>
    rw [List.foldl_cons, later]
    split
    · next older =>
      obtain ⟨p, found, member, most⟩ := ih best
      refine ⟨p, found, ?_, ?_⟩
      · rcases List.mem_cons.mp member with rfl | later
        · simp
        · simp [later]
      · intro q member
        have bound := most best (by simp)
        rcases List.mem_cons.mp member with rfl | member
        · exact bound
        · rcases List.mem_cons.mp member with rfl | later
          · omega
          · exact most q (by simp [later])
    · next newer =>
      obtain ⟨p, found, member, most⟩ := ih next
      refine ⟨p, found, List.mem_cons_of_mem _ member, ?_⟩
      intro q member
      have bound := most next (by simp)
      rcases List.mem_cons.mp member with rfl | later
      · omega
      · exact most q later

theorem freshest?_cases (r : Registry) (viewer : EndpointId) :
    (r.freshest? viewer = none ∧ ∀ q ∈ r.peers, q.endpoint = viewer) ∨
      ∃ p ∈ r.peers, r.freshest? viewer = some p ∧ p.endpoint ≠ viewer ∧
        ∀ q ∈ r.peers, q.endpoint ≠ viewer → q.lastSeen ≤ p.lastSeen := by
  unfold freshest?
  cases foreign : r.peers.filter (·.endpoint != viewer) with
  | nil =>
    refine .inl ⟨rfl, ?_⟩
    intro q member
    simpa using List.filter_eq_nil_iff.mp foreign q member
  | cons first rest =>
    obtain ⟨p, found, member, most⟩ := foldl_later rest first
    have those : ∀ q, q ∈ first :: rest ↔ q ∈ r.peers ∧ q.endpoint ≠ viewer := by
      intro q
      rw [← foreign, List.mem_filter, bne_iff_ne]
    obtain ⟨here, other⟩ := (those p).mp member
    refine .inr ⟨p, here, found, other, ?_⟩
    intro q known apart
    exact most q ((those q).mpr ⟨known, apart⟩)

/-- After any turns the registry holds one entry for each endpoint that stands, its latest announcement.
A sweep counts the entries that it drops, and the freshest peer is a foreign one that no foreign one was
seen after. -/
theorem registry_of_turns (me : EndpointId) (turns : List Turn) :
    ((after me turns).peers.map (·.endpoint)).Nodup ∧
    (∀ id p, (after me turns).get? id = some p ↔ p.endpoint = id ∧ Stands me turns p) ∧
    (∀ now ttl, ((after me turns).expire now ttl).2 = ((after me turns).peers.filter fun p =>
      (((after me turns).expire now ttl).1.get? p.endpoint).isNone).length) ∧
    ∀ viewer,
      ((after me turns).freshest? viewer = none
        ↔ ∀ id, id ≠ viewer → (after me turns).get? id = none) ∧
      ∀ p, (after me turns).freshest? viewer = some p →
        p.endpoint ≠ viewer ∧ (after me turns).get? p.endpoint = some p ∧
        ∀ id q, id ≠ viewer → (after me turns).get? id = some q → q.lastSeen ≤ p.lastSeen := by
  have ascending := ascending_after me turns
  refine ⟨?_, ?_, count_expire ascending, ?_⟩
  · refine List.pairwise_map.mpr (ascending.imp ?_)
    intro p q below same
    exact EndpointId.lt_irrefl _ (same ▸ below)
  · intro id p
    rw [get?_eq_some_iff ascending, mem_after_iff, and_comm]
  · intro viewer
    rcases freshest?_cases (after me turns) viewer with ⟨found, alone⟩ | ⟨p, here, found, other, most⟩
    · rw [found]
      refine ⟨iff_of_true rfl ?_, fun p none => by cases none⟩
      intro id apart
      rw [Option.eq_none_iff_forall_ne_some]
      intro p known
      obtain ⟨member, rfl⟩ := (get?_eq_some_iff ascending).mp known
      exact apart (alone p member)
    · have known : (after me turns).get? p.endpoint = some p :=
        (get?_eq_some_iff ascending).mpr ⟨here, rfl⟩
      rw [found]
      refine ⟨iff_of_false (by simp) ?_, ?_⟩
      · intro empty
        rw [empty _ other] at known
        cases known
      · rintro _ ⟨⟩
        refine ⟨other, known, ?_⟩
        intro id q apart present
        obtain ⟨member, rfl⟩ := (get?_eq_some_iff ascending).mp present
        exact most q member apart

end FlexLink.Registry
