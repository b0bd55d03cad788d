import FlexLink.Proofs.Wire.Datagrams

/-! # Which byte strings are datagrams

How a byte string opens and how long it is decide whether it is a proposal, data or neither.  The
fields of either kind lie at fixed places in the bytes (`Negotiation.LiesIn`, `Datagram.LiesIn`), and
whatever is neither kind is refused for one reason (`Refusal`).  Reading looks at no byte that is not
there and subtracts nothing too large: `decode?`, which would stop at that, never does. -/
set_option autoImplicit false
namespace FlexLink

/-! ## Bytes and what they write -/

theorem HalfWord.bytes_ofBytes (a b : UInt8) : bytes (ofBytes a b) = [a, b] := by
  have := a.toNat_lt
  have := b.toNat_lt
  have whole : (ofBytes a b).toNat = a.toNat * 0x100 + b.toNat := by
    rw [ofBytes, UInt16.toNat_ofNat', Nat.mod_eq_of_lt (by omega)]
  rw [bytes, whole, Word.byte_ofNat (b := a) (by omega), Word.byte_ofNat (b := b) (by omega)]

theorem HalfWord.bytes_injective : Function.Injective bytes := by
  intro v w same
  obtain ⟨high, low⟩ := List.cons.inj same
  rw [← ofBytes_bytes v, ← ofBytes_bytes w, high, List.singleton_inj.mp low]

theorem Word.bytes_injective : Function.Injective bytes := by
  intro v w same
  simp only [bytes, List.cons.injEq, and_true] at same
  obtain ⟨first, second, third, fourth⟩ := same
  rw [← ofBytes_bytes v, ← ofBytes_bytes w, first, second, third, fourth]

namespace Packet

theorem exists_of_length {raw : List UInt8} (whole : raw.length = size) :
    ∃ p, ofBytes? raw = some p ∧ p.bytes = raw := by
  match raw, whole with
  | [a0, a1, a2, a3, b0, b1, b2, b3, c0, c1, c2, c3, d0, d1, d2, d3], _ =>
      refine ⟨_, rfl, ?_⟩
      simp only [bytes, Word.bytes_ofBytes]
      rfl

/-- Whole packets lose nothing when they are read. -/
theorem flatMap_bytes_chunks {payload : List UInt8} (even : payload.length % size = 0) :
    ((chunks size payload).filterMap ofBytes?).flatMap bytes = payload := by
  induction payload using chunks.induct size with
  | case1 payload stop =>
      have none : payload = [] := stop.resolve_right (by decide)
      rw [none, chunks_nil]
      rfl
  | case2 payload go ih =>
      have some := (not_or.mp go).1
      have enough : size ≤ payload.length := by
        have := List.length_pos_iff.mpr some
        simp only [size] at even ⊢
        omega
      obtain ⟨p, first, raw⟩ := exists_of_length (List.length_take_of_le enough)
      have left : (payload.drop size).length % size = 0 := by
        rw [List.length_drop, ← Nat.mod_eq_sub_mod enough, even]
      rw [chunks_of_ne_nil some (by decide), List.filterMap_cons, first, List.flatMap_cons, raw,
        ih left, List.take_append_drop]

theorem flatMap_bytes_injective : Function.Injective (List.flatMap bytes) := by
  intro ps qs same
  rw [← packets_of_bytes ps, ← packets_of_bytes qs, same]

end Packet

section Places

variable {raw : List UInt8} {i : Nat}

theorem getElem?_eq_getD (inside : i < raw.length) : raw[i]? = some (raw.getD i 0) := by
  simp [inside]

theorem take_drop_succ (inside : i < raw.length) (n : Nat) :
    (raw.drop i).take (n + 1) = raw.getD i 0 :: (raw.drop (i + 1)).take n := by
  rw [List.drop_eq_getElem_cons inside, List.take_succ_cons]
  simp [inside]

end Places

/-! ## Proposals -/

namespace Negotiation

variable {m n : Negotiation} {raw : List UInt8}

structure LiesIn (m : Negotiation) (raw : List UInt8) : Prop where
  version : raw[2]? = some m.version
  endpoint : (raw.drop 3).take 16 = m.endpoint.toBytes
  group : raw[19]? = some m.group
  channel : raw[20]? = some m.channel

theorem LiesIn.unique (one : m.LiesIn raw) (other : n.LiesIn raw) : m = n := by
  obtain ⟨version, id, group, channel⟩ := m
  obtain ⟨version', id', group', channel'⟩ := n
  have versions : version = version' := Option.some.inj (one.version.symm.trans other.version)
  have ids : id = id' := EndpointId.toBytes_injective (one.endpoint.symm.trans other.endpoint)
  have groups : group = group' := Option.some.inj (one.group.symm.trans other.group)
  have channels : channel = channel' := Option.some.inj (one.channel.symm.trans other.channel)
  rw [versions, ids, groups, channels]

theorem decode_whole (length : raw.length = size) (opens : raw.take 2 = magic) :
    ∃ m, decode raw = .ok m ∧ m.LiesIn raw := by
  have whole : raw.length = 21 := length
  rw [decode, if_neg (not_not_intro length), if_neg (not_not_intro opens)]
  refine ⟨_, rfl, ?_, ?_, ?_, ?_⟩
  · exact getElem?_eq_getD (by omega)
  · have part : ((raw.drop 3).take 16).length = 16 := by
      rw [List.length_take, List.length_drop, whole]
      rfl
    exact (EndpointId.toBytes_ofBytes part).symm
  · exact getElem?_eq_getD (by omega)
  · exact getElem?_eq_getD (by omega)

end Negotiation

/-! ## Data -/

namespace Datagram

variable {raw : List UInt8} {sequence sequence' : UInt16} {source source' : UInt32}
  {packets packets' : List Packet}

/-- A proposal has 21 bytes and opens with `MC`. -/
def IsProposal (raw : List UInt8) : Prop := raw.length = 21 ∧ raw.take 2 = [0x4D, 0x43]

/-- Data opens with `0x80`, and behind its first 12 bytes come packets of 16 bytes each. -/
def IsData (raw : List UInt8) : Prop :=
  raw.take 2 ≠ [0x4D, 0x43] ∧ raw[0]? = some 0x80 ∧ ∃ k, raw.length = 12 + 16 * k

structure LiesIn (sequence : UInt16) (source : UInt32) (packets : List Packet) (raw : List UInt8) :
    Prop where
  sequence : (raw.drop 2).take 2 = HalfWord.bytes sequence
  source : (raw.drop 8).take 4 = Word.bytes source
  packets : raw.drop 12 = packets.flatMap Packet.bytes

theorem LiesIn.unique (one : LiesIn sequence source packets raw)
    (other : LiesIn sequence' source' packets' raw) :
    data sequence source packets = data sequence' source' packets' := by
  have sequences := HalfWord.bytes_injective (one.sequence.symm.trans other.sequence)
  have sources := Word.bytes_injective (one.source.symm.trans other.source)
  have all := Packet.flatMap_bytes_injective (one.packets.symm.trans other.packets)
  rw [sequences, sources, all]

/-- What opens otherwise than a proposal is read as data. -/
theorem decode_of_apart (apart : raw.take 2 ≠ [0x4D, 0x43]) :
    decode raw
      = if raw.length < 12 then .error (.badLength .data raw.length 12)
        else if raw.getD 0 0 ≠ 0x80 then .error (.badHeader (raw.getD 0 0))
        else if (raw.drop 12).length % 16 ≠ 0 then
          .error (.badLength .payload (raw.drop 12).length
            ((raw.drop 12).length - (raw.drop 12).length % 16))
        else
          .ok (.data (HalfWord.ofBytes (raw.getD 2 0) (raw.getD 3 0))
            (Word.ofBytes (raw.getD 8 0) (raw.getD 9 0) (raw.getD 10 0) (raw.getD 11 0))
            ((chunks Packet.size (raw.drop 12)).filterMap Packet.ofBytes?)) := by
  have kind : Negotiation.isNegotiation raw = false := beq_eq_false_iff_ne.mpr apart
  rw [decode, kind, if_neg (by decide)]
  rfl

theorem decode_of_isProposal (shape : IsProposal raw) :
    ∃ m, decode raw = .ok (.negotiation m) ∧ m.LiesIn raw := by
  obtain ⟨length, opens⟩ := shape
  have kind : Negotiation.isNegotiation raw = true := beq_iff_eq.mpr opens
  obtain ⟨m, read, lies⟩ := Negotiation.decode_whole length opens
  refine ⟨m, ?_, lies⟩
  rw [decode, if_pos kind, read]

theorem decode_of_isData (shape : IsData raw) :
    ∃ sequence source packets, decode raw = .ok (data sequence source packets) ∧
      LiesIn sequence source packets raw := by
  obtain ⟨apart, opens, k, length⟩ := shape
  rw [getElem?_eq_getD (by omega)] at opens
  have first : raw.getD 0 0 = 0x80 := Option.some.inj opens
  have even : (raw.drop 12).length % 16 = 0 := by
    rw [List.length_drop]
    omega
  rw [decode_of_apart apart, if_neg (by omega), if_neg (not_not_intro first),
    if_neg (not_not_intro even)]
  refine ⟨_, _, _, rfl, ?_, ?_, ?_⟩
  · rw [HalfWord.bytes_ofBytes, take_drop_succ (by omega), take_drop_succ (by omega), List.take_zero]
  · rw [Word.bytes_ofBytes, take_drop_succ (by omega), take_drop_succ (by omega),
      take_drop_succ (by omega), take_drop_succ (by omega), List.take_zero]
  · exact (Packet.flatMap_bytes_chunks even).symm

/-! ## Refusals -/

inductive Refusal (raw : List UInt8) : WireError → Prop where
  | proposal (opens : raw.take 2 = [0x4D, 0x43]) (length : raw.length ≠ 21) :
      Refusal raw (.badLength .negotiation raw.length 21)
  | short (apart : raw.take 2 ≠ [0x4D, 0x43]) (length : raw.length < 12) :
      Refusal raw (.badLength .data raw.length 12)
  | foreign {b : UInt8} (apart : raw.take 2 ≠ [0x4D, 0x43]) (length : 12 ≤ raw.length)
      (opens : raw[0]? = some b) (other : b ≠ 0x80) : Refusal raw (.badHeader b)
  | ragged {whole left : Nat} (apart : raw.take 2 ≠ [0x4D, 0x43]) (opens : raw[0]? = some 0x80)
      (positive : 0 < left) (few : left < 16) (length : raw.length = 12 + (16 * whole + left)) :
      Refusal raw (.badLength .payload (16 * whole + left) (16 * whole))

theorem Refusal.decode_eq {e : WireError} (refusal : Refusal raw e) : decode raw = .error e := by
  cases refusal with
  | proposal opens length =>
      have kind : Negotiation.isNegotiation raw = true := beq_iff_eq.mpr opens
      have refused : Negotiation.decode raw = .error (.badLength .negotiation raw.length 21) :=
        if_pos length
      rw [decode, if_pos kind, refused]
  | short apart length => rw [decode_of_apart apart, if_pos length]
  | foreign apart length opens other =>
      rw [getElem?_eq_getD (by omega)] at opens
      obtain rfl := Option.some.inj opens
      rw [decode_of_apart apart, if_neg (Nat.not_lt.mpr length), if_pos other]
  | @ragged whole left apart opens positive few length =>
      rw [getElem?_eq_getD (by omega)] at opens
      have payload : (raw.drop 12).length = 16 * whole + left := by
        rw [List.length_drop, length, Nat.add_sub_cancel_left]
      have extra : (16 * whole + left) % 16 = left := by omega
      rw [decode_of_apart apart, if_neg (by omega), if_neg (not_not_intro (Option.some.inj opens)),
        payload, extra, if_pos (Nat.ne_of_gt positive), Nat.add_sub_cancel]

/-- Every byte string is one of three things. -/
theorem kinds (raw : List UInt8) : IsProposal raw ∨ IsData raw ∨ ∃ e, Refusal raw e := by
  by_cases opens : raw.take 2 = [0x4D, 0x43]
  · by_cases length : raw.length = 21
    · exact .inl ⟨length, opens⟩
    · exact .inr (.inr ⟨_, .proposal opens length⟩)
  · by_cases length : raw.length < 12
    · exact .inr (.inr ⟨_, .short opens length⟩)
    · have first : raw[0]? = some (raw.getD 0 0) := getElem?_eq_getD (by omega)
      by_cases flags : raw.getD 0 0 = 0x80
      · rw [flags] at first
        by_cases even : (raw.length - 12) % 16 = 0
        · exact .inr (.inl ⟨opens, first, (raw.length - 12) / 16, by omega⟩)
        · have length : raw.length
              = 12 + (16 * ((raw.length - 12) / 16) + (raw.length - 12) % 16) := by omega
          exact .inr (.inr ⟨_, .ragged opens first (Nat.pos_of_ne_zero even)
            (Nat.mod_lt _ (by decide)) length⟩)
      · exact .inr (.inr ⟨_, .foreign opens (Nat.not_lt.mp length) first flags⟩)

inductive Reads (raw : List UInt8) : Except WireError Datagram → Prop where
  | proposal {m : Negotiation} (shape : IsProposal raw) (lies : m.LiesIn raw) :
      Reads raw (.ok (.negotiation m))
  | data {sequence : UInt16} {source : UInt32} {packets : List Packet} (shape : IsData raw)
      (lies : LiesIn sequence source packets raw) : Reads raw (.ok (.data sequence source packets))
  | refused {e : WireError} (refusal : Refusal raw e) : Reads raw (.error e)

theorem reads_decode (raw : List UInt8) : Reads raw (decode raw) := by
  rcases kinds raw with proposal | shape | ⟨e, refusal⟩
  · obtain ⟨m, read, lies⟩ := decode_of_isProposal proposal
    rw [read]
    exact .proposal proposal lies
  · obtain ⟨_, _, _, read, lies⟩ := decode_of_isData shape
    rw [read]
    exact .data shape lies
  · rw [refusal.decode_eq]
    exact .refused refusal

theorem decode_eq_negotiation_iff {m : Negotiation} :
    decode raw = .ok (.negotiation m) ↔ IsProposal raw ∧ m.LiesIn raw := by
  constructor
  · intro decoded
    have reads := reads_decode raw
    rw [decoded] at reads
    cases reads with
    | proposal shape lies => exact ⟨shape, lies⟩
  · rintro ⟨shape, lies⟩
    obtain ⟨n, read, lies'⟩ := decode_of_isProposal shape
    rw [read, lies.unique lies']

theorem decode_eq_data_iff :
    decode raw = .ok (data sequence source packets) ↔
      IsData raw ∧ LiesIn sequence source packets raw := by
  constructor
  · intro decoded
    have reads := reads_decode raw
    rw [decoded] at reads
    cases reads with
    | data shape lies => exact ⟨shape, lies⟩
  · rintro ⟨shape, lies⟩
    obtain ⟨_, _, _, read, lies'⟩ := decode_of_isData shape
    rw [read, lies.unique lies']

theorem decode_eq_error_iff {e : WireError} : decode raw = .error e ↔ Refusal raw e := by
  constructor
  · intro decoded
    have reads := reads_decode raw
    rw [decoded] at reads
    cases reads with
    | refused refusal => exact refusal
  · exact Refusal.decode_eq

/-- A byte string is refused just where it is neither kind of datagram. -/
theorem refused_iff : (∃ e, decode raw = .error e) ↔ ¬ IsProposal raw ∧ ¬ IsData raw := by
  constructor
  · rintro ⟨e, decoded⟩
    refine ⟨fun proposal => ?_, fun shape => ?_⟩
    · obtain ⟨m, read, -⟩ := decode_of_isProposal proposal
      rw [read] at decoded
      cases decoded
    · obtain ⟨_, _, _, read, -⟩ := decode_of_isData shape
      rw [read] at decoded
      cases decoded
  · rintro ⟨noProposal, noData⟩
    obtain ⟨e, refusal⟩ := ((kinds raw).resolve_left noProposal).resolve_left noData
    exact ⟨e, refusal.decode_eq⟩

/-! ## Nothing that is not there -/

/-- The bytes from `start` up to `stop`, if the string has them all. -/
def slice? (raw : List UInt8) (start stop : Nat) : Option (List UInt8) :=
  if start ≤ stop ∧ stop ≤ raw.length then some ((raw.drop start).take (stop - start)) else none

def minus? (m n : Nat) : Option Nat := if n ≤ m then some (m - n) else none

def decodeProposal? (raw : List UInt8) : Option (Except WireError Negotiation) :=
  if raw.length ≠ Negotiation.size then
    some (.error (.badLength .negotiation raw.length Negotiation.size))
  else do
    let opening ← slice? raw 0 2
    if opening ≠ Negotiation.magic then return .error .badMagic
    let version ← raw[2]?
    let id ← slice? raw 3 19
    let group ← raw[19]?
    let channel ← raw[20]?
    return .ok ⟨version, .ofBytes id, group, channel⟩

/-- Reading data in the same way; a difference below zero has no answer either. -/
def decodeData? (raw : List UInt8) : Option (Except WireError Datagram) :=
  if raw.length < headerSize then some (.error (.badLength .data raw.length headerSize))
  else do
    let header ← slice? raw 0 headerSize
    let flags ← header[0]?
    if flags ≠ DataHeader.flags then return .error (.badHeader flags)
    let payload ← slice? raw headerSize raw.length
    if payload.length % Packet.size ≠ 0 then
      let whole ← minus? payload.length (payload.length % Packet.size)
      return .error (.badLength .payload payload.length whole)
    let sequence ← HalfWord.ofBytes <$> header[2]? <*> header[3]?
    let source ← Word.ofBytes <$> header[8]? <*> header[9]? <*> header[10]? <*> header[11]?
    return .ok (.data sequence source ((chunks Packet.size payload).filterMap Packet.ofBytes?))

def opening? (raw : List UInt8) : Option (List UInt8) :=
  if 2 ≤ raw.length then slice? raw 0 2 else some []

/-- Reading a datagram, with no answer where a byte is looked for that is not there, or where a
difference would be negative. -/
def decode? (raw : List UInt8) : Option (Except WireError Datagram) := do
  let opening ← opening? raw
  if opening = Negotiation.magic then
    let read ← decodeProposal? raw
    return .negotiation <$> read
  else decodeData? raw

theorem slice?_eq {start stop : Nat} (order : start ≤ stop) (inside : stop ≤ raw.length) :
    slice? raw start stop = some ((raw.drop start).take (stop - start)) := if_pos ⟨order, inside⟩

theorem decodeProposal?_eq (raw : List UInt8) :
    decodeProposal? raw = some (Negotiation.decode raw) := by
  by_cases length : raw.length = Negotiation.size
  · have whole : raw.length = 21 := length
    have opening : slice? raw 0 2 = some (raw.take 2) := slice?_eq (by omega) (by omega)
    have id : slice? raw 3 19 = some ((raw.drop 3).take 16) := slice?_eq (by omega) (by omega)
    have version : raw[2]? = some (raw.getD 2 0) := getElem?_eq_getD (by omega)
    have group : raw[19]? = some (raw.getD 19 0) := getElem?_eq_getD (by omega)
    have channel : raw[20]? = some (raw.getD 20 0) := getElem?_eq_getD (by omega)
    rw [decodeProposal?, Negotiation.decode, if_neg (not_not_intro length),
      if_neg (not_not_intro length), opening, version, id, group, channel]
    show (if raw.take 2 ≠ Negotiation.magic then _ else _) = _
    split <;> rfl
  · rw [decodeProposal?, Negotiation.decode, if_pos length, if_pos length]

theorem opening?_eq (raw : List UInt8) :
    ∃ opening, opening? raw = some opening ∧
      (opening = Negotiation.magic ↔ raw.take 2 = Negotiation.magic) := by
  by_cases two : 2 ≤ raw.length
  · refine ⟨raw.take 2, ?_, Iff.rfl⟩
    rw [opening?, if_pos two, slice?_eq (by omega) two]
    rfl
  · refine ⟨[], if_neg two, fun none => absurd none (by decide), fun opens => ?_⟩
    have length := congrArg List.length opens
    rw [List.length_take] at length
    simp only [Negotiation.magic, List.length_cons, List.length_nil] at length
    omega

theorem decodeData?_eq (apart : raw.take 2 ≠ [0x4D, 0x43]) :
    decodeData? raw = some (decode raw) := by
  rw [decodeData?, decode_of_apart apart]
  by_cases short : raw.length < 12
  · rw [if_pos short, if_pos (show raw.length < headerSize from short)]
    rfl
  · have header : slice? raw 0 headerSize = some (raw.take 12) :=
      slice?_eq (by omega) (by simp only [headerSize]; omega)
    have payload : slice? raw headerSize raw.length = some (raw.drop 12) := by
      rw [slice?_eq (by simp only [headerSize]; omega) (by omega),
        List.take_of_length_le (Nat.le_of_eq List.length_drop)]
      rfl
    have field (i : Nat) (inside : i < 12) : (raw.take 12)[i]? = some (raw.getD i 0) := by
      rw [List.getElem?_take_of_lt inside]
      exact getElem?_eq_getD (by omega)
    have less : (raw.drop 12).length % Packet.size ≤ (raw.drop 12).length := Nat.mod_le _ _
    rw [if_neg short, if_neg (show ¬ raw.length < headerSize from short), header]
    simp only [Option.bind_eq_bind, Option.bind_some, field 0 (by decide), field 2 (by decide),
      field 3 (by decide), field 8 (by decide), field 9 (by decide), field 10 (by decide),
      field 11 (by decide), payload, minus?, if_pos less]
    by_cases foreign : raw.getD 0 0 ≠ DataHeader.flags
    · rw [if_pos foreign, if_pos (show raw.getD 0 0 ≠ 0x80 from foreign)]
      rfl
    · rw [if_neg foreign, if_neg (show ¬ raw.getD 0 0 ≠ 0x80 from foreign)]
      by_cases ragged : (raw.drop 12).length % Packet.size ≠ 0
      · rw [if_pos ragged, if_pos (show (raw.drop 12).length % 16 ≠ 0 from ragged)]
        rfl
      · rw [if_neg ragged, if_neg (show ¬ (raw.drop 12).length % 16 ≠ 0 from ragged)]
        rfl

/-- No reading looks for a byte that is not there, or takes away more than there is. -/
theorem decode?_eq (raw : List UInt8) : decode? raw = some (decode raw) := by
  obtain ⟨opening, same, opens_iff⟩ := opening?_eq raw
  rw [decode?, same]
  simp only [Option.bind_eq_bind, Option.bind_some]
  by_cases opens : raw.take 2 = Negotiation.magic
  · have kind : Negotiation.isNegotiation raw = true := beq_iff_eq.mpr opens
    rw [if_pos (opens_iff.mpr opens), decodeProposal?_eq, decode, if_pos kind]
    cases Negotiation.decode raw <;> rfl
  · rw [if_neg (mt opens_iff.mp opens), decodeData?_eq opens]

/-- What a byte string is read as, over all of them; and the two encoders are undone by reading. -/
theorem decode_exact :
    (∀ raw, decode? raw = some (decode raw)) ∧
    (∀ raw m, decode raw = .ok (.negotiation m) ↔ IsProposal raw ∧ m.LiesIn raw) ∧
    (∀ raw sequence source packets, decode raw = .ok (.data sequence source packets) ↔
      IsData raw ∧ LiesIn sequence source packets raw) ∧
    (∀ raw, (∃ e, decode raw = .error e) ↔ ¬ IsProposal raw ∧ ¬ IsData raw) ∧
    (∀ raw e, decode raw = .error e ↔ Refusal raw e) ∧
    (∀ m : Negotiation, decode m.bytes = .ok (.negotiation m)) ∧
    ∀ (e : FrameEncoder) (now : Nat) (packets : List Packet),
      decode (e.encode now packets).2 = .ok (.data e.sequence e.source packets) :=
  ⟨decode?_eq, fun _ _ => decode_eq_negotiation_iff, fun _ _ _ _ => decode_eq_data_iff,
    fun _ => refused_iff, fun _ _ => decode_eq_error_iff, Negotiation.decode_negotiation,
    FrameEncoder.decode_encode⟩

end Datagram
end FlexLink
