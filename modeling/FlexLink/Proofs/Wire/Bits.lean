import FlexLink.Proofs.Wire.Layout

/-! # The place of every bit

A packet is one number of 128 bits, with the first word on top.  The fields of a Flex Data packet stand
in it side by side, so whatever they hold they come back, the group and the channel without their
high bits.  Of a packet that is read, all bits but those of the address are written again as they were. -/
set_option autoImplicit false
namespace FlexLink

/-! ## Bits and numbers -/

theorem toNat_append_bits {m n : Nat} (x : BitVec m) (y : BitVec n) :
    (x ++ y).toNat = x.toNat <<< n + y.toNat := by
  rw [BitVec.toNat_append, Nat.shiftLeft_add_eq_or_of_lt y.isLt]

/-- Numbers that agree from one place up and below another have the same bits there. -/
theorem testBit_eq_of_outside {m n low high i : Nat} (above : m >>> high = n >>> high)
    (below : m % (1 <<< low) = n % (1 <<< low)) (outside : i < low ∨ high ≤ i) :
    m.testBit i = n.testBit i := by
  rcases outside with under | beyond
  · rw [Nat.one_shiftLeft] at below
    have bits := congrArg (Nat.testBit · i) below
    simpa [Nat.testBit_mod_two_pow, under] using bits
  · obtain ⟨k, rfl⟩ := Nat.exists_eq_add_of_le beyond
    have bits := congrArg (Nat.testBit · k) above
    simpa [Nat.testBit_shiftRight] using bits

/-! ## The packet as one number -/

namespace Packet

variable {u v : Packet}

/-- The first word stands on top, so the message type has the places from 124 and the address those
from 116. -/
def bits (u : Packet) : BitVec 128 :=
  u.word0.toBitVec ++ u.word1.toBitVec ++ u.word2.toBitVec ++ u.word3.toBitVec

def topNibble (u : Packet) : BitVec 4 := u.bits.extractLsb' 124 4

def addressBits (u : Packet) : BitVec 2 := u.bits.extractLsb' 116 2

theorem toNat_bits (u : Packet) :
    u.bits.toNat = u.word0.toNat <<< 96 + u.word1.toNat <<< 64 + u.word2.toNat <<< 32
      + u.word3.toNat := by
  simp only [bits, toNat_append_bits, UInt32.toNat_toBitVec]
  omega

theorem toNat_word0 (u : Packet) : u.word0.toNat = u.bits.toNat >>> 96 := by
  have := u.word1.toNat_lt
  have := u.word2.toNat_lt
  have := u.word3.toNat_lt
  rw [toNat_bits]
  omega

theorem bits_inj : u.bits = v.bits ↔ u = v := by
  constructor
  · intro same
    obtain ⟨a, b, c, d⟩ := u
    obtain ⟨a', b', c', d'⟩ := v
    have := b.toNat_lt
    have := c.toNat_lt
    have := d.toNat_lt
    have := b'.toNat_lt
    have := c'.toNat_lt
    have := d'.toNat_lt
    have all := congrArg BitVec.toNat same
    rw [toNat_bits, toNat_bits] at all
    dsimp only at all
    simp only [mk.injEq, ← UInt32.toNat_inj]
    omega
  · intro same
    rw [same]

theorem toNat_topNibble (u : Packet) : u.topNibble.toNat = u.word0.toNat / 0x10000000 := by
  have := u.word0.toNat_lt
  rw [topNibble, BitVec.extractLsb'_toNat, Nat.shiftRight_eq_div_pow]
  rw [toNat_word0] at this ⊢
  omega

theorem toNat_addressBits (u : Packet) :
    u.addressBits.toNat = u.word0.toNat / 0x100000 % 4 := by
  rw [addressBits, BitVec.extractLsb'_toNat, Nat.shiftRight_eq_div_pow, toNat_word0]
  omega

theorem messageType_eq_iff (u : Packet) :
    u.messageType = FlexPacket.messageType ↔ u.topNibble = 0xD#4 := by
  have := u.word0.toNat_lt
  rw [messageType, ← UInt8.toNat_inj, UInt8.toNat_ofNat', ← BitVec.toNat_inj, toNat_topNibble]
  show _ % 256 = 13 ↔ _ = 13
  omega

end Packet

/-! ## The fields as bits -/

namespace FlexPacket

variable {u : Packet} {p : FlexPacket}

def fields (p : FlexPacket) : BitVec 32 :=
  0xD#4 ++ p.group.toBitVec.setWidth 4 ++ BitVec.ofNat 2 p.form.code ++ BitVec.ofNat 2 p.address.code
    ++ p.channel.toBitVec.setWidth 4 ++ p.statusBank.toBitVec ++ p.status.toBitVec

theorem toBitVec_header (p : FlexPacket) : p.header.toBitVec = p.fields := by
  have form := p.form.code_lt
  have address : p.address.code < 2 := by cases p.address <;> decide
  apply BitVec.eq_of_toNat_eq
  rw [UInt32.toNat_toBitVec, toNat_header]
  simp only [fields, toNat_append_bits, BitVec.toNat_setWidth, BitVec.toNat_ofNat,
    UInt8.toNat_toBitVec]
  omega

theorem lowBits_eq (b : UInt8) : UInt8.ofNat (b.toNat % 16) = b &&& 0x0F := by
  apply Word.byte_ofNat
  rw [UInt8.toNat_and]
  show _ = b.toNat &&& (2 ^ 4 - 1)
  rw [Nat.and_two_pow_sub_one_eq_mod]
  omega

/-- Two bits are always the code of a form. -/
theorem exists_ofCode (n : Nat) :
    ∃ form, FlexForm.ofCode (UInt8.ofNat (n % 4)) = .ok form ∧ form.code = n % 4 := by
  have few : n % 4 = 0 ∨ n % 4 = 1 ∨ n % 4 = 2 ∨ n % 4 = 3 := by omega
  rcases few with zero | one | two | three
  · exact ⟨.whole, by rw [zero]; rfl, zero.symm⟩
  · exact ⟨.start, by rw [one]; rfl, one.symm⟩
  · exact ⟨.middle, by rw [two]; rfl, two.symm⟩
  · exact ⟨.last, by rw [three]; rfl, three.symm⟩

/-! ## What is read and written again -/

theorem ofPacket_of_other (other : u.messageType ≠ messageType) :
    ofPacket u = .error (.notFlexData u.messageType) := by
  rw [ofPacket, if_pos other]

theorem ofPacket_of_flexData (flexData : u.messageType = messageType) :
    ∃ form, form.code = u.word0.toNat / 0x400000 % 4 ∧
      ofPacket u = .ok {
        group := u.group
        form
        address := if u.word0.toNat / 0x100000 % 4 = 0 then .channel else .group
        channel := UInt8.ofNat (u.word0.toNat / 0x10000 % 16)
        statusBank := UInt8.ofNat (u.word0.toNat / 0x100)
        status := UInt8.ofNat u.word0.toNat
        payload := payloadOf u.word1 u.word2 u.word3 } := by
  obtain ⟨form, known, code⟩ := exists_ofCode (u.word0.toNat / 0x400000)
  refine ⟨form, code, ?_⟩
  rw [ofPacket, if_neg (not_not_intro flexData)]
  simp only [known]

theorem ofPacket_eq_error_iff {e : WireError} :
    ofPacket u = .error e ↔ u.topNibble ≠ 0xD#4 ∧ e = .notFlexData u.messageType := by
  rw [ne_eq, ← u.messageType_eq_iff]
  by_cases flexData : u.messageType = messageType
  · obtain ⟨form, -, fields⟩ := ofPacket_of_flexData flexData
    simp [fields, flexData]
  · simp [ofPacket_of_other flexData, flexData, eq_comm]

/-- Two bits read as an address and written as its code lose what they hold over one. -/
theorem code_read (n : Nat) :
    (if n % 4 = 0 then FlexAddress.channel else .group).code + (n % 4 - 1) = n % 4 := by
  split
  · next zero =>
    rw [zero]
    rfl
  · show 1 + _ = _
    omega

theorem toPacket_payloadOf {a b c : UInt32} (payload : p.payload = payloadOf a b c) :
    p.toPacket = ⟨p.header, a, b, c⟩ := by
  have word (w : UInt32) : Word.ofBytes (UInt8.ofNat (w.toNat / 0x1000000))
      (UInt8.ofNat (w.toNat / 0x10000)) (UInt8.ofNat (w.toNat / 0x100))
      (UInt8.ofNat (w.toNat / 1)) = w := by
    rw [Nat.div_one, Word.ofBytes_bytes]
  rw [toPacket, payload, Packet.mk.injEq]
  exact ⟨rfl, word a, word b, word c⟩

/-- What was read is written as it was, but for an address of two or three, which becomes one. -/
theorem toNat_bits_toPacket (read : ofPacket u = .ok p) :
    p.toPacket.bits.toNat + (u.addressBits.toNat - 1) <<< 116 = u.bits.toNat := by
  by_cases flexData : u.messageType = messageType
  · obtain ⟨form, code, fields⟩ := ofPacket_of_flexData flexData
    rw [fields] at read
    cases read
    have kind := (Packet.messageType_eq_iff u).mp flexData
    rw [← BitVec.toNat_inj, Packet.toNat_topNibble] at kind
    have kind : u.word0.toNat / 0x10000000 = 0xD := kind
    have address := code_read (u.word0.toNat / 0x100000)
    rw [toPacket_payloadOf rfl, Packet.toNat_bits, Packet.toNat_bits, toNat_header,
      Packet.toNat_addressBits]
    simp only [code, Packet.group, UInt8.toNat_ofNat']
    omega
  · rw [ofPacket_of_other flexData] at read
    cases read

theorem toPacket_eq_iff (read : ofPacket u = .ok p) :
    p.toPacket = u ↔ u.addressBits = 0#2 ∨ u.addressBits = 1#2 := by
  have written := toNat_bits_toPacket read
  rw [← Packet.bits_inj, ← BitVec.toNat_inj, ← BitVec.toNat_inj, ← BitVec.toNat_inj]
  show _ ↔ u.addressBits.toNat = 0 ∨ u.addressBits.toNat = 1
  omega

theorem getLsbD_toPacket (read : ofPacket u = .ok p) {i : Nat} (outside : i < 116 ∨ 118 ≤ i) :
    p.toPacket.bits.getLsbD i = u.bits.getLsbD i := by
  have written := toNat_bits_toPacket read
  have address : u.addressBits.toNat = u.bits.toNat >>> 116 % 4 := by
    rw [Packet.addressBits, BitVec.extractLsb'_toNat]
  apply testBit_eq_of_outside ?_ ?_ outside
  · omega
  · rw [Nat.one_shiftLeft]
    omega

/-- Any fields have their bits in the packet and come back from there.  Any packet of the message type
is read, and written again it differs at most in the two bits of the address: where they hold two or
three. -/
theorem bits_kept :
    (∀ p : FlexPacket, p.toPacket.word0.toBitVec = p.fields ∧
      p.toPacket.bytes.drop 4 = p.payload.toList ∧
      ofPacket p.toPacket = .ok { p with group := p.group &&& 0x0F, channel := p.channel &&& 0x0F }) ∧
    ∀ u : Packet,
      ((∃ e, ofPacket u = .error e) ↔ u.topNibble ≠ 0xD#4) ∧
      (∀ form, ofPacket u ≠ .error (.unknownForm form)) ∧
      ∀ p, ofPacket u = .ok p →
        (p.toPacket = u ↔ u.addressBits = 0#2 ∨ u.addressBits = 1#2) ∧
        ∀ i, p.toPacket.bits.getLsbD i ≠ u.bits.getLsbD i → i = 116 ∨ i = 117 := by
  refine ⟨?_, ?_⟩
  · intro p
    refine ⟨p.toBitVec_header, p.bytes_toPacket, ?_⟩
    rw [ofPacket_toPacket, lowBits_eq, lowBits_eq]
  · intro u
    refine ⟨?_, ?_, ?_⟩
    · simp only [ofPacket_eq_error_iff, exists_and_left, exists_eq, and_true]
    · intro form refused
      obtain ⟨-, ⟨⟩⟩ := ofPacket_eq_error_iff.mp refused
    · intro p read
      refine ⟨toPacket_eq_iff read, ?_⟩
      intro i differs
      have inside : ¬ (i < 116 ∨ 118 ≤ i) := mt (getLsbD_toPacket read) differs
      omega

/-- The text "hello" on group three and channel five, addressed with three, which is no code. -/
def strayAddress : Packet := ⟨0xD3750101, 0x68656C6C, 0x6F000000, 0⟩

/-- It is read as addressed to the group and written again with the group's own code, one. -/
theorem bits_kept_but_address :
    ∃ p, ofPacket strayAddress = .ok p ∧ p.toPacket = { strayAddress with word0 := 0xD3550101 } ∧
      p.toPacket ≠ strayAddress ∧
      ∀ i, p.toPacket.bits.getLsbD i ≠ strayAddress.bits.getLsbD i → i = 116 ∨ i = 117 := by
  have read : ofPacket strayAddress
      = .ok ⟨3, .start, .group, 5, 1, 1, #v[104, 101, 108, 108, 111, 0, 0, 0, 0, 0, 0, 0]⟩ := by rfl
  obtain ⟨same, elsewhere⟩ := (bits_kept.2 strayAddress).2.2 _ read
  refine ⟨_, read, by decide, ?_, elsewhere⟩
  rw [ne_eq, same]
  decide

end FlexPacket
end FlexLink
