import FlexLink.Wire.Run

/-! # The bits of a packet

A packet written from its fields is read back with the same fields, and twelve padded bytes come
back without their padding: what an assembler sees of a packet of a run is the form and the chunk. -/
set_option autoImplicit false
namespace FlexLink

namespace Word

theorem toNat_ofBytes (a b c d : UInt8) :
    (ofBytes a b c d).toNat
      = a.toNat * 0x1000000 + b.toNat * 0x10000 + c.toNat * 0x100 + d.toNat := by
  have := a.toNat_lt
  have := b.toNat_lt
  have := c.toNat_lt
  have := d.toNat_lt
  rw [ofBytes, UInt32.toNat_ofNat', Nat.mod_eq_of_lt (by omega)]

theorem byte_ofNat {b : UInt8} {n : Nat} (same : n % 256 = b.toNat) : UInt8.ofNat n = b := by
  rw [← UInt8.toNat_inj, UInt8.toNat_ofNat']
  exact same

theorem bytes_ofBytes (a b c d : UInt8) : bytes (ofBytes a b c d) = [a, b, c, d] := by
  have := a.toNat_lt
  have := b.toNat_lt
  have := c.toNat_lt
  have := d.toNat_lt
  rw [bytes, toNat_ofBytes, byte_ofNat (b := a) (by omega), byte_ofNat (b := b) (by omega),
    byte_ofNat (b := c) (by omega), byte_ofNat (b := d) (by omega)]

theorem ofBytes_bytes (w : UInt32) :
    ofBytes (UInt8.ofNat (w.toNat / 0x1000000)) (UInt8.ofNat (w.toNat / 0x10000))
      (UInt8.ofNat (w.toNat / 0x100)) (UInt8.ofNat w.toNat) = w := by
  have := w.toNat_lt
  rw [← UInt32.toNat_inj, toNat_ofBytes]
  simp only [UInt8.toNat_ofNat']
  omega

end Word

namespace FlexForm

theorem code_lt (form : FlexForm) : form.code < 4 := by cases form <;> decide

theorem ofCode_code (form : FlexForm) : ofCode (UInt8.ofNat form.code) = .ok form := by
  cases form <;> rfl

end FlexForm

namespace FlexPacket

theorem toNat_header (p : FlexPacket) :
    p.header.toNat = 0xD * 0x10000000 + p.group.toNat % 16 * 0x1000000 + p.form.code * 0x400000
      + p.address.code * 0x100000 + p.channel.toNat % 16 * 0x10000 + p.statusBank.toNat * 0x100
      + p.status.toNat := by
  have form := p.form.code_lt
  have address : p.address.code < 2 := by cases p.address <;> decide
  have bank := p.statusBank.toNat_lt
  have status := p.status.toNat_lt
  have kind : messageType.toNat = 0xD := rfl
  rw [header, UInt32.toNat_ofNat', kind, Nat.mod_eq_of_lt (by omega)]

theorem toList_payloadOf (a b c : UInt32) :
    (payloadOf a b c).toList = Word.bytes a ++ Word.bytes b ++ Word.bytes c := by
  simp [payloadOf, Word.bytes]

theorem bytes_toPacket (p : FlexPacket) :
    Word.bytes p.toPacket.word1 ++ Word.bytes p.toPacket.word2 ++ Word.bytes p.toPacket.word3
      = p.payload.toList := by
  obtain ⟨_, _, _, _, _, _, ⟨⟨bytes⟩, twelve⟩⟩ := p
  match bytes, twelve with
  | [_, _, _, _, _, _, _, _, _, _, _, _], _ =>
      simp only [toPacket, Word.bytes_ofBytes]
      rfl

/-- Only the low four bits of the group and of the channel travel. -/
theorem ofPacket_toPacket (p : FlexPacket) :
    ofPacket p.toPacket
      = .ok { p with
          group := UInt8.ofNat (p.group.toNat % 16)
          channel := UInt8.ofNat (p.channel.toNat % 16) } := by
  have form := p.form.code_lt
  have address : p.address.code < 2 := by cases p.address <;> decide
  have bank := p.statusBank.toNat_lt
  have status := p.status.toNat_lt
  have word := p.toNat_header
  have kind : p.toPacket.messageType = messageType := by
    rw [Packet.messageType, toPacket, word]
    exact Word.byte_ofNat (by rw [show messageType.toNat = 0xD from rfl]; omega)
  have formCode : p.header.toNat / 0x400000 % 4 = p.form.code := by omega
  have addressCode : p.header.toNat / 0x100000 % 4 = p.address.code := by omega
  have group : p.header.toNat / 0x1000000 % 16 = p.group.toNat % 16 := by omega
  have channel : p.header.toNat / 0x10000 % 16 = p.channel.toNat % 16 := by omega
  have bankByte : UInt8.ofNat (p.header.toNat / 0x100) = p.statusBank := Word.byte_ofNat (by omega)
  have statusByte : UInt8.ofNat p.header.toNat = p.status := Word.byte_ofNat (by omega)
  have payload : payloadOf p.toPacket.word1 p.toPacket.word2 p.toPacket.word3 = p.payload := by
    rw [← Vector.toList_inj, toList_payloadOf, p.bytes_toPacket]
  have target : (if p.address.code = 0 then FlexAddress.channel else .group) = p.address := by
    cases p.address <;> rfl
  have first : p.toPacket.word0 = p.header := rfl
  rw [ofPacket, if_neg (not_not_intro kind), payload, Packet.group]
  simp only [first, formCode, addressCode, group, channel, bankByte, statusByte,
    FlexForm.ofCode_code, target]

end FlexPacket

theorem stripZeros_padZeros {n : Nat} {bytes : List UInt8} (fits : bytes.length ≤ n) :
    stripZeros (padZeros n bytes) = stripZeros bytes := by
  rw [padZeros, List.take_of_length_le fits, stripZeros, List.reverse_append, List.reverse_replicate]
  congr 1
  induction n - bytes.length with
  | zero => rfl
  | succ k ih => rw [List.replicate_succ, List.cons_append, List.dropWhile_cons_of_pos rfl, ih]

theorem stripZeros_of_notMem {bytes : List UInt8} (free : (0 : UInt8) ∉ bytes) :
    stripZeros bytes = bytes := by
  rw [stripZeros]
  cases backwards : bytes.reverse with
  | nil => exact (List.reverse_eq_nil_iff.mp backwards).symm
  | cons b rest =>
      have member : b ∈ bytes := by
        rw [← List.mem_reverse, backwards]
        exact List.mem_cons_self
      have nonzero : ¬ (b == 0) = true := fun zero => free (beq_iff_eq.mp zero ▸ member)
      rw [List.dropWhile_cons, if_neg nonzero, ← backwards, List.reverse_reverse]

namespace Lane

theorem toList_payload {chunk : List UInt8} (fits : chunk.length ≤ 12) :
    (Vector.ofFn fun i : Fin 12 => (padZeros 12 chunk).getD i 0).toList = padZeros 12 chunk := by
  have twelve : (padZeros 12 chunk).length = 12 := by simp [padZeros, fits]
  apply List.ext_getElem
  · simp [twelve]
  · intro i _ inside
    simp [List.getElem?_eq_getElem inside]

/-- The fields of a packet of a run: its form, and its chunk as the text. -/
theorem ofPacket_packet (lane : Lane) (form : FlexForm) {chunk : List UInt8}
    (fits : chunk.length ≤ 12) :
    ∃ flex, FlexPacket.ofPacket (lane.packet form chunk) = .ok flex ∧ flex.isText = true ∧
      flex.form = form ∧ flex.text = stripZeros chunk := by
  rw [packet, FlexPacket.ofPacket_toPacket]
  refine ⟨_, rfl, rfl, rfl, ?_⟩
  rw [FlexPacket.text, toList_payload fits, stripZeros_padZeros fits]

theorem push_packet (a : Assembler) (lane : Lane) (form : FlexForm) {chunk : List UInt8}
    (fits : chunk.length ≤ 12) :
    a.push (lane.packet form chunk) = a.pushText form (stripZeros chunk) := by
  obtain ⟨flex, read, isText, rfl, text⟩ := ofPacket_packet lane form fits
  rw [Assembler.push, read]
  simp only [isText, if_true, text]

end Lane

/-- The bytes of text that a packet carries, wherever it stands in a run. -/
def Packet.carried (p : Packet) : List UInt8 :=
  match FlexPacket.ofPacket p with
  | .error _ => []
  | .ok flex => if flex.isText then flex.text else []

theorem Lane.carried_packet (lane : Lane) (form : FlexForm) {chunk : List UInt8}
    (fits : chunk.length ≤ 12) : (lane.packet form chunk).carried = stripZeros chunk := by
  obtain ⟨flex, read, isText, -, text⟩ := ofPacket_packet lane form fits
  rw [Packet.carried, read]
  simp only [isText, if_true, text]

end FlexLink
