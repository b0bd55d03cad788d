import FlexLink.Proofs.Envelope.RoundTrip

/-! # Control messages come back from events

A control message travels as the text inside an event.  Whatever keys it names, it is read back from
there as it was. -/
set_option autoImplicit false
namespace FlexLink

open Json

namespace ResendKey

variable {κ : Type}

/-- Keys whose text is read back and does not look like an absent one. -/
structure Faithful (κ : Type) [ResendKey κ] : Prop where
  readsBack : ∀ (depth : Nat) (key : κ), shape.ReadsBack depth key (toJson key).chars
  integral : ∀ key : κ, (toJson key).Integral
  present : ∀ key : κ, ∃ c cs, (toJson key).chars = c :: cs ∧ Reader.isBlank c = false ∧ c ≠ 'n'

theorem faithful_uint64 : Faithful UInt64 := by
  have text (n : UInt64) : (toJson n).chars = decimalDigits n.toNat := by
    show decimalInt (n.toNat : Int) = _
    exact Shape.decimalInt_natCast n.toNat
  refine ⟨fun depth n => ?_, fun n => trivial, fun n => ?_⟩
  · rw [text]
    exact Shape.readsBack_uint64 depth n
  · have some : decimalDigits n.toNat ≠ [] := Nat.toDigits_ne_nil
    obtain ⟨c, cs, first⟩ := List.exists_cons_of_ne_nil some
    have digit : Reader.isDigit c = true := by
      apply Reader.isDigit_of_mem_decimalDigits (n := n.toNat)
      rw [first]
      exact List.mem_cons_self
    refine ⟨c, cs, (text n).trans first, Reader.not_blank_of_isDigit digit, ?_⟩
    rintro rfl
    exact absurd digit (by decide)

end ResendKey

namespace Control

variable {κ : Type} [ResendKey κ]

theorem readsBack (faithful : ResendKey.Faithful κ) (c : Control κ) :
    shape.ReadsBack Reader.depthLimit c (recordChars [
      ("ack", c.ack.map fun key => (ResendKey.toJson key).chars),
      ("nack", c.nack.map fun keys => (Json.array (keys.map ResendKey.toJson)).chars)]) := by
  obtain ⟨ack, nack⟩ := c
  have key (k : κ) : (Shape.optional ResendKey.shape).ReadsBack 127 (some k)
      (ResendKey.toJson k).chars := by
    obtain ⟨c, cs, text, solid, present⟩ := faithful.present k
    have back := faithful.readsBack 127 k
    rw [text] at back ⊢
    exact Shape.readsBack_optional solid present back
  have keys (ks : List κ) : (Shape.optional (.list ResendKey.shape)).ReadsBack 127 (some ks)
      (Json.array (ks.map ResendKey.toJson)).chars := by
    have back : (Shape.list ResendKey.shape).ReadsBack 127 ks
        (Json.array (ks.map ResendKey.toJson)).chars := by
      apply Shape.readsBack_list
      · intro k _
        exact faithful.readsBack 126 k
      · intro k _
        exact faithful.integral k
      · decide
    obtain ⟨cs, text⟩ : ∃ cs, (Json.array (ks.map ResendKey.toJson)).chars = '[' :: cs := by
      cases ks with
      | nil => exact ⟨_, by rw [List.map_nil, Json.chars]⟩
      | cons k ks => exact ⟨_, by rw [List.map_cons, Json.chars, List.cons_append]⟩
    rw [text] at back ⊢
    exact Shape.readsBack_optional rfl (by decide) back
  have fills : record.Fills 127 record.blank
      [("ack", ack.map fun key => (ResendKey.toJson key).chars),
        ("nack", nack.map fun keys => (Json.array (keys.map ResendKey.toJson)).chars)]
      ({ ack := ack.map some, nack := nack.map some } : Draft κ) := by
    refine .optional { ack := ack.map some } rfl rfl key (by cases ack <;> rfl) ?_
    refine .optional _ rfl rfl keys ?_ (.nil _)
    cases nack <;> rfl
  refine Record.readsBack_recordChars (by decide) fills ?_
  simp only [record, Event.join_map_some]

theorem parse_render (faithful : ResendKey.Faithful κ) (c : Control κ) :
    shape.parse c.render = .ok c :=
  Shape.parse_of_readsBack (c.readsBack faithful)

theorem ofEvent?_toEvent (faithful : ResendKey.Faithful κ) (c : Control κ) :
    ofEvent? c.toEvent = some c := by
  have control : c.toEvent.isControl = true := beq_self_eq_true Event.controlName
  rw [ofEvent?, if_pos control]
  show (shape.parse c.render).toOption = some c
  rw [parse_render faithful]
  rfl

def Below (floor : Nat) (c : Control UInt64) : Prop :=
  ∀ acked, c.ack = some acked → acked.toNat < floor

theorem Below.mono {floor higher : Nat} {c : Control UInt64} (below : c.Below floor)
    (up : floor ≤ higher) : c.Below higher :=
  fun acked given => Nat.lt_of_lt_of_le (below acked given) up

theorem below_ofAck {floor : Nat} {seq : UInt64} (below : seq.toNat < floor) :
    (ofAck seq).Below floor := by
  intro acked given
  cases given
  exact below

theorem below_ofNack (floor : Nat) (keys : List UInt64) : (ofNack keys).Below floor := by
  intro acked none
  cases none

end Control
end FlexLink
