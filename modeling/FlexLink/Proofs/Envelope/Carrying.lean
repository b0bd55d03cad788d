import FlexLink.Proofs.Envelope.Controls
import FlexLink.Proofs.Envelope.Replies

/-! # Control messages on both planes

On the stream plane a control message is a text inside the text of an event, on the command plane a
value inside the text of a command.  It comes back from either, whether its keys are numbers or
correlations and whether the envelope stayed where it was or went through packets. -/
set_option autoImplicit false
namespace FlexLink

open Json

/-- A correlation is written in quotes, so it never looks like an absent key. -/
theorem ResendKey.faithful_string : Faithful String where
  readsBack := Shape.readsBack_text
  integral _ := trivial
  present _ := ⟨'"', _, rfl, rfl, by decide⟩

namespace Control

variable {κ : Type} [ResendKey κ]

/-- A control message comes back from both of its envelopes, as they are and out of the packets of a
lane. -/
structure Returns (lane : Lane) (now : Millis) (c : Control κ) : Prop where
  event : ofEvent? c.toEvent = some c
  command : ofCommand? (c.toCommand now) = some c
  eventPackets : ∃ e, decodeEvent (lane.encodeEvent c.toEvent) = .ok e ∧ ofEvent? e = some c
  commandPackets : ∃ d, decode (lane.encode (c.toCommand now)) = .ok d ∧ ofCommand? d = some c

theorem returns [ResendKey.Embeds κ] (faithful : ResendKey.Faithful κ) (lane : Lane) (now : Millis)
    (c : Control κ) : c.Returns lane now := by
  have event := ofEvent?_toEvent faithful c
  have command := c.ofCommand?_toCommand now
  obtain ⟨canonical, integral, shallow⟩ := c.readable now
  refine ⟨event, command, ⟨_, lane.decode_event c.toEvent rfl, event⟩, ?_⟩
  exact ⟨_, lane.decode_command _ canonical integral shallow, command⟩

/-- Every control message comes back from both planes: with numbers as keys and with correlations,
whichever of its parts are there and however many keys it lists. -/
theorem both_planes_return (lane : Lane) (now : Millis) :
    (∀ c : Control UInt64, c.Returns lane now) ∧ ∀ c : Control String, c.Returns lane now :=
  ⟨returns ResendKey.faithful_uint64 lane now, returns ResendKey.faithful_string lane now⟩

end Control
end FlexLink
