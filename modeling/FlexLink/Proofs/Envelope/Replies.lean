import FlexLink.Proofs.Envelope.RoundTrip

/-! # Bodies are read back

A reply without progress and a control message travel as the bodies of commands, and are read back from
there as they were.  Such commands are themselves read back from their text: they are `Readable`. -/
set_option autoImplicit false
namespace FlexLink

open Json

namespace Json

/-! ## Members that may be absent -/

variable {σ α β : Type} {name other : String} {write : β → Json} {rest : List (String × Json)}

def withMember (name : String) (write : β → Json) (x : Option β) (rest : List (String × Json)) :
    List (String × Json) :=
  (x.map fun y => (name, write y)).toList ++ rest

theorem Shape.ofValue_optional (s : Shape α) {v : Json} (present : v.isNull = false) :
    (Shape.optional s).ofValue v = some <$> s.ofValue v := by
  cases v with
  | null => cases present
  | _ => rfl

namespace Record

variable {r : Record σ α} {draft : σ} {shape : Shape β}

theorem ofMembers_typed {get : σ → Option β} {set : σ → β → σ} {fallback : Option β} {v : Json} {x : β}
    (known : r.field? name = some (.typed name shape get set fallback))
    (read : shape.ofValue v = .ok x) :
    r.ofMembers draft ((name, v) :: rest) = r.ofMembers (set draft x) rest := by
  have step : (Field.typed name shape get set fallback).ofValue draft v = .ok (set draft x) := by
    simp only [Field.typed, read]
    rfl
  rw [ofMembers, known]
  simp only [step]

theorem ofMembers_withMember {get : σ → Option (Option β)} {set : σ → Option β → σ}
    {fallback : Option (Option β)}
    (known : r.field? name = some (.typed name (.optional shape) get set fallback))
    (present : ∀ y, (write y).isNull = false) (read : ∀ y, shape.ofValue (write y) = .ok y)
    (x : Option β) :
    r.ofMembers draft (withMember name write x rest)
      = r.ofMembers (x.elim draft fun y => set draft (some y)) rest := by
  cases x with
  | none => rfl
  | some y =>
      refine ofMembers_typed (x := some y) known ?_
      rw [Shape.ofValue_optional shape (present y), read]
      rfl

theorem interpret_object {ms : List (String × Json)} {final : σ} {x : α}
    (read : r.ofMembers r.blank ms = .ok final) (made : r.finish final = .ok x) :
    r.shape.interpret (.object ms) = .ok x := by
  have value : r.shape.ofValue (.object ms) = .ok x := by
    simp only [Record.shape, ofValue, read, complete, made]
  rw [Shape.interpret, value]

end Record

structure Fits (v : Json) : Prop where
  canonical : v.Canonical
  integral : v.Integral
  shallow : v.depth ≤ 125

theorem fits_bool (b : Bool) : (Json.bool b).Fits := ⟨trivial, trivial, Nat.zero_le _⟩

theorem fits_text (s : String) : (Json.text s).Fits := ⟨trivial, trivial, Nat.zero_le _⟩

structure Orderly (ms : List (String × Json)) : Prop where
  ascending : Ascending ms
  canonical : CanonicalMembers ms
  integral : IntegralMembers ms
  shallow : depthMembers ms ≤ 125

namespace Orderly

theorem nil : Orderly [] := ⟨trivial, trivial, trivial, Nat.zero_le _⟩

theorem cons {v : Json} (fits : v.Fits) (first : ∀ m ∈ rest, name < m.1) (orderly : Orderly rest) :
    Orderly ((name, v) :: rest) where
  ascending := ⟨first, orderly.ascending⟩
  canonical := ⟨fits.canonical, orderly.canonical⟩
  integral := ⟨fits.integral, orderly.integral⟩
  shallow := Nat.max_le.mpr ⟨fits.shallow, orderly.shallow⟩

theorem withMember (fits : ∀ y, (write y).Fits) (first : ∀ m ∈ rest, name < m.1)
    (orderly : Orderly rest) (x : Option β) : Orderly (withMember name write x rest) := by
  cases x with
  | none => exact orderly
  | some y => exact cons (fits y) first orderly

end Orderly

theorem first_nil : ∀ m ∈ ([] : List (String × Json)), name < m.1 := by
  intro m none
  cases none

theorem first_withMember (before : name < other) (first : ∀ m ∈ rest, name < m.1) (x : Option β) :
    ∀ m ∈ withMember other write x rest, name < m.1 := by
  cases x with
  | none => exact first
  | some y => exact List.forall_mem_cons.mpr ⟨before, first⟩

end Json

/-! ## Commands that are read back from their text -/

namespace Command

structure Readable (c : Command) : Prop where
  canonical : c.body.Canonical
  integral : c.body.Integral
  shallow : c.body.depth ≤ 126

namespace Readable

variable {c : Command}

theorem of_object {ms : List (String × Json)} (body : c.body = .object ms) (orderly : Orderly ms) :
    c.Readable := by
  constructor
  all_goals rw [body]
  · exact ⟨orderly.ascending, orderly.canonical⟩
  · exact orderly.integral
  · exact Nat.succ_le_succ orderly.shallow

theorem parse (readable : c.Readable) :
    parseOutcome shape (.ok (Utf8.encode c.render)) = .ok c :=
  parseText_encode (c.parse_render readable.canonical readable.integral readable.shallow)

theorem free (readable : c.Readable) : (0 : UInt8) ∉ Utf8.encode c.render :=
  zero_notMem_of_plain (c.plain readable.integral)

end Readable
end Command

/-! ## Replies -/

namespace Reply

variable {r : Reply}

/-- The body of a reply without progress, its members in their order. -/
theorem toBody_eq (whole : r.progress = none) :
    r.toBody = .object (("ack", .bool r.ack)
      :: withMember "error" .text r.error (withMember "success" .bool r.success [])) := by
  have first : ¬ "error" < "ack" ∧ "error" < "success" ∧ ¬ "success" < "ack" := by decide
  obtain ⟨ack, progress, success, error⟩ := r
  cases whole
  cases success <;> cases error
  all_goals simp [toBody, ofMembers, insertMember, withMember, first]

theorem ofBody_toBody (whole : r.progress = none) : ofBody r.toBody = some r := by
  have members : record.ofMembers record.blank (("ack", .bool r.ack)
      :: withMember "error" .text r.error (withMember "success" .bool r.success []))
      = .ok ⟨some r.ack, none, r.success.map some, r.error.map some⟩ := by
    rw [Record.ofMembers_typed rfl rfl,
      Record.ofMembers_withMember rfl (fun _ => rfl) (fun _ => rfl),
      Record.ofMembers_withMember rfl (fun _ => rfl) (fun _ => rfl)]
    cases r.error <;> cases r.success <;> rfl
  have finished : record.finish ⟨some r.ack, none, r.success.map some, r.error.map some⟩ = .ok r := by
    obtain ⟨ack, progress, success, error⟩ := r
    cases whole
    cases success <;> cases error <;> rfl
  rw [ofBody, toBody_eq whole, shape, Record.interpret_object members finished]
  rfl

theorem readable (whole : r.progress = none) (now : Millis) (corr : String) :
    (Command.ofReply now corr r).Readable := by
  refine .of_object (toBody_eq whole) (.cons (fits_bool _) ?_ (.withMember fits_text ?_
    (.withMember fits_bool first_nil .nil _) _))
  · exact first_withMember (by decide) (first_withMember (by decide) first_nil _) _
  · exact first_withMember (by decide) first_nil _

theorem reply?_ofReply (whole : r.progress = none) (now : Millis) (corr : String) :
    (Command.ofReply now corr r).reply? = some r := by
  have reply : (Command.ofReply now corr r).isReply = true := rfl
  rw [Command.reply?, if_pos reply]
  exact ofBody_toBody whole

end Reply

/-! ## Control messages -/

class ResendKey.Embeds (κ : Type) [ResendKey κ] : Prop where
  fits : ∀ key : κ, (toJson key).Fits
  flat : ∀ key : κ, (toJson key).depth = 0
  present : ∀ key : κ, (toJson key).isNull = false
  interprets : ∀ key : κ, shape.ofValue (toJson key) = .ok key

instance : ResendKey.Embeds String := ⟨fits_text, fun _ => rfl, fun _ => rfl, fun _ => rfl⟩

instance : ResendKey.Embeds UInt64 where
  fits _ := ⟨trivial, trivial, Nat.zero_le _⟩
  flat _ := rfl
  present _ := rfl
  interprets n := Shape.ofValue_ofInteger (Shape.toUInt64?_ofUInt64 n)

namespace Control

variable {κ : Type} [ResendKey κ] [ResendKey.Embeds κ]

theorem fits_keys (keys : List κ) : (Json.array (keys.map ResendKey.toJson)).Fits := by
  have items : CanonicalItems (keys.map ResendKey.toJson) ∧ IntegralItems (keys.map ResendKey.toJson) ∧
      depthItems (keys.map ResendKey.toJson) = 0 := by
    induction keys with
    | nil => exact ⟨trivial, trivial, rfl⟩
    | cons key keys ih =>
        obtain ⟨canonical, integral, flat⟩ := ih
        have fits := ResendKey.Embeds.fits key
        exact ⟨⟨fits.canonical, canonical⟩, ⟨fits.integral, integral⟩,
          Nat.max_eq_zero_iff.mpr ⟨ResendKey.Embeds.flat key, flat⟩⟩
  obtain ⟨canonical, integral, flat⟩ := items
  refine ⟨canonical, integral, ?_⟩
  show depthItems _ + 1 ≤ 125
  rw [flat]
  decide

def members (c : Control κ) : List (String × Json) :=
  withMember "ack" ResendKey.toJson c.ack
    (withMember "nack" (fun keys => .array (keys.map ResendKey.toJson)) c.nack [])

theorem orderly (c : Control κ) : Orderly c.members :=
  .withMember ResendKey.Embeds.fits (first_withMember (by decide) first_nil _)
    (.withMember fits_keys first_nil .nil _) _

theorem toJson_eq (c : Control κ) : c.toJson = .object c.members := by
  refine Eq.trans ?_ (Reader.ofMembers_of_ascending _ c.orderly.ascending)
  rw [members, withMember, withMember, List.append_nil]
  rfl

theorem ofValue_keys (keys : List κ) :
    (Shape.list ResendKey.shape).ofValue (.array (keys.map ResendKey.toJson)) = .ok keys := by
  show (keys.map ResendKey.toJson).mapM ResendKey.shape.ofValue = .ok keys
  induction keys with
  | nil => rfl
  | cons key keys ih =>
      rw [List.map_cons, List.mapM_cons, ih, ResendKey.Embeds.interprets]
      rfl

theorem ofCommand?_toCommand (c : Control κ) (now : Millis) : ofCommand? (c.toCommand now) = some c := by
  have read : record.ofMembers record.blank c.members = .ok ⟨c.ack.map some, c.nack.map some⟩ := by
    rw [members, Record.ofMembers_withMember rfl ResendKey.Embeds.present ResendKey.Embeds.interprets,
      Record.ofMembers_withMember rfl (fun _ => rfl) ofValue_keys]
    cases c.ack <;> cases c.nack <;> rfl
  have finished : record.finish ⟨c.ack.map some, c.nack.map some⟩ = .ok c := by
    obtain ⟨ack, nack⟩ := c
    cases ack <;> cases nack <;> rfl
  have control : (c.toCommand now).isControl = true := rfl
  rw [ofCommand?, if_pos control]
  show (shape.interpret c.toJson).toOption = some c
  rw [toJson_eq, shape, Record.interpret_object read finished]
  rfl

theorem readable (c : Control κ) (now : Millis) : (c.toCommand now).Readable :=
  .of_object c.toJson_eq c.orderly

end Control
end FlexLink
