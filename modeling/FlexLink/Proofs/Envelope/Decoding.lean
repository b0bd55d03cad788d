import FlexLink.Proofs.Envelope.RoundTrip
import FlexLink.Proofs.Json.Agreeing

/-! # Envelopes from values and from texts

The body of a command is a value that is interpreted, and an event is a text that is read.  For values
whose numbers are integers both ways give the same: the records of all envelopes are `Regular`. -/
set_option autoImplicit false
namespace FlexLink

open Json

namespace Json.Shape

variable {α : Type} {s : Shape α}

theorem parse_render (agrees : s.Agrees) {v : Json} (shallow : v.depth < Reader.depthLimit)
    (canonical : v.Canonical) (integral : v.Integral) (x : α) :
    s.interpret v = .ok x ↔ parseText s (Utf8.encode v.render) = .ok x := by
  have nothing : Reader.Ends [] := fun _ none => by cases none
  have alike := agrees v Reader.depthLimit [] shallow canonical integral nothing
  rw [List.append_nil] at alike
  have text : v.render.toList = v.chars := String.toList_ofList
  rw [interpret, parseText, Utf8.decode_encode]
  simp only [parse, text, Reader.whole]
  generalize s.ofValue v = a at alike
  generalize s.read Reader.depthLimit v.chars = r at alike
  cases alike with
  | accepted y =>
      have ended : Reader.finish [] = .ok () := rfl
      simp only [ended]
      constructor
      · rintro ⟨⟩
        rfl
      · rintro ⟨⟩
        rfl
  | refused cause fault =>
      constructor
      · rintro ⟨⟩
      · rintro ⟨⟩

end Json.Shape

/-! ## Records -/

section Records

open Shape in
theorem Reply.regular : Reply.record.Regular := by
  refine ⟨?_, ?_⟩
  · intro f member
    simp only [Reply.record, List.mem_cons, List.not_mem_nil, or_false] at member
    rcases member with rfl | rfl | rfl | rfl
    · exact ⟨Field.agrees_typed agrees_bool, rfl⟩
    · exact ⟨Field.agrees_typed (agrees_optional (agrees_ofNumber _ _)), rfl⟩
    · exact ⟨Field.agrees_typed (agrees_optional agrees_bool), rfl⟩
    · exact ⟨Field.agrees_typed (agrees_optional agrees_text), rfl⟩
  · intro f mine g other
    simp only [Reply.record, List.mem_cons, List.not_mem_nil, or_false] at mine other
    rcases mine with rfl | rfl | rfl | rfl <;> rcases other with rfl | rfl | rfl | rfl
    all_goals first
      | exact .inl rfl
      | exact .inr (Field.apart_typed fun _ _ => rfl)

open Shape in
theorem Command.regular : Command.record.Regular := by
  refine ⟨?_, ?_⟩
  · intro f member
    simp only [Command.record, List.mem_cons, List.not_mem_nil, or_false] at member
    rcases member with rfl | rfl | rfl | rfl | rfl
    · exact ⟨Field.agrees_typed (agrees_ofNumber _ _), rfl⟩
    · exact ⟨Field.agrees_typed (agrees_ofNumber _ _), rfl⟩
    · exact ⟨Field.agrees_typed agrees_text, rfl⟩
    · exact ⟨Field.agrees_typed agrees_text, rfl⟩
    · exact ⟨Field.agrees_typed agrees_any, rfl⟩
  · intro f mine g other
    simp only [Command.record, List.mem_cons, List.not_mem_nil, or_false] at mine other
    rcases mine with rfl | rfl | rfl | rfl | rfl <;> rcases other with rfl | rfl | rfl | rfl | rfl
    all_goals first
      | exact .inl rfl
      | exact .inr (Field.apart_typed fun _ _ => rfl)

open Shape in
theorem Fragment.regular : Fragment.record.Regular := by
  refine ⟨?_, ?_⟩
  · intro f member
    simp only [Fragment.record, List.mem_cons, List.not_mem_nil, or_false] at member
    rcases member with rfl | rfl
    · exact ⟨Field.agrees_typed (agrees_ofNumber _ _), rfl⟩
    · exact ⟨Field.agrees_typed (agrees_ofNumber _ _), rfl⟩
  · intro f mine g other
    simp only [Fragment.record, List.mem_cons, List.not_mem_nil, or_false] at mine other
    rcases mine with rfl | rfl <;> rcases other with rfl | rfl
    all_goals first
      | exact .inl rfl
      | exact .inr (Field.apart_typed fun _ _ => rfl)

open Shape in
theorem Event.regular : Event.record.Regular := by
  refine ⟨?_, ?_⟩
  · intro f member
    simp only [Event.record, List.mem_cons, List.not_mem_nil, or_false] at member
    rcases member with rfl | rfl | rfl | rfl | rfl | rfl | rfl | rfl
    · exact ⟨Field.agrees_typed (agrees_ofNumber _ _), rfl⟩
    · exact ⟨Field.agrees_typed agrees_text, rfl⟩
    · exact ⟨Field.agrees_typed (agrees_optional agrees_text), rfl⟩
    · exact ⟨Field.agrees_typed (agrees_optional agrees_text), rfl⟩
    · exact ⟨Field.agrees_typed (agrees_ofNumber _ _), rfl⟩
    · exact ⟨Field.agrees_typed (agrees_optional Fragment.regular.agrees), rfl⟩
    · exact ⟨Field.agrees_typed (agrees_optional (agrees_ofNumber _ _)), rfl⟩
    · exact ⟨Field.agrees_typed (agrees_optional agrees_text), rfl⟩
  · intro f mine g other
    simp only [Event.record, List.mem_cons, List.not_mem_nil, or_false] at mine other
    rcases mine with rfl | rfl | rfl | rfl | rfl | rfl | rfl | rfl <;>
      rcases other with rfl | rfl | rfl | rfl | rfl | rfl | rfl | rfl
    all_goals first
      | exact .inl rfl
      | exact .inr (Field.apart_typed fun _ _ => rfl)

section Keys

open Shape

variable {κ : Type} [ResendKey κ]

theorem Control.regular (key : (ResendKey.shape : Shape κ).Agrees) :
    (Control.record : Record (Control.Draft κ) (Control κ)).Regular := by
  refine ⟨?_, ?_⟩
  · intro f member
    simp only [Control.record, List.mem_cons, List.not_mem_nil, or_false] at member
    rcases member with rfl | rfl
    · exact ⟨Field.agrees_typed (agrees_optional key), rfl⟩
    · exact ⟨Field.agrees_typed (agrees_optional (agrees_list key)), rfl⟩
  · intro f mine g other
    simp only [Control.record, List.mem_cons, List.not_mem_nil, or_false] at mine other
    rcases mine with rfl | rfl <;> rcases other with rfl | rfl
    all_goals first
      | exact .inl rfl
      | exact .inr (Field.apart_typed fun _ _ => rfl)

end Keys

/-! ## Both ways -/

/-- Whatever members a value has, misses or has too many: each kind of envelope is made of it exactly
when it is read from its text, and is the same. -/
theorem decodings_agree (v : Json) (shallow : v.depth ≤ 127) (canonical : v.Canonical)
    (integral : v.Integral) :
    (∀ x, Reply.shape.interpret v = .ok x ↔ parseText Reply.shape (Utf8.encode v.render) = .ok x) ∧
    (∀ x, Command.shape.interpret v = .ok x ↔
      parseText Command.shape (Utf8.encode v.render) = .ok x) ∧
    (∀ x, Event.shape.interpret v = .ok x ↔ parseText Event.shape (Utf8.encode v.render) = .ok x) ∧
    (∀ x : Control UInt64, Control.shape.interpret v = .ok x ↔
      parseText Control.shape (Utf8.encode v.render) = .ok x) ∧
    ∀ x : Control String, Control.shape.interpret v = .ok x ↔
      parseText Control.shape (Utf8.encode v.render) = .ok x := by
  have deep : v.depth < Reader.depthLimit := Nat.lt_succ_of_le shallow
  have numbers : (ResendKey.shape : Shape UInt64).Agrees := Shape.agrees_ofNumber _ _
  have names : (ResendKey.shape : Shape String).Agrees := Shape.agrees_text
  refine ⟨?_, ?_, ?_, ?_, ?_⟩
  · exact Shape.parse_render Reply.regular.agrees deep canonical integral
  · exact Shape.parse_render Command.regular.agrees deep canonical integral
  · exact Shape.parse_render Event.regular.agrees deep canonical integral
  · exact Shape.parse_render (Control.regular numbers).agrees deep canonical integral
  · exact Shape.parse_render (Control.regular names).agrees deep canonical integral

/-- The members of a reply: one of them no reply has, and one is null. -/
def sampleMembers : List (String × Json) :=
  [("ack", .bool true), ("more", .array [.ofUInt64 1, .object []]), ("success", .null)]

def sampleList : Json := .array [.bool false, .null, .bool true]

def sampleOutside : Json := .object [("ack", .ofInt64 (-1))]

theorem sample_decodings :
    parseText Reply.shape (Utf8.encode (Json.object sampleMembers).render) = .ok { ack := true } ∧
      parseText Reply.shape (Utf8.encode sampleList.render) = .ok { ack := false, success := some true } ∧
      ∀ x : Control UInt64, parseText Control.shape (Utf8.encode sampleOutside.render) ≠ .ok x := by
  have sorted : Ascending sampleMembers := by
    refine ⟨?_, ?_, nofun, trivial⟩
    · exact List.forall_mem_cons.mpr ⟨by decide, List.forall_mem_singleton.mpr (by decide)⟩
    · exact List.forall_mem_singleton.mpr (by decide)
  have canonical : (Json.object sampleMembers).Canonical :=
    ⟨sorted, trivial, ⟨trivial, ⟨trivial, trivial⟩, trivial⟩, trivial, trivial⟩
  have integral : (Json.object sampleMembers).Integral :=
    ⟨trivial, ⟨trivial, trivial, trivial⟩, trivial, trivial⟩
  obtain ⟨reply, -⟩ := decodings_agree (.object sampleMembers) (by decide) canonical integral
  obtain ⟨list, -⟩ := decodings_agree sampleList (by decide) ⟨trivial, trivial, trivial, trivial⟩
    ⟨trivial, trivial, trivial, trivial⟩
  obtain ⟨-, -, -, control, -⟩ := decodings_agree sampleOutside (by decide)
    ⟨⟨nofun, trivial⟩, trivial, trivial⟩ ⟨trivial, trivial⟩
  refine ⟨(reply _).mp rfl, (list _).mp rfl, fun x read => ?_⟩
  cases (control x).mpr read

end Records
end FlexLink
