import FlexLink.Proofs.Envelope.Replies
import FlexLink.Proofs.Json.Depth

/-! # Commands as values

A command that came in packets has a body within the depth that the reader allows.  Written as a value it
is an object one bracket deeper, and is taken back from there as it was. -/
set_option autoImplicit false
namespace FlexLink

open Json

theorem parse_of_parseText {α : Type} {shape : Shape α} {bytes : List UInt8} {x : α}
    (read : parseText shape bytes = .ok x) : ∃ text, shape.parse text = .ok x := by
  rw [parseText] at read
  split at read
  · cases read
  · next text _ =>
      split at read
      · cases read
      · next parsed =>
          cases read
          exact ⟨text, parsed⟩

theorem parse_of_decodeRun {α : Type} {shape : Shape α} {packets : List Packet} {x : α}
    (decoded : decodeRun shape packets = .ok x) : ∃ text, shape.parse text = .ok x := by
  rw [decodeRun] at decoded
  split at decoded
  · cases decoded
  · exact parse_of_parseText decoded

namespace Command

theorem within_of_read {depth : Nat} {source rest : List Char} {c : Command}
    (read : shape.read (depth + 1) source = .ok (c, rest)) : Within depth c.body := by
  let P (draft : Draft) : Prop := ∀ v, draft.body = some v → Within depth v
  have keeps : ∀ f ∈ record.fields, f.Keeps depth P := by
    refine List.forall_mem_cons.mpr ⟨Field.keeps_typed fun _ _ _ _ known _ => known, ?_⟩
    refine List.forall_mem_cons.mpr ⟨Field.keeps_typed fun _ _ _ _ known _ => known, ?_⟩
    refine List.forall_mem_cons.mpr ⟨Field.keeps_typed fun _ _ _ _ known _ => known, ?_⟩
    refine List.forall_mem_cons.mpr ⟨Field.keeps_typed fun _ _ _ _ known _ => known, ?_⟩
    refine List.forall_mem_singleton.mpr (Field.keeps_typed fun draft source x rest _ same => ?_)
    intro v body
    cases body
    exact Reader.value_ok same
  have blank : P record.blank := fun v none => by cases none
  obtain ⟨draft, known, made⟩ := Record.read_ok blank keeps read
  obtain ⟨v, ts, corr, intent, body⟩ := draft
  cases v <;> cases ts <;> cases corr <;> cases intent <;> cases body <;> cases made
  exact known _ rfl

/-- What is known of the body of a command that came in packets. -/
theorem within_of_decode {packets : List Packet} {c : Command} (decoded : decode packets = .ok c) :
    Within 127 c.body := by
  obtain ⟨text, parsed⟩ := parse_of_decodeRun decoded
  obtain ⟨rest, read⟩ := Shape.parse_ok parsed
  exact within_of_read read

def members (c : Command) : List (String × Json) :=
  [("body", c.body), ("corr", .text c.corr), ("intent", .text c.intent), ("ts", .ofUInt64 c.ts),
    ("v", .ofInt64 c.v)]

theorem toJson_eq (c : Command) : c.toJson = .object c.members := by
  have ts : "ts" < "v" := by decide
  have corr : "corr" < "ts" := by decide
  have intent : "intent" < "ts" := by decide
  have behind : ¬ "intent" < "corr" := by decide
  have body : "body" < "corr" := by decide
  simp only [toJson, ofMembers, List.foldl_cons, List.foldl_nil, insertMember, if_pos ts, if_pos corr,
    if_neg behind, if_neg (show ¬ "intent" = "corr" by decide), if_pos intent, if_pos body, members]

theorem depth_toJson (c : Command) : c.toJson.depth = c.body.depth + 1 := by
  rw [toJson_eq]
  exact congrArg (· + 1) (Nat.max_eq_left (Nat.zero_le _))

theorem ascending_members (c : Command) : Ascending c.members := by
  rw [← Json.object.inj c.toJson_eq]
  exact ascending_gather _ trivial

theorem canonical_toJson (c : Command) (canonical : c.body.Canonical) : c.toJson.Canonical := by
  rw [toJson_eq]
  exact ⟨c.ascending_members, canonical, trivial, trivial, trivial, trivial, trivial⟩

theorem integral_toJson (c : Command) (integral : c.body.Integral) : c.toJson.Integral := by
  rw [toJson_eq]
  exact ⟨integral, trivial, trivial, trivial, trivial, trivial⟩

/-- A command is taken back from its value as it was. -/
theorem interpret_toJson (c : Command) : shape.interpret c.toJson = .ok c := by
  have ts : Shape.uint64.ofValue (.ofUInt64 c.ts) = .ok c.ts :=
    Shape.ofValue_ofInteger (Shape.toUInt64?_ofUInt64 c.ts)
  have v : Shape.int64.ofValue (.ofInt64 c.v) = .ok c.v :=
    Shape.ofValue_ofInteger (Shape.toInt64?_ofInt64 c.v)
  rw [toJson_eq]
  let final : Draft := ⟨some c.v, some c.ts, some c.corr, some c.intent, some c.body⟩
  have made : record.finish final = .ok c := rfl
  refine Record.interpret_object ?_ made
  rw [members, Record.ofMembers_typed (x := c.body) rfl rfl,
    Record.ofMembers_typed (x := c.corr) rfl rfl, Record.ofMembers_typed (x := c.intent) rfl rfl,
    Record.ofMembers_typed rfl ts, Record.ofMembers_typed rfl v]
  rfl

end Command
end FlexLink
