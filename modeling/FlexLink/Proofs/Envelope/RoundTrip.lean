import FlexLink.Envelope.Codec
import FlexLink.Proofs.Json.Plain
import FlexLink.Proofs.Text.Utf8
import FlexLink.Proofs.Wire.Runs

/-! # Envelopes come back from packets

The text of an envelope is read back as the envelope, and the run of packets that carries a text
without zero bytes is read back as the text. -/
set_option autoImplicit false
namespace FlexLink

open Json

namespace Fragment

theorem fills (f : Fragment) (depth : Nat) :
    record.Fills depth record.blank
      [("i", some (decimalDigits f.i.toNat)), ("n", some (decimalDigits f.n.toNat))]
      { i := some f.i, n := some f.n } := by
  refine .typed rfl rfl (Shape.readsBack_uint32 depth f.i) ?_
  refine .typed rfl rfl (Shape.readsBack_uint32 depth f.n) ?_
  exact .nil _

theorem plain (f : Fragment) : Plain f.chars := by
  refine plain_recordChars ?_
  refine List.forall_mem_cons.mpr ⟨plain_present (plain_decimalDigits _), ?_⟩
  exact List.forall_mem_singleton.mpr (plain_present (plain_decimalDigits _))

theorem readsBack (f : Fragment) {depth : Nat} (deep : 1 < depth) :
    shape.ReadsBack depth f f.chars :=
  Record.readsBack_recordChars deep (fills f (depth - 1)) rfl

end Fragment

namespace Command

theorem fills_before_body (c : Command) (depth : Nat) :
    record.Fills depth record.blank
      [("v", some (decimalInt c.v.toInt)), ("ts", some (decimalDigits c.ts.toNat)),
        ("corr", some (stringChars c.corr)), ("intent", some (stringChars c.intent))]
      ⟨some c.v, some c.ts, some c.corr, some c.intent, none⟩ := by
  refine .typed rfl rfl (Shape.readsBack_int64 _ c.v) ?_
  refine .typed rfl rfl (Shape.readsBack_uint64 _ c.ts) ?_
  refine .typed rfl rfl (Shape.readsBack_text _ c.corr) ?_
  exact .typed rfl rfl (Shape.readsBack_text _ c.intent) (.nil _)

theorem readsBack (c : Command) (canonical : c.body.Canonical) (integral : c.body.Integral)
    (shallow : c.body.depth ≤ 126) : shape.ReadsBack Reader.depthLimit c c.chars := by
  have body : record.Fills (Reader.depthLimit - 1)
      ⟨some c.v, some c.ts, some c.corr, some c.intent, none⟩ [("body", some c.body.chars)]
      ⟨some c.v, some c.ts, some c.corr, some c.intent, some c.body⟩ := by
    refine .typed rfl rfl (Shape.readsBack_any ?_ canonical integral) (.nil _)
    exact Nat.lt_succ_of_le shallow
  exact Record.readsBack_recordChars (by decide) ((c.fills_before_body _).append body) rfl

theorem plain (c : Command) (integral : c.body.Integral) : Plain c.chars := by
  refine plain_recordChars ?_
  refine List.forall_mem_cons.mpr ⟨plain_present (plain_decimalInt _), ?_⟩
  refine List.forall_mem_cons.mpr ⟨plain_present (plain_decimalDigits _), ?_⟩
  refine List.forall_mem_cons.mpr ⟨plain_present (plain_stringChars _), ?_⟩
  refine List.forall_mem_cons.mpr ⟨plain_present (plain_stringChars _), ?_⟩
  exact List.forall_mem_singleton.mpr (plain_present (plain_chars c.body integral))

theorem parse_render (c : Command) (canonical : c.body.Canonical) (integral : c.body.Integral)
    (shallow : c.body.depth ≤ 126) : shape.parse c.render = .ok c :=
  Shape.parse_of_readsBack (c.readsBack canonical integral shallow)

end Command

namespace Event

theorem join_map_some {α : Type} (x : Option α) : (x.map some).join = x := by
  cases x <;> rfl

theorem fills (e : Event) (untimed : e.ts = none) :
    record.Fills 127 record.blank
      [("v", some (decimalInt e.v.toInt)), ("ev", some (stringChars e.ev)),
        ("id", e.id.map stringChars), ("ct", e.ct.map stringChars),
        ("seq", some (decimalDigits e.seq.toNat)), ("frag", e.frag.map Fragment.chars),
        ("ts", e.ts.map realChars), ("data", e.data.map stringChars)]
      ⟨some e.v, some e.ev, e.id.map some, e.ct.map some, some e.seq, e.frag.map some, none,
        e.data.map some⟩ := by
  obtain ⟨v, ev, id, ct, seq, frag, ts, data⟩ := e
  cases untimed
  have text (s : String) : (Shape.optional .text).ReadsBack 127 (some s) (stringChars s) :=
    Shape.readsBack_optional (by decide) (by decide) (Shape.readsBack_text 127 s)
  have fragment (f : Fragment) : (Shape.optional Fragment.shape).ReadsBack 127 (some f) f.chars :=
    Shape.readsBack_optional (by decide) (by decide) (f.readsBack (by decide))
  refine .typed rfl rfl (Shape.readsBack_int64 _ v) ?_
  refine .typed rfl rfl (Shape.readsBack_text _ ev) ?_
  refine .optional { v, ev, id := id.map some } rfl rfl text (by cases id <;> rfl) ?_
  refine .optional { v, ev, id := id.map some, ct := ct.map some } rfl rfl text
    (by cases ct <;> rfl) ?_
  refine .typed rfl rfl (Shape.readsBack_uint64 _ seq) ?_
  refine .optional { v, ev, id := id.map some, ct := ct.map some, seq, frag := frag.map some }
    rfl rfl fragment (by cases frag <;> rfl) ?_
  refine .absent ?_
  refine .optional _ rfl rfl text ?_ (.nil _)
  cases data <;> rfl

theorem readsBack (e : Event) (untimed : e.ts = none) :
    shape.ReadsBack Reader.depthLimit e e.chars := by
  refine Record.readsBack_recordChars (by decide) (e.fills untimed) ?_
  obtain ⟨v, ev, id, ct, seq, frag, ts, data⟩ := e
  cases untimed
  simp only [record, join_map_some]
  rfl

theorem plain (e : Event) (untimed : e.ts = none) : Plain e.chars := by
  have text (s : String) : Plain (stringChars s) := plain_stringChars s
  refine plain_recordChars ?_
  refine List.forall_mem_cons.mpr ⟨plain_present (plain_decimalInt _), ?_⟩
  refine List.forall_mem_cons.mpr ⟨plain_present (text _), ?_⟩
  refine List.forall_mem_cons.mpr ⟨plain_optional fun s _ => text s, ?_⟩
  refine List.forall_mem_cons.mpr ⟨plain_optional fun s _ => text s, ?_⟩
  refine List.forall_mem_cons.mpr ⟨plain_present (plain_decimalDigits _), ?_⟩
  refine List.forall_mem_cons.mpr ⟨plain_optional fun f _ => f.plain, ?_⟩
  refine List.forall_mem_cons.mpr ⟨plain_optional fun t timed => ?_, ?_⟩
  · rw [untimed] at timed
    cases timed
  · exact List.forall_mem_singleton.mpr (plain_optional fun s _ => text s)

theorem parse_render (e : Event) (untimed : e.ts = none) : shape.parse e.render = .ok e :=
  Shape.parse_of_readsBack (e.readsBack untimed)

end Event

/-! ## Packets -/

theorem soleText_quiet {a : Assembler} {text : List UInt8} {ps : List Packet}
    (quiet : (a.pushAll ps).2 = []) : soleText a (some text) ps = .ok text := by
  induction ps generalizing a with
  | nil => rfl
  | cons p ps ih =>
      rw [Assembler.pushAll_cons] at quiet
      obtain ⟨none, rest⟩ := List.append_eq_nil_iff.mp quiet
      have same : a.push p = ((a.push p).1, .none) :=
        Prod.ext rfl (Option.toList_eq_nil_iff.mp none)
      rw [soleText, same]
      exact ih rest

theorem soleText_sole {a : Assembler} {text : List UInt8} {ps : List Packet}
    (sole : (a.pushAll ps).2 = [.ok text]) : soleText a none ps = .ok text := by
  induction ps generalizing a with
  | nil => cases sole
  | cons p ps ih =>
      rw [Assembler.pushAll_cons] at sole
      cases step : a.push p with
      | mk next outcome =>
          rw [step] at sole
          rw [soleText, step]
          cases outcome with
          | none => exact ih sole
          | some outcome =>
              obtain ⟨same, quiet⟩ := List.cons.inj sole
              rw [same]
              exact soleText_quiet quiet

theorem zero_notMem_of_plain {text : List Char} (plain : Plain text) :
    (0 : UInt8) ∉ Utf8.encode (String.ofList text) := by
  refine Utf8.zero_notMem_encode ?_
  rw [String.toList_ofList]
  exact plain

variable {α : Type} {shape : Shape α} {x : α} {text : String}

theorem parseText_encode (parsed : shape.parse text = .ok x) :
    parseText shape (Utf8.encode text) = .ok x := by
  rw [parseText, Utf8.decode_encode]
  simp only [parsed]

theorem decodeRun_encodeText (lane : Lane) (free : (0 : UInt8) ∉ Utf8.encode text)
    (parsed : shape.parse text = .ok x) : decodeRun shape (lane.encodeText text) = .ok x := by
  have run : (Assembler.pushAll {} (lane.encodeText text)).2 = [.ok (Utf8.encode text)] := by
    rw [Lane.encodeText, Assembler.pushAll_pack_idle rfl lane free]
  rw [decodeRun, soleText_sole run]
  exact parseText_encode parsed

namespace Lane

theorem decode_command (lane : Lane) (c : Command) (canonical : c.body.Canonical)
    (integral : c.body.Integral) (shallow : c.body.depth ≤ 126) : decode (lane.encode c) = .ok c :=
  decodeRun_encodeText lane (zero_notMem_of_plain (c.plain integral))
    (c.parse_render canonical integral shallow)

theorem decode_event (lane : Lane) (e : Event) (untimed : e.ts = none) :
    decodeEvent (lane.encodeEvent e) = .ok e :=
  decodeRun_encodeText lane (zero_notMem_of_plain (e.plain untimed)) (e.parse_render untimed)

/-- Encoding loses nothing: every lane brings back the command and the event that it was given.  A
body holds its object members in order, as every value that is read does. -/
theorem envelopes_round_trip (lane : Lane) :
    (∀ c : Command, c.body.Canonical → c.body.Integral → c.body.depth ≤ 126 →
      decode (lane.encode c) = .ok c) ∧
    ∀ e : Event, e.ts = none → decodeEvent (lane.encodeEvent e) = .ok e :=
  ⟨lane.decode_command, lane.decode_event⟩

/-- A body of nested objects, and texts whose characters take one to four bytes. -/
def sampleCommand : Command where
  v := 1
  ts := 1700000000000
  corr := "\"ключ\"\n"
  intent := "node.lookup 𝄞"
  body := .object [("list", .array [.null, .number (.integer (.ofInt64 (-9)))]), ("nul\x00", .text "→")]

def sampleEvent : Event where
  v := 1
  ev := "token"
  id := some "s-1"
  seq := 18446744073709551615
  frag := some ⟨0, 4294967295⟩
  data := some "\x00é\t"

theorem sample_round_trip :
    decode (Lane.encode ⟨0xFF, 9⟩ sampleCommand) = .ok sampleCommand ∧
      decodeEvent (Lane.encodeEvent ⟨0xFF, 9⟩ sampleEvent) = .ok sampleEvent := by
  have canonical : sampleCommand.body.Canonical := by
    refine ⟨⟨fun m member => ?_, fun m none => ?_, trivial⟩, ?_, ?_⟩
    · rw [List.mem_singleton.mp member]
      decide
    · cases none
    · exact ⟨trivial, trivial, trivial⟩
    · exact ⟨trivial, trivial⟩
  have integral : sampleCommand.body.Integral := ⟨⟨trivial, trivial, trivial⟩, trivial, trivial⟩
  obtain ⟨commands, events⟩ := envelopes_round_trip ⟨0xFF, 9⟩
  exact ⟨commands sampleCommand canonical integral (by decide), events sampleEvent rfl⟩

end Lane
end FlexLink
