import FlexLink.Client.Request
import FlexLink.Proofs.Client.Replaying
import FlexLink.Proofs.Bridge.Performing
import FlexLink.Proofs.Json.Border

/-! # Requests made by hand

A body is read from a text of its own, and the request is one bracket around it.  Both texts have the
same limit.  So a request comes back from its packets unless its body uses up the whole limit: then the
packets of a request that could be made hold none that can be read. -/
set_option autoImplicit false
namespace FlexLink

open Json

/-! ## What can be made -/

theorem readBody_ok {text : String} {body : Json} (read : readBody text = .ok body) :
    Json.parse text = .ok body := by
  rw [readBody] at read
  split at read
  · cases read
  · next parsed =>
      cases read
      exact parsed
  · cases read

theorem readBody_of_parse {text : String} {ms : List (String × Json)}
    (parsed : Json.parse text = .ok (.object ms)) : readBody text = .ok (.object ms) := by
  rw [readBody, parsed]

theorem makeRequest_ok {now : Millis} {corr intent text : String} {c : Command}
    (built : makeRequest now corr intent text = .ok c) :
    ∃ body, readBody text = .ok body ∧ c = .new now corr intent body := by
  rw [makeRequest] at built
  split at built
  · cases built
  · split at built
    · cases built
    · next body read =>
        cases built
        exact ⟨body, read, rfl⟩

theorem makeRequest_of_readBody {now : Millis} {corr intent text : String} {body : Json}
    (named : (Text.trim intent).isEmpty = false) (read : readBody text = .ok body) :
    makeRequest now corr intent text = .ok (.new now corr intent body) := by
  rw [makeRequest, named, read]
  rfl

/-- The body of a request has the limit of a text of its own. -/
theorem within_of_makeRequest {now : Millis} {corr intent text : String} {c : Command}
    (built : makeRequest now corr intent text = .ok c) : Within Reader.depthLimit c.body := by
  obtain ⟨body, read, rfl⟩ := makeRequest_ok built
  exact Reader.within_of_parse (readBody_ok read)

/-! ## What comes out of the packets -/

section Packets

variable {α : Type} {shape : Shape α} {text : String}

/-- A run of packets is read as its text is. -/
theorem decodeRun_eq_parseText (lane : Lane) (free : (0 : UInt8) ∉ Utf8.encode text) :
    decodeRun shape (lane.encodeText text) = parseText shape (Utf8.encode text) := by
  have run : (Assembler.pushAll {} (lane.encodeText text)).2 = [.ok (Utf8.encode text)] := by
    rw [Lane.encodeText, Assembler.pushAll_pack_idle rfl lane free]
  rw [decodeRun, soleText_sole run]

theorem parseText_encode_refused {why : Json.Error} (refused : shape.parse text = .error why) :
    parseText shape (Utf8.encode text) = .error (.decoding (.json why)) := by
  rw [parseText, Utf8.decode_encode]
  simp only [refused]

end Packets

namespace Command

/-- The text of a command whose body is too deep for it is refused for the depth alone. -/
theorem parse_render_deep (c : Command) (canonical : c.body.Canonical) (integral : c.body.Integral)
    (deep : 126 < c.body.depth) : ∃ place, shape.parse c.render = .error ⟨.tooDeep, some place⟩ := by
  have body : record.RefusesMember (Reader.depthLimit - 1) .tooDeep
      ⟨some c.v, some c.ts, some c.corr, some c.intent, none⟩ "body" c.body.chars :=
    Record.refusesMember_typed rfl rfl fun rest _ =>
      Reader.value_deep c.body _ rest deep canonical integral
  have refused : Reader.Refuses .tooDeep (shape.read Reader.depthLimit (c.chars ++ [])) :=
    Record.refuses_recordChars (by decide) (c.fills_before_body _) body []
  rw [List.append_nil] at refused
  rw [Shape.parse, render, String.toList_ofList]
  exact refused.whole

end Command

section Made

variable {σ τ ρ : Type} {now : Millis} {corr intent text : String} {c : Command}

/-- A request whose body holds integers only, and what becomes of its packets.  An assembler that has
nothing open reads in them what `decode` does, and so does a bridge: to the request with the deepest body
it answers that something could not be read. -/
theorem built_request_decodes_unless_deepest (built : makeRequest now corr intent text = .ok c)
    (integral : c.body.Integral) (lane : Lane) :
    c.body.depth ≤ 127 ∧
    (∀ a : Assembler, a.opened = none →
      (a.pushAll (lane.encode c)).2.map (parseOutcome Command.shape) = [decode (lane.encode c)]) ∧
    (c.body.depth ≤ 126 → decode (lane.encode c) = .ok c) ∧
    (c.body.depth = 127 → ∃ place,
      let why := CodecError.decoding (.json ⟨.tooDeep, some place⟩)
      decode (lane.encode c) = .error why ∧
      ∀ (w : Serving σ τ ρ) (time : Nat), w.ended = false → w.coming.opened = none →
        w.onBatch time (lane.encode c) = w.add (.refuse why)) := by
  have within := within_of_makeRequest built
  have free : (0 : UInt8) ∉ Utf8.encode c.render := zero_notMem_of_plain (c.plain integral)
  have texts {a : Assembler} (idle : a.opened = none) :
      a.pushAll (lane.encode c) = (a, [.ok (Utf8.encode c.render)]) :=
    Assembler.pushAll_pack_idle idle lane free
  have read : decode (lane.encode c) = parseText Command.shape (Utf8.encode c.render) :=
    decodeRun_eq_parseText lane free
  refine ⟨Nat.le_of_lt_succ within.shallow, fun a idle => ?_, fun shallow => ?_, fun deepest => ?_⟩
  · rw [read, texts idle]
    rfl
  · exact lane.decode_command c within.canonical integral shallow
  · obtain ⟨place, refused⟩ := c.parse_render_deep within.canonical integral (by omega)
    have unread := parseText_encode_refused refused
    refine ⟨place, read.trans unread, fun w time working idle => ?_⟩
    rw [Bridge.onBatch_serving working, texts idle, List.foldl_cons, List.foldl_nil, Serving.onText,
      parseOutcome, unread]

end Made

def nestingBody (n : Nat) : Json := .object [("a", Bridge.nested n)]

def nestingRequest (n : Nat) : Command := .new 5 "c" "ping" (nestingBody n)

theorem nestingBody_fits (n : Nat) :
    (nestingBody n).Canonical ∧ (nestingBody n).Integral ∧ (nestingBody n).depth = n + 2 := by
  obtain ⟨canonical, integral, depth⟩ := Bridge.nested_fits n
  refine ⟨⟨⟨nofun, trivial⟩, canonical, trivial⟩, ⟨integral, trivial⟩, ?_⟩
  show max (Bridge.nested n).depth 0 + 1 = _
  rw [depth, Nat.max_zero]

theorem nestingRequest_made {n : Nat} (few : n ≤ 125) :
    makeRequest 5 "c" "ping" (String.ofList (nestingBody n).chars) = .ok (nestingRequest n) := by
  obtain ⟨canonical, integral, depth⟩ := nestingBody_fits n
  obtain ⟨parsed, -⟩ := Reader.parse_chars (nestingBody n) canonical integral
  have named : (Text.trim "ping").isEmpty = false := by decide
  exact makeRequest_of_readBody named (readBody_of_parse (parsed (by omega)))

theorem sample_built_request_decodes :
    makeRequest 5 "c" "ping" (String.ofList (nestingBody 124).chars) = .ok (nestingRequest 124) ∧
      (nestingRequest 124).body.Integral ∧
      decode (Lane.base.encode (nestingRequest 124)) = .ok (nestingRequest 124) := by
  obtain ⟨-, integral, depth⟩ := nestingBody_fits 124
  have built := nestingRequest_made (show 124 ≤ 125 by decide)
  obtain ⟨-, -, shallow, -⟩ :=
    @built_request_decodes_unless_deepest Unit Unit Unit _ _ _ _ _ built integral .base
  exact ⟨built, integral, shallow (Nat.le_of_eq depth)⟩

/-- An object around 126 lists in one another makes a request that cannot be read. -/
theorem deepest_request_unreadable :
    makeRequest 5 "c" "ping" (String.ofList (nestingBody 125).chars) = .ok (nestingRequest 125) ∧
      (nestingRequest 125).body.Integral ∧
      decode (Lane.base.encode (nestingRequest 125)) ≠ .ok (nestingRequest 125) := by
  obtain ⟨-, integral, depth⟩ := nestingBody_fits 125
  refine ⟨nestingRequest_made (Nat.le_refl 125), integral, fun decoded => ?_⟩
  have shallow := (Command.within_of_decode decoded).shallow
  have deep : (nestingRequest 125).body.depth = 127 := depth
  omega

end FlexLink
