import FlexLink.Discovery.Announcement
import FlexLink.Proofs.Text.Boundaries
import FlexLink.Proofs.Wire.Classifying

/-! # What an announcement says

The fields of an announcement lie at fixed places in its 84 bytes (`LiesIn`), and reading accepts just
the byte strings of that length.  The name that is read back is the one that was announced, as far as
whole characters of it fit and up to its first zero. -/
set_option autoImplicit false
namespace FlexLink

theorem Blake3.length_hash (bytes : List UInt8) : (hash bytes).length = 32 := by
  have four : ∀ w, (wordBytes w).length = 4 := by
    intro w
    simp [wordBytes, Word.bytes]
  rw [hash, List.length_flatMap, List.map_congr_left fun w _ => four w]
  rw [List.map_const', Vector.length_toList]
  rfl

namespace Announcement

variable {a b : Announcement} {raw : List UInt8}

structure LiesIn (a : Announcement) (raw : List UInt8) : Prop where
  length : raw.length = 84
  service : raw.take 32 = a.service
  endpoint : (raw.drop 32).take 16 = a.endpoint.toBytes
  port : (raw.drop 48).take 2 = HalfWord.bytes a.port
  version : raw[50]? = some a.version
  flags : raw[51]? = some a.flags
  name : raw.drop 52 = a.nameBytes

theorem LiesIn.unique (one : a.LiesIn raw) (other : b.LiesIn raw) : a = b := by
  have services : a.service = b.service := one.service.symm.trans other.service
  have ids := EndpointId.toBytes_injective (one.endpoint.symm.trans other.endpoint)
  have ports := HalfWord.bytes_injective (one.port.symm.trans other.port)
  have versions := Option.some.inj (one.version.symm.trans other.version)
  have flags := Option.some.inj (one.flags.symm.trans other.flags)
  have names : a.nameBytes = b.nameBytes := one.name.symm.trans other.name
  obtain ⟨_, _, _, _, _, _⟩ := a
  obtain ⟨_, _, _, _, _, _⟩ := b
  simp only [mk.injEq]
  exact ⟨services, ids, ports, versions, flags, names⟩

theorem ofBytes?_of_length (whole : raw.length = 84) : ∃ a, ofBytes? raw = some a ∧ a.LiesIn raw := by
  refine ⟨_, if_neg (not_not_intro whole), whole, rfl, ?_, ?_, ?_, ?_, rfl⟩
  · have part : ((raw.drop 32).take 16).length = 16 := by simp [whole]
    exact (EndpointId.toBytes_ofBytes part).symm
  · rw [HalfWord.bytes_ofBytes, take_drop_succ (by omega), take_drop_succ (by omega), List.take_zero]
  · exact getElem?_eq_getD (by omega)
  · exact getElem?_eq_getD (by omega)

theorem ofBytes?_eq_some_iff : ofBytes? raw = some a ↔ a.LiesIn raw := by
  constructor
  · intro read
    by_cases whole : raw.length = 84
    · obtain ⟨b, reads, lies⟩ := ofBytes?_of_length whole
      rw [reads] at read
      exact Option.some.inj read ▸ lies
    · have refused : ofBytes? raw = none := if_pos whole
      rw [refused] at read
      cases read
  · intro lies
    obtain ⟨b, reads, same⟩ := ofBytes?_of_length lies.length
    rw [reads, lies.unique same]

theorem liesIn_bytes (service : a.service.length = 32) (name : a.nameBytes.length = 32) :
    a.LiesIn a.bytes := by
  have id : a.endpoint.toBytes.length = 16 := Vector.length_toList
  have behind : a.bytes.drop 48
      = HalfWord.bytes a.port ++ [a.version, a.flags] ++ a.nameBytes := by
    have front : (a.service ++ a.endpoint.toBytes).length = 48 := by simp [service, id]
    rw [bytes, List.append_assoc, List.append_assoc, List.drop_left' front, List.append_assoc]
  have port : (HalfWord.bytes a.port).length = 2 := rfl
  constructor
  case length => simp [bytes, service, name, id, port]
  case service => simp [bytes, ← service]
  case endpoint => simp [bytes, ← service, ← id]
  case port =>
    rw [behind]
    rfl
  case version =>
    have place : a.bytes[50]? = (a.bytes.drop 48)[2]? := by rw [List.getElem?_drop]
    rw [place, behind]
    rfl
  case flags =>
    have place : a.bytes[51]? = (a.bytes.drop 48)[3]? := by rw [List.getElem?_drop]
    rw [place, behind]
    rfl
  case name =>
    have place : a.bytes.drop 52 = (a.bytes.drop 48).drop 4 := by rw [List.drop_drop]
    rw [place, behind]
    rfl

/-! ## Names -/

variable (id : EndpointId) (port : UInt16) (version : UInt8) (text : String)

/-- The start of a name that an announcement holds. -/
def kept (text : String) : List Char := Utf8.takeChars nameSize text.toList

theorem nameBytes_new :
    (new id port version text).nameBytes
      = (kept text).flatMap String.utf8EncodeChar
        ++ List.replicate (nameSize - Utf8.size (kept text)) 0 := by
  have short : Utf8.size (kept text) ≤ nameSize := Utf8.size_takeChars_le _ _
  have length := Utf8.length_encoded (kept text)
  have bytes : Utf8.encode (String.ofList (kept text))
      = (kept text).flatMap String.utf8EncodeChar := by
    rw [Utf8.encode_eq_flatMap, String.toList_ofList]
  show padZeros nameSize (Utf8.encode (String.ofList (kept text))) = _
  rw [bytes, padZeros, List.take_of_length_le (by omega), length]

theorem liesIn_new : (new id port version text).LiesIn (new id port version text).bytes := by
  apply liesIn_bytes
  · exact Blake3.length_hash _
  · have short : Utf8.size (kept text) ≤ nameSize := Utf8.size_takeChars_le _ _
    rw [nameBytes_new, List.length_append, Utf8.length_encoded, List.length_replicate]
    exact Nat.add_sub_cancel' short

theorem takeWhile_nameBytes :
    (new id port version text).nameBytes.takeWhile (· != 0)
      = Utf8.encode (String.ofList ((kept text).takeWhile (· != Char.ofNat 0))) := by
  rw [nameBytes_new, Utf8.takeWhile_encoded, Utf8.encode_eq_flatMap, String.toList_ofList]

/-- An announcement is read back with every field it was made of.  Its name is the longest start of
the announced one that is made of whole characters and takes at most 32 bytes, up to the first zero,
and the search for the end of that start, down from the 32nd byte, always finds it. -/
theorem name_read_back :
    (new id port version text).bytes.length = 84 ∧
      ∃ a, ofBytes? (new id port version text).bytes = some a ∧
        a.endpoint = id ∧ a.port = port ∧ a.version = version ∧ a.flags = 0 ∧
        a.service = rtpMidiHash ∧
        ∃ start, (start <+: text.toList ∧ Utf8.size start ≤ 32 ∧
            ∀ part, part <+: text.toList → Utf8.size part ≤ 32 → part <+: start) ∧
          a.name = String.ofList (start.takeWhile (· != Char.ofNat 0)) ∧
          Utf8.decode (a.nameBytes.takeWhile (· != 0)) = .ok a.name ∧
          Utf8.boundaryUpTo? (Utf8.encode text) (min (Utf8.encode text).length 32)
            = some (Utf8.size start) ∧
          a.nameBytes = padZeros 32 ((Utf8.encode text).take (Utf8.size start)) := by
  have lies := liesIn_new id port version text
  have readable := takeWhile_nameBytes id port version text
  have name : (new id port version text).name
      = String.ofList ((kept text).takeWhile (· != Char.ofNat 0)) := by
    rw [Announcement.name, readable, Utf8.decodeLossy_encode]
  have part : kept text <+: text.toList := Utf8.takeChars_prefix _ _
  refine ⟨lies.length, _, ofBytes?_eq_some_iff.mpr lies, rfl, rfl, rfl, rfl, rfl, kept text,
    ⟨part, Utf8.size_takeChars_le _ _, ?_⟩, name, ?_, ?_, ?_⟩
  · intro other prior fits
    exact Utf8.prefix_takeChars prior fits
  · rw [readable, Utf8.decode_encode, name]
  · exact Utf8.boundaryUpTo?_encode 32 text
  · rw [Utf8.encode_eq_flatMap, Utf8.take_encode part, ← String.toList_ofList (l := kept text),
      ← Utf8.encode_eq_flatMap]
    rfl

end Announcement
end FlexLink
