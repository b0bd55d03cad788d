import FlexLink.Proofs.Client.Replaying
import FlexLink.Proofs.Json.Leaving

/-! # Requests that are recalled from the journal

Whatever its body holds, a recorded request that is got again has the correlation, the intent and the
version that it was recorded with.  Its body is another one at most where it holds real numbers. -/
set_option autoImplicit false
namespace FlexLink

open Json

namespace Json.Record

variable {σ α : Type} {r : Record σ α} {depth fuel : Nat} {first : Bool} {draft : σ}
  {source text : List Char} {name : String} {found : σ × List Char}

/-- A member that has its turn was read if the members were. -/
theorem readMembers_taken {f : Field σ} (known : r.field? name = some f)
    (turn : Reader.objectTurn first source
      = .ok (.item (name.toList.flatMap escapeChar ++ '"' :: ':' :: text)))
    (read : r.readMembers depth fuel first draft source = .ok found) :
    ∃ next left less, f.read depth draft text = .ok (next, left) ∧
      r.readMembers depth less false next left = .ok found := by
  cases fuel with
  | zero => cases read
  | succ fuel =>
      rw [readMembers, turn] at read
      simp only [Reader.string_escaped, known, Reader.colon_cons] at read
      split at read
      · cases read
      · cases taken : f.read depth draft text with
        | error fault =>
            simp only [taken] at read
            cases read
        | ok item =>
            simp only [taken] at read
            exact ⟨item.1, item.2, fuel, rfl, read⟩

/-- A member that is read back fills its field. -/
theorem readMembers_filled {β : Type} {shape : Shape β} {get : σ → Option β} {set : σ → β → σ}
    {fallback : Option β} {x : β} {value rest : List Char}
    (known : r.field? name = some (.typed name shape get set fallback))
    (turn : Reader.objectTurn first source
      = .ok (.item (name.toList.flatMap escapeChar ++ '"' :: ':' :: (value ++ rest))))
    (back : shape.ReadsBack depth x value) (ends : Reader.Ends rest)
    (read : r.readMembers depth fuel first draft source = .ok found) :
    ∃ less, r.readMembers depth less false (set draft x) rest = .ok found := by
  obtain ⟨next, left, less, same, later⟩ := readMembers_taken known turn read
  simp only [Field.typed, back rest ends, Reader.yields] at same
  cases same
  exact ⟨less, later⟩

end Json.Record

namespace JournalEntry

open Reader in
/-- Where a written record is read, so is the text of its payload. -/
theorem payload_of_parse {e found : JournalEntry} (parsed : shape.parse e.render = .ok found) :
    ∃ depth, value depth (e.payload.chars ++ ['\x7d']) = .ok (found.payload, ['\x7d']) := by
  obtain ⟨rest, read⟩ := Shape.parse_ok parsed
  have text : e.render.toList = '\x7b' :: (stringChars "corr" ++ ':' :: (stringChars e.corr
      ++ ',' :: (stringChars "role" ++ ':' :: (stringChars e.role.name
      ++ ',' :: (stringChars "ts" ++ ':' :: (decimalDigits e.ts.toNat
      ++ ',' :: (stringChars "payload" ++ ':' :: (e.payload.chars ++ ['\x7d'])))))))) := by
    simp [render, recordChars]
  rw [text] at read
  obtain ⟨deep, draft, -, complete, ⟨_, solid, -⟩ | ⟨_, solid, members⟩⟩ :=
    Record.read_cases (r := record) read
  · rw [skipBlanks_cons rfl] at solid
    cases solid
  rw [skipBlanks_cons rfl] at solid
  cases solid
  have comma (rest : List Char) : Ends (',' :: rest) := ends_cons (by decide)
  have first {name : String} {rest : List Char} := stringChars_append name rest ▸ objectTurn_first _
  have next {name : String} {rest : List Char} := stringChars_append name rest ▸ objectTurn_next _
  obtain ⟨_, members⟩ := Record.readMembers_filled rfl first (Shape.readsBack_text _ e.corr) (comma _)
    members
  obtain ⟨_, members⟩ := Record.readMembers_filled rfl next (e.role.readsBack _) (comma _) members
  obtain ⟨_, members⟩ := Record.readMembers_filled rfl next (Shape.readsBack_uint64 _ e.ts) (comma _)
    members
  obtain ⟨last, left, less, same, ended⟩ := Record.readMembers_taken rfl next members
  obtain ⟨v, payload, rfl⟩ := yields_ok same
  obtain rfl := left_of_value e.payload _ ['\x7d'] (ends_cons (by decide)) v left payload
  refine ⟨deep + 1, ?_⟩
  cases less with
  | zero => cases ended
  | succ less =>
      cases ended
      cases complete
      exact payload

end JournalEntry

namespace JournalDirectory

variable {d : JournalDirectory} {c r : Command} {now again : Millis}

/-- What is read under a name is what its file holds. -/
theorem parse_of_read {role : JournalRole} {corr content : String} {e : JournalEntry}
    (found : d.read corr role = .ok (some e))
    (stands : d.node? (RecordFile.name corr role) = some (.text content)) :
    JournalEntry.shape.parse content = .ok e := by
  rw [read] at found
  split at found
  · cases found
  · rw [stands] at found
    dsimp only at found
    split at found
    · next same =>
        cases found
        exact same
    · cases found

/-- Whatever is got again of a recorded request has its members, but for the body and the time. -/
theorem requestAgain_of_node
    (stands : d.node? (RecordFile.name c.corr .request)
      = some (.text (JournalEntry.mk c.corr .request now c.toJson).render))
    (built : d.requestAgain c.corr again = .ok r) :
    ∃ body, r = { c with body, ts := again } ∧ (c.body.Canonical → c.body.Integral → body = c.body) := by
  rw [requestAgain] at built
  cases found : d.read c.corr .request with
  | error why =>
      rw [found] at built
      cases built
  | ok entry =>
      rw [found] at built
      cases entry with
      | none => cases built
      | some entry =>
          have built : entry.restamp again = .ok r := built
          obtain ⟨depth, payload⟩ := JournalEntry.payload_of_parse (parse_of_read found stands)
          dsimp only at payload
          rw [c.toJson_eq, Command.members] at payload
          obtain ⟨body, deep, text, whole⟩ := Reader.first_member c.ascending_members rfl
            ⟨trivial, trivial, trivial, trivial, trivial⟩ ⟨trivial, trivial, trivial, trivial, trivial⟩
            payload
          have made : entry.payload = { c with body }.toJson :=
            whole.trans (Command.toJson_eq { c with body }).symm
          rw [JournalEntry.restamp, made, Command.interpret_toJson] at built
          cases built
          refine ⟨body, rfl, fun canonical integral => ?_⟩
          exact Reader.value_unchanged canonical integral (Reader.ends_memberChars _ _) text

end JournalDirectory
end FlexLink
