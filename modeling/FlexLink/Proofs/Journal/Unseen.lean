import FlexLink.Journal.Memory
import FlexLink.Proofs.Journal.WriteOnce

/-! # Journals that have seen nothing of a correlation

Where no record stands under a correlation, a response that is recorded after its request is given
back as it was recorded, be the journal in memory or in a directory. -/
set_option autoImplicit false
namespace FlexLink

/-- Whether a response recorded under `corr` after its request is given back, if its text can be. -/
def Journal.Unseen {τ : Type} (j : Journal τ) (store : τ) (corr : String) : Prop :=
  ∀ now request later response, JournalEntry.Lasting response →
    j.read (j.write (j.write store now corr .request request).1 later corr .response response).1
      corr .response = .ok (some ⟨corr, .response, later, response⟩)

variable {corr : String} {role : JournalRole} {now : Millis} {payload : Json}

namespace MemoryJournal

variable {j : MemoryJournal}

theorem read_write (absent : j.read corr role = none) (corr' : String) (role' : JournalRole) :
    (j.write now corr role payload).1.read corr' role'
      = if (corr', role') = (corr, role) then some ⟨corr, role, now, payload⟩
        else j.read corr' role' := by
  rw [write, absent]
  exact Table.get?_insert _ _ _ _

theorem unseen (absent : ∀ role, j.read corr role = none) : Journal.memory.Unseen j corr := by
  intro now request later response _
  have still : (j.write now corr .request request).1.read corr .response = none := by
    rw [read_write (absent .request), if_neg (by simp)]
    exact absent .response
  refine congrArg Except.ok ?_
  exact (read_write still corr .response).trans (if_pos rfl)

end MemoryJournal

namespace JournalDirectory

variable {d : JournalDirectory}

/-- A record that is taken is the only new file. -/
theorem write_absent (present : d.files.isSome = true)
    (absent : d.node? (RecordFile.name corr role) = none)
    (fit : fits (RecordFile.draftName corr role d.process d.drafts) = true)
    (free : d.node? (RecordFile.draftName corr role d.process d.drafts) = none) (now : Millis)
    (payload : Json) :
    (d.write now corr role payload).1.files.isSome = true ∧
      (d.write now corr role payload).1.process = d.process ∧
      (d.write now corr role payload).1.drafts = d.drafts + 1 ∧
      ∀ name, (d.write now corr role payload).1.node? name
        = if name = RecordFile.name corr role then
            some (.text (JournalEntry.mk corr role now payload).render)
          else d.node? name := by
  obtain ⟨files, standing⟩ := Option.isSome_iff_exists.mp present
  rw [write_of_absent standing absent fit free]
  refine ⟨rfl, rfl, rfl, fun name => ?_⟩
  show ((files.erase _).insert _ _).get? name = _
  have before (name : String) : d.node? name = files.get? name := by
    rw [node?, standing]
    rfl
  rw [Table.get?_insert, Table.get?_erase, before]
  rw [before] at free
  by_cases drafted : name = RecordFile.draftName corr role d.process d.drafts
  · rw [if_pos drafted, drafted, free]
  · rw [if_neg drafted]

theorem read_node {e : JournalEntry} (lasting : JournalEntry.Lasting e.payload)
    (fit : fits (RecordFile.name e.corr e.role) = true)
    (node : d.node? (RecordFile.name e.corr e.role) = some (.text e.render)) :
    d.read e.corr e.role = .ok (some e) := by
  rw [read]
  simp only [fit, Bool.not_true, Bool.and_false, Bool.false_eq_true, if_false, node,
    e.parse_render lasting]

theorem unseen (present : d.files.isSome = true)
    (absent : ∀ role, d.node? (RecordFile.name corr role) = none)
    (free : ∀ role n, d.node? (RecordFile.draftName corr role d.process n) = none)
    (drafts : ∀ role, ∀ n ≤ d.drafts + 1,
      fits (RecordFile.draftName corr role d.process n) = true)
    (fit : fits (RecordFile.name corr .response) = true) : Journal.directory.Unseen d corr := by
  intro now request later response lasting
  obtain ⟨present', process, count, node⟩ := write_absent present (absent .request)
    (drafts .request _ (Nat.le_succ _)) (free .request _) now request
  have absent' : (d.write now corr .request request).1.node? (RecordFile.name corr .response)
      = none := by
    have other : RecordFile.name corr .response ≠ RecordFile.name corr .request := by
      intro same
      cases ((RecordFile.name_eq_iff corr corr _ _).mp same).2
    rw [node, if_neg other]
    exact absent .response
  have free' : (d.write now corr .request request).1.node?
      (RecordFile.draftName corr .response d.process (d.drafts + 1)) = none := by
    rw [node, if_neg (RecordFile.draftName_ne_name corr corr _ _ _ _)]
    exact free .response _
  have room := drafts .response _ (Nat.le_refl _)
  rw [← process, ← count] at free' room
  obtain ⟨-, -, -, node'⟩ := write_absent present' absent' room free' later response
  exact read_node (e := ⟨corr, .response, later, response⟩) lasting fit
    ((node' _).trans (if_pos rfl))

end JournalDirectory
end FlexLink
