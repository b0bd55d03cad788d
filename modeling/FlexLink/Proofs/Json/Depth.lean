import FlexLink.Proofs.Json.Records

/-! # What a reader of bounded depth gives

`value_ok` says what is known of a value that was read: it opens fewer brackets than the depth allows,
and its objects are in order.  `value_deepens` says that a deeper reader reads the same.  Both go down
the depth, as the reader does, and take lists and objects as they come. -/
set_option autoImplicit false
namespace FlexLink.Json

/-! ## Members that are gathered -/

section Gathered

variable {name : String} {value : Json} {ms : List (String × Json)}

theorem mem_insertMember {m : String × Json} (member : m ∈ insertMember name value ms) :
    m = (name, value) ∨ m ∈ ms := by
  induction ms with
  | nil => exact .inl (List.mem_singleton.mp member)
  | cons n rest ih =>
      obtain ⟨other, v⟩ := n
      rw [insertMember] at member
      split at member
      · exact List.mem_cons.mp member
      · split at member
        · exact (List.mem_cons.mp member).imp_right (List.mem_cons_of_mem _)
        · rcases List.mem_cons.mp member with rfl | later
          · exact .inr List.mem_cons_self
          · exact (ih later).imp_right (List.mem_cons_of_mem _)

theorem ascending_insertMember (sorted : Ascending ms) : Ascending (insertMember name value ms) := by
  induction ms with
  | nil => exact ⟨nofun, trivial⟩
  | cons n rest ih =>
      obtain ⟨other, v⟩ := n
      obtain ⟨first, later⟩ := sorted
      rw [insertMember]
      split
      · next before =>
          refine ⟨List.forall_mem_cons.mpr ⟨before, fun m member => ?_⟩, first, later⟩
          exact String.lt_trans before (first m member)
      · split
        · next same =>
            rw [same]
            exact ⟨first, later⟩
        · next notBefore different =>
            refine ⟨fun m member => ?_, ih later⟩
            rcases mem_insertMember member with rfl | old
            · apply Decidable.byContradiction
              intro notAfter
              have same := String.le_antisymm (String.not_lt.mp notAfter) (String.not_lt.mp notBefore)
              exact different same
            · exact first m old

theorem ascending_gather (left : List (String × Json)) {done : List (String × Json)}
    (sorted : Ascending done) :
    Ascending (left.foldl (fun sorted m => insertMember m.1 m.2 sorted) done) := by
  induction left generalizing done with
  | nil => exact sorted
  | cons m rest ih => exact ih (ascending_insertMember sorted)

theorem mem_gather (left : List (String × Json)) {done : List (String × Json)} {m : String × Json}
    (member : m ∈ left.foldl (fun sorted m => insertMember m.1 m.2 sorted) done) :
    m ∈ done ∨ m ∈ left := by
  induction left generalizing done with
  | nil => exact .inl member
  | cons n rest ih =>
      rcases ih member with early | late
      · rcases mem_insertMember early with rfl | old
        · exact .inr List.mem_cons_self
        · exact .inl old
      · exact .inr (List.mem_cons_of_mem n late)

end Gathered

structure Within (depth : Nat) (v : Json) : Prop where
  shallow : v.depth < depth
  canonical : v.Canonical

theorem within_array {depth : Nat} (positive : 0 < depth) {vs : List Json}
    (all : ∀ v ∈ vs, Within depth v) : Within (depth + 1) (.array vs) := by
  have known : depthItems vs < depth ∧ CanonicalItems vs := by
    induction vs with
    | nil => exact ⟨positive, trivial⟩
    | cons v rest ih =>
        obtain ⟨here, later⟩ := List.forall_mem_cons.mp all
        obtain ⟨shallow, canonical⟩ := ih later
        exact ⟨Nat.max_lt.mpr ⟨here.shallow, shallow⟩, here.canonical, canonical⟩
  exact ⟨Nat.succ_lt_succ known.1, known.2⟩

theorem within_object {depth : Nat} (positive : 0 < depth) {ms : List (String × Json)}
    (sorted : Ascending ms) (all : ∀ m ∈ ms, Within depth m.2) :
    Within (depth + 1) (.object ms) := by
  have known : depthMembers ms < depth ∧ CanonicalMembers ms := by
    clear sorted
    induction ms with
    | nil => exact ⟨positive, trivial⟩
    | cons m rest ih =>
        obtain ⟨here, later⟩ := List.forall_mem_cons.mp all
        obtain ⟨shallow, canonical⟩ := ih later
        exact ⟨Nat.max_lt.mpr ⟨here.shallow, shallow⟩, here.canonical, canonical⟩
  exact ⟨Nat.succ_lt_succ known.1, sorted, known.2⟩

namespace Reader

variable {α β : Type}

theorem yields_ok {f : α → β} {r : Read α} {w : β} {rest : List Char}
    (read : yields f r = .ok (w, rest)) : ∃ v, r = .ok (v, rest) ∧ w = f v := by
  cases r with
  | error fault => cases read
  | ok found =>
      cases read
      exact ⟨found.1, rfl, rfl⟩

theorem checked_ok {accept : α → Except Cause β} {r : Read α} {w : β} {rest : List Char}
    (read : checked accept r = .ok (w, rest)) : ∃ v, r = .ok (v, rest) ∧ accept v = .ok w := by
  obtain fault | ⟨v, unread⟩ := r
  · cases read
  · rw [checked] at read
    split at read
    · next accepted =>
        cases read
        exact ⟨v, rfl, accepted⟩
    · cases read

theorem wordAs_ok {v w : α} {letters source rest : List Char}
    (read : wordAs v letters source = .ok (w, rest)) : w = v := by
  rw [wordAs] at read
  split at read
  · cases read
    rfl
  · cases read

theorem of_ite_ok {p : Prop} [Decidable p] {a b : Read α} {found : α × List Char}
    (read : (if p then a else b) = .ok found) : a = .ok found ∨ b = .ok found := by
  split at read
  · exact .inl read
  · exact .inr read

theorem mismatch_ne_ok (expected : String) (source : List Char) (found : α × List Char) :
    mismatch expected source ≠ .ok found := by
  intro read
  rw [mismatch] at read
  dsimp only at read
  -- whatever stands next, and whether it can be read or not
  repeat' split at read
  all_goals cases read

/-! ## Lists and objects -/

theorem items_ok {one : List Char → Read α} {P : α → Prop}
    (each : ∀ source v rest, one source = .ok (v, rest) → P v) {done vs : List α} {fuel : Nat}
    {first : Bool} {source rest : List Char} (before : ∀ v ∈ done, P v)
    (read : items one done fuel first source = .ok (vs, rest)) : ∀ v ∈ vs, P v := by
  induction fuel generalizing done first source with
  | zero => cases read
  | succ fuel ih =>
      rw [items] at read
      split at read
      · cases read
      · cases read
        intro v member
        exact before v (List.mem_reverse.mp member)
      · split at read
        · cases read
        · next v rest' found =>
            exact ih (List.forall_mem_cons.mpr ⟨each _ v rest' found, before⟩) read

theorem members_ok {one : List Char → Read Json} {P : Json → Prop}
    (each : ∀ source v rest, one source = .ok (v, rest) → P v) {done ms : List (String × Json)}
    {fuel : Nat} {first : Bool} {source rest : List Char} (before : ∀ m ∈ done, P m.2)
    (read : members one done fuel first source = .ok (ms, rest)) : ∀ m ∈ ms, P m.2 := by
  induction fuel generalizing done first source with
  | zero => cases read
  | succ fuel ih =>
      rw [members] at read
      split at read
      · cases read
      · cases read
        intro m member
        exact before m (List.mem_reverse.mp member)
      · split at read
        · cases read
        · split at read
          · cases read
          · split at read
            · cases read
            · next v rest' found =>
                exact ih (List.forall_mem_cons.mpr ⟨each _ v rest' found, before⟩) read

/-- Whether `more` reads whatever `one` reads, and reads it the same. -/
def Extends (one more : List Char → Read α) : Prop :=
  ∀ source found, one source = .ok found → more source = .ok found

theorem Extends.items {one more : List Char → Read α} (further : Extends one more) (done : List α)
    (fuel : Nat) (first : Bool) : Extends (items one done fuel first) (items more done fuel first) := by
  intro source found read
  induction fuel generalizing done first source with
  | zero => cases read
  | succ fuel ih =>
      rw [Reader.items] at read ⊢
      split at read
      · cases read
      · exact read
      · split at read
        · cases read
        · next same =>
            rw [further _ _ same]
            exact ih _ false _ read

theorem Extends.members {one more : List Char → Read Json} (further : Extends one more)
    (done : List (String × Json)) (fuel : Nat) (first : Bool) :
    Extends (members one done fuel first) (members more done fuel first) := by
  intro source found read
  induction fuel generalizing done first source with
  | zero => cases read
  | succ fuel ih =>
      rw [Reader.members] at read ⊢
      split at read
      · cases read
      · exact read
      · split at read
        · cases read
        · split at read
          · cases read
          · split at read
            · cases read
            · next same =>
                rw [further _ _ same]
                exact ih _ false _ read

/-! ## Values of any kind -/

/-- A value without brackets is read the same at every depth. -/
theorem value_scalar {source rest : List Char} {c : Char} (solid : skipBlanks source = c :: rest)
    (list : c ≠ '[') (object : c ≠ '\x7b') (depth more : Nat) :
    value (depth + 1) source = value (more + 1) source := by
  rw [value, value, solid]
  simp only [if_neg list, if_neg object]

theorem value_flat {depth : Nat} {source rest text : List Char} {c : Char} {v : Json}
    (solid : skipBlanks source = c :: text) (list : c ≠ '[') (object : c ≠ '\x7b')
    (read : value (depth + 1) source = .ok (v, rest)) : v.depth = 0 ∧ v.Canonical := by
  rw [value, solid] at read
  simp only [if_neg list, if_neg object] at read
  rcases of_ite_ok read with null | read
  · rw [wordAs_ok null]
    exact ⟨rfl, trivial⟩
  rcases of_ite_ok read with true | read
  · rw [wordAs_ok true]
    exact ⟨rfl, trivial⟩
  rcases of_ite_ok read with false | read
  · rw [wordAs_ok false]
    exact ⟨rfl, trivial⟩
  rcases of_ite_ok read with negative | read
  · obtain ⟨n, -, rfl⟩ := yields_ok negative
    exact ⟨rfl, trivial⟩
  rcases of_ite_ok read with number | read
  · obtain ⟨n, -, rfl⟩ := yields_ok number
    exact ⟨rfl, trivial⟩
  rcases of_ite_ok read with text | nothing
  · obtain ⟨s, -, rfl⟩ := yields_ok text
    exact ⟨rfl, trivial⟩
  · cases nothing

theorem value_list {source rest : List Char} (solid : skipBlanks source = '[' :: rest) (depth : Nat) :
    value (depth + 1) source
      = if depth = 0 then stopAtNext .tooDeep ('[' :: rest)
        else yields .array (items (value depth) [] (rest.length + 1) true rest) := by
  rw [value, solid]
  rfl

theorem value_members {source rest : List Char} (solid : skipBlanks source = '\x7b' :: rest)
    (depth : Nat) :
    value (depth + 1) source
      = if depth = 0 then stopAtNext .tooDeep ('\x7b' :: rest)
        else yields .ofMembers (members (value depth) [] (rest.length + 1) true rest) := by
  rw [value, solid]
  rfl

theorem value_ok {depth : Nat} {source rest : List Char} {v : Json}
    (read : value depth source = .ok (v, rest)) : Json.Within depth v := by
  -- a bracket goes one down, and then everything that is read inside is known; anything else is flat
  induction depth generalizing source rest v with
  | zero => cases read
  | succ depth ih =>
      cases solid : skipBlanks source with
      | nil =>
          rw [value, solid] at read
          cases read
      | cons c text =>
          by_cases list : c = '['
          · subst list
            rw [value_list solid] at read
            split at read
            · cases read
            · next some =>
                obtain ⟨vs, found, rfl⟩ := yields_ok read
                have all := items_ok (fun _ _ _ => ih) (List.forall_mem_nil _) found
                exact within_array (Nat.pos_of_ne_zero some) all
          · by_cases object : c = '\x7b'
            · subst object
              rw [value_members solid] at read
              split at read
              · cases read
              · next some =>
                  obtain ⟨ms, found, rfl⟩ := yields_ok read
                  have all :=
                    members_ok (P := Json.Within depth) (fun _ _ _ => ih) (List.forall_mem_nil _) found
                  refine within_object (Nat.pos_of_ne_zero some) (ascending_gather ms trivial) ?_
                  intro m member
                  exact all m ((mem_gather ms member).resolve_left List.not_mem_nil)
            · obtain ⟨flat, canonical⟩ := value_flat solid list object read
              exact ⟨flat ▸ Nat.succ_pos depth, canonical⟩

theorem value_deepens (depth : Nat) : Extends (value depth) (value (depth + 1)) := by
  induction depth with
  | zero =>
      intro source found read
      cases read
  | succ depth ih =>
      intro source found read
      cases solid : skipBlanks source with
      | nil =>
          rw [value, solid] at read
          cases read
      | cons c text =>
          by_cases list : c = '['
          · subst list
            rw [value_list solid] at read ⊢
            split at read
            · cases read
            · obtain ⟨v, rest⟩ := found
              obtain ⟨vs, same, rfl⟩ := yields_ok read
              rw [if_neg (Nat.succ_ne_zero depth), ih.items [] _ true _ _ same]
              rfl
          · by_cases object : c = '\x7b'
            · subst object
              rw [value_members solid] at read ⊢
              split at read
              · cases read
              · obtain ⟨v, rest⟩ := found
                obtain ⟨ms, same, rfl⟩ := yields_ok read
                rw [if_neg (Nat.succ_ne_zero depth), ih.members [] _ true _ _ same]
                rfl
            · rw [value_scalar solid list object (depth + 1) depth]
              exact read

end Reader

/-! ## Shapes and records -/

namespace Shape

variable {α : Type} {s : Shape α}

def Deepens (s : Shape α) : Prop := ∀ depth, Reader.Extends (s.read depth) (s.read (depth + 1))

theorem Deepens.le (deepens : s.Deepens) {depth more : Nat} (le : depth ≤ more) :
    Reader.Extends (s.read depth) (s.read more) := by
  induction le with
  | refl => exact fun _ _ read => read
  | step _ ih => exact fun source found read => deepens _ source found (ih source found read)

theorem deepens_any : any.Deepens := Reader.value_deepens

theorem deepens_text : text.Deepens := fun _ _ _ read => read

theorem deepens_uint64 : uint64.Deepens := fun _ _ _ read => read

theorem parse_ok {source : String} {x : α} (parsed : s.parse source = .ok x) :
    ∃ rest, s.read Reader.depthLimit source.toList = .ok (x, rest) := by
  rw [parse, Reader.whole] at parsed
  split at parsed
  · cases parsed
  · next v rest read =>
      split at parsed
      · cases parsed
      · cases parsed
        exact ⟨rest, read⟩

end Shape

namespace Field

variable {σ α : Type}

def Deepens (f : Field σ) : Prop :=
  ∀ depth draft, Reader.Extends (f.read depth draft) (f.read (depth + 1) draft)

theorem deepens_typed {name : String} {shape : Shape α} {get : σ → Option α} {set : σ → α → σ}
    {fallback : Option α} (deepens : shape.Deepens) :
    (typed name shape get set fallback).Deepens := by
  intro depth draft source found read
  obtain ⟨v, rest⟩ := found
  obtain ⟨x, same, rfl⟩ := Reader.yields_ok read
  have further := deepens depth source (x, rest) same
  show Reader.yields (set draft) (shape.read (depth + 1) source) = _
  rw [further]
  rfl

structure Keeps (f : Field σ) (depth : Nat) (P : σ → Prop) : Prop where
  read : ∀ draft source next rest, P draft → f.read depth draft source = .ok (next, rest) → P next
  absent : ∀ draft next, P draft → f.absent draft = some next → P next

/-- A field that no list may lack keeps what its setting keeps. -/
theorem keeps_typed {name : String} {shape : Shape α} {get : σ → Option α} {set : σ → α → σ}
    {depth : Nat} {P : σ → Prop}
    (sets : ∀ draft source x rest, P draft → shape.read depth source = .ok (x, rest) →
      P (set draft x)) :
    (typed name shape get set none).Keeps depth P := by
  refine ⟨?_, ?_⟩
  · intro draft source next rest known read
    obtain ⟨x, same, rfl⟩ := Reader.yields_ok read
    exact sets draft source x rest known same
  · intro draft next known absent
    cases absent

end Field

namespace Record

variable {σ α : Type} {r : Record σ α}

theorem mem_of_field? {name : String} {f : Field σ} (known : r.field? name = some f) :
    f ∈ r.fields :=
  List.mem_of_find?_eq_some known

theorem readMembers_deepens (fields : ∀ f ∈ r.fields, f.Deepens) (depth fuel : Nat) (first : Bool)
    (draft : σ) :
    Reader.Extends (r.readMembers depth fuel first draft)
      (r.readMembers (depth + 1) fuel first draft) := by
  intro source found read
  induction fuel generalizing first draft source with
  | zero => cases read
  | succ fuel ih =>
      rw [readMembers] at read ⊢
      split at read
      · cases read
      · exact read
      · split at read
        · cases read
        · split at read
          · next f known =>
              split at read
              · cases read
              · next empty =>
                  rw [if_neg empty]
                  split at read
                  · cases read
                  · split at read
                    · cases read
                    · next same =>
                        rw [fields f (mem_of_field? known) depth draft _ _ same]
                        exact ih false _ _ read
          · split at read
            · cases read
            · split at read
              · cases read
              · exact ih false _ _ read

theorem readFields_deepens {fields : List (Field σ)} (all : ∀ f ∈ fields, f.Deepens)
    (depth index : Nat) (draft : σ) :
    Reader.Extends (r.readFields depth index fields draft)
      (r.readFields (depth + 1) index fields draft) := by
  intro source found read
  induction fields generalizing index draft source with
  | nil => exact read
  | cons f rest ih =>
      obtain ⟨here, later⟩ := List.forall_mem_cons.mp all
      rw [readFields] at read ⊢
      split at read
      · cases read
      · split at read
        · exact ih later index _ _ read
        · cases read
      · split at read
        · cases read
        · next same =>
            rw [here depth draft _ _ same]
            exact ih later _ _ _ read

/-- Where a record was read, a list or an object of its fields was, and brackets could be opened. -/
theorem read_cases {depth : Nat} {source rest : List Char} {x : α}
    (read : r.shape.read depth source = .ok (x, rest)) :
    ∃ deep draft, depth = deep + 2 ∧ r.complete draft = .ok x ∧
      ((∃ text, Reader.skipBlanks source = '[' :: text ∧
          r.readFields (deep + 1) 0 r.fields r.blank text = .ok (draft, rest)) ∨
        ∃ text, Reader.skipBlanks source = '\x7b' :: text ∧
          r.readMembers (deep + 1) (text.length + 1) true r.blank text = .ok (draft, rest)) := by
  have own : r.shape.read = r.read := rfl
  have two (deep : ¬ depth ≤ 1) : depth = depth - 2 + 2 := by omega
  have more (deep : ¬ depth ≤ 1) : depth - 1 = depth - 2 + 1 := by omega
  rw [own, Record.read] at read
  split at read
  · cases read
  · next c text solid =>
      split at read
      · next list =>
          subst list
          split at read
          · cases read
          · next deep =>
              obtain ⟨draft, same, complete⟩ := Reader.checked_ok read
              rw [more deep] at same
              exact ⟨depth - 2, draft, (two deep), complete, .inl ⟨text, solid, same⟩⟩
      · split at read
        · next object =>
            subst object
            split at read
            · cases read
            · next deep =>
                obtain ⟨draft, same, complete⟩ := Reader.checked_ok read
                rw [more deep] at same
                exact ⟨depth - 2, draft, (two deep), complete, .inr ⟨text, solid, same⟩⟩
        · exact absurd read (Reader.mismatch_ne_ok _ _ _)

theorem deepens (fields : ∀ f ∈ r.fields, f.Deepens) : r.shape.Deepens := by
  intro depth source found read
  have own : r.shape.read = r.read := rfl
  obtain ⟨deep, draft, rfl, complete, ⟨text, solid, same⟩ | ⟨text, solid, same⟩⟩ := read_cases read
  · have further := readFields_deepens fields _ 0 r.blank _ _ same
    rw [own, Record.read, solid]
    simp only [if_true, if_neg (show ¬ deep + 2 + 1 ≤ 1 by omega)]
    show Reader.checked r.complete (r.readFields (deep + 1 + 1) 0 r.fields r.blank text) = _
    rw [further]
    simp only [Reader.checked, complete]
  · have further := readMembers_deepens fields _ _ true r.blank _ _ same
    rw [own, Record.read, solid]
    simp only [Char.reduceEq, if_false, if_true, if_neg (show ¬ deep + 2 + 1 ≤ 1 by omega)]
    show Reader.checked r.complete (r.readMembers (deep + 1 + 1) _ true r.blank text) = _
    rw [further]
    simp only [Reader.checked, complete]

/-! ## Properties of drafts -/

variable {P : σ → Prop} {depth : Nat}

theorem readMembers_ok (keeps : ∀ f ∈ r.fields, f.Keeps depth P) {fuel : Nat} {first : Bool}
    {draft final : σ} {source rest : List Char} (before : P draft)
    (read : r.readMembers depth fuel first draft source = .ok (final, rest)) : P final := by
  induction fuel generalizing first draft source with
  | zero => cases read
  | succ fuel ih =>
      rw [readMembers] at read
      split at read
      · cases read
      · cases read
        exact before
      · split at read
        · cases read
        · split at read
          · next f known =>
              split at read
              · cases read
              · split at read
                · cases read
                · split at read
                  · cases read
                  · next next rest' same =>
                      exact ih ((keeps f (mem_of_field? known)).read draft _ next rest' before same) read
          · split at read
            · cases read
            · split at read
              · cases read
              · exact ih before read

theorem readFields_ok {fields : List (Field σ)} (keeps : ∀ f ∈ fields, f.Keeps depth P) {index : Nat}
    {draft final : σ} {source rest : List Char} (before : P draft)
    (read : r.readFields depth index fields draft source = .ok (final, rest)) : P final := by
  induction fields generalizing index draft source with
  | nil =>
      rw [readFields] at read
      split at read
      · cases read
        exact before
      · cases read
  | cons f others ih =>
      obtain ⟨here, later⟩ := List.forall_mem_cons.mp keeps
      rw [readFields] at read
      split at read
      · cases read
      · split at read
        · next next absent => exact ih later (here.absent draft next before absent) read
        · cases read
      · split at read
        · cases read
        · next next rest' same => exact ih later (here.read draft _ next rest' before same) read

/-- A record that was read is made of a draft with every property that its fields keep. -/
theorem read_ok (blank : P r.blank) (keeps : ∀ f ∈ r.fields, f.Keeps depth P) {source rest : List Char}
    {x : α} (read : r.shape.read (depth + 1) source = .ok (x, rest)) :
    ∃ draft, P draft ∧ r.finish draft = .ok x := by
  obtain ⟨deep, draft, same, complete, fields⟩ := read_cases read
  obtain rfl : depth = deep + 1 := Nat.succ.inj same
  clear read
  refine ⟨draft, ?_, ?_⟩
  · rcases fields with ⟨text, -, list⟩ | ⟨text, -, object⟩
    · exact readFields_ok keeps blank list
    · exact readMembers_ok keeps blank object
  · rw [Record.complete] at complete
    split at complete
    · cases complete
      assumption
    · cases complete

end Record
end FlexLink.Json
