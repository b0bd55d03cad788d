import FlexLink.Proofs.Json.Agreeing

/-! # Texts that are too deep

The text of a value is read at any depth that is greater than the value's own (`value_chars`), and at any
other it is refused for its depth, whatever else it holds.  So the two limits of a reader meet: nothing is
between them.  The same is carried through the members of a record, up to the first that is refused. -/
set_option autoImplicit false
namespace FlexLink.Json

namespace Reader

variable {α β : Type} {cause : Cause} {rest : List Char}

def Refuses (cause : Cause) (r : Read α) : Prop := ∃ unread, r = .error ⟨cause, unread⟩

theorem Refuses.yields {r : Read α} (refused : Refuses cause r) (f : α → β) :
    Refuses cause (yields f r) := by
  obtain ⟨unread, rfl⟩ := refused
  exact ⟨unread, rfl⟩

theorem Refuses.checked {r : Read α} (refused : Refuses cause r) (accept : α → Except Cause β) :
    Refuses cause (checked accept r) := by
  obtain ⟨unread, rfl⟩ := refused
  exact ⟨unread, rfl⟩

theorem Refuses.items {one : List Char → Read α} {source text : List Char} {first : Bool}
    (turn : listTurn first source = .ok (.item text)) (refused : Refuses cause (one text))
    (done : List α) (fuel : Nat) : Refuses cause (items one done (fuel + 1) first source) := by
  obtain ⟨unread, read⟩ := refused
  exact ⟨unread, items_refused turn read⟩

theorem Refuses.members {one : List Char → Read Json} {source text : List Char} {first : Bool}
    {name : String} (turn : objectTurn first source
      = .ok (.item (name.toList.flatMap escapeChar ++ '"' :: ':' :: text)))
    (refused : Refuses cause (one text)) (done : List (String × Json)) (fuel : Nat) :
    Refuses cause (members one done (fuel + 1) first source) := by
  obtain ⟨unread, read⟩ := refused
  refine ⟨unread, ?_⟩
  rw [Reader.members, turn]
  simp only [string_escaped, colon_cons, read]

theorem Refuses.whole {reader : List Char → Read α} {text : List Char}
    (refused : Refuses cause (reader text)) :
    ∃ place, whole reader text = .error ⟨cause, some place⟩ := by
  obtain ⟨unread, read⟩ := refused
  rw [Reader.whole, read]
  exact ⟨_, rfl⟩

theorem refuses_list {d : Nat} {text : List Char}
    (inside : 0 < d → Refuses .tooDeep (items (value d) [] (text.length + 1) true text)) :
    Refuses .tooDeep (value (d + 1) ('[' :: text)) := by
  rw [value_list (skipBlanks_cons rfl)]
  split
  · exact ⟨_, rfl⟩
  · next some => exact (inside (Nat.pos_of_ne_zero some)).yields _

theorem refuses_members {d : Nat} {text : List Char}
    (inside : 0 < d → Refuses .tooDeep (members (value d) [] (text.length + 1) true text)) :
    Refuses .tooDeep (value (d + 1) ('\x7b' :: text)) := by
  rw [value_members (skipBlanks_cons rfl)]
  split
  · exact ⟨_, rfl⟩
  · next some => exact (inside (Nat.pos_of_ne_zero some)).yields _

mutual

/-- A value that is not below the depth is refused.  What stands before the first place that is too
deep is read, as it is at any depth that is enough for it. -/
theorem value_deep (v : Json) (d : Nat) (rest : List Char) (deep : d ≤ v.depth)
    (canonical : v.Canonical) (integral : v.Integral) :
    Refuses .tooDeep (value d (v.chars ++ rest)) := by
  cases d with
  | zero => exact ⟨_, rfl⟩
  | succ d =>
    match v with
    | .null | .bool _ | .number _ | .text _ => exact absurd deep (Nat.not_succ_le_zero d)
    | .array [] =>
        have top : d = 0 := Nat.le_zero.mp (Nat.le_of_succ_le_succ deep)
        rw [Json.chars]
        exact refuses_list fun some => absurd top (Nat.ne_of_gt some)
    | .object [] =>
        have top : d = 0 := Nat.le_zero.mp (Nat.le_of_succ_le_succ deep)
        rw [Json.chars]
        exact refuses_members fun some => absurd top (Nat.ne_of_gt some)
    | .array (v :: vs) =>
        simp only [Json.depth, depthItems, Json.Canonical, CanonicalItems, Json.Integral,
          IntegralItems] at deep canonical integral
        have behind : Ends (itemChars vs ++ rest) := ends_itemChars vs rest
        obtain ⟨c, cs, text, opens⟩ := chars_eq_cons v integral.1 _ behind
        rw [Json.chars, List.append_assoc, List.cons_append, text]
        refine refuses_list fun some => ?_
        by_cases here : d ≤ v.depth
        · have head := value_deep v d (itemChars vs ++ rest) here canonical.1 integral.1
          exact Refuses.items (listTurn_first opens) (text ▸ head) [] _
        · have head := value_chars v d _ (by omega) canonical.1 integral.1 behind
          have enough : vs.length < (c :: cs).length := by
            have := length_itemChars vs
            simp only [← text, List.length_append]
            omega
          rw [items_first _ opens (text ▸ head)]
          exact items_deep vs d _ [v] rest some (by omega) canonical.2 integral.2 enough
    | .object ((n, v) :: ms) =>
        simp only [Json.depth, depthMembers, Json.Canonical, CanonicalMembers, Json.Integral,
          IntegralMembers] at deep canonical integral
        have behind : Ends (memberChars ms ++ rest) := ends_memberChars ms rest
        have turn := stringChars_append n (':' :: (v.chars ++ (memberChars ms ++ rest)))
          ▸ objectTurn_first _
        rw [Json.chars, List.append_assoc, List.append_assoc, List.cons_append, List.cons_append]
        refine refuses_members fun some => ?_
        by_cases here : d ≤ v.depth
        · have head := value_deep v d (memberChars ms ++ rest) here canonical.2.1 integral.1
          exact Refuses.members turn head [] _
        · have head := value_chars v d _ (by omega) canonical.2.1 integral.1 behind
          have enough :
              ms.length < (stringChars n ++ ':' :: (v.chars ++ (memberChars ms ++ rest))).length := by
            have := length_memberChars ms
            simp only [List.length_append, List.length_cons]
            omega
          rw [members_item [] _ true turn head]
          exact members_deep ms d _ [(n, v)] rest some (by omega) canonical.2.2 integral.2 enough

theorem items_deep (vs : List Json) (d fuel : Nat) (done : List Json) (rest : List Char)
    (positive : 0 < d) (deep : d ≤ depthItems vs) (canonical : CanonicalItems vs)
    (integral : IntegralItems vs) (enough : vs.length < fuel) :
    Refuses .tooDeep (items (value d) done fuel false (itemChars vs ++ rest)) := by
  obtain ⟨fuel, rfl⟩ : ∃ f, fuel = f + 1 := ⟨fuel - 1, by omega⟩
  match vs with
  | [] =>
      simp only [depthItems] at deep
      omega
  | v :: vs =>
      simp only [depthItems, CanonicalItems, IntegralItems] at deep canonical integral
      rw [List.length_cons] at enough
      have behind : Ends (itemChars vs ++ rest) := ends_itemChars vs rest
      obtain ⟨c, cs, text, opens⟩ := chars_eq_cons v integral.1 _ behind
      rw [itemChars, List.append_assoc, List.cons_append, text]
      by_cases here : d ≤ v.depth
      · have head := value_deep v d (itemChars vs ++ rest) here canonical.1 integral.1
        exact Refuses.items (listTurn_next opens) (text ▸ head) done fuel
      · have head := value_chars v d _ (by omega) canonical.1 integral.1 behind
        rw [items_next done fuel opens (text ▸ head)]
        exact items_deep vs d fuel (v :: done) rest positive (by omega) canonical.2 integral.2
          (by omega)

theorem members_deep (ms : List (String × Json)) (d fuel : Nat) (done : List (String × Json))
    (rest : List Char) (positive : 0 < d) (deep : d ≤ depthMembers ms)
    (canonical : CanonicalMembers ms) (integral : IntegralMembers ms) (enough : ms.length < fuel) :
    Refuses .tooDeep (members (value d) done fuel false (memberChars ms ++ rest)) := by
  obtain ⟨fuel, rfl⟩ : ∃ f, fuel = f + 1 := ⟨fuel - 1, by omega⟩
  match ms with
  | [] =>
      simp only [depthMembers] at deep
      omega
  | (n, v) :: ms =>
      simp only [depthMembers, CanonicalMembers, IntegralMembers] at deep canonical integral
      rw [List.length_cons] at enough
      have behind : Ends (memberChars ms ++ rest) := ends_memberChars ms rest
      have turn := stringChars_append n (':' :: (v.chars ++ (memberChars ms ++ rest)))
        ▸ objectTurn_next _
      rw [memberChars, List.append_assoc, List.append_assoc, List.cons_append, List.cons_append]
      by_cases here : d ≤ v.depth
      · have head := value_deep v d (memberChars ms ++ rest) here canonical.1 integral.1
        exact Refuses.members turn head done fuel
      · have head := value_chars v d _ (by omega) canonical.1 integral.1 behind
        rw [members_item done fuel false turn head]
        exact members_deep ms d fuel ((n, v) :: done) rest positive (by omega) canonical.2
          integral.2 (by omega)

end

theorem within_of_parse {text : String} {v : Json} (parsed : Json.parse text = .ok v) :
    Within depthLimit v := by
  obtain ⟨rest, read⟩ := Shape.parse_ok (show Shape.any.parse text = .ok v from parsed)
  exact value_ok read

/-- The two sides of the border. -/
theorem parse_chars (v : Json) (canonical : v.Canonical) (integral : v.Integral) :
    (v.depth ≤ 127 → Json.parse (String.ofList v.chars) = .ok v) ∧
      (127 < v.depth → ∃ place, Json.parse (String.ofList v.chars) = .error ⟨.tooDeep, some place⟩) := by
  have own (text : String) : Json.parse text = Shape.any.parse text := rfl
  refine ⟨fun shallow => ?_, fun deep => ?_⟩
  · rw [own]
    exact Shape.parse_of_readsBack
      (Shape.readsBack_any (Nat.lt_succ_of_le shallow) canonical integral)
  · have refused := value_deep v depthLimit [] deep canonical integral
    rw [List.append_nil] at refused
    rw [Json.parse, String.toList_ofList]
    exact refused.whole

end Reader

/-! ## Records -/

namespace Record

open Reader (Refuses Ends)

variable {σ α : Type} {r : Record σ α} {depth : Nat} {cause : Cause}

def RefusesMember (r : Record σ α) (depth : Nat) (cause : Cause) (draft : σ) (name : String)
    (text : List Char) : Prop :=
  ∃ f, r.field? name = some f ∧ f.filled draft = false ∧
    ∀ rest, Ends rest → Refuses cause (f.read depth draft (text ++ rest))

section Members

variable {draft mid : σ} {name : String} {text : List Char}
  {before after : List (String × Option (List Char))}

theorem readMembers_refused (refuses : r.RefusesMember depth cause draft name text) (fuel : Nat)
    {first : Bool} {source rest : List Char} (ends : Ends rest)
    (turn : Reader.objectTurn first source
      = .ok (.item (name.toList.flatMap escapeChar ++ '"' :: ':' :: (text ++ rest)))) :
    Refuses cause (r.readMembers depth (fuel + 1) first draft source) := by
  obtain ⟨f, known, empty, refused⟩ := refuses
  obtain ⟨unread, read⟩ := refused rest ends
  refine ⟨unread, ?_⟩
  rw [readMembers, turn]
  simp only [Reader.string_escaped, known, empty, Reader.colon_cons, read]
  rfl

theorem written_refused (before after : List (String × Option (List Char))) (name : String)
    (text : List Char) : written (before ++ (name, some text) :: after)
      = written before ++ (stringChars name ++ ':' :: text) :: written after := by
  rw [written, List.filterMap_append]
  rfl

theorem readMembers_next_refused (fills : r.Fills depth draft before mid)
    (refuses : r.RefusesMember depth cause mid name text) (fuel : Nat) (rest : List Char)
    (enough : (written before).length < fuel) :
    Refuses cause (r.readMembers depth fuel false draft
      ((written (before ++ (name, some text) :: after)).flatMap (',' :: ·) ++ '\x7d' :: rest)) := by
  obtain ⟨more, rfl⟩ : ∃ more, fuel = more + 1 + (written before).length :=
    ⟨fuel - 1 - (written before).length, by omega⟩
  have comma (behind : List Char) : Ends (',' :: behind) := Reader.ends_cons (by decide)
  rw [written_refused, List.flatMap_append, List.append_assoc, List.flatMap_cons, List.append_assoc,
    List.cons_append, List.append_assoc, List.cons_append, readMembers_fills fills (more + 1) (comma _)]
  exact readMembers_refused refuses more (ends_members _ rest)
    (Reader.stringChars_append name _ ▸ Reader.objectTurn_next _)

theorem readMembers_first_refused (fills : r.Fills depth draft before mid)
    (refuses : r.RefusesMember depth cause mid name text) (fuel : Nat) (rest : List Char)
    (enough : (written before).length < fuel) :
    Refuses cause (r.readMembers depth fuel true draft
      (((written (before ++ (name, some text) :: after)).intersperse [',']).flatten
        ++ '\x7d' :: rest)) := by
  obtain ⟨fuel, rfl⟩ : ∃ f, fuel = f + 1 := ⟨fuel - 1, by omega⟩
  induction fills with
  | nil draft =>
      rw [written_refused, written, List.filterMap_nil, List.nil_append, intersperse_flatten,
        List.append_assoc, List.append_assoc, List.cons_append]
      exact readMembers_refused refuses fuel (ends_members _ rest)
        (Reader.stringChars_append name _ ▸ Reader.objectTurn_first _)
  | absent more ih => exact ih refuses enough
  | @present draft next final here value f ms known empty read more _ =>
      have split : written ((here, some value) :: ms ++ (name, some text) :: after)
          = (stringChars here ++ ':' :: value) :: written (ms ++ (name, some text) :: after) := rfl
      rw [split, intersperse_flatten, List.append_assoc, List.append_assoc, List.cons_append,
        readMembers_item fuel true (Reader.stringChars_append here _ ▸ Reader.objectTurn_first _)
          known empty (read _ (ends_members _ rest))]
      exact readMembers_next_refused more refuses fuel rest (Nat.lt_of_succ_lt_succ enough)

/-- A record is refused for the first of its members that is. -/
theorem refuses_recordChars (deep : 1 < depth) (fills : r.Fills (depth - 1) r.blank before mid)
    (refuses : r.RefusesMember (depth - 1) cause mid name text) (rest : List Char) :
    Refuses cause (r.shape.read depth
      (recordChars (before ++ (name, some text) :: after) ++ rest)) := by
  have opened : recordChars (before ++ (name, some text) :: after) ++ rest
      = '\x7b' :: (((written (before ++ (name, some text) :: after)).intersperse [',']).flatten
        ++ '\x7d' :: rest) := by
    rw [recordChars, List.append_assoc]
    rfl
  have enough : (written before).length
      < (((written (before ++ (name, some text) :: after)).intersperse [',']).flatten
        ++ '\x7d' :: rest).length + 1 := by
    have := length_written_le (before ++ (name, some text) :: after)
    have more : (written before).length ≤ (written (before ++ (name, some text) :: after)).length := by
      rw [written_refused, List.length_append]
      exact Nat.le_add_right _ _
    rw [List.length_append]
    omega
  have own : r.shape.read = r.read := rfl
  rw [opened, own, Record.read, Reader.skipBlanks_cons rfl]
  simp only [Char.reduceEq, if_false, if_true, if_neg (Nat.not_le.mpr deep)]
  exact (readMembers_first_refused fills refuses _ rest enough).checked _

end Members

/-- A member of a typed field is refused as the field's shape refuses it. -/
theorem refusesMember_typed {β : Type} {draft : σ} {name : String} {shape : Shape β}
    {get : σ → Option β} {set : σ → β → σ} {fallback : Option β} {text : List Char}
    (known : r.field? name = some (.typed name shape get set fallback)) (empty : get draft = none)
    (refused : ∀ rest, Ends rest → Refuses cause (shape.read depth (text ++ rest))) :
    r.RefusesMember depth cause draft name text := by
  refine ⟨_, known, ?_, fun rest ends => (refused rest ends).yields _⟩
  simp only [Field.typed, empty, Option.isSome_none]

end Record
end FlexLink.Json
