import FlexLink.Proofs.Json.Scalars

/-! # Written values are read back

`value_chars` is the round trip of a value whose numbers are integers and whose objects are in
order, under a depth limit that its brackets respect.  The induction is on the value together with
its lists of items and of members, as in the printer. -/
set_option autoImplicit false
namespace FlexLink.Json.Reader

theorem not_blank_of_isDigit {c : Char} (digit : isDigit c = true) : isBlank c = false := by
  simp only [isBlank, Bool.or_eq_false_iff, beq_eq_false_iff_ne]
  refine ⟨⟨⟨?_, ?_⟩, ?_⟩, ?_⟩ <;> (rintro rfl; exact absurd digit (by decide))

theorem skipBlanks_cons {c : Char} {rest : List Char} (solid : isBlank c = false) :
    skipBlanks (c :: rest) = c :: rest := by
  rw [skipBlanks, List.dropWhile_cons_of_neg (by rw [solid]; decide)]

def Opens (c : Char) : Prop := isBlank c = false ∧ c ≠ ']' ∧ c ≠ '\x7d'

theorem opens_of_integer {i : WideInt} {rest cs : List Char} {c : Char} (ends : Ends rest)
    (text : decimalInt i.val ++ rest = c :: cs) : Opens c := by
  obtain ⟨d, ds, same, dash | digit⟩ := integer_read i ends
  · obtain rfl : c = d := (List.cons.inj (text.symm.trans same)).1
    rw [dash.1]
    exact ⟨rfl, by decide, by decide⟩
  · obtain rfl : c = d := (List.cons.inj (text.symm.trans same)).1
    refine ⟨not_blank_of_isDigit digit.2.1, ?_, ?_⟩ <;>
      (rintro rfl; exact absurd digit.2.1 (by decide))

theorem chars_opens (v : Json) (exact : ∀ x, v ≠ .number (.real x)) (rest : List Char)
    (ends : Ends rest) : ∃ c cs, v.chars ++ rest = c :: cs ∧ Opens c := by
  cases v with
  | null => exact ⟨'n', _, by rw [Json.chars]; rfl, rfl, by decide, by decide⟩
  | bool b =>
      cases b with
      | true => exact ⟨'t', _, by rw [Json.chars]; rfl, rfl, by decide, by decide⟩
      | false => exact ⟨'f', _, by rw [Json.chars]; rfl, rfl, by decide, by decide⟩
  | number n =>
      cases n with
      | integer i =>
          obtain ⟨c, cs, text, _⟩ := integer_read i ends
          exact ⟨c, cs, by rw [Json.chars, Number.chars, text], opens_of_integer ends text⟩
      | real x => exact absurd rfl (exact x)
  | text s => exact ⟨'"', _, by rw [Json.chars, stringChars]; rfl, rfl, by decide, by decide⟩
  | array vs =>
      cases vs with
      | nil => exact ⟨'[', _, by rw [Json.chars]; rfl, rfl, by decide, by decide⟩
      | cons v vs => exact ⟨'[', _, by rw [Json.chars]; rfl, rfl, by decide, by decide⟩
  | object ms =>
      cases ms with
      | nil => exact ⟨'\x7b', _, by rw [Json.chars]; rfl, rfl, by decide, by decide⟩
      | cons m ms =>
          obtain ⟨n, v⟩ := m
          exact ⟨'\x7b', _, by rw [Json.chars]; rfl, rfl, by decide, by decide⟩

theorem chars_eq_cons (v : Json) (integral : v.Integral) (rest : List Char) (ends : Ends rest) :
    ∃ c cs, v.chars ++ rest = c :: cs ∧ Opens c := by
  refine chars_opens v ?_ rest ends
  rintro x rfl
  exact integral

/-! ## Members in their order -/

theorem insertMember_last (name : String) (v : Json) (ms : List (String × Json))
    (last : ∀ m ∈ ms, m.1 < name) : insertMember name v ms = ms ++ [(name, v)] := by
  induction ms with
  | nil => rfl
  | cons m ms ih =>
      obtain ⟨n, w⟩ := m
      have before : n < name := last (n, w) List.mem_cons_self
      have notAfter : ¬ name < n := String.lt_asymm before
      have other : ¬ name = n := fun same => String.lt_irrefl n (same ▸ before)
      rw [insertMember, if_neg notAfter, if_neg other,
        ih fun m member => last m (List.mem_cons_of_mem _ member)]
      rfl

theorem ofMembers_of_ascending (ms : List (String × Json)) (sorted : Ascending ms) :
    Json.ofMembers ms = .object ms := by
  have gather : ∀ (done left : List (String × Json)), Ascending left →
      (∀ d ∈ done, ∀ m ∈ left, d.1 < m.1) →
      left.foldl (fun sorted m => insertMember m.1 m.2 sorted) done = done ++ left := by
    intro done left
    induction left generalizing done with
    | nil => intro _ _; exact (List.append_nil done).symm
    | cons m left ih =>
        intro sorted before
        obtain ⟨n, v⟩ := m
        simp only [Ascending] at sorted
        rw [List.foldl_cons,
          insertMember_last n v done fun d member => before d member _ List.mem_cons_self,
          ih _ sorted.2 ?_, List.append_assoc, List.singleton_append]
        intro d member m later
        rcases List.mem_append.mp member with earlier | here
        · exact before d earlier m (List.mem_cons_of_mem _ later)
        · obtain rfl := List.mem_singleton.mp here
          exact sorted.1 m later
  rw [Json.ofMembers, gather [] ms sorted (by intro d none; cases none)]
  rfl

/-! ## Brackets -/

theorem ends_cons {c : Char} {rest : List Char} (plain : isDigit c = false ∧ c ≠ '.' ∧ c ≠ 'e' ∧ c ≠ 'E') :
    Ends (c :: rest) := by
  intro d first
  cases first
  exact plain

theorem ends_itemChars (vs : List Json) (rest : List Char) : Ends (itemChars vs ++ rest) := by
  cases vs with
  | nil => rw [itemChars]; exact ends_cons (by decide)
  | cons v vs => rw [itemChars]; exact ends_cons (by decide)

theorem ends_memberChars (ms : List (String × Json)) (rest : List Char) :
    Ends (memberChars ms ++ rest) := by
  cases ms with
  | nil => rw [memberChars]; exact ends_cons (by decide)
  | cons m ms => obtain ⟨n, v⟩ := m; rw [memberChars]; exact ends_cons (by decide)

theorem length_itemChars (vs : List Json) : vs.length < (itemChars vs).length := by
  induction vs with
  | nil => simp [itemChars]
  | cons v vs ih => simp [itemChars]; omega

theorem length_memberChars (ms : List (String × Json)) : ms.length < (memberChars ms).length := by
  induction ms with
  | nil => simp [memberChars]
  | cons m ms ih => obtain ⟨n, v⟩ := m; simp [memberChars]; omega

theorem value_integer (i : WideInt) (d : Nat) (rest : List Char) (ends : Ends rest) :
    value (d + 1) (decimalInt i.val ++ rest) = .ok (.number (.integer i), rest) := by
  obtain ⟨c, cs, text, read⟩ := integer_read i ends
  have solid : isBlank c = false := (opens_of_integer ends text).1
  rw [text, value, skipBlanks_cons solid]
  rcases read with ⟨dash, read⟩ | ⟨plain, digit, read⟩
  · subst dash
    simp [read, yields]
  · have letters : c ≠ 'n' ∧ c ≠ 't' ∧ c ≠ 'f' := by
      refine ⟨?_, ?_, ?_⟩ <;> (rintro rfl; exact absurd digit (by decide))
    simp [letters, plain, digit, read, yields]

theorem stringChars_append (s : String) (rest : List Char) :
    stringChars s ++ rest = '"' :: (s.toList.flatMap escapeChar ++ '"' :: rest) := by
  rw [stringChars, List.append_assoc, List.cons_append, List.singleton_append]

theorem value_text (s : String) (d : Nat) (rest : List Char) :
    value (d + 1) (stringChars s ++ rest) = .ok (.text s, rest) := by
  rw [stringChars_append, value, skipBlanks_cons rfl]
  simp [string_escaped, yields, isDigit]

theorem value_array (d : Nat) (rest : List Char) :
    value (d + 2) ('[' :: rest)
      = yields .array (items (value (d + 1)) [] (rest.length + 1) true rest) := by
  rw [value, skipBlanks_cons rfl]
  rfl

theorem value_object (d : Nat) (rest : List Char) :
    value (d + 2) ('\x7b' :: rest)
      = yields .ofMembers (members (value (d + 1)) [] (rest.length + 1) true rest) := by
  rw [value, skipBlanks_cons rfl]
  rfl

theorem listTurn_first {c : Char} {cs : List Char} (opens : Opens c) :
    listTurn true (c :: cs) = .ok (.item (c :: cs)) := by
  rw [listTurn, skipBlanks_cons opens.1]
  simp only [if_neg opens.2.1, if_true]

theorem listTurn_next {c : Char} {cs : List Char} (opens : Opens c) :
    listTurn false (',' :: c :: cs) = .ok (.item (c :: cs)) := by
  rw [listTurn, skipBlanks_cons rfl]
  simp [skipBlanks_cons opens.1, opens.2.1]

theorem items_first {α : Type} {one : List Char → Read α} {c : Char} {cs rest : List Char} {v : α}
    (fuel : Nat) (opens : Opens c) (read : one (c :: cs) = .ok (v, rest)) :
    items one [] (fuel + 1) true (c :: cs) = items one [v] fuel false rest := by
  rw [items, listTurn_first opens]
  simp only [read]

theorem items_next {α : Type} {one : List Char → Read α} {c : Char} {cs rest : List Char} {v : α}
    (done : List α) (fuel : Nat) (opens : Opens c) (read : one (c :: cs) = .ok (v, rest)) :
    items one done (fuel + 1) false (',' :: c :: cs) = items one (v :: done) fuel false rest := by
  rw [items, listTurn_next opens]
  simp only [read]

theorem items_close {α : Type} (one : List Char → Read α) (done : List α) (fuel : Nat) (first : Bool)
    (rest : List Char) : items one done (fuel + 1) first (']' :: rest) = .ok (done.reverse, rest) := by
  rw [items, listTurn, skipBlanks_cons rfl]
  rfl

theorem objectTurn_first (rest : List Char) : objectTurn true ('"' :: rest) = .ok (.item rest) := rfl

theorem objectTurn_next (rest : List Char) :
    objectTurn false (',' :: '"' :: rest) = .ok (.item rest) := rfl

theorem objectTurn_close (first : Bool) (rest : List Char) :
    objectTurn first ('\x7d' :: rest) = .ok (.close rest) := rfl

theorem colon_cons (rest : List Char) : colon (':' :: rest) = .ok rest := rfl

theorem members_item {one : List Char → Read Json} {source cs rest : List Char} {name : String}
    {v : Json} (done : List (String × Json)) (fuel : Nat) (first : Bool)
    (turn : objectTurn first source
      = .ok (.item (name.toList.flatMap escapeChar ++ '"' :: ':' :: cs)))
    (read : one cs = .ok (v, rest)) :
    members one done (fuel + 1) first source = members one ((name, v) :: done) fuel false rest := by
  rw [members, turn]
  simp only [string_escaped, colon_cons, read]

theorem members_close (one : List Char → Read Json) (done : List (String × Json)) (fuel : Nat)
    (first : Bool) (rest : List Char) :
    members one done (fuel + 1) first ('\x7d' :: rest) = .ok (done.reverse, rest) := by
  rw [members, objectTurn_close]

/-! ## Values of any kind -/

mutual

/-- The text of a value is read as that value, and what stands behind it is left. -/
theorem value_chars (v : Json) (d : Nat) (rest : List Char) (shallow : v.depth < d)
    (canonical : v.Canonical) (integral : v.Integral) (ends : Ends rest) :
    value d (v.chars ++ rest) = .ok (v, rest) := by
  obtain ⟨d, rfl⟩ : ∃ e, d = e + 1 := ⟨d - 1, by omega⟩
  match v with
  | .null => rw [Json.chars, value.eq_def]; rfl
  | .bool true => rw [Json.chars, value.eq_def]; rfl
  | .bool false => rw [Json.chars, value.eq_def]; rfl
  | .number (.integer i) =>
      rw [Json.chars, Number.chars]
      exact value_integer i d rest ends
  | .number (.real x) => simp [Json.Integral] at integral
  | .text s =>
      rw [Json.chars]
      exact value_text s d rest
  | .array [] =>
      simp only [Json.depth] at shallow
      obtain ⟨d, rfl⟩ : ∃ e, d = e + 1 := ⟨d - 1, by omega⟩
      rw [Json.chars, List.cons_append, value_array, List.singleton_append, items_close]
      rfl
  | .array (v :: vs) =>
      simp only [Json.depth, depthItems, Json.Canonical, CanonicalItems, Json.Integral,
        IntegralItems] at shallow canonical integral
      obtain ⟨d, rfl⟩ : ∃ e, d = e + 1 := ⟨d - 1, by omega⟩
      have behind : Ends (itemChars vs ++ rest) := ends_itemChars vs rest
      have head := value_chars v (d + 1) (itemChars vs ++ rest) (by omega) canonical.1 integral.1 behind
      have tail := fun fuel => items_itemChars vs (d + 1) fuel [v] rest (by omega) canonical.2 integral.2
      have longer := length_itemChars vs
      -- The reader counts its turns by the characters left, and each item takes one at least.
      obtain ⟨c, cs, text, opens⟩ := chars_eq_cons v integral.1 _ behind
      have enough : vs.length < (c :: cs).length := by
        simp only [← text, List.length_append]
        omega
      rw [Json.chars, List.append_assoc, List.cons_append, text, value_array,
        items_first _ opens (text ▸ head), tail _ enough]
      rfl
  | .object [] =>
      simp only [Json.depth] at shallow
      obtain ⟨d, rfl⟩ : ∃ e, d = e + 1 := ⟨d - 1, by omega⟩
      rw [Json.chars, List.cons_append, value_object, List.singleton_append, members_close]
      rfl
  | .object ((n, v) :: ms) =>
      simp only [Json.depth, depthMembers, Json.Canonical, CanonicalMembers, Json.Integral,
        IntegralMembers] at shallow canonical integral
      obtain ⟨d, rfl⟩ : ∃ e, d = e + 1 := ⟨d - 1, by omega⟩
      have behind : Ends (memberChars ms ++ rest) := ends_memberChars ms rest
      have head := value_chars v (d + 1) (memberChars ms ++ rest) (by omega) canonical.2.1 integral.1
        behind
      have tail := fun fuel =>
        members_memberChars ms (d + 1) fuel [(n, v)] rest (by omega) canonical.2.2 integral.2
      have longer := length_memberChars ms
      have enough : ms.length < (stringChars n ++ ':' :: (v.chars ++ (memberChars ms ++ rest))).length := by
        simp only [List.length_append, List.length_cons]
        omega
      rw [Json.chars, List.append_assoc, List.append_assoc, List.cons_append, List.cons_append,
        value_object, members_item [] _ true (stringChars_append n _ ▸ objectTurn_first _) head,
        tail _ enough]
      exact congrArg (fun v => Except.ok (v, rest)) (ofMembers_of_ascending _ canonical.1)

theorem items_itemChars (vs : List Json) (d fuel : Nat) (done : List Json) (rest : List Char)
    (shallow : depthItems vs < d) (canonical : CanonicalItems vs) (integral : IntegralItems vs)
    (enough : vs.length < fuel) :
    items (value d) done fuel false (itemChars vs ++ rest) = .ok (done.reverse ++ vs, rest) := by
  obtain ⟨fuel, rfl⟩ : ∃ f, fuel = f + 1 := ⟨fuel - 1, by omega⟩
  match vs with
  | [] => rw [itemChars, List.singleton_append, items_close, List.append_nil]
  | v :: vs =>
      simp only [depthItems, CanonicalItems, IntegralItems] at shallow canonical integral
      rw [List.length_cons] at enough
      have behind : Ends (itemChars vs ++ rest) := ends_itemChars vs rest
      have head := value_chars v d (itemChars vs ++ rest) (by omega) canonical.1 integral.1 behind
      obtain ⟨c, cs, text, opens⟩ := chars_eq_cons v integral.1 _ behind
      rw [itemChars, List.append_assoc, List.cons_append, text,
        items_next done fuel opens (text ▸ head),
        items_itemChars vs d fuel (v :: done) rest (by omega) canonical.2 integral.2 (by omega),
        List.reverse_cons, List.append_assoc, List.singleton_append]

theorem members_memberChars (ms : List (String × Json)) (d fuel : Nat)
    (done : List (String × Json)) (rest : List Char) (shallow : depthMembers ms < d)
    (canonical : CanonicalMembers ms) (integral : IntegralMembers ms) (enough : ms.length < fuel) :
    members (value d) done fuel false (memberChars ms ++ rest) = .ok (done.reverse ++ ms, rest) := by
  obtain ⟨fuel, rfl⟩ : ∃ f, fuel = f + 1 := ⟨fuel - 1, by omega⟩
  match ms with
  | [] => rw [memberChars, List.singleton_append, members_close, List.append_nil]
  | (n, v) :: ms =>
      simp only [depthMembers, CanonicalMembers, IntegralMembers] at shallow canonical integral
      rw [List.length_cons] at enough
      have behind : Ends (memberChars ms ++ rest) := ends_memberChars ms rest
      have head := value_chars v d (memberChars ms ++ rest) (by omega) canonical.1 integral.1 behind
      rw [memberChars, List.append_assoc, List.append_assoc, List.cons_append, List.cons_append,
        members_item done fuel false (stringChars_append n _ ▸ objectTurn_next _) head,
        members_memberChars ms d fuel ((n, v) :: done) rest (by omega) canonical.2 integral.2 (by omega),
        List.reverse_cons, List.append_assoc, List.singleton_append]

end

end FlexLink.Json.Reader
