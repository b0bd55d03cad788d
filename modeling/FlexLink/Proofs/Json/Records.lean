import FlexLink.Proofs.Json.Values

/-! # Written records are read back

`ReadsBack` says of one value and one text that a shape reads the text as the value, whatever stands
behind it.  `Fills` follows the members of a record through the drafts that they make, absent members
left out; a record whose members fill a draft reads back what the draft makes. -/
set_option autoImplicit false
namespace FlexLink.Json

namespace Shape

variable {α : Type}

/-- Whether the shape reads `text` as `x`, whatever stands behind the text. -/
def ReadsBack (s : Shape α) (depth : Nat) (x : α) (text : List Char) : Prop :=
  ∀ rest, Reader.Ends rest → s.read depth (text ++ rest) = .ok (x, rest)

theorem parse_of_readsBack {s : Shape α} {x : α} {text : List Char}
    (back : s.ReadsBack Reader.depthLimit x text) : s.parse (String.ofList text) = .ok x := by
  have nothing : Reader.Ends [] := fun _ none => by cases none
  have read := back [] nothing
  rw [List.append_nil] at read
  rw [parse, String.toList_ofList, Reader.whole, read]
  rfl

theorem readsBack_ofInteger {expected : String} {narrow : WideInt → Option α} {depth : Nat}
    {i : WideInt} {x : α} (fits : narrow i = some x) :
    (ofInteger expected narrow).ReadsBack depth x (decimalInt i.val) := by
  intro rest ends
  obtain ⟨c, cs, text, read⟩ := Reader.integer_read i ends
  rw [text, ofInteger, ofNumber]
  simp only [Reader.skipBlanks_cons (Reader.opens_of_integer ends text).1]
  rcases read with ⟨dash, read⟩ | ⟨plain, digit, read⟩
  · simp only [dash, if_true, read, Reader.checked, fits]
  · rw [if_neg plain, if_pos digit, read]
    simp only [Reader.checked, fits]

theorem ofValue_ofInteger {expected : String} {narrow : WideInt → Option α} {i : WideInt} {x : α}
    (fits : narrow i = some x) : (ofInteger expected narrow).ofValue (.number (.integer i)) = .ok x := by
  simp only [ofInteger, ofNumber, fits]

theorem toInt64?_ofInt64 (i : Int64) : (WideInt.ofInt64 i).toInt64? = some i := by
  have upper : i.toInt < 0x8000000000000000 := i.toInt_lt
  rw [WideInt.toInt64?, WideInt.ofInt64, if_pos upper, Int64.ofInt_toInt]

theorem toUInt64?_ofUInt64 (n : UInt64) : (WideInt.ofUInt64 n).toUInt64? = some n := by
  rw [WideInt.toUInt64?, WideInt.ofUInt64, if_pos (Int.natCast_nonneg _), Int.toNat_natCast,
    UInt64.ofNat_toNat]

theorem readsBack_int64 (depth : Nat) (i : Int64) :
    int64.ReadsBack depth i (decimalInt i.toInt) :=
  readsBack_ofInteger (i := .ofInt64 i) (toInt64?_ofInt64 i)

theorem decimalInt_natCast (n : Nat) : decimalInt n = decimalDigits n := by
  rw [decimalInt, if_neg (by omega), Int.natAbs_natCast]

theorem readsBack_uint64 (depth : Nat) (n : UInt64) :
    uint64.ReadsBack depth n (decimalDigits n.toNat) := by
  rw [← decimalInt_natCast]
  exact readsBack_ofInteger (i := .ofUInt64 n) (toUInt64?_ofUInt64 n)

theorem readsBack_uint32 (depth : Nat) (n : UInt32) :
    uint32.ReadsBack depth n (decimalDigits n.toNat) := by
  have upper := n.toNat_lt
  have wide : (n.toNat : Int) < 0x100000000 := by omega
  rw [← decimalInt_natCast]
  refine readsBack_ofInteger (i := ⟨n.toNat, by omega, by omega⟩) ?_
  rw [WideInt.toUInt32?, if_pos ⟨Int.natCast_nonneg _, wide⟩]
  exact congrArg some (UInt32.ofNat_toNat (x := n))

theorem readsBack_text (depth : Nat) (s : String) : text.ReadsBack depth s (stringChars s) := by
  intro rest _
  rw [Reader.stringChars_append, text]
  exact Reader.string_escaped s rest

theorem readsBack_any {depth : Nat} {v : Json} (shallow : v.depth < depth)
    (canonical : v.Canonical) (integral : v.Integral) : any.ReadsBack depth v v.chars := by
  intro rest ends
  exact Reader.value_chars v depth rest shallow canonical integral ends

section Lists

variable {s : Shape α} {write : α → Json} {depth : Nat} {xs : List α}

theorem items_read (back : ∀ x ∈ xs, s.ReadsBack depth x (write x).chars)
    (integral : ∀ x ∈ xs, (write x).Integral) (fuel : Nat) (done : List α) (rest : List Char)
    (enough : xs.length < fuel) :
    Reader.items (s.read depth) done fuel false (itemChars (xs.map write) ++ rest)
      = .ok (done.reverse ++ xs, rest) := by
  induction xs generalizing fuel done with
  | nil =>
      obtain ⟨fuel, rfl⟩ : ∃ f, fuel = f + 1 := ⟨fuel - 1, by omega⟩
      rw [List.map_nil, itemChars, List.singleton_append, Reader.items_close, List.append_nil]
  | cons x xs ih =>
      obtain ⟨here, others⟩ := List.forall_mem_cons.mp back
      obtain ⟨solid, sound⟩ := List.forall_mem_cons.mp integral
      rw [List.length_cons] at enough
      obtain ⟨fuel, rfl⟩ : ∃ f, fuel = f + 1 := ⟨fuel - 1, by omega⟩
      have behind := Reader.ends_itemChars (xs.map write) rest
      have read := here _ behind
      obtain ⟨c, cs, text, opens⟩ := Reader.chars_eq_cons (write x) solid _ behind
      rw [List.map_cons, itemChars, List.append_assoc, List.cons_append, text,
        Reader.items_next done fuel opens (text ▸ read), ih others sound fuel (x :: done) (by omega),
        List.reverse_cons, List.append_assoc, List.singleton_append]

/-- A list of values that are read back one by one. -/
theorem readsBack_list (back : ∀ x ∈ xs, s.ReadsBack depth x (write x).chars)
    (integral : ∀ x ∈ xs, (write x).Integral) (positive : 0 < depth) :
    (list s).ReadsBack (depth + 1) xs (Json.array (xs.map write)).chars := by
  intro rest _
  have deep : ¬ depth + 1 ≤ 1 := by omega
  have opened (source : List Char) : (list s).read (depth + 1) ('[' :: source)
      = Reader.items (s.read depth) [] (source.length + 1) true source := by
    have bracket : Reader.skipBlanks ('[' :: source) = '[' :: source := Reader.skipBlanks_cons rfl
    simp only [list, bracket, if_true, if_neg deep, Nat.add_sub_cancel]
  cases xs with
  | nil =>
      rw [List.map_nil, Json.chars, List.cons_append, opened, List.singleton_append,
        Reader.items_close]
      rfl
  | cons x xs =>
      obtain ⟨here, others⟩ := List.forall_mem_cons.mp back
      obtain ⟨solid, sound⟩ := List.forall_mem_cons.mp integral
      have behind := Reader.ends_itemChars (xs.map write) rest
      have read := here _ behind
      obtain ⟨c, cs, text, opens⟩ := Reader.chars_eq_cons (write x) solid _ behind
      have longer := Reader.length_itemChars (xs.map write)
      rw [List.length_map] at longer
      have enough : xs.length < (c :: cs).length := by
        rw [← text, List.length_append, List.length_append]
        omega
      rw [List.map_cons, Json.chars, List.append_assoc, List.cons_append, text, opened,
        Reader.items_first _ opens (text ▸ read), items_read others sound _ [x] rest enough]
      rfl

end Lists

/-- A present value of an optional shape: its text must not look like an absent one. -/
theorem readsBack_optional {s : Shape α} {depth : Nat} {x : α} {c : Char} {cs : List Char}
    (solid : Reader.isBlank c = false) (present : c ≠ 'n') (back : s.ReadsBack depth x (c :: cs)) :
    (optional s).ReadsBack depth (some x) (c :: cs) := by
  intro rest ends
  have read := back rest ends
  rw [List.cons_append] at read ⊢
  simp only [optional, Reader.skipBlanks_cons solid]
  split
  · next same => exact absurd (List.cons.inj same).1 present
  · rw [read]
    rfl

end Shape

namespace Record

variable {σ α : Type}

def written (members : List (String × Option (List Char))) : List (List Char) :=
  members.filterMap fun m => m.2.map fun value => stringChars m.1 ++ ':' :: value

/-- Members that lead from one draft to another, each read into a field that is still empty. -/
inductive Fills (r : Record σ α) (depth : Nat) :
    σ → List (String × Option (List Char)) → σ → Prop where
  | nil (draft : σ) : Fills r depth draft [] draft
  | absent {draft final : σ} {name : String} {members : List (String × Option (List Char))}
      (more : Fills r depth draft members final) :
      Fills r depth draft ((name, none) :: members) final
  | present {draft next final : σ} {name : String} {value : List Char} {f : Field σ}
      {members : List (String × Option (List Char))}
      (known : r.field? name = some f) (empty : f.filled draft = false)
      (read : ∀ rest, Reader.Ends rest → f.read depth draft (value ++ rest) = .ok (next, rest))
      (more : Fills r depth next members final) :
      Fills r depth draft ((name, some value) :: members) final

theorem ends_members_append (ws : List (List Char)) {behind : List Char} (ends : Reader.Ends behind) :
    Reader.Ends (ws.flatMap (',' :: ·) ++ behind) := by
  cases ws with
  | nil => exact ends
  | cons w ws => exact Reader.ends_cons (by decide)

theorem ends_members (ws : List (List Char)) (rest : List Char) :
    Reader.Ends (ws.flatMap (',' :: ·) ++ '\x7d' :: rest) :=
  ends_members_append ws (Reader.ends_cons (by decide))

theorem readMembers_item {r : Record σ α} {depth : Nat} {f : Field σ} {draft next : σ}
    {source value rest : List Char} {name : String} (fuel : Nat) (first : Bool)
    (turn : Reader.objectTurn first source
      = .ok (.item (name.toList.flatMap escapeChar ++ '"' :: ':' :: (value ++ rest))))
    (known : r.field? name = some f) (empty : f.filled draft = false)
    (read : f.read depth draft (value ++ rest) = .ok (next, rest)) :
    r.readMembers depth (fuel + 1) first draft source
      = r.readMembers depth fuel false next rest := by
  rw [readMembers, turn]
  simp only [Reader.string_escaped, known, empty, Reader.colon_cons, read]
  rfl

/-- Members behind the first one, each after a comma, are read up to whatever stands behind them. -/
theorem readMembers_fills {r : Record σ α} {depth : Nat} {draft final : σ}
    {ms : List (String × Option (List Char))} (fills : r.Fills depth draft ms final) (fuel : Nat)
    {behind : List Char} (ends : Reader.Ends behind) :
    r.readMembers depth (fuel + (written ms).length) false draft
        ((written ms).flatMap (',' :: ·) ++ behind)
      = r.readMembers depth fuel false final behind := by
  induction fills with
  | nil draft => rfl
  | absent more ih => exact ih
  | @present draft next final name value f ms known empty read more ih =>
      have split : written ((name, some value) :: ms) = (stringChars name ++ ':' :: value) :: written ms :=
        rfl
      rw [split, List.flatMap_cons, List.append_assoc, List.cons_append, List.append_assoc,
        List.cons_append, List.length_cons, ← Nat.add_assoc,
        readMembers_item _ false (Reader.stringChars_append name _ ▸ Reader.objectTurn_next _) known
          empty (read _ (ends_members_append _ ends)), ih]

theorem readMembers_next {r : Record σ α} {depth : Nat} {draft final : σ}
    {ms : List (String × Option (List Char))} (fills : r.Fills depth draft ms final) (fuel : Nat)
    (rest : List Char) (enough : (written ms).length < fuel) :
    r.readMembers depth fuel false draft ((written ms).flatMap (',' :: ·) ++ '\x7d' :: rest)
      = .ok (final, rest) := by
  obtain ⟨more, rfl⟩ : ∃ more, fuel = more + 1 + (written ms).length :=
    ⟨fuel - 1 - (written ms).length, by omega⟩
  rw [readMembers_fills fills (more + 1) (Reader.ends_cons (by decide))]
  rfl

theorem intersperse_flatten (w : List Char) (ws : List (List Char)) :
    ((w :: ws).intersperse [',']).flatten = w ++ ws.flatMap (',' :: ·) := by
  induction ws generalizing w with
  | nil => rfl
  | cons v ws ih =>
      rw [List.intersperse_cons_cons, List.flatten_cons, List.flatten_cons, ih, List.flatMap_cons]
      rfl

theorem readMembers_first {r : Record σ α} {depth : Nat} {draft final : σ}
    {ms : List (String × Option (List Char))} (fills : r.Fills depth draft ms final) (fuel : Nat)
    (rest : List Char) (enough : (written ms).length < fuel) :
    r.readMembers depth fuel true draft (((written ms).intersperse [',']).flatten ++ '\x7d' :: rest)
      = .ok (final, rest) := by
  induction fills generalizing fuel with
  | nil draft =>
      obtain ⟨fuel, rfl⟩ : ∃ f, fuel = f + 1 := ⟨fuel - 1, by omega⟩
      rfl
  | absent more ih => exact ih fuel enough
  | @present draft next final name value f ms known empty read more _ =>
      have split : written ((name, some value) :: ms) = (stringChars name ++ ':' :: value) :: written ms :=
        rfl
      rw [split, List.length_cons] at enough
      obtain ⟨fuel, rfl⟩ : ∃ f, fuel = f + 1 := ⟨fuel - 1, by omega⟩
      rw [split, intersperse_flatten, List.append_assoc, List.append_assoc, List.cons_append,
        readMembers_item fuel true (Reader.stringChars_append name _ ▸ Reader.objectTurn_first _)
          known empty (read _ (ends_members _ rest)), readMembers_next more fuel rest (by omega)]

theorem length_written_le (ms : List (String × Option (List Char))) :
    (written ms).length ≤ ((written ms).intersperse [',']).flatten.length := by
  have long : ∀ w ∈ written ms, 0 < w.length := by
    intro w member
    obtain ⟨m, -, made⟩ := List.mem_filterMap.mp member
    obtain ⟨value, -, rfl⟩ := Option.map_eq_some_iff.mp made
    simp [stringChars]
  cases ws : written ms with
  | nil => exact Nat.zero_le _
  | cons w ws' =>
      rw [ws] at long
      rw [intersperse_flatten, List.length_append, List.length_flatMap, List.length_cons]
      have first := long w List.mem_cons_self
      have others : ws'.length ≤ (ws'.map fun v => (',' :: v).length).sum := by
        clear long first ws
        induction ws' with
        | nil => exact Nat.le_refl _
        | cons v ws ih =>
            rw [List.map_cons, List.sum_cons, List.length_cons, List.length_cons]
            omega
      omega

/-- A record reads back what its members make, if brackets may be opened for it. -/
theorem readsBack_recordChars {r : Record σ α} {depth : Nat} {final : σ} {x : α}
    {ms : List (String × Option (List Char))} (deep : 1 < depth)
    (fills : r.Fills (depth - 1) r.blank ms final) (made : r.finish final = .ok x) :
    r.shape.ReadsBack depth x (recordChars ms) := by
  intro rest _
  have text : recordChars ms ++ rest
      = '\x7b' :: (((written ms).intersperse [',']).flatten ++ '\x7d' :: rest) := by
    rw [recordChars, List.append_assoc]
    rfl
  have enough : (written ms).length
      < (((written ms).intersperse [',']).flatten ++ '\x7d' :: rest).length + 1 := by
    have := length_written_le ms
    rw [List.length_append]
    omega
  rw [text]
  have own : r.shape.read = r.read := rfl
  rw [own, Record.read, Reader.skipBlanks_cons rfl]
  simp only [Char.reduceEq, if_false, if_true, if_neg (Nat.not_le.mpr deep)]
  rw [readMembers_first fills _ rest enough]
  simp only [Reader.checked, complete, made]

namespace Fills

theorem append {r : Record σ α} {depth : Nat} {draft mid final : σ}
    {ms more : List (String × Option (List Char))} (fills : r.Fills depth draft ms mid)
    (later : r.Fills depth mid more final) : r.Fills depth draft (ms ++ more) final := by
  induction fills with
  | nil draft => exact later
  | absent _ ih => exact .absent (ih later)
  | present known empty read _ ih => exact .present known empty read (ih later)

/-- A member of a typed field. -/
theorem typed {β : Type} {r : Record σ α} {depth : Nat} {draft final : σ} {name : String}
    {shape : Shape β} {get : σ → Option β} {set : σ → β → σ} {fallback : Option β} {x : β}
    {value : List Char} {ms : List (String × Option (List Char))}
    (known : r.field? name = some (.typed name shape get set fallback)) (empty : get draft = none)
    (back : shape.ReadsBack depth x value) (more : r.Fills depth (set draft x) ms final) :
    r.Fills depth draft ((name, some value) :: ms) final := by
  refine .present known ?_ ?_ more
  · simp only [Field.typed, empty, Option.isSome_none]
  · intro rest ends
    simp only [Field.typed, back rest ends, Reader.yields]

/-- A member of a typed field that may be absent: the draft then keeps what it has. -/
theorem optional {β : Type} {r : Record σ α} {depth : Nat} {draft final : σ} {name : String}
    {shape : Shape β} {get : σ → Option (Option β)} {set : σ → Option β → σ}
    {fallback : Option (Option β)} {x : Option β} {write : β → List Char}
    {ms : List (String × Option (List Char))} (next : σ)
    (known : r.field? name = some (.typed name (.optional shape) get set fallback))
    (empty : get draft = none)
    (back : ∀ y, (Shape.optional shape).ReadsBack depth (some y) (write y))
    (step : next = x.elim draft fun y => set draft (some y))
    (more : r.Fills depth next ms final) :
    r.Fills depth draft ((name, x.map write) :: ms) final := by
  cases x with
  | none =>
      rw [step] at more
      exact .absent more
  | some y =>
      rw [step] at more
      exact .typed known empty (back y) more

end Fills

end Record
end FlexLink.Json
