import FlexLink.Proofs.Json.Values

/-! # Written values are passed over

A member that is not known is skipped by a machine of three stages with a list of open brackets and a
count of steps.  `Passes` says that the machine comes from one place to another in some steps whatever
steps are left, so that passages are put together; `passes_value` takes the machine behind the text of a
value in at most three steps for each of its characters. -/
set_option autoImplicit false
namespace FlexLink.Json.Reader

/-! ## Scalars -/

theorem skipString_escapeChar (c : Char) (rest : List Char) :
    skipString 0 (escapeChar c ++ rest) = skipString 0 rest := by
  unfold escapeChar
  split
  · rfl
  split
  · rfl
  split
  · rfl
  split
  · rfl
  split
  · rfl
  split
  · rfl
  split
  · rfl
  split
  · next control =>
    have small : c.toNat < 32 := control
    have zero : Hex.value? '0' = some 0 := rfl
    have used : escapeLength
        ('u' :: '0' :: '0' :: lowHex (c.toNat / 16) :: lowHex (c.toNat % 16) :: rest) = .ok 5 := by
      rw [escapeLength, hexQuad, zero, value?_lowHex _ (by omega), value?_lowHex _ (by omega)]
    simp only [List.cons_append, List.nil_append]
    rw [skipString, if_neg (by decide), if_pos rfl, used]
    rfl
  · next quote slash _ _ _ _ _ control =>
    rw [List.singleton_append, skipString, if_neg quote, if_neg slash, if_neg control]

theorem skipString_escaped (s rest : List Char) :
    skipString 0 (s.flatMap escapeChar ++ '"' :: rest) = .ok rest := by
  induction s with
  | nil => exact if_pos rfl
  | cons c s ih => rw [List.flatMap_cons, List.append_assoc, skipString_escapeChar, ih]

theorem extraDigits_append (ds rest : List Char) (count : Nat) (digits : ∀ c ∈ ds, isDigit c = true)
    (stops : ∀ c ∈ rest.head?, isDigit c = false) : (extraDigits count (ds ++ rest)).2 = rest := by
  induction ds generalizing count with
  | nil =>
      cases rest with
      | nil => rfl
      | cons c rest =>
          have stop : isDigit c = false := stops c rfl
          simp [extraDigits, stop]
  | cons d ds ih =>
      obtain ⟨digit, others⟩ := List.forall_mem_cons.mp digits
      rw [List.cons_append, extraDigits, if_pos digit]
      exact ih _ others

theorem skipFraction_of_ends {rest : List Char} (ends : Ends rest) : skipFraction rest = .ok rest := by
  have tail : skipNumberTail rest = .ok rest := by
    unfold skipNumberTail
    split
    · exact absurd rfl (ends 'e' rfl).2.2.1
    · exact absurd rfl (ends 'E' rfl).2.2.2
    · rfl
  unfold skipFraction
  split
  · exact absurd rfl (ends '.' rfl).2.1
  · exact tail

theorem skipNumber_decimalDigits (n : Nat) {rest : List Char} (ends : Ends rest) :
    skipNumber (decimalDigits n ++ rest) = .ok rest := by
  rcases Nat.eq_zero_or_pos n with zero | positive
  · subst zero
    cases rest with
    | nil => rfl
    | cons c rest =>
        have stop : isDigit c = false := (ends c rfl).1
        simp [decimalDigits, skipNumber, stop, skipFraction_of_ends ends]
  · obtain ⟨c, ds, digits, leading⟩ := head_decimalDigits positive
    have all : ∀ d ∈ c :: ds, isDigit d = true := fun d member =>
      isDigit_of_mem_decimalDigits (digits ▸ member)
    obtain ⟨first, others⟩ := List.forall_mem_cons.mp all
    rw [digits, List.cons_append]
    unfold skipNumber
    split
    · contradiction
    · next same => exact absurd (List.cons.inj same).1 leading
    · next same =>
      cases same
      rw [if_pos first, extraDigits_append ds rest 0 others fun d here => (ends d here).1,
          skipFraction_of_ends ends]

theorem skipScalar_integer (i : WideInt) :
    ∃ c cs, decimalInt i.val = c :: cs ∧ isBlank c = false ∧ c ≠ '[' ∧ c ≠ '\x7b' ∧
      ∀ rest, Ends rest → skipScalar c (cs ++ rest) = .ok rest := by
  have skip {rest : List Char} (ends : Ends rest) := skipNumber_decimalDigits i.val.natAbs ends
  by_cases below : i.val < 0
  · refine ⟨'-', decimalDigits i.val.natAbs, ?_, rfl, by decide, by decide, fun _ => skip⟩
    rw [decimalInt, if_pos below]
  · cases digits : decimalDigits i.val.natAbs with
    | nil => exact absurd digits Nat.toDigits_ne_nil
    | cons c ds =>
        have digit : isDigit c = true :=
          isDigit_of_mem_decimalDigits (n := i.val.natAbs) (digits ▸ List.mem_cons_self)
        rw [digits] at skip
        have other (d : Char) (no : isDigit d = false) : c ≠ d := by
          rintro rfl
          rw [digit] at no
          cases no
        refine ⟨c, ds, ?_, not_blank_of_isDigit digit, other _ rfl, other _ rfl, fun rest ends => ?_⟩
        · rw [decimalInt, if_neg below, digits]
        · rw [skipScalar, if_neg (other _ rfl), if_neg (other _ rfl), if_neg (other _ rfl),
            if_neg (other _ rfl), if_pos digit]
          exact skip ends

/-! ## Passages -/

/-- Whether the machine comes from one stage and text to another in `k` steps, whatever is left. -/
def Passes (k : Nat) (stage : Stage) (opened : List Bracket) (source : List Char) (later : Stage)
    (still : List Bracket) (rest : List Char) : Prop :=
  ∀ fuel, skipFrom (k + fuel) stage opened source = skipFrom fuel later still rest

variable {stage middle later : Stage} {opened between still : List Bracket}
  {source text rest : List Char} {j k : Nat} {b : Bracket}

theorem Passes.trans (first : Passes j stage opened source middle between text)
    (second : Passes k middle between text later still rest) :
    Passes (j + k) stage opened source later still rest := by
  intro fuel
  rw [Nat.add_assoc, first, second]

theorem passes_step
    (step : ∀ fuel, skipFrom (fuel + 1) stage opened source = skipFrom fuel later still rest) :
    Passes 1 stage opened source later still rest := by
  intro fuel
  rw [Nat.add_comm]
  exact step fuel

theorem passes_scalar {c : Char} (solid : isBlank c = false) (list : c ≠ '[') (object : c ≠ '\x7b')
    (skip : skipScalar c text = .ok rest) :
    Passes 1 .value opened (c :: text) .next opened rest := by
  refine passes_step fun fuel => ?_
  rw [skipFrom, skipBlanks_cons solid]
  simp only [if_neg list, if_neg object, skip]

theorem passes_close (closing : stage = .first ∨ stage = .next) :
    Passes 1 stage (b :: opened) (b.closing :: rest) .next opened rest := by
  refine passes_step fun fuel => ?_
  rcases closing with rfl | rfl
  · cases b <;> rfl
  · cases b <;> rfl

theorem passes_list : Passes 1 .value opened ('[' :: rest) .first (.list :: opened) rest :=
  passes_step fun _ => rfl

theorem passes_object : Passes 1 .value opened ('\x7b' :: rest) .first (.object :: opened) rest :=
  passes_step fun _ => rfl

theorem passes_firstItem {c : Char} (opens : Opens c) :
    Passes 1 .first (.list :: opened) (c :: rest) .value (.list :: opened) (c :: rest) := by
  refine passes_step fun fuel => ?_
  have more : c ≠ Bracket.list.closing := opens.2.1
  rw [skipFrom, skipBlanks_cons opens.1]
  simp only [if_neg more, skipToItem]

theorem passes_nextItem :
    Passes 1 .next (.list :: opened) (',' :: rest) .value (.list :: opened) rest :=
  passes_step fun _ => rfl

theorem skipName_escaped (name : String) (rest : List Char) :
    skipName (stringChars name ++ ':' :: rest) = .ok rest := by
  rw [stringChars_append, skipName, skipBlanks_cons rfl]
  simp only [if_true, skipString_escaped, colon_cons]

theorem passes_firstMember (name : String) :
    Passes 1 .first (.object :: opened) (stringChars name ++ ':' :: rest) .value (.object :: opened)
      rest := by
  refine passes_step fun fuel => ?_
  have skip := skipName_escaped name rest
  rw [stringChars_append] at skip ⊢
  have more : '"' ≠ Bracket.object.closing := by decide
  rw [skipFrom, skipBlanks_cons rfl]
  simp only [if_neg more, skipToItem, skip]

theorem passes_nextMember (name : String) :
    Passes 1 .next (.object :: opened) (',' :: (stringChars name ++ ':' :: rest)) .value
      (.object :: opened) rest := by
  refine passes_step fun fuel => ?_
  have more : ',' ≠ Bracket.object.closing := by decide
  rw [skipFrom, skipBlanks_cons rfl]
  simp only [if_neg more, if_true, skipToItem, skipName_escaped]

/-! ## Values of any kind -/

/-- Whether the machine goes behind a text in at most three steps for each of its characters. -/
def Skips (stage : Stage) (opened : List Bracket) (text rest : List Char) (still : List Bracket) :
    Prop :=
  ∃ k, k ≤ 3 * text.length ∧ Passes k stage opened (text ++ rest) .next still rest

theorem skips_scalar {c : Char} {cs : List Char} (solid : isBlank c = false) (list : c ≠ '[')
    (object : c ≠ '\x7b') (skip : skipScalar c (cs ++ rest) = .ok rest) :
    Skips .value opened (c :: cs) rest opened :=
  ⟨1, Nat.le_add_left 1 _, passes_scalar solid list object skip⟩

theorem skips_close (closing : stage = .first ∨ stage = .next) :
    Skips stage (b :: opened) [b.closing] rest opened :=
  ⟨1, Nat.le_add_left 1 2, passes_close closing⟩

/-- What leads to a value, the value, and what stands behind it in the same bracket. -/
theorem Passes.enclose {c : Char} {head back : List Char}
    (enter : Passes j stage opened (c :: head ++ (text ++ (back ++ rest))) .value between
      (text ++ (back ++ rest)))
    (few : j ≤ 3) (value : Skips .value between text (back ++ rest) between)
    (others : Skips .next between back rest still) :
    Skips stage opened (c :: head ++ (text ++ back)) rest still := by
  obtain ⟨k, short, passes⟩ := value
  obtain ⟨l, brief, closes⟩ := others
  refine ⟨j + k + l, ?_, ?_⟩
  · simp only [List.length_append, List.length_cons]
    omega
  · rw [List.append_assoc, List.append_assoc]
    exact (enter.trans passes).trans closes

def memberHead (c : Char) (name : String) : List Char := c :: (stringChars name ++ [':'])

theorem memberHead_append (c : Char) (name : String) (rest : List Char) :
    memberHead c name ++ rest = c :: (stringChars name ++ ':' :: rest) := by
  rw [memberHead, List.cons_append, List.append_assoc, List.singleton_append]

theorem memberHead_chars (c : Char) (name : String) (v : Json) (back : List Char) :
    c :: stringChars name ++ ':' :: v.chars ++ back = memberHead c name ++ (v.chars ++ back) := by
  rw [memberHead_append, List.append_assoc, List.cons_append, List.cons_append]

mutual

/-- The machine goes behind the text of a value. -/
theorem skips_value (v : Json) (opened : List Bracket) (rest : List Char) (integral : v.Integral)
    (ends : Ends rest) : Skips .value opened v.chars rest opened := by
  match v with
  | .null =>
      rw [Json.chars]
      exact skips_scalar rfl (by decide) (by decide) rfl
  | .bool true =>
      rw [Json.chars]
      exact skips_scalar rfl (by decide) (by decide) rfl
  | .bool false =>
      rw [Json.chars]
      exact skips_scalar rfl (by decide) (by decide) rfl
  | .number (.integer i) =>
      obtain ⟨c, cs, text, solid, list, object, skip⟩ := skipScalar_integer i
      rw [Json.chars, Number.chars, text]
      exact skips_scalar solid list object (skip rest ends)
  | .number (.real x) => simp [Json.Integral] at integral
  | .text s =>
      have skip := skipString_escaped s.toList rest
      rw [Json.chars, stringChars, List.cons_append]
      refine skips_scalar rfl (by decide) (by decide) ?_
      rw [List.append_assoc]
      exact skip
  | .array [] =>
      rw [Json.chars]
      exact ⟨2, Nat.le_add_left 2 4, passes_list.trans (passes_close (.inl rfl))⟩
  | .array (v :: vs) =>
      simp only [Json.Integral, IntegralItems] at integral
      have behind : Ends (itemChars vs ++ rest) := ends_itemChars vs rest
      obtain ⟨c, cs, text, opens⟩ := chars_eq_cons v integral.1 _ behind
      have enter : Passes 2 .value opened ('[' :: (v.chars ++ (itemChars vs ++ rest))) .value
          (.list :: opened) (v.chars ++ (itemChars vs ++ rest)) := by
        rw [text]
        exact passes_list.trans (passes_firstItem opens)
      rw [Json.chars]
      show Skips .value opened (['['] ++ (v.chars ++ itemChars vs)) rest opened
      exact enter.enclose (Nat.le_add_left 2 1)
        (skips_value v (.list :: opened) (itemChars vs ++ rest) integral.1 behind)
        (skips_items vs opened rest integral.2)
  | .object [] =>
      rw [Json.chars]
      exact ⟨2, Nat.le_add_left 2 4, passes_object.trans (passes_close (.inl rfl))⟩
  | .object ((n, v) :: ms) =>
      simp only [Json.Integral, IntegralMembers] at integral
      have behind : Ends (memberChars ms ++ rest) := ends_memberChars ms rest
      have enter : Passes 2 .value opened (memberHead '\x7b' n ++ (v.chars ++ (memberChars ms ++ rest)))
          .value (.object :: opened) (v.chars ++ (memberChars ms ++ rest)) := by
        rw [memberHead_append]
        exact passes_object.trans (passes_firstMember n)
      rw [Json.chars, memberHead_chars]
      exact enter.enclose (Nat.le_add_left 2 1)
        (skips_value v (.object :: opened) (memberChars ms ++ rest) integral.1 behind)
        (skips_members ms opened rest integral.2)

theorem skips_items (vs : List Json) (opened : List Bracket) (rest : List Char)
    (integral : IntegralItems vs) : Skips .next (.list :: opened) (itemChars vs) rest opened := by
  match vs with
  | [] =>
      rw [itemChars]
      exact skips_close (.inr rfl)
  | v :: vs =>
      simp only [IntegralItems] at integral
      rw [itemChars]
      show Skips .next (.list :: opened) ([','] ++ (v.chars ++ itemChars vs)) rest opened
      exact passes_nextItem.enclose (Nat.le_add_left 1 2)
        (skips_value v (.list :: opened) (itemChars vs ++ rest) integral.1 (ends_itemChars vs rest))
        (skips_items vs opened rest integral.2)

theorem skips_members (ms : List (String × Json)) (opened : List Bracket) (rest : List Char)
    (integral : IntegralMembers ms) :
    Skips .next (.object :: opened) (memberChars ms) rest opened := by
  match ms with
  | [] =>
      rw [memberChars]
      exact skips_close (.inr rfl)
  | (n, v) :: ms =>
      simp only [IntegralMembers] at integral
      have enter : Passes 1 .next (.object :: opened)
          (memberHead ',' n ++ (v.chars ++ (memberChars ms ++ rest))) .value (.object :: opened)
          (v.chars ++ (memberChars ms ++ rest)) := by
        rw [memberHead_append]
        exact passes_nextMember n
      rw [memberChars, memberHead_chars]
      exact enter.enclose (Nat.le_add_left 1 2)
        (skips_value v (.object :: opened) (memberChars ms ++ rest) integral.1
          (ends_memberChars ms rest))
        (skips_members ms opened rest integral.2)

end

/-- What stands behind a value is what is left when the value is skipped. -/
theorem skipValue_chars (v : Json) (rest : List Char) (integral : v.Integral) (ends : Ends rest) :
    skipValue (v.chars ++ rest) = .ok rest := by
  obtain ⟨k, few, passes⟩ := skips_value v [] rest integral ends
  have enough : 3 * (v.chars ++ rest).length + 3
      = k + (3 * (v.chars ++ rest).length + 2 - k + 1) := by
    rw [List.length_append]
    omega
  rw [skipValue, enough, passes]
  rfl

end FlexLink.Json.Reader
