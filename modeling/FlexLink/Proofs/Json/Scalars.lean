import FlexLink.Json.Shape

/-! # Written integers and strings are read back

A number is read as far as its characters go, so it needs something behind it that cannot belong to
it: `Ends`.  A string ends at its closing quote, whatever follows. -/
set_option autoImplicit false
namespace FlexLink.Json.Reader

/-! ## Integers -/

/-- What may stand behind a number without becoming a part of it. -/
def Ends (rest : List Char) : Prop :=
  ∀ c ∈ rest.head?, isDigit c = false ∧ c ≠ '.' ∧ c ≠ 'e' ∧ c ≠ 'E'

theorem isDigit_of_mem_decimalDigits {n : Nat} {c : Char} (member : c ∈ decimalDigits n) :
    isDigit c = true := by
  have digit : c.isDigit = true := Nat.isDigit_of_mem_toDigits (by decide) (by decide) member
  simpa [isDigit, Char.isDigit, Char.le_def] using digit

theorem head_decimalDigits {n : Nat} (positive : 0 < n) :
    ∃ c rest, decimalDigits n = c :: rest ∧ c ≠ '0' := by
  induction n using Nat.base_induction 10 (by decide) with
  | single m small =>
      refine ⟨m.digitChar, [], Nat.toDigits_of_lt_base small, ?_⟩
      rw [Ne, Nat.digitChar_eq_zero]
      omega
  | digit m k small more ih =>
      obtain ⟨c, rest, digits, leading⟩ := ih more
      refine ⟨c, rest ++ decimalDigits k, ?_, leading⟩
      rw [decimalDigits, ← Nat.toDigits_append_toDigits (by decide) more small]
      exact congrArg (· ++ decimalDigits k) digits

theorem le_ofDigitChars (ds : List Char) (n : Nat) : n ≤ Nat.ofDigitChars 10 ds n := by
  induction ds generalizing n with
  | nil => exact Nat.le_of_eq Nat.ofDigitChars_nil.symm
  | cons d ds ih =>
      rw [Nat.ofDigitChars_cons]
      exact Nat.le_trans (by omega) (ih _)

theorem fittingDigits_append (ds rest : List Char) (n count : Nat)
    (digits : ∀ c ∈ ds, isDigit c = true)
    (fits : Nat.ofDigitChars 10 ds n < 0x10000000000000000) (ends : Ends rest) :
    fittingDigits n count (ds ++ rest) = (Nat.ofDigitChars 10 ds n, count + ds.length, rest) := by
  induction ds generalizing n count with
  | nil =>
      cases rest with
      | nil => rfl
      | cons c rest =>
          have stop : isDigit c = false := (ends c rfl).1
          simp [fittingDigits, stop]
  | cons d ds ih =>
      have digit : isDigit d = true := digits d List.mem_cons_self
      have value : 10 * n + (d.toNat - '0'.toNat) = n * 10 + digitValue d := by
        rw [digitValue, Nat.mul_comm]
      rw [Nat.ofDigitChars_cons, value] at fits ⊢
      have room : n * 10 + digitValue d < 0x10000000000000000 :=
        Nat.lt_of_le_of_lt (le_ofDigitChars ds _) fits
      rw [List.cons_append, fittingDigits, if_pos ⟨digit, room⟩,
        ih _ _ (fun c member => digits c (List.mem_cons_of_mem d member)) fits]
      simp only [List.length_cons]
      rw [Nat.add_assoc, Nat.add_comm 1]

theorem numberTail_of_ends {negative : Bool} {n : Nat} {i : WideInt} {rest : List Char}
    (ends : Ends rest) (signed : negative = true → n ≠ 0)
    (value : WideInt.ofInt? (if negative then -n else n) = some i) :
    numberTail negative n rest = .ok (.integer i, rest) := by
  have plain : ¬(negative = true ∧ n = 0) := fun both => signed both.1 both.2
  unfold numberTail
  split
  · exact absurd rfl (ends '.' rfl).2.1
  · exact absurd rfl (ends 'e' rfl).2.2.1
  · exact absurd rfl (ends 'E' rfl).2.2.2
  · rw [if_neg plain, value]

theorem number_decimalDigits {negative : Bool} {n : Nat} {i : WideInt} {rest : List Char}
    (fits : n < 0x10000000000000000) (ends : Ends rest) (signed : negative = true → n ≠ 0)
    (value : WideInt.ofInt? (if negative then -n else n) = some i) :
    number negative (decimalDigits n ++ rest) = .ok (.integer i, rest) := by
  have tail := numberTail_of_ends ends signed value
  rcases Nat.eq_zero_or_pos n with zero | positive
  · subst zero
    cases rest with
    | nil => exact tail
    | cons c rest =>
        have stop : isDigit c = false := (ends c rfl).1
        simp [decimalDigits, number, stop, tail]
  · obtain ⟨c, ds, digits, leading⟩ := head_decimalDigits positive
    have all : ∀ d ∈ c :: ds, isDigit d = true := fun d member =>
      isDigit_of_mem_decimalDigits (digits ▸ member)
    have total : Nat.ofDigitChars 10 ds (digitValue c) = n := by
      have whole : Nat.ofDigitChars 10 (c :: ds) 0 = n :=
        digits ▸ (Nat.ofDigitChars_ten_toDigits : Nat.ofDigitChars 10 (decimalDigits n) 0 = n)
      rwa [Nat.ofDigitChars_cons, Nat.mul_zero, Nat.zero_add] at whole
    have scan := fittingDigits_append ds rest (digitValue c) 0
      (fun d member => all d (List.mem_cons_of_mem c member)) (total ▸ fits) ends
    rw [total] at scan
    have first : isDigit c = true := all c List.mem_cons_self
    rw [digits, List.cons_append]
    unfold number
    split
    · contradiction
    · next same => exact absurd (List.cons.inj same).1 leading
    · next same => exact absurd (List.cons.inj same).1 leading
    · next d other h1 h2 same =>
      cases same
      rw [if_pos first, scan]
      cases rest with
      | nil => exact tail
      | cons e rest =>
          have stop : isDigit e = false := (ends e rfl).1
          simp [stop, tail]

/-- A written integer is read as a number, with or without its sign, up to where it ends. -/
theorem integer_read (i : WideInt) {rest : List Char} (ends : Ends rest) :
    ∃ c cs, decimalInt i.val ++ rest = c :: cs ∧
      (c = '-' ∧ number true cs = .ok (.integer i, rest) ∨
        c ≠ '-' ∧ isDigit c = true ∧ number false (c :: cs) = .ok (.integer i, rest)) := by
  have lower := i.lower
  have upper := i.upper
  by_cases below : i.val < 0
  · refine ⟨'-', decimalDigits i.val.natAbs ++ rest, ?_, .inl ⟨rfl, ?_⟩⟩
    · rw [decimalInt, if_pos below]
      rfl
    · have value : (if true = true then -(i.val.natAbs : Int) else i.val.natAbs) = i.val := by
        rw [if_pos rfl]
        omega
      refine number_decimalDigits (by omega) ends (fun _ => by omega) ?_
      rw [value, WideInt.ofInt?, dif_pos ⟨lower, upper⟩]
  · have read : number false (decimalDigits i.val.natAbs ++ rest) = .ok (.integer i, rest) := by
      have value : (if false = true then -(i.val.natAbs : Int) else i.val.natAbs) = i.val := by
        rw [if_neg (by decide)]
        omega
      refine number_decimalDigits (by omega) ends (fun never => by contradiction) ?_
      rw [value, WideInt.ofInt?, dif_pos ⟨lower, upper⟩]
    cases digits : decimalDigits i.val.natAbs with
    | nil => exact absurd digits Nat.toDigits_ne_nil
    | cons c ds =>
        have digit : isDigit c = true :=
          isDigit_of_mem_decimalDigits (n := i.val.natAbs) (digits ▸ List.mem_cons_self)
        refine ⟨c, ds ++ rest, ?_, .inr ⟨?_, digit, ?_⟩⟩
        · rw [decimalInt, if_neg below, digits]
          rfl
        · intro dash
          rw [dash] at digit
          exact absurd digit (by decide)
        · rw [digits] at read
          exact read

/-! ## Strings -/

theorem value?_lowHex : ∀ n < 16, Hex.value? (lowHex n) = some n := by decide

theorem escape_control {c : Char} (control : c < ' ') (rest : List Char) :
    escape ('u' :: '0' :: '0' :: lowHex (c.toNat / 16) :: lowHex (c.toNat % 16) :: rest)
      = .ok (c, 5) := by
  have small : c.toNat < 32 := control
  have quad : hexQuad ('0' :: '0' :: lowHex (c.toNat / 16) :: lowHex (c.toNat % 16) :: rest)
      = .ok (c.toNat, rest) := by
    have zero : Hex.value? '0' = some 0 := rfl
    rw [hexQuad, zero, value?_lowHex _ (by omega), value?_lowHex _ (by omega)]
    simp only
    congr 2
    omega
  rw [escape, quad]
  have noLow : ¬(0xDC00 ≤ c.toNat ∧ c.toNat ≤ 0xDFFF) := by omega
  have noHigh : ¬(0xD800 ≤ c.toNat ∧ c.toNat ≤ 0xDBFF) := by omega
  simp only [bind, Except.bind, if_neg noLow, if_neg noHigh, Char.ofNat_toNat]
  rfl

theorem stringFrom_escapeChar (c : Char) (done rest : List Char) :
    stringFrom done 0 (escapeChar c ++ rest) = stringFrom (c :: done) 0 rest := by
  unfold escapeChar
  split
  · next quote => subst quote; rfl
  split
  · next slash => subst slash; rfl
  split
  · next same => subst same; rfl
  split
  · next same => subst same; rfl
  split
  · next same => subst same; rfl
  split
  · next same => subst same; rfl
  split
  · next same => subst same; rfl
  split
  · next control =>
    simp only [List.cons_append, List.nil_append]
    rw [stringFrom, if_neg (by decide), if_pos rfl, escape_control control]
    rfl
  · next quote slash _ _ _ _ _ control =>
    rw [List.singleton_append, stringFrom, if_neg quote, if_neg slash, if_neg control]

/-- The escapes of a string are undone up to the closing quote. -/
theorem stringFrom_escaped (s done rest : List Char) :
    stringFrom done 0 (s.flatMap escapeChar ++ '"' :: rest) = .ok (done.reverse ++ s, rest) := by
  induction s generalizing done with
  | nil =>
      rw [List.append_nil]
      exact if_pos rfl
  | cons c s ih =>
      rw [List.flatMap_cons, List.append_assoc, stringFrom_escapeChar, ih, List.reverse_cons,
        List.append_assoc, List.singleton_append]

theorem string_escaped (s : String) (rest : List Char) :
    string (s.toList.flatMap escapeChar ++ '"' :: rest) = .ok (s, rest) := by
  rw [string, stringFrom_escaped]
  exact congrArg (fun t => Except.ok (t, rest)) String.ofList_toList

end FlexLink.Json.Reader
