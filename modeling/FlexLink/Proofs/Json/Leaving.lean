import FlexLink.Proofs.Json.Depth
import FlexLink.Proofs.Json.Skipping

/-! # What is left behind a written value

A real number need not come back as it was written, and one that is out of range is refused.  But
wherever the text of a value is read at all it is read to its end and no further: `left_of_value`.  So
the members of an object that stand behind a real number are found where they were written. -/
set_option autoImplicit false
namespace FlexLink.Json.Reader

variable {α β : Type}

/-! ## Numbers -/

def Leaves (r : Read α) (rest : List Char) : Prop := ∀ v left, r = .ok (v, left) → left = rest

def Digits (ds : List Char) : Prop := ∀ c ∈ ds, isDigit c = true

/-- What stands behind the digits of a written number: an exponent, if there is one, and the rest. -/
inductive Power (rest : List Char) : List Char → Prop where
  | none : Power rest rest
  | some (sign : Char) (signed : sign = '+' ∨ sign = '-') {ds : List Char} (digits : Digits ds) :
      Power rest ('e' :: sign :: (ds ++ rest))

/-- What stands behind the whole part of a written number. -/
inductive Part (rest : List Char) : List Char → Prop where
  | none {text : List Char} (power : Power rest text) : Part rest text
  | some {ds text : List Char} (digits : Digits ds) (power : Power rest text) :
      Part rest ('.' :: (ds ++ text))

variable {rest text ds : List Char}

theorem Power.stops (power : Power rest text) (ends : Ends rest) :
    ∀ c ∈ text.head?, isDigit c = false ∧ c ≠ '.' := by
  cases power with
  | none => exact fun c here => ⟨(ends c here).1, (ends c here).2.1⟩
  | some sign signed digits =>
      intro c here
      cases here
      exact ⟨rfl, by decide⟩

theorem Part.stops (part : Part rest text) (ends : Ends rest) :
    ∀ c ∈ text.head?, isDigit c = false := by
  cases part with
  | none power => exact fun c here => (power.stops ends c here).1
  | some digits power =>
      intro c here
      cases here
      rfl

theorem leaves_real (negative : Bool) (n : Nat) (e : Int) (rest : List Char) :
    Leaves (real negative n e rest) rest := by
  intro v left read
  rw [real] at read
  split at read
  · cases read
    rfl
  · cases read

theorem leaves_exponentDigits (digits : Digits ds) (ends : Ends rest) (negative positive : Bool)
    (n : Nat) (start : Int) (e : Nat) :
    Leaves (exponentDigits negative positive n start e (ds ++ rest)) rest := by
  induction ds generalizing e with
  | nil =>
      cases rest with
      | nil => exact leaves_real _ _ _ _
      | cons c rest =>
          have stop : isDigit c = false := (ends c rfl).1
          rw [List.nil_append, exponentDigits, if_neg (by rw [stop]; decide)]
          exact leaves_real _ _ _ _
  | cons d ds ih =>
      obtain ⟨digit, others⟩ := List.forall_mem_cons.mp digits
      rw [List.cons_append, exponentDigits, if_pos digit]
      dsimp only
      split
      · split
        · rintro v left ⟨⟩
        · rintro v left ⟨⟩
          exact extraDigits_append ds rest 0 others fun c here => (ends c here).1
      · exact ih others _

theorem leaves_exponent {sign : Char} (signed : sign = '+' ∨ sign = '-') (digits : Digits ds)
    (ends : Ends rest) (negative : Bool) (n : Nat) (start : Int) :
    Leaves (exponent negative n start (sign :: (ds ++ rest))) rest := by
  cases ds with
  | nil =>
      cases rest with
      | nil => rcases signed with rfl | rfl <;> rintro v left ⟨⟩
      | cons c rest =>
          have stop : isDigit c = false := (ends c rfl).1
          rcases signed with rfl | rfl
          all_goals
            simp only [exponent, List.nil_append, stop, Bool.false_eq_true, if_false]
            rintro v left ⟨⟩
  | cons d ds =>
      obtain ⟨digit, others⟩ := List.forall_mem_cons.mp digits
      rcases signed with rfl | rfl
      all_goals
        simp only [exponent, List.cons_append, digit, if_true]
        exact leaves_exponentDigits others ends _ _ _ _ _

theorem leaves_realTail (power : Power rest text) (ends : Ends rest) (negative : Bool) (n : Nat)
    (start : Int) : Leaves (realTail negative n start text) rest := by
  cases power with
  | some sign signed digits => exact leaves_exponent signed digits ends _ _ _
  | none =>
      unfold realTail
      split
      · exact absurd rfl (ends 'e' rfl).2.2.1
      · exact absurd rfl (ends 'E' rfl).2.2.2
      · exact leaves_real _ _ _ _

/-- Digits are taken up to some place among them. -/
theorem fittingDigits_stops (digits : Digits ds) (stops : ∀ c ∈ text.head?, isDigit c = false)
    (n count : Nat) :
    ∃ m k more, fittingDigits n count (ds ++ text) = (m, k, more ++ text) ∧ Digits more := by
  induction ds generalizing n count with
  | nil =>
      refine ⟨n, count, [], ?_, nofun⟩
      cases text with
      | nil => rfl
      | cons c text =>
          have stop : isDigit c = false := stops c rfl
          simp [fittingDigits, stop]
  | cons d ds ih =>
      obtain ⟨digit, others⟩ := List.forall_mem_cons.mp digits
      rw [List.cons_append, fittingDigits]
      split
      · exact ih others _ _
      · exact ⟨n, count, d :: ds, rfl, digits⟩

theorem leaves_fraction (digits : Digits ds) (power : Power rest text) (ends : Ends rest)
    (negative : Bool) (n : Nat) (start : Int) :
    Leaves (fraction negative n start (ds ++ text)) rest := by
  have stops := fun c here => (power.stops ends c here).1
  obtain ⟨m, k, more, taken, left⟩ := fittingDigits_stops digits stops n 0
  have tail := fun start => leaves_realTail power ends negative m start
  rw [fraction, taken]
  cases more with
  | cons d more =>
      obtain ⟨digit, others⟩ := List.forall_mem_cons.mp left
      have passed : (extraDigits 0 (d :: more ++ text)).2 = text :=
        extraDigits_append (d :: more) text 0 left stops
      simp only [List.cons_append] at passed ⊢
      simp only [digit, if_true, passed]
      exact tail _
  | nil =>
      cases text with
      | nil =>
          dsimp only [List.nil_append]
          split
          · rintro v left ⟨⟩
          · exact tail _
      | cons c text =>
          have stop : isDigit c = false := stops c rfl
          simp only [List.nil_append, stop, Bool.false_eq_true, if_false]
          split
          · rintro v left ⟨⟩
          · exact tail _

theorem leaves_numberTail (part : Part rest text) (ends : Ends rest) (negative : Bool) (n : Nat) :
    Leaves (numberTail negative n text) rest := by
  cases part with
  | some digits power => exact leaves_fraction digits power ends _ _ _
  | none power =>
      cases power with
      | some sign signed digits => exact leaves_exponent signed digits ends _ _ _
      | none =>
          unfold numberTail
          split
          · exact absurd rfl (ends '.' rfl).2.1
          · exact absurd rfl (ends 'e' rfl).2.2.1
          · exact absurd rfl (ends 'E' rfl).2.2.2
          · intro v left read
            split at read
            · cases read
              rfl
            · cases read
              rfl

theorem leaves_longTail (digits : Digits ds) (part : Part rest text) (ends : Ends rest)
    (negative : Bool) (n : Nat) : Leaves (longTail negative n (ds ++ text)) rest := by
  have passed := extraDigits_append ds text 0 digits (part.stops ends)
  rw [longTail]
  cases extra : extraDigits 0 (ds ++ text) with
  | mk count behind =>
      rw [extra] at passed
      obtain rfl : behind = text := passed
      cases part with
      | some digits power => exact leaves_fraction digits power ends _ _ _
      | none power =>
          split
          · next same =>
              cases same
              exact absurd rfl (power.stops ends '.' rfl).2
          · next same =>
              cases same
              exact leaves_realTail power ends _ _ _

theorem leaves_number_none (part : Part rest text) (ends : Ends rest) (negative : Bool) :
    Leaves (number negative text) rest := by
  cases text with
  | nil => rintro v left ⟨⟩
  | cons c text =>
      have stop : isDigit c = false := part.stops ends c rfl
      intro v left read
      unfold number at read
      split at read
      · cases read
      · next same =>
          cases same
          cases stop
      · next same =>
          cases same
          cases stop
      · next same =>
          cases same
          rw [stop] at read
          cases read

theorem leaves_number_zero (digits : Digits ds) (part : Part rest text) (ends : Ends rest)
    (negative : Bool) : Leaves (number negative ('0' :: (ds ++ text))) rest := by
  have tail := leaves_numberTail part ends negative 0
  cases ds with
  | cons e ds =>
      have again : isDigit e = true := digits e List.mem_cons_self
      simp only [List.cons_append, number, again, if_true]
      rintro v left ⟨⟩
  | nil =>
      cases text with
      | nil => exact tail
      | cons c text =>
          have stop : isDigit c = false := part.stops ends c rfl
          simp only [List.nil_append, number, stop, Bool.false_eq_true, if_false]
          exact tail

theorem leaves_number_digit {d : Char} (digit : isDigit d = true) (leading : d ≠ '0')
    (digits : Digits ds) (part : Part rest text) (ends : Ends rest) (negative : Bool) :
    Leaves (number negative (d :: (ds ++ text))) rest := by
  have stops := part.stops ends
  obtain ⟨m, k, more, taken, left⟩ := fittingDigits_stops digits stops (digitValue d) 0
  have tail := leaves_numberTail part ends negative m
  unfold number
  split
  · contradiction
  · next same => exact absurd (List.cons.inj same).1 leading
  · next same => exact absurd (List.cons.inj same).1 leading
  · next same =>
      cases same
      rw [if_pos digit, taken]
      cases more with
      | cons e more =>
          have again : isDigit e = true := left e List.mem_cons_self
          simp only [List.cons_append, again, if_true]
          exact leaves_longTail left part ends negative m
      | nil =>
          cases text with
          | nil => exact tail
          | cons c text =>
              have stop : isDigit c = false := stops c rfl
              simp only [List.nil_append, stop, Bool.false_eq_true, if_false]
              exact tail

/-- Where digits and what may stand behind them are read as a number, the rest is left. -/
theorem leaves_number (digits : Digits ds) (part : Part rest text) (ends : Ends rest)
    (negative : Bool) : Leaves (number negative (ds ++ text)) rest := by
  cases ds with
  | nil => exact leaves_number_none part ends negative
  | cons d ds =>
      obtain ⟨digit, others⟩ := List.forall_mem_cons.mp digits
      by_cases leading : d = '0'
      · subst leading
        exact leaves_number_zero others part ends negative
      · exact leaves_number_digit digit leading others part ends negative

def Numeral (text : List Char) : Prop :=
  ∃ ds part, text = ds ++ part ∧ ds ≠ [] ∧ Digits ds ∧ ∀ rest, Part rest (part ++ rest)

theorem digits_decimalDigits (n : Nat) : Digits (decimalDigits n) :=
  fun _ => isDigit_of_mem_decimalDigits

theorem digits_replicate (k : Nat) : Digits (List.replicate k '0') := by
  intro c zero
  rw [List.eq_of_mem_replicate zero]
  rfl

theorem Digits.append {ds es : List Char} (first : Digits ds) (second : Digits es) :
    Digits (ds ++ es) := by
  intro c member
  exact (List.mem_append.mp member).elim (first c) (second c)

/-- A written exponent. -/
theorem numeral_pointed {sign : Char} (signed : sign = '+' ∨ sign = '-') (n k : Nat) :
    Numeral (Decimal.pointed (decimalDigits n) ++ ['e', sign] ++ decimalDigits k) := by
  have power (rest : List Char) : Power rest ('e' :: sign :: (decimalDigits k ++ rest)) :=
    .some sign signed (digits_decimalDigits k)
  have digits := digits_decimalDigits n
  cases written : decimalDigits n with
  | nil => exact absurd written Nat.toDigits_ne_nil
  | cons d ds =>
      rw [written] at digits
      obtain ⟨first, others⟩ := List.forall_mem_cons.mp digits
      have one : Digits [d] := List.forall_mem_singleton.mpr first
      cases ds with
      | nil =>
          refine ⟨[d], 'e' :: sign :: decimalDigits k, rfl, nofun, one, fun rest => ?_⟩
          exact .none (power rest)
      | cons e ds =>
          refine ⟨[d], '.' :: ((e :: ds) ++ 'e' :: sign :: decimalDigits k), ?_, nofun, one, ?_⟩
          · simp [Decimal.pointed]
          · intro rest
            have part := Part.some others (power rest)
            simpa using part

theorem numeral_write (x : Decimal) : Numeral (x.write .interchange) := by
  have digits := digits_decimalDigits x.digits
  have some : decimalDigits x.digits ≠ [] := Nat.toDigits_ne_nil
  rw [Decimal.write]
  dsimp only
  split
  · split
    · refine ⟨['0'], '.' :: (List.replicate (-x.leading - 1).toNat '0' ++ decimalDigits x.digits), ?_,
        nofun, List.forall_mem_singleton.mpr rfl, fun rest => ?_⟩
      · simp
      · exact .some ((digits_replicate _).append digits) .none
    · next whole =>
      split
      · refine ⟨_, ['.', '0'], rfl, List.append_ne_nil_of_left_ne_nil some _,
          digits.append (digits_replicate _), fun rest => ?_⟩
        exact @Part.some rest ['0'] rest (List.forall_mem_singleton.mpr rfl) .none
      · refine ⟨_, _, rfl, ?_, fun c member => digits c (List.mem_of_mem_take member), fun rest => ?_⟩
        · rw [Ne, List.take_eq_nil_iff, not_or]
          exact ⟨by omega, some⟩
        · exact .some (fun c member => digits c (List.mem_of_mem_drop member)) .none
  · split
    · exact numeral_pointed (.inr rfl) _ _
    · exact numeral_pointed (.inl rfl) _ _

theorem Leaves.yields {r : Read α} (f : α → β) (leaves : Leaves r rest) :
    Leaves (yields f r) rest := by
  intro w left read
  obtain ⟨v, same, -⟩ := yields_ok read
  exact leaves v left same

theorem value_digit {c : Char} (digit : isDigit c = true) (depth : Nat) (rest : List Char) :
    value (depth + 1) (c :: rest) = yields .number (number false (c :: rest)) := by
  have other (d : Char) (no : isDigit d = false) : c ≠ d := by
    rintro rfl
    rw [digit] at no
    cases no
  rw [value, skipBlanks_cons (not_blank_of_isDigit digit)]
  simp only [if_neg (other 'n' rfl), if_neg (other 't' rfl), if_neg (other 'f' rfl),
    if_neg (other '-' rfl), if_pos digit]

theorem value_minus (depth : Nat) (rest : List Char) :
    value (depth + 1) ('-' :: rest) = yields .number (number true rest) := by
  rw [value, skipBlanks_cons rfl]
  rfl

theorem leaves_realChars (x : Binary64) (ends : Ends rest) (depth : Nat) :
    Leaves (value (depth + 1) (realChars x ++ rest)) rest := by
  rw [realChars]
  split
  · obtain ⟨ds, part, text, some, digits, parts⟩ := numeral_write x.shortest
    have number := leaves_number digits (parts rest) ends
    rw [Binary64.write, text]
    split
    · simp only [List.cons_append, List.nil_append, List.append_assoc, value_minus]
      exact (number true).yields _
    · cases ds with
      | nil => exact absurd rfl some
      | cons d ds =>
          have digit : isDigit d = true := digits d List.mem_cons_self
          have unsigned := (number false).yields Json.number
          rw [List.cons_append] at unsigned
          simp only [List.cons_append, List.nil_append, List.append_assoc, value_digit digit]
          exact unsigned
  · have null := value_chars .null (depth + 1) rest (Nat.succ_pos depth) trivial trivial ends
    rw [chars] at null
    rw [null]
    rintro v left ⟨⟩
    rfl

/-! ## Values of any kind -/

theorem chars_solid (v : Json) (rest : List Char) (ends : Ends rest) :
    ∃ c cs, v.chars ++ rest = c :: cs ∧ Opens c := by
  by_cases real : ∃ x, v = .number (.real x)
  · obtain ⟨x, rfl⟩ := real
    rw [chars, Number.chars, realChars]
    split
    · obtain ⟨ds, part, text, some, digits, -⟩ := numeral_write x.shortest
      rw [Binary64.write, text]
      split
      · exact ⟨'-', _, rfl, rfl, by decide, by decide⟩
      · cases ds with
        | nil => exact absurd rfl some
        | cons d ds =>
            have digit : isDigit d = true := digits d List.mem_cons_self
            refine ⟨d, _, rfl, not_blank_of_isDigit digit, ?_, ?_⟩
            · rintro rfl
              cases digit
            · rintro rfl
              cases digit
    · exact ⟨'n', _, rfl, rfl, by decide, by decide⟩
  · exact chars_opens v (fun x same => real ⟨x, same⟩) rest ends

theorem Leaves.of_eq {r : Read α} {v : α} (read : r = .ok (v, rest)) : Leaves r rest := by
  rw [read]
  rintro w left ⟨⟩
  rfl

variable {one : List Char → Read α} {done : List α} {fuel depth : Nat} {first : Bool}
  {source middle : List Char}

theorem leaves_items (turn : listTurn first source = .ok (.item text)) (head : Leaves (one text) middle)
    (tail : ∀ v fuel, Leaves (items one (v :: done) fuel false middle) rest) :
    Leaves (items one done fuel first source) rest := by
  intro vs left read
  cases fuel with
  | zero => cases read
  | succ fuel =>
      rw [items, turn] at read
      cases found : one text with
      | error fault =>
          simp only [found] at read
          cases read
      | ok item =>
          obtain ⟨v, behind⟩ := item
          obtain rfl := head v behind found
          simp only [found] at read
          exact tail v fuel vs left read

/-- A member that has its turn was read if the members were. -/
theorem members_taken {one : List Char → Read Json} {done : List (String × Json)} {name : String}
    {found : List (String × Json) × List Char}
    (turn : objectTurn first source
      = .ok (.item (name.toList.flatMap escapeChar ++ '"' :: ':' :: text)))
    (read : members one done fuel first source = .ok found) :
    ∃ v left less, fuel = less + 1 ∧ one text = .ok (v, left) ∧
      members one ((name, v) :: done) less false left = .ok found := by
  cases fuel with
  | zero => cases read
  | succ fuel =>
      rw [members, turn] at read
      simp only [string_escaped, colon_cons] at read
      cases taken : one text with
      | error fault =>
          simp only [taken] at read
          cases read
      | ok item =>
          simp only [taken] at read
          exact ⟨item.1, item.2, fuel, rfl, rfl, read⟩

theorem leaves_list (inside : ∀ depth fuel, Leaves (items (value depth) [] fuel true text) rest)
    (depth : Nat) : Leaves (value depth ('[' :: text)) rest := by
  intro v left read
  cases depth with
  | zero => cases read
  | succ depth =>
      rw [value_list (skipBlanks_cons rfl)] at read
      split at read
      · cases read
      · exact (inside depth _).yields _ v left read

theorem leaves_object (inside : ∀ depth fuel, Leaves (members (value depth) [] fuel true text) rest)
    (depth : Nat) : Leaves (value depth ('\x7b' :: text)) rest := by
  intro v left read
  cases depth with
  | zero => cases read
  | succ depth =>
      rw [value_members (skipBlanks_cons rfl)] at read
      split at read
      · cases read
      · exact (inside depth _).yields _ v left read

theorem leaves_closed (one : List Char → Read α) (done : List α) (fuel : Nat) (first : Bool)
    (rest : List Char) : Leaves (items one done fuel first (']' :: rest)) rest := by
  cases fuel with
  | zero => rintro v left ⟨⟩
  | succ fuel => exact .of_eq (items_close one done fuel first rest)

theorem leaves_ended (one : List Char → Read Json) (done : List (String × Json)) (fuel : Nat)
    (first : Bool) (rest : List Char) : Leaves (members one done fuel first ('\x7d' :: rest)) rest := by
  cases fuel with
  | zero => rintro v left ⟨⟩
  | succ fuel => exact .of_eq (members_close one done fuel first rest)

mutual

/-- Where the text of a value is read, what stands behind it is left. -/
theorem left_of_value (v : Json) (depth : Nat) (rest : List Char) (ends : Ends rest) :
    Leaves (value depth (v.chars ++ rest)) rest := by
  match depth, v with
  | 0, _ => rintro w left ⟨⟩
  | _ + 1, .null => exact .of_eq (value_chars .null _ rest (Nat.succ_pos _) trivial trivial ends)
  | _ + 1, .bool b => exact .of_eq (value_chars (.bool b) _ rest (Nat.succ_pos _) trivial trivial ends)
  | _ + 1, .text s => exact .of_eq (value_chars (.text s) _ rest (Nat.succ_pos _) trivial trivial ends)
  | _ + 1, .number (.integer i) =>
      exact .of_eq (value_chars (.number (.integer i)) _ rest (Nat.succ_pos _) trivial trivial ends)
  | depth + 1, .number (.real x) =>
      rw [chars, Number.chars]
      exact leaves_realChars x ends depth
  | depth + 1, .array [] =>
      rw [chars]
      exact leaves_list (fun _ _ => leaves_closed _ _ _ _ rest) _
  | depth + 1, .array (v :: vs) =>
      have behind := ends_itemChars vs rest
      obtain ⟨c, cs, text, opens⟩ := chars_solid v _ behind
      rw [chars, List.append_assoc, List.cons_append, text]
      refine leaves_list (fun deep fuel => ?_) _
      refine leaves_items (listTurn_first opens) (text ▸ left_of_value v deep _ behind) fun v fuel => ?_
      exact left_of_items vs deep fuel [v] rest
  | depth + 1, .object [] =>
      rw [chars]
      exact leaves_object (fun _ _ => leaves_ended _ _ _ _ rest) _
  | depth + 1, .object ((n, v) :: ms) =>
      have behind := ends_memberChars ms rest
      rw [chars, List.append_assoc, List.append_assoc, List.cons_append, List.cons_append]
      refine leaves_object (fun deep fuel => ?_) _
      intro found left read
      obtain ⟨w, middle, less, -, same, later⟩ :=
        members_taken (stringChars_append n _ ▸ objectTurn_first _) read
      obtain rfl := left_of_value v deep _ behind w middle same
      exact left_of_members ms deep less [(n, w)] rest found left later

theorem left_of_items (vs : List Json) (depth fuel : Nat) (done : List Json) (rest : List Char) :
    Leaves (items (value depth) done fuel false (itemChars vs ++ rest)) rest := by
  match vs with
  | [] =>
      rw [itemChars]
      exact leaves_closed _ _ _ _ rest
  | v :: vs =>
      have behind := ends_itemChars vs rest
      obtain ⟨c, cs, text, opens⟩ := chars_solid v _ behind
      rw [itemChars, List.append_assoc, List.cons_append, text]
      refine leaves_items (listTurn_next opens) (text ▸ left_of_value v depth _ behind) fun w fuel => ?_
      exact left_of_items vs depth fuel (w :: done) rest

theorem left_of_members (ms : List (String × Json)) (depth fuel : Nat)
    (done : List (String × Json)) (rest : List Char) :
    Leaves (members (value depth) done fuel false (memberChars ms ++ rest)) rest := by
  match ms with
  | [] =>
      rw [memberChars]
      exact leaves_ended _ _ _ _ rest
  | (n, v) :: ms =>
      have behind := ends_memberChars ms rest
      rw [memberChars, List.append_assoc, List.append_assoc, List.cons_append, List.cons_append]
      intro found left read
      obtain ⟨w, middle, less, -, same, later⟩ :=
        members_taken (stringChars_append n _ ▸ objectTurn_next _) read
      obtain rfl := left_of_value v depth _ behind w middle same
      exact left_of_members ms depth less ((n, w) :: done) rest found left later

end

/-- A value that holds integers only is not read as another. -/
theorem value_unchanged {v w : Json} {left : List Char} (canonical : v.Canonical)
    (integral : v.Integral) (ends : Ends rest) (read : value depth (v.chars ++ rest) = .ok (w, left)) :
    w = v := by
  have deep : v.depth < max depth (v.depth + 1) :=
    Nat.lt_of_lt_of_le (Nat.lt_succ_self v.depth) (Nat.le_max_right _ _)
  have further := Shape.deepens_any.le (Nat.le_max_left depth (v.depth + 1)) _ _ read
  have same := value_chars v _ rest deep canonical integral ends
  have own : Shape.any.read = value := rfl
  rw [own, same] at further
  cases further
  rfl

/-- An object whose first member alone may hold real numbers comes back with another value of that
member at most. -/
theorem first_member {name : String} {v w : Json} {ms : List (String × Json)} {left : List Char}
    (sorted : Ascending ((name, v) :: ms)) (flat : depthMembers ms = 0)
    (canonical : CanonicalMembers ms) (integral : IntegralMembers ms)
    (read : value depth ((Json.object ((name, v) :: ms)).chars ++ rest) = .ok (w, left)) :
    ∃ u deep, value deep (v.chars ++ (memberChars ms ++ rest)) = .ok (u, memberChars ms ++ rest) ∧
      w = .object ((name, u) :: ms) := by
  have behind := ends_memberChars ms rest
  rw [chars, List.append_assoc, List.append_assoc, List.cons_append, List.cons_append] at read
  cases depth with
  | zero => cases read
  | succ depth =>
      rw [value_members (skipBlanks_cons rfl)] at read
      split at read
      · cases read
      · next some =>
          obtain ⟨found, same, rfl⟩ := yields_ok read
          obtain ⟨u, middle, less, turns, head, later⟩ :=
            members_taken (stringChars_append name _ ▸ objectTurn_first _) same
          obtain rfl := left_of_value v depth _ behind u middle head
          have enough : ms.length < less := by
            have := length_memberChars ms
            simp only [List.length_append, List.length_cons] at turns
            omega
          rw [members_memberChars ms depth less [(name, u)] rest (by omega) canonical integral enough]
            at later
          cases later
          exact ⟨u, depth, head, ofMembers_of_ascending ((name, u) :: ms) sorted⟩

end FlexLink.Json.Reader
