import FlexLink.Proofs.Json.Records

/-! # Written JSON has no zero character

Zeros pad the packets of a text, so a text that holds one would not come back.  Control characters
are escaped inside strings, and nothing else that is written is a control character. -/
set_option autoImplicit false
namespace FlexLink.Json

def Plain (text : List Char) : Prop := ∀ c ∈ text, c.toNat ≠ 0

theorem plain_nil : Plain [] := fun _ none => absurd none List.not_mem_nil

theorem plain_cons {c : Char} {text : List Char} : Plain (c :: text) ↔ c.toNat ≠ 0 ∧ Plain text :=
  List.forall_mem_cons

theorem plain_append {text more : List Char} : Plain (text ++ more) ↔ Plain text ∧ Plain more :=
  List.forall_mem_append

theorem plain_flatMap {α : Type} {xs : List α} {write : α → List Char}
    (each : ∀ x ∈ xs, Plain (write x)) : Plain (xs.flatMap write) := by
  intro c member
  obtain ⟨x, inside, found⟩ := List.mem_flatMap.mp member
  exact each x inside c found

theorem plain_decimalDigits (n : Nat) : Plain (decimalDigits n) := by
  intro c member zero
  have digit := Reader.isDigit_of_mem_decimalDigits member
  rw [Reader.isDigit] at digit
  have same : c = '\x00' := Char.toNat_inj.mp zero
  rw [same] at digit
  exact absurd digit (by decide)

theorem plain_decimalInt (i : Int) : Plain (decimalInt i) := by
  rw [decimalInt]
  split
  · exact plain_cons.mpr ⟨by decide, plain_decimalDigits _⟩
  · exact plain_decimalDigits _

theorem toNat_lowHex_ne_zero : ∀ n < 16, (lowHex n).toNat ≠ 0 := by decide

theorem plain_escapeChar (c : Char) : Plain (escapeChar c) := by
  by_cases control : c < ' '
  · have small : c.toNat < 32 := control
    have high := toNat_lowHex_ne_zero (c.toNat / 16) (by omega)
    have low := toNat_lowHex_ne_zero (c.toNat % 16) (by omega)
    unfold escapeChar
    repeat' split
    all_goals simp [Plain, high, low]
  · have solid : c.toNat ≠ 0 := by
      intro zero
      have same : c = '\x00' := Char.toNat_inj.mp zero
      rw [same] at control
      exact control (by decide)
    unfold escapeChar
    repeat' split
    all_goals simp [Plain, solid]

theorem plain_stringChars (s : String) : Plain (stringChars s) := by
  rw [stringChars, List.cons_append, plain_cons, plain_append]
  refine ⟨by decide, plain_flatMap fun c _ => plain_escapeChar c, ?_⟩
  exact plain_cons.mpr ⟨by decide, plain_nil⟩

theorem plain_boolChars (b : Bool) : Plain (boolChars b) := by
  cases b <;> simp [boolChars, Plain]

mutual

theorem plain_chars (v : Json) (integral : v.Integral) : Plain v.chars := by
  cases v with
  | null => simp [chars, Plain]
  | bool b => exact plain_boolChars b
  | number n =>
      cases n with
      | integer i => exact plain_decimalInt i.val
      | real x => exact absurd integral (by simp [Integral])
  | text s => exact plain_stringChars s
  | array vs =>
      cases vs with
      | nil => simp [chars, Plain]
      | cons v rest =>
          obtain ⟨here, others⟩ := integral
          rw [chars, List.cons_append, plain_cons, plain_append]
          exact ⟨by decide, plain_chars v here, plain_itemChars rest others⟩
  | object ms =>
      cases ms with
      | nil => simp [chars, Plain]
      | cons m rest =>
          obtain ⟨name, v⟩ := m
          obtain ⟨here, others⟩ := integral
          simp only [chars, List.cons_append, List.append_assoc, plain_cons, plain_append]
          exact ⟨by decide, plain_stringChars name, by decide, plain_chars v here,
            plain_memberChars rest others⟩

theorem plain_itemChars (vs : List Json) (integral : IntegralItems vs) : Plain (itemChars vs) := by
  cases vs with
  | nil => simp [itemChars, Plain]
  | cons v rest =>
      obtain ⟨here, others⟩ := integral
      rw [itemChars, List.cons_append, plain_cons, plain_append]
      exact ⟨by decide, plain_chars v here, plain_itemChars rest others⟩

theorem plain_memberChars (ms : List (String × Json)) (integral : IntegralMembers ms) :
    Plain (memberChars ms) := by
  cases ms with
  | nil => simp [memberChars, Plain]
  | cons m rest =>
      obtain ⟨name, v⟩ := m
      obtain ⟨here, others⟩ := integral
      simp only [memberChars, List.cons_append, List.append_assoc, plain_cons, plain_append]
      exact ⟨by decide, plain_stringChars name, by decide, plain_chars v here,
        plain_memberChars rest others⟩

end

theorem plain_intersperse {texts : List (List Char)} (each : ∀ text ∈ texts, Plain text) :
    Plain (texts.intersperse [',']).flatten := by
  cases texts with
  | nil => exact plain_nil
  | cons text texts =>
      obtain ⟨here, others⟩ := List.forall_mem_cons.mp each
      rw [Record.intersperse_flatten, plain_append]
      exact ⟨here, plain_flatMap fun more inside => plain_cons.mpr ⟨by decide, others more inside⟩⟩

theorem plain_recordChars {members : List (String × Option (List Char))}
    (each : ∀ m ∈ members, ∀ value, m.2 = some value → Plain value) : Plain (recordChars members) := by
  rw [recordChars, List.cons_append, plain_cons, plain_append]
  refine ⟨by decide, plain_intersperse ?_, plain_cons.mpr ⟨by decide, plain_nil⟩⟩
  intro text inside
  obtain ⟨m, member, made⟩ := List.mem_filterMap.mp inside
  obtain ⟨value, given, rfl⟩ := Option.map_eq_some_iff.mp made
  rw [plain_append, plain_cons]
  exact ⟨plain_stringChars m.1, by decide, each m member value given⟩

theorem plain_present {text : List Char} (plain : Plain text) :
    ∀ value, some text = some value → Plain value := by
  intro value given
  cases given
  exact plain

theorem plain_optional {α : Type} {x : Option α} {write : α → List Char}
    (plain : ∀ y, x = some y → Plain (write y)) : ∀ value, x.map write = some value → Plain value := by
  intro value given
  obtain ⟨y, present, rfl⟩ := Option.map_eq_some_iff.mp given
  exact plain y present

end FlexLink.Json
