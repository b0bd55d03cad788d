import FlexLink.Proofs.Json.Depth
import FlexLink.Proofs.Json.Skipping

/-! # Values and their texts are accepted alike

A shape is read from a value or from a text.  `Alike` relates the two outcomes: both accept the same with
the same left behind the text, or both refuse.  Every shape that is made of the shapes of the library
`Agrees` with itself on the text of each value whose numbers are integers, as deep as the reader may go;
a record does where its fields do and each of them fills itself alone. -/
set_option autoImplicit false
namespace FlexLink.Json

open Reader

variable {α β : Type} {rest : List Char}

/-- An outcome from a value and one from its text, behind which `rest` stands. -/
inductive Alike {α : Type} (rest : List Char) : Except Cause α → Read α → Prop where
  | accepted (x : α) : Alike rest (.ok x) (.ok (x, rest))
  | refused (cause : Cause) (fault : Fault) : Alike rest (.error cause) (.error fault)

namespace Alike

theorem of_ne_ok {r : Read α} (cause : Cause) (never : ∀ found, r ≠ .ok found) :
    Alike rest (.error cause) r := by
  cases r with
  | ok found => exact absurd rfl (never found)
  | error fault => exact .refused cause fault

theorem yields {a : Except Cause α} {r : Read α} (alike : Alike rest a r) (f : α → β) :
    Alike rest (f <$> a) (yields f r) := by
  cases alike with
  | accepted x => exact .accepted (f x)
  | refused cause fault => exact .refused cause fault

theorem checked {a : Except Cause α} {r : Read α} (alike : Alike rest a r)
    (accept : α → Except Cause β) : Alike rest (a >>= accept) (checked accept r) := by
  cases alike with
  | refused cause fault => exact .refused cause fault
  | accepted x =>
      show Alike rest (accept x) (Reader.checked accept (.ok (x, rest)))
      rw [Reader.checked]
      cases accept x with
      | ok w => exact .accepted w
      | error cause => exact .refused cause _

/-- Causes do not matter. -/
theorem congr {a b : Except Cause α} {r : Read α} (alike : Alike rest b r)
    (same : ∀ x, a = .ok x ↔ b = .ok x) : Alike rest a r := by
  cases alike with
  | accepted x =>
      rw [(same x).mpr rfl]
      exact .accepted x
  | refused cause fault =>
      cases value : a with
      | ok x => cases (same x).mp value
      | error other => exact .refused other fault

end Alike

/-! ## How texts begin -/

def leads : Json → Char → Bool
  | .null, c => c == 'n'
  | .bool b, c => c == if b then 't' else 'f'
  | .number _, c => c == '-' || isDigit c
  | .text _, c => c == '"'
  | .array _, c => c == '['
  | .object _, c => c == '\x7b'

theorem leads_chars (v : Json) (integral : v.Integral) (ends : Ends rest) :
    ∃ c cs, v.chars ++ rest = c :: cs ∧ Opens c ∧ v.leads c = true := by
  obtain ⟨c, cs, text, opens⟩ := chars_eq_cons v integral rest ends
  refine ⟨c, cs, text, opens, ?_⟩
  cases v with
  | number n =>
      cases n with
      | real x => simp [Integral] at integral
      | integer i =>
          obtain ⟨d, ds, same, dash | digit⟩ := integer_read i ends
          · obtain rfl : c = d := (List.cons.inj (text.symm.trans same)).1
            simp [leads, dash.1]
          · obtain rfl : c = d := (List.cons.inj (text.symm.trans same)).1
            simp [leads, digit.2.1]
  | null =>
      rw [chars] at text
      cases text
      rfl
  | bool b =>
      rw [chars] at text
      cases b <;> (cases text; rfl)
  | text s =>
      rw [chars, stringChars_append] at text
      cases text
      rfl
  | array vs =>
      cases vs <;> (rw [chars] at text; cases text; rfl)
  | object ms =>
      cases ms with
      | nil =>
          rw [chars] at text
          cases text
          rfl
      | cons m ms =>
          obtain ⟨n, v⟩ := m
          rw [chars] at text
          cases text
          rfl

/-! ## Turns in a list -/

namespace Reader

theorem listTurn_close (first : Bool) (rest : List Char) :
    listTurn first (']' :: rest) = .ok (.close rest) := rfl

theorem closeList_refuses {c : Char} (cs : List Char) (solid : isBlank c = false) (more : c ≠ ']') :
    ∃ fault, closeList (c :: cs) = .error fault := by
  rw [closeList, skipBlanks_cons solid]
  simp only [if_neg more]
  split
  · split
    · exact ⟨_, rfl⟩
    · exact ⟨_, rfl⟩
  · exact ⟨_, rfl⟩

variable {one : List Char → Read α} {done : List α} {fuel : Nat} {first : Bool}
  {source text : List Char}

theorem items_accepted {v : α} (turn : listTurn first source = .ok (.item text))
    (read : one text = .ok (v, rest)) :
    items one done (fuel + 1) first source = items one (v :: done) fuel false rest := by
  rw [items, turn]
  simp only [read]

theorem items_refused {fault : Fault} (turn : listTurn first source = .ok (.item text))
    (read : one text = .error fault) : items one done (fuel + 1) first source = .error fault := by
  rw [items, turn]
  simp only [read]

end Reader

/-! ## Shapes -/

namespace Shape

variable {s : Shape α}

/-- Whether the shape takes values and their texts alike. -/
def Agrees (s : Shape α) : Prop :=
  ∀ (v : Json) (depth : Nat) (rest : List Char), v.depth < depth → v.Canonical → v.Integral →
    Ends rest → Alike rest (s.ofValue v) (s.read depth (v.chars ++ rest))

/-- A text that begins with something else is refused. -/
theorem refuses_mismatch (cause : Cause) (expected : String) (source : List Char) :
    Alike rest (.error cause) (mismatch expected source : Read α) :=
  .of_ne_ok cause (mismatch_ne_ok expected source)

theorem agrees_any : any.Agrees := by
  intro v depth rest shallow canonical integral ends
  have read := value_chars v depth rest shallow canonical integral ends
  show Alike rest (.ok v) (value depth (v.chars ++ rest))
  rw [read]
  exact .accepted v

theorem differs {v : Json} {c d : Char} (leads : v.leads c = true) (other : v.leads d = false) :
    c ≠ d := by
  rintro rfl
  rw [leads] at other
  cases other

theorem agrees_text : text.Agrees := by
  intro v depth rest _ _ integral ends
  obtain ⟨c, cs, source, opens, leads⟩ := leads_chars v integral ends
  have refuses (cause : Cause) (other : v.leads '"' = false) :
      Alike rest (.error cause) (text.read depth (v.chars ++ rest)) := by
    rw [source]
    simp only [text, skipBlanks_cons opens.1, if_neg (differs leads other)]
    exact refuses_mismatch ..
  cases v with
  | text s =>
      have read := readsBack_text depth s rest ends
      rw [chars, read]
      exact .accepted s
  | null => exact refuses _ rfl
  | bool b => exact refuses _ (by cases b <;> rfl)
  | number n => exact refuses _ rfl
  | array vs => exact refuses _ rfl
  | object ms => exact refuses _ rfl

theorem agrees_bool : bool.Agrees := by
  intro v depth rest _ _ integral ends
  obtain ⟨c, cs, source, opens, leads⟩ := leads_chars v integral ends
  have refuses (cause : Cause) (true : v.leads 't' = false) (false : v.leads 'f' = false) :
      Alike rest (.error cause) (bool.read depth (v.chars ++ rest)) := by
    rw [source]
    simp only [bool, skipBlanks_cons opens.1, if_neg (differs leads true),
      if_neg (differs leads false)]
    exact refuses_mismatch ..
  cases v with
  | bool b =>
      rw [chars]
      cases b
      · exact .accepted Bool.false
      · exact .accepted Bool.true
  | null => exact refuses _ rfl rfl
  | text s => exact refuses _ rfl rfl
  | number n => exact refuses _ rfl rfl
  | array vs => exact refuses _ rfl rfl
  | object ms => exact refuses _ rfl rfl

theorem no_number_of_leads {v : Json} {c : Char} (leads : v.leads c = true)
    (other : v.asBinary64? = none) : c ≠ '-' ∧ isDigit c ≠ true := by
  cases v with
  | number n => cases other
  | bool b => cases b <;> (rw [eq_of_beq leads]; decide)
  | null => rw [eq_of_beq leads]; decide
  | text s => rw [eq_of_beq leads]; decide
  | array vs => rw [eq_of_beq leads]; decide
  | object ms => rw [eq_of_beq leads]; decide

theorem agrees_ofNumber (expected : String) (accept : Number → Except Cause α) :
    (ofNumber expected accept).Agrees := by
  intro v depth rest _ _ integral ends
  obtain ⟨c, cs, source, opens, leads⟩ := leads_chars v integral ends
  have refuses (cause : Cause) (other : v.asBinary64? = none) :
      Alike rest (.error cause) ((ofNumber expected accept).read depth (v.chars ++ rest)) := by
    obtain ⟨plain, solid⟩ := no_number_of_leads leads other
    rw [source]
    simp only [ofNumber, skipBlanks_cons opens.1, if_neg plain, if_neg solid]
    exact refuses_mismatch ..
  cases v with
  | number n =>
      cases n with
      | real x => simp [Integral] at integral
      | integer i =>
          obtain ⟨d, ds, text, read⟩ := integer_read i ends
          have solid := (opens_of_integer ends text).1
          have whole : Alike rest (.ok (Number.integer i)) (.ok (.integer i, rest)) :=
            .accepted _
          have checked := whole.checked accept
          rw [chars, Number.chars, text]
          simp only [ofNumber, skipBlanks_cons solid]
          rcases read with ⟨dash, read⟩ | ⟨plain, digit, read⟩
          · rw [if_pos dash, read]
            exact checked
          · rw [if_neg plain, if_pos digit, read]
            exact checked
  | null => exact refuses _ rfl
  | bool b => exact refuses _ rfl
  | text s => exact refuses _ rfl
  | array vs => exact refuses _ rfl
  | object ms => exact refuses _ rfl

theorem leads_null {v : Json} (present : v.isNull = false) : v.leads 'n' = false := by
  cases v with
  | null => cases present
  | bool b => cases b <;> rfl
  | _ => rfl

theorem agrees_optional (agrees : s.Agrees) : (optional s).Agrees := by
  intro v depth rest shallow canonical integral ends
  obtain ⟨c, cs, source, opens, leads⟩ := leads_chars v integral ends
  cases null : v.isNull with
  | true =>
      cases v with
      | null =>
          rw [chars]
          exact .accepted none
      | _ => cases null
  | false =>
      have present : c ≠ 'n' := differs leads (leads_null null)
      have alike := (agrees v depth rest shallow canonical integral ends).yields some
      have value : (optional s).ofValue v = some <$> s.ofValue v := by
        cases v with
        | null => cases null
        | _ => rfl
      rw [value]
      rw [source] at alike ⊢
      simp only [optional, skipBlanks_cons opens.1]
      split
      · next same => exact absurd (List.cons.inj same).1 present
      · exact alike

/-! ## Lists -/

section Items

variable {done : List α} {fuel depth : Nat} {first : Bool} {source text : List Char}

/-- What a list makes of its items behind those that are done. -/
def itemsFrom (s : Shape α) (done : List α) (vs : List Json) : Except Cause (List α) :=
  (done.reverse ++ ·) <$> vs.mapM s.ofValue

theorem itemsFrom_cons {v : Json} {vs : List Json} {x : α} (value : s.ofValue v = .ok x) :
    itemsFrom s done (v :: vs) = itemsFrom s (x :: done) vs := by
  rw [itemsFrom, itemsFrom, List.mapM_cons, value]
  cases vs.mapM s.ofValue with
  | error cause => rfl
  | ok xs =>
      show Except.ok (done.reverse ++ x :: xs) = Except.ok ((x :: done).reverse ++ xs)
      rw [List.reverse_cons, List.append_assoc, List.singleton_append]

theorem itemsFrom_error {v : Json} {vs : List Json} {cause : Cause}
    (value : s.ofValue v = .error cause) : itemsFrom s done (v :: vs) = .error cause := by
  rw [itemsFrom, List.mapM_cons, value]
  rfl

/-- An item that has its turn, and the items behind it. -/
theorem items_turn {v : Json} {vs : List Json} {behind : List Char}
    (turn : listTurn first source = .ok (.item text))
    (alike : Alike behind (s.ofValue v) (s.read depth text))
    (later : ∀ x, Alike rest (itemsFrom s (x :: done) vs)
      (items (s.read depth) (x :: done) fuel false behind)) :
    Alike rest (itemsFrom s done (v :: vs)) (items (s.read depth) done (fuel + 1) first source) := by
  generalize value : s.ofValue v = a at alike
  generalize read : s.read depth text = r at alike
  cases alike with
  | accepted x =>
      rw [items_accepted turn read, itemsFrom_cons value]
      exact later x
  | refused cause fault =>
      rw [items_refused turn read, itemsFrom_error value]
      exact .refused cause fault

/-- Items behind the first one. -/
theorem agrees_items (agrees : s.Agrees) (vs : List Json) (rest : List Char)
    (shallow : depthItems vs < depth) (canonical : CanonicalItems vs) (integral : IntegralItems vs)
    (enough : vs.length < fuel) : Alike rest (itemsFrom s done vs)
      (items (s.read depth) done fuel false (itemChars vs ++ rest)) := by
  induction vs generalizing fuel done with
  | nil =>
      obtain ⟨fuel, rfl⟩ : ∃ f, fuel = f + 1 := ⟨fuel - 1, by omega⟩
      rw [itemChars, List.singleton_append, items_close]
      have all : itemsFrom s done [] = .ok done.reverse := congrArg Except.ok (List.append_nil _)
      rw [all]
      exact .accepted done.reverse
  | cons v vs ih =>
      simp only [depthItems, CanonicalItems, IntegralItems] at shallow canonical integral
      rw [List.length_cons] at enough
      obtain ⟨fuel, rfl⟩ : ∃ f, fuel = f + 1 := ⟨fuel - 1, by omega⟩
      have behind : Ends (itemChars vs ++ rest) := ends_itemChars vs rest
      have here := agrees v depth _ (by omega) canonical.1 integral.1 behind
      obtain ⟨c, cs, text, opens⟩ := chars_eq_cons v integral.1 _ behind
      rw [itemChars, List.append_assoc, List.cons_append, text]
      refine items_turn (listTurn_next opens) (text ▸ here) fun x => ?_
      exact ih (by omega) canonical.2 integral.2 (by omega)

end Items

theorem agrees_list (agrees : s.Agrees) : (list s).Agrees := by
  intro v depth rest shallow canonical integral ends
  obtain ⟨c, cs, source, opens, leads⟩ := leads_chars v integral ends
  have refuses (cause : Cause) (other : v.leads '[' = false) :
      Alike rest (.error cause) ((list s).read depth (v.chars ++ rest)) := by
    rw [source]
    simp only [list, skipBlanks_cons opens.1, if_neg (differs leads other)]
    exact refuses_mismatch ..
  cases v with
  | array vs =>
      simp only [Json.depth, Json.Canonical, Json.Integral] at shallow canonical integral
      have deep : ¬ depth ≤ 1 := by omega
      have opened (text : List Char) : (list s).read depth ('[' :: text)
          = items (s.read (depth - 1)) [] (text.length + 1) true text := by
        have bracket : skipBlanks ('[' :: text) = '[' :: text := skipBlanks_cons rfl
        simp only [list, bracket, if_true, if_neg deep]
      have value : (list s).ofValue (.array vs) = itemsFrom s [] vs := by
        show vs.mapM s.ofValue = _ <$> vs.mapM s.ofValue
        cases vs.mapM s.ofValue <;> rfl
      rw [value]
      cases vs with
      | nil =>
          rw [chars, List.cons_append, opened, List.singleton_append, items_close]
          exact .accepted []
      | cons v vs =>
          simp only [depthItems, CanonicalItems, IntegralItems] at shallow canonical integral
          have behind : Ends (itemChars vs ++ rest) := ends_itemChars vs rest
          have here := agrees v (depth - 1) _ (by omega) canonical.1 integral.1 behind
          obtain ⟨d, ds, text, solid⟩ := chars_eq_cons v integral.1 _ behind
          have longer := length_itemChars vs
          have enough : vs.length < (d :: ds).length := by
            rw [← text, List.length_append, List.length_append]
            omega
          rw [chars, List.append_assoc, List.cons_append, text, opened]
          refine items_turn (listTurn_first solid) (text ▸ here) fun x => ?_
          exact agrees_items agrees vs rest (by omega) canonical.2 integral.2 enough
  | null => exact refuses _ rfl
  | bool b => exact refuses _ (by cases b <;> rfl)
  | number n => exact refuses _ rfl
  | text s => exact refuses _ rfl
  | object ms => exact refuses _ rfl

end Shape

/-! ## Fields -/

namespace Field

variable {σ : Type} {f g : Field σ}

def Agrees (f : Field σ) : Prop :=
  ∀ (draft : σ) (v : Json) (depth : Nat) (rest : List Char), v.depth < depth → v.Canonical →
    v.Integral → Ends rest → Alike rest (f.ofValue draft v) (f.read depth draft (v.chars ++ rest))

theorem agrees_typed {name : String} {shape : Shape α} {get : σ → Option α} {set : σ → α → σ}
    {fallback : Option α} (agrees : shape.Agrees) : (typed name shape get set fallback).Agrees := by
  intro draft v depth rest shallow canonical integral ends
  exact (agrees v depth rest shallow canonical integral ends).yields (set draft)

def Apart (f g : Field σ) : Prop :=
  ∀ draft v next, f.ofValue draft v = .ok next → g.filled next = g.filled draft

theorem apart_typed {name other : String} {shape : Shape α} {own : Shape β} {get : σ → Option α}
    {set : σ → α → σ} {fallback : Option α} {look : σ → Option β} {put : σ → β → σ}
    {default : Option β} (same : ∀ draft x, look (set draft x) = look draft) :
    (typed name shape get set fallback).Apart (typed other own look put default) := by
  intro draft v next read
  have taken : set draft <$> shape.ofValue v = .ok next := read
  cases value : shape.ofValue v with
  | error cause =>
      rw [value] at taken
      cases taken
  | ok x =>
      rw [value] at taken
      cases taken
      exact congrArg Option.isSome (same draft x)

end Field

/-! ## Records -/

namespace Record

variable {σ : Type} {r : Record σ α}

structure Regular (r : Record σ α) : Prop where
  each : ∀ f ∈ r.fields, f.Agrees ∧ f.filled r.blank = false
  apart : ∀ f ∈ r.fields, ∀ g ∈ r.fields, f.name = g.name ∨ f.Apart g

def Open (r : Record σ α) (draft : σ) (ms : List (String × Json)) : Prop :=
  ∀ m ∈ ms, ∀ f, r.field? m.1 = some f → f.filled draft = false

theorem name_of_field? {name : String} {f : Field σ} (known : r.field? name = some f) :
    f.name = name := by
  rw [field?] at known
  have found := List.find?_some known
  exact eq_of_beq found

variable {draft next : σ} {name : String} {v : Json} {ms : List (String × Json)} {f : Field σ}

theorem Open.fill (regular : r.Regular) (fresh : r.Open draft ((name, v) :: ms))
    (sorted : Ascending ((name, v) :: ms)) (known : r.field? name = some f)
    (read : f.ofValue draft v = .ok next) : r.Open next ms := by
  intro m member g also
  have other : f.name ≠ g.name := by
    rw [name_of_field? known, name_of_field? also]
    exact String.ne_of_lt (sorted.1 m member)
  have apart := (regular.apart f (mem_of_field? known) g (mem_of_field? also)).resolve_left other
  rw [apart draft v next read]
  exact fresh m (List.mem_cons_of_mem _ member) g also

/-- A member that has its turn, and the members behind it. -/
theorem members_turn (regular : r.Regular) {depth fuel : Nat} {first : Bool}
    {source behind : List Char} (turn : objectTurn first source
      = .ok (.item (name.toList.flatMap escapeChar ++ '"' :: ':' :: (v.chars ++ behind))))
    (shallow : v.depth < depth) (canonical : v.Canonical) (integral : v.Integral) (ends : Ends behind)
    (fresh : r.Open draft ((name, v) :: ms)) (sorted : Ascending ((name, v) :: ms))
    (later : ∀ next, r.Open next ms →
      Alike rest (r.ofMembers next ms) (r.readMembers depth fuel false next behind)) :
    Alike rest (r.ofMembers draft ((name, v) :: ms))
      (r.readMembers depth (fuel + 1) first draft source) := by
  rw [readMembers, turn, ofMembers]
  simp only [string_escaped]
  cases known : r.field? name with
  | none =>
      simp only [colon_cons, skipValue_chars v behind integral ends]
      exact later draft fun m member => fresh m (List.mem_cons_of_mem _ member)
  | some f =>
      have empty := fresh (name, v) List.mem_cons_self f known
      have alike := (regular.each f (mem_of_field? known)).1 draft v depth behind shallow canonical
        integral ends
      simp only [empty, Bool.false_eq_true, if_false, colon_cons]
      generalize value : f.ofValue draft v = a at alike
      generalize f.read depth draft (v.chars ++ behind) = q at alike
      cases alike with
      | refused cause fault => exact .refused cause fault
      | accepted next => exact later next (fresh.fill regular sorted known value)

/-- Members behind the first one. -/
theorem agrees_members (regular : r.Regular) (ms : List (String × Json)) {depth fuel : Nat}
    (rest : List Char) (shallow : depthMembers ms < depth) (canonical : CanonicalMembers ms)
    (integral : IntegralMembers ms) (sorted : Ascending ms) (fresh : r.Open draft ms)
    (enough : ms.length < fuel) : Alike rest (r.ofMembers draft ms)
      (r.readMembers depth fuel false draft (memberChars ms ++ rest)) := by
  induction ms generalizing fuel draft with
  | nil =>
      obtain ⟨fuel, rfl⟩ : ∃ f, fuel = f + 1 := ⟨fuel - 1, by omega⟩
      rw [memberChars, readMembers]
      exact .accepted draft
  | cons m ms ih =>
      obtain ⟨name, v⟩ := m
      have ordered := sorted.2
      simp only [depthMembers, CanonicalMembers, IntegralMembers] at shallow canonical integral
      rw [List.length_cons] at enough
      obtain ⟨fuel, rfl⟩ : ∃ f, fuel = f + 1 := ⟨fuel - 1, by omega⟩
      rw [memberChars, List.append_assoc, List.append_assoc, List.cons_append, List.cons_append]
      refine members_turn regular (stringChars_append name _ ▸ objectTurn_next _) (by omega)
        canonical.1 integral.1 (ends_memberChars ms rest) fresh sorted fun next unfilled => ?_
      exact ih (by omega) canonical.2 integral.2 ordered unfilled (by omega)

theorem agrees_object (regular : r.Regular) (ms : List (String × Json)) (depth : Nat)
    (rest : List Char) (shallow : depthMembers ms < depth) (canonical : CanonicalMembers ms)
    (integral : IntegralMembers ms) (sorted : Ascending ms) :
    ∃ text, (Json.object ms).chars ++ rest = '\x7b' :: text ∧
      Alike rest (r.ofMembers r.blank ms) (r.readMembers depth (text.length + 1) true r.blank text) := by
  have fresh : r.Open r.blank ms := fun _ _ f known => (regular.each f (mem_of_field? known)).2
  cases ms with
  | nil =>
      refine ⟨'\x7d' :: rest, by rw [chars]; rfl, ?_⟩
      rw [readMembers]
      exact .accepted r.blank
  | cons m ms =>
      obtain ⟨name, v⟩ := m
      have ordered := sorted.2
      simp only [depthMembers, CanonicalMembers, IntegralMembers] at shallow canonical integral
      have longer := length_memberChars ms
      refine ⟨stringChars name ++ ':' :: (v.chars ++ (memberChars ms ++ rest)), ?_, ?_⟩
      · rw [chars, List.append_assoc, List.append_assoc, List.cons_append, List.cons_append]
      · refine members_turn regular (stringChars_append name _ ▸ objectTurn_first _) (by omega)
          canonical.1 integral.1 (ends_memberChars ms rest) fresh sorted fun next unfilled => ?_
        refine agrees_members regular ms rest (by omega) canonical.2 integral.2 ordered unfilled ?_
        simp only [List.length_append, List.length_cons]
        omega

/-! ## Records as lists -/

def ofAllItems (r : Record σ α) (index : Nat) (fields : List (Field σ)) (draft : σ)
    (vs : List Json) : Except Cause σ :=
  match r.ofItems index fields draft vs with
  | .ok (draft, []) => .ok draft
  | .ok (_, _ :: _) => .error .trailingCharacters
  | .error cause => .error cause

/-- Where a list ends, the fields that are left may all be absent, or one of them may not. -/
theorem agrees_absent {depth index turn : Nat} (fields : List (Field σ)) (draft : σ) :
    Alike rest (r.ofAllItems index fields draft [])
      (r.readFields depth turn fields draft (']' :: rest)) := by
  induction fields generalizing index draft with
  | nil => exact .accepted draft
  | cons f fields ih =>
      rw [readFields, listTurn_close, ofAllItems, ofItems]
      cases absent : f.absent draft with
      | none => exact .refused _ _
      | some next => exact ih next

variable {depth index place : Nat} {source text behind : List Char} {fields : List (Field σ)}
  {vs : List Json}

/-- A field that has its turn, and the fields behind it. -/
theorem fields_turn (turn : listTurn (place == 0) source = .ok (.item text))
    (alike : Alike behind (f.ofValue draft v) (f.read depth draft text))
    (later : ∀ next, Alike rest (r.ofAllItems (index + 1) fields next vs)
      (r.readFields depth (place + 1) fields next behind)) :
    Alike rest (r.ofAllItems index (f :: fields) draft (v :: vs))
      (r.readFields depth place (f :: fields) draft source) := by
  rw [readFields, turn, ofAllItems, ofItems]
  generalize f.ofValue draft v = a at alike
  generalize read : f.read depth draft text = q at alike
  simp only [read]
  cases alike with
  | accepted next => exact later next
  | refused cause fault => exact .refused cause fault

/-- Fields behind the first one. -/
theorem agrees_fields (all : ∀ f ∈ fields, f.Agrees) (vs : List Json) (rest : List Char)
    (shallow : depthItems vs < depth) (canonical : CanonicalItems vs) (integral : IntegralItems vs) :
    Alike rest (r.ofAllItems index fields draft vs)
      (r.readFields depth (place + 1) fields draft (itemChars vs ++ rest)) := by
  induction fields generalizing index place draft vs with
  | nil =>
      cases vs with
      | nil =>
          rw [itemChars]
          exact agrees_absent [] draft
      | cons v vs =>
          have comma : isBlank ',' = false ∧ ',' ≠ ']' := by decide
          obtain ⟨fault, refused⟩ :=
            closeList_refuses (v.chars ++ (itemChars vs ++ rest)) comma.1 comma.2
          rw [itemChars, List.append_assoc, List.cons_append, readFields, refused]
          exact .refused _ fault
  | cons f fields ih =>
      obtain ⟨here, later⟩ := List.forall_mem_cons.mp all
      cases vs with
      | nil =>
          rw [itemChars]
          exact agrees_absent (f :: fields) draft
      | cons v vs =>
          simp only [depthItems, CanonicalItems, IntegralItems] at shallow canonical integral
          have ends : Ends (itemChars vs ++ rest) := ends_itemChars vs rest
          have alike := here draft v depth _ (by omega) canonical.1 integral.1 ends
          obtain ⟨c, cs, text, opens⟩ := chars_eq_cons v integral.1 _ ends
          rw [itemChars, List.append_assoc, List.cons_append, text]
          refine fields_turn (listTurn_next opens) (text ▸ alike) fun next => ?_
          exact ih later vs (by omega) canonical.2 integral.2

theorem agrees_array (regular : r.Regular) (vs : List Json) (depth : Nat) (rest : List Char)
    (shallow : depthItems vs < depth) (canonical : CanonicalItems vs) (integral : IntegralItems vs) :
    ∃ text, (Json.array vs).chars ++ rest = '[' :: text ∧
      Alike rest (r.ofAllItems 0 r.fields r.blank vs)
        (r.readFields depth 0 r.fields r.blank text) := by
  cases vs with
  | nil => exact ⟨']' :: rest, by rw [chars]; rfl, agrees_absent r.fields r.blank⟩
  | cons v vs =>
      simp only [depthItems, CanonicalItems, IntegralItems] at shallow canonical integral
      have ends : Ends (itemChars vs ++ rest) := ends_itemChars vs rest
      obtain ⟨c, cs, text, opens⟩ := chars_eq_cons v integral.1 _ ends
      refine ⟨c :: cs, by rw [chars, List.append_assoc, List.cons_append, text], ?_⟩
      have all : ∀ f ∈ r.fields, f.Agrees := fun f member => (regular.each f member).1
      cases same : r.fields with
      | nil =>
          obtain ⟨fault, refused⟩ := closeList_refuses cs opens.1 opens.2.1
          rw [readFields, refused]
          exact .refused _ fault
      | cons f fields =>
          rw [same] at all
          obtain ⟨here, later⟩ := List.forall_mem_cons.mp all
          have alike := here r.blank v depth _ (by omega) canonical.1 integral.1 ends
          refine fields_turn (listTurn_first opens) (text ▸ alike) fun next => ?_
          exact agrees_fields later vs rest (by omega) canonical.2 integral.2

/-- From a list a record is made of the draft of all items, wherever an item too many is found. -/
theorem ofValue_array (r : Record σ α) (vs : List Json) (x : α) :
    r.ofValue (.array vs) = .ok x ↔ (r.ofAllItems 0 r.fields r.blank vs >>= r.complete) = .ok x := by
  rw [ofValue, ofAllItems]
  cases r.ofItems 0 r.fields r.blank vs with
  | error cause => exact Iff.rfl
  | ok made =>
      obtain ⟨draft, surplus⟩ := made
      cases surplus with
      | nil =>
          dsimp only
          cases made : r.complete draft with
          | error cause =>
              show Except.error cause = .ok x ↔ r.complete draft = .ok x
              rw [made]
          | ok y =>
              show Except.ok y = .ok x ↔ r.complete draft = .ok x
              rw [made]
      | cons v vs =>
          dsimp only
          cases r.complete draft with
          | error cause =>
              constructor
              · rintro ⟨⟩
              · rintro ⟨⟩
          | ok y =>
              constructor
              · rintro ⟨⟩
              · rintro ⟨⟩

theorem ofValue_object (r : Record σ α) (ms : List (String × Json)) :
    r.ofValue (.object ms) = (r.ofMembers r.blank ms >>= r.complete) := by
  rw [ofValue]
  cases r.ofMembers r.blank ms <;> rfl

/-- A record whose fields take values and texts alike does so itself. -/
theorem Regular.agrees (regular : r.Regular) : r.shape.Agrees := by
  intro v depth rest shallow canonical integral ends
  obtain ⟨c, cs, source, opens, leads⟩ := leads_chars v integral ends
  have own : r.shape.read = r.read := rfl
  have value : r.shape.ofValue = r.ofValue := rfl
  have refuses (cause : Cause) (list : v.leads '[' = false) (object : v.leads '\x7b' = false) :
      Alike rest (.error cause) (r.shape.read depth (v.chars ++ rest)) := by
    rw [source, own, Record.read, skipBlanks_cons opens.1]
    simp only [if_neg (Shape.differs leads list), if_neg (Shape.differs leads object)]
    exact Shape.refuses_mismatch ..
  cases v with
  | array vs =>
      simp only [Json.depth, Json.Canonical, Json.Integral] at shallow canonical integral
      obtain ⟨text, same, alike⟩ :=
        agrees_array regular vs (depth - 1) rest (by omega) canonical integral
      have made := alike.checked r.complete
      rw [same, own, value, Record.read, skipBlanks_cons rfl]
      simp only [if_true, if_neg (show ¬ depth ≤ 1 by omega)]
      exact made.congr (r.ofValue_array vs)
  | object ms =>
      simp only [Json.depth, Json.Canonical, Json.Integral] at shallow canonical integral
      obtain ⟨text, same, alike⟩ :=
        agrees_object regular ms (depth - 1) rest (by omega) canonical.2 integral canonical.1
      have made := alike.checked r.complete
      rw [same, own, value, Record.read, skipBlanks_cons rfl, ofValue_object]
      simp only [Char.reduceEq, if_false, if_true, if_neg (show ¬ depth ≤ 1 by omega)]
      exact made
  | null => exact refuses _ rfl rfl
  | bool b => exact refuses _ (by cases b <;> rfl) (by cases b <;> rfl)
  | number n => exact refuses _ rfl rfl
  | text s => exact refuses _ rfl rfl

end Record

end FlexLink.Json
