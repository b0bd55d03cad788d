import FlexLink.Json.Skip

/-! # Typed reading

A shape reads one type in two ways: from text, where faults have places, and from a value that is
already read, where they have none.  Both accept the same data.  A record is read from an object,
whose unknown members are passed over, or from a list of its fields in order. -/
set_option autoImplicit false
namespace FlexLink.Json

/-- How one type is read. -/
structure Shape (α : Type) where
  /-- From text, with `depth` counted as for `Reader.value`. -/
  read : (depth : Nat) → List Char → Reader.Read α
  ofValue : Json → Except Cause α

namespace Reader

/-- Refuses what stands next because it is not `expected`.  A scalar is read before it is refused,
a bracket is not. -/
def mismatch {α : Type} (expected : String) (source : List Char) : Except Fault α :=
  let refuse (read : Read Found) : Except Fault α :=
    match read with
    | .ok (f, rest) => stop (.wrongType f expected) rest
    | .error fault => .error fault
  match skipBlanks source with
  | [] => stop .endInValue []
  | c :: rest =>
    let scalar (n : Number) : Found :=
      match n with
      | .integer i => .integer i.val
      | .real x => .real x
    if c = 'n' then refuse (wordAs .null ['u', 'l', 'l'] rest)
    else if c = 't' then refuse (wordAs (.bool true) ['r', 'u', 'e'] rest)
    else if c = 'f' then refuse (wordAs (.bool false) ['a', 'l', 's', 'e'] rest)
    else if c = '-' then refuse (yields scalar (number true rest))
    else if isDigit c then refuse (yields scalar (number false (c :: rest)))
    else if c = '"' then refuse (yields .text (string rest))
    else if c = '[' then stop (.wrongType .sequence expected) (c :: rest)
    else if c = '\x7b' then stop (.wrongType .map expected) (c :: rest)
    else stopAtNext .expectedValue (c :: rest)

def checked {α β : Type} (accept : α → Except Cause β) : Read α → Read β
  | .error fault => .error fault
  | .ok (v, rest) =>
    match accept v with
    | .ok w => .ok (w, rest)
    | .error cause => stop cause rest

def closeList (source : List Char) : Except Fault (List Char) :=
  match skipBlanks source with
  | [] => stop .endInList []
  | c :: rest =>
    if c = ']' then .ok rest
    else if c = ',' then
      match skipBlanks rest with
      | [] => stop .trailingCharacters []
      | d :: rest =>
        stopAtNext (if d = ']' then .trailingComma else .trailingCharacters) (d :: rest)
    else stopAtNext .trailingCharacters (c :: rest)

/-- What is left behind the end of an object, if it ends here. -/
def behindObject (source : List Char) : List Char :=
  match skipBlanks source with
  | [] => []
  | c :: rest => if c = '\x7d' then rest else c :: rest

end Reader

namespace Shape

def any : Shape Json := ⟨Reader.value, .ok⟩

def ofNumber {α : Type} (expected : String) (accept : Number → Except Cause α) : Shape α where
  read _ source :=
    match Reader.skipBlanks source with
    | [] => Reader.stop .endInValue []
    | c :: rest =>
      if c = '-' then Reader.checked accept (Reader.number true rest)
      else if Reader.isDigit c then Reader.checked accept (Reader.number false (c :: rest))
      else Reader.mismatch expected (c :: rest)
  ofValue
    | .number n => accept n
    | v => .error (.wrongType (found v) expected)

def ofInteger {α : Type} (expected : String) (narrow : WideInt → Option α) : Shape α :=
  ofNumber expected fun
    | .integer i =>
      match narrow i with
      | some v => .ok v
      | none => .error (.wrongValue (.integer i.val) expected)
    | .real x => .error (.wrongType (.real x) expected)

def int64 : Shape Int64 := ofInteger "i64" WideInt.toInt64?

def uint64 : Shape UInt64 := ofInteger "u64" WideInt.toUInt64?

def uint32 : Shape UInt32 := ofInteger "u32" WideInt.toUInt32?

def binary64 : Shape Binary64 := ofNumber "f64" fun n => .ok n.toBinary64

def bool : Shape Bool where
  read _ source :=
    match Reader.skipBlanks source with
    | [] => Reader.stop .endInValue []
    | c :: rest =>
      if c = 't' then Reader.wordAs true ['r', 'u', 'e'] rest
      else if c = 'f' then Reader.wordAs false ['a', 'l', 's', 'e'] rest
      else Reader.mismatch "a boolean" (c :: rest)
  ofValue
    | .bool b => .ok b
    | v => .error (.wrongType (found v) "a boolean")

def text : Shape String where
  read _ source :=
    match Reader.skipBlanks source with
    | [] => Reader.stop .endInValue []
    | c :: rest =>
      if c = '"' then Reader.string rest else Reader.mismatch "a string" (c :: rest)
  ofValue
    | .text s => .ok s
    | v => .error (.wrongType (found v) "a string")

def optional {α : Type} (s : Shape α) : Shape (Option α) where
  read depth source :=
    match Reader.skipBlanks source with
    | 'n' :: rest => Reader.wordAs none ['u', 'l', 'l'] rest
    | rest => Reader.yields some (s.read depth rest)
  ofValue
    | .null => .ok none
    | v => some <$> s.ofValue v

def list {α : Type} (s : Shape α) : Shape (List α) where
  read depth source :=
    match Reader.skipBlanks source with
    | [] => Reader.stop .endInValue []
    | c :: rest =>
      if c = '[' then
        if depth ≤ 1 then Reader.stopAtNext .tooDeep (c :: rest)
        else Reader.items (s.read (depth - 1)) [] (rest.length + 1) true rest
      else Reader.mismatch "a sequence" (c :: rest)
  ofValue
    | .array vs => vs.mapM s.ofValue
    | v => .error (.wrongType (found v) "a sequence")

end Shape

/-- One field of a record that is read into a draft of type `σ`. -/
structure Field (σ : Type) where
  name : String
  filled : σ → Bool
  read : (depth : Nat) → σ → List Char → Reader.Read σ
  ofValue : σ → Json → Except Cause σ
  /-- The draft where a list ends before the field, if the field may be absent from a list. -/
  absent : σ → Option σ

/-- The field that `get` and `set` reach in a draft, of the given shape; `fallback` stands for it
in a list that ends before it. -/
def Field.typed {σ α : Type} (name : String) (shape : Shape α) (get : σ → Option α)
    (set : σ → α → σ) (fallback : Option α) : Field σ where
  name := name
  filled draft := (get draft).isSome
  read depth draft source := Reader.yields (set draft) (shape.read depth source)
  ofValue draft v := set draft <$> shape.ofValue v
  absent draft := set draft <$> fallback

structure Record (σ α : Type) where
  label : String
  blank : σ
  fields : List (Field σ)
  /-- The record, or the name of a field that it lacks. -/
  finish : σ → Except String α

namespace Record

variable {σ α : Type}

def field? (r : Record σ α) (name : String) : Option (Field σ) :=
  r.fields.find? fun f => f.name == name

def expected (r : Record σ α) : String := s!"struct {r.label}"

def expectedLength (r : Record σ α) : String := s!"struct {r.label} with {r.fields.length} elements"

def complete (r : Record σ α) (draft : σ) : Except Cause α :=
  match r.finish draft with
  | .ok v => .ok v
  | .error name => .error (.missingField name)

/-- Members up to the closing brace.  A name that came before is refused as soon as it is read. -/
def readMembers (r : Record σ α) (depth : Nat) : (fuel : Nat) → (first : Bool) → σ →
    List Char → Reader.Read σ
  | 0, _, _, source => Reader.stop .endInObject source
  | fuel + 1, first, draft, source =>
    match Reader.objectTurn first source with
    | .error fault => .error fault
    | .ok (.close rest) => .ok (draft, rest)
    | .ok (.item rest) =>
      match Reader.string rest with
      | .error fault => .error fault
      | .ok (name, rest) =>
        match r.field? name with
        | some f =>
          if f.filled draft then
            Reader.stop (.duplicateField name) (Reader.behindObject rest)
          else
            match Reader.colon rest with
            | .error fault => .error fault
            | .ok rest =>
              match f.read depth draft rest with
              | .error fault => .error fault
              | .ok (draft, rest) => r.readMembers depth fuel false draft rest
        | none =>
          match Reader.colon rest with
          | .error fault => .error fault
          | .ok rest =>
            match Reader.skipValue rest with
            | .error fault => .error fault
            | .ok rest => r.readMembers depth fuel false draft rest

/-- The fields from number `index` on, each where a list has its turn. -/
def readFields (r : Record σ α) (depth : Nat) : (index : Nat) → List (Field σ) → σ →
    List Char → Reader.Read σ
  | _, [], draft, source =>
    match Reader.closeList source with
    | .ok rest => .ok (draft, rest)
    | .error fault => .error fault
  | index, f :: fields, draft, source =>
    match Reader.listTurn (index == 0) source with
    | .error fault => .error fault
    | .ok (.close rest) =>
      match f.absent draft with
      | some draft => r.readFields depth index fields draft source
      | none => Reader.stop (.wrongLength (r.fields.length - fields.length - 1) r.expectedLength) rest
    | .ok (.item rest) =>
      match f.read depth draft rest with
      | .error fault => .error fault
      | .ok (draft, rest) => r.readFields depth (index + 1) fields draft rest

def read (r : Record σ α) (depth : Nat) (source : List Char) : Reader.Read α :=
  match Reader.skipBlanks source with
  | [] => Reader.stop .endInValue []
  | c :: rest =>
    if c = '[' then
      if depth ≤ 1 then Reader.stopAtNext .tooDeep (c :: rest)
      else Reader.checked r.complete (r.readFields (depth - 1) 0 r.fields r.blank rest)
    else if c = '\x7b' then
      if depth ≤ 1 then Reader.stopAtNext .tooDeep (c :: rest)
      else
        Reader.checked r.complete (r.readMembers (depth - 1) (rest.length + 1) true r.blank rest)
    else Reader.mismatch r.expected (c :: rest)

def ofMembers (r : Record σ α) : σ → List (String × Json) → Except Cause σ
  | draft, [] => .ok draft
  | draft, (name, v) :: rest =>
    match r.field? name with
    | some f =>
      match f.ofValue draft v with
      | .ok draft => r.ofMembers draft rest
      | .error cause => .error cause
    | none => r.ofMembers draft rest

/-- The fields from number `index` on, with the items that stay over. -/
def ofItems (r : Record σ α) : (index : Nat) → List (Field σ) → σ → List Json →
    Except Cause (σ × List Json)
  | _, [], draft, vs => .ok (draft, vs)
  | index, f :: fields, draft, [] =>
    match f.absent draft with
    | some draft => r.ofItems (index + 1) fields draft []
    | none => .error (.wrongLength index r.expectedLength)
  | index, f :: fields, draft, v :: vs =>
    match f.ofValue draft v with
    | .ok draft => r.ofItems (index + 1) fields draft vs
    | .error cause => .error cause

def ofValue (r : Record σ α) : Json → Except Cause α
  | .object ms =>
    match r.ofMembers r.blank ms with
    | .ok draft => r.complete draft
    | .error cause => .error cause
  | .array vs =>
    match r.ofItems 0 r.fields r.blank vs with
    | .error cause => .error cause
    | .ok (draft, surplus) =>
      match r.complete draft with
      | .error cause => .error cause
      | .ok v =>
        if surplus.isEmpty then .ok v
        else .error (.wrongLength vs.length "fewer elements in array")
  | v => .error (.wrongType (found v) r.expected)

def shape (r : Record σ α) : Shape α := ⟨r.read, r.ofValue⟩

end Record

namespace Shape

variable {α : Type}

def parse (s : Shape α) (source : String) : Except Error α :=
  Reader.whole (s.read Reader.depthLimit) source.toList

def interpret (s : Shape α) (v : Json) : Except Error α :=
  match s.ofValue v with
  | .ok x => .ok x
  | .error cause => .error ⟨cause, none⟩

end Shape
end FlexLink.Json
