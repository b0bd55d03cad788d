import FlexLink.Envelope.Command

/-! # Journal records

Each request that is served and its final reply are recorded once, under the correlation and the
role of the record. -/
set_option autoImplicit false
namespace FlexLink

inductive JournalRole where
  | request
  | response
deriving DecidableEq

namespace JournalRole

def name : JournalRole → String
  | .request => "request"
  | .response => "response"

def ofName? (name : String) : Option JournalRole :=
  if name = "request" then some .request
  else if name = "response" then some .response
  else none

def names : List String := ["request", "response"]

open Json in
def ofNameOrFail (name : String) : Except Cause JournalRole :=
  match ofName? name with
  | some role => .ok role
  | none => .error (.unknownVariant name names)

open Json in
/-- A role by its name, or as an object of one member with that name and no content. -/
def read (depth : Nat) (source : List Char) : Reader.Read JournalRole :=
  match Reader.skipBlanks source with
  | [] => Reader.stop .endInValue []
  | c :: rest =>
    if c = '"' then Reader.checked ofNameOrFail (Reader.string rest)
    else if c = '\x7b' then
      if depth ≤ 1 then Reader.stopAtNext .tooDeep (c :: rest)
      else
        match Reader.checked ofNameOrFail (identifier rest) with
        | .error fault => .error fault
        | .ok (role, rest) =>
          match Reader.colon rest with
          | .error fault => .error fault
          | .ok rest =>
            match Reader.skipBlanks rest with
            | 'n' :: rest =>
              match Reader.word ['u', 'l', 'l'] rest with
              | .error fault => .error fault
              | .ok rest =>
                match Reader.skipBlanks rest with
                | [] => Reader.stop .endInObject []
                | '\x7d' :: rest => .ok (role, rest)
                | rest => Reader.stop .expectedValue rest
            | rest => Reader.mismatch "unit" rest
    else Reader.stopAtNext .expectedValue (c :: rest)
where
  identifier (source : List Char) : Reader.Read String :=
    match Reader.skipBlanks source with
    | [] => Reader.stopAtNext .endInObject []
    | '"' :: rest => Reader.string rest
    | '\x7d' :: rest => Reader.stopAtNext .expectedValue ('\x7d' :: rest)
    | rest => Reader.stopAtNext .nameNotString rest

open Json in
def ofValue : Json → Except Cause JournalRole
  | .text name => ofNameOrFail name
  | .object [(name, content)] =>
    match ofNameOrFail name with
    | .error cause => .error cause
    | .ok role =>
      if content.isNull then .ok role else .error (.wrongType (found content) "unit")
  | .object _ => .error (.wrongValue .map "map with a single key")
  | v => .error (.wrongType (found v) "string or map")

def shape : Json.Shape JournalRole := ⟨read, ofValue⟩

end JournalRole

structure JournalEntry where
  corr : String
  role : JournalRole
  ts : Millis
  payload : Json

namespace JournalEntry

structure Draft where
  corr : Option String := none
  role : Option JournalRole := none
  ts : Option UInt64 := none
  payload : Option Json := none

open Json in
def record : Record Draft JournalEntry where
  label := "JournalEntry"
  blank := {}
  fields := [
    .typed "corr" .text (·.corr) (fun d x => { d with corr := some x }) none,
    .typed "role" JournalRole.shape (·.role) (fun d x => { d with role := some x }) none,
    .typed "ts" .uint64 (·.ts) (fun d x => { d with ts := some x }) none,
    .typed "payload" .any (·.payload) (fun d x => { d with payload := some x }) none]
  finish d :=
    match d.corr, d.role, d.ts, d.payload with
    | none, _, _, _ => .error "corr"
    | _, none, _, _ => .error "role"
    | _, _, none, _ => .error "ts"
    | _, _, _, none => .error "payload"
    | some corr, some role, some ts, some payload => .ok ⟨corr, role, ts, payload⟩

def shape : Json.Shape JournalEntry := record.shape

def render (e : JournalEntry) : String :=
  String.ofList <| Json.recordChars [
    ("corr", some (Json.stringChars e.corr)),
    ("role", some (Json.stringChars e.role.name)),
    ("ts", some (decimalDigits e.ts.toNat)),
    ("payload", some e.payload.chars)]

end JournalEntry
end FlexLink
