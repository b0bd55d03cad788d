/-! # Settings documents

A document of the TOML format is a tree of tables.  A table that a header opened takes keys until
the next header; one that a dotted key named takes more dotted keys; one between braces is
complete.  Every key is written once. -/
set_option autoImplicit false
namespace FlexLink.Toml

/-- How a table came to be, which decides what may still be added to it. -/
inductive Origin where
  | inline
  | header
  /-- Named on the way to the header of another table. -/
  | passage
  | dotted
deriving DecidableEq

/-- A value of a document.  No setting is a fraction or a date, so these are not kept. -/
inductive Node where
  | text (s : String)
  | integer (i : Int)
  | bool (b : Bool)
  | fraction
  | date
  | array (items : List Node)
  | table (origin : Origin) (members : List (String × Node))
  /-- Tables under one repeated header, the latest first. -/
  | tables (items : List (List (String × Node)))

abbrev Members := List (String × Node)

namespace Members

def replace (key : String) (value : Node) : Members → Members
  | [] => []
  | (k, v) :: rest => if k = key then (k, value) :: rest else (k, v) :: replace key value rest

/-- Whether a path of `made` tables may lead through a table. -/
def mayPass (made origin : Origin) : Bool :=
  match made with
  | .dotted => origin == .passage || origin == .dotted
  | _ => origin != .inline

/-- Changes the table at the end of a path; tables missing on the way are `made`. -/
def changeAt (made : Origin) (change : Origin → Members → Option Members) :
    (path : List String) → Origin → Members → Option Members
  | [], origin, ms => change origin ms
  | key :: path, _, ms =>
    match ms.lookup key with
    | none => (changeAt made change path made []).map fun inner => ms ++ [(key, .table made inner)]
    | some (.table origin inner) =>
      if mayPass made origin then
        (changeAt made change path origin inner).map fun inner =>
          ms.replace key (.table origin inner)
      else none
    | some (.tables (latest :: earlier)) =>
      (changeAt made change path .header latest).map fun latest =>
        ms.replace key (.tables (latest :: earlier))
    | some _ => none

def assign (path : List String) (key : String) (value : Node) (origin : Origin) (ms : Members) :
    Option Members :=
  changeAt .dotted
    (fun origin ms =>
      if (origin == .dotted) == path.isEmpty || (ms.lookup key).isSome then none
      else some (ms ++ [(key, value)]))
    path origin ms

def openTable (path : List String) (key : String) (ms : Members) : Option Members :=
  changeAt .passage
    (fun _ ms =>
      match ms.lookup key with
      | none => some (ms ++ [(key, .table .header [])])
      | some (.table .passage inner) => some (ms.replace key (.table .header inner))
      | some _ => none)
    path .header ms

def openItem (path : List String) (key : String) (ms : Members) : Option Members :=
  changeAt .passage
    (fun _ ms =>
      match ms.lookup key with
      | none => some (ms ++ [(key, .tables [[]])])
      | some (.tables items) => some (ms.replace key (.tables ([] :: items)))
      | some _ => none)
    path .header ms

end Members
end FlexLink.Toml
