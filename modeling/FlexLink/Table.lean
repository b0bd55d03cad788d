/-! # Tables

Values under keys, each key once.  A value that is put under a present key takes the place of the
one before; a new key goes to the end. -/
set_option autoImplicit false
namespace FlexLink

structure Table (κ α : Type) where
  entries : List (κ × α) := []

namespace Table

variable {κ α : Type} [DecidableEq κ]

def size (t : Table κ α) : Nat := t.entries.length

def keys (t : Table κ α) : List κ := t.entries.map (·.1)

def get? (t : Table κ α) (key : κ) : Option α := (t.entries.find? (·.1 = key)).map (·.2)

def contains (t : Table κ α) (key : κ) : Bool := t.entries.any (·.1 = key)

def put (key : κ) (value : α) : List (κ × α) → List (κ × α)
  | [] => [(key, value)]
  | (k, v) :: rest => if k = key then (k, value) :: rest else (k, v) :: put key value rest

def insert (t : Table κ α) (key : κ) (value : α) : Table κ α := ⟨put key value t.entries⟩

def erase (t : Table κ α) (key : κ) : Table κ α := ⟨t.entries.filter (·.1 ≠ key)⟩

def restrict (t : Table κ α) (keep : κ → Bool) : Table κ α := ⟨t.entries.filter fun e => keep e.1⟩

theorem find?_put (key k : κ) (value : α) (entries : List (κ × α)) :
    ((put key value entries).find? (·.1 = k)).map (·.2)
      = if k = key then some value else (entries.find? (·.1 = k)).map (·.2) := by
  induction entries with
  | nil =>
    by_cases h : k = key
    · subst h; simp [put]
    · simp [put, h, Ne.symm h]
  | cons e rest ih =>
    obtain ⟨k', v⟩ := e
    by_cases h' : k' = key
    · subst h'
      by_cases h : k = k'
      · subst h; simp [put]
      · simp [put, h, Ne.symm h]
    · simp only [put, if_neg h', List.find?_cons]
      by_cases h : k' = k
      · subst h; simp [h']
      · simpa [h] using ih

theorem get?_insert (t : Table κ α) (key k : κ) (value : α) :
    (t.insert key value).get? k = if k = key then some value else t.get? k :=
  find?_put key k value t.entries

theorem get?_erase (t : Table κ α) (key k : κ) :
    (t.erase key).get? k = if k = key then none else t.get? k := by
  unfold get? erase
  by_cases h : k = key
  · subst h
    simp
  · simp only [List.find?_filter, h, if_false]
    congr 2
    funext e
    by_cases he : e.1 = k <;> simp [he, h]

end Table
end FlexLink
