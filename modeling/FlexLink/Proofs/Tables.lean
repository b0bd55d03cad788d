import FlexLink.Table

/-! # Tables and their keys

What a table says of a key after a change, and which keys it has. -/
set_option autoImplicit false
namespace FlexLink.Table

variable {κ α : Type} [DecidableEq κ] {entries : List (κ × α)} {key : κ} {value : α}

theorem put_of_notMem (absent : key ∉ entries.map (·.1)) :
    put key value entries = entries ++ [(key, value)] := by
  induction entries with
  | nil => rfl
  | cons e rest ih =>
      obtain ⟨other, later⟩ := not_or.mp (mt List.mem_cons.mpr absent)
      rw [put, if_neg (Ne.symm other), ih later]
      rfl

theorem contains_iff (t : Table κ α) (key : κ) : t.contains key = true ↔ key ∈ t.keys := by
  simp [contains, keys]

theorem erase_of_notMem (absent : key ∉ entries.map (·.1)) : erase ⟨entries⟩ key = ⟨entries⟩ := by
  refine congrArg mk (List.filter_eq_self.mpr fun e member => decide_eq_true fun same => ?_)
  exact absent (same ▸ List.mem_map_of_mem member)

theorem erase_head (absent : key ∉ entries.map (·.1)) :
    erase ⟨(key, value) :: entries⟩ key = ⟨entries⟩ := by
  rw [erase, List.filter_cons_of_neg (by simp)]
  exact erase_of_notMem absent

omit [DecidableEq κ] in
theorem nodup_snoc {keys : List κ} (different : keys.Nodup) (absent : key ∉ keys) :
    (keys ++ [key]).Nodup := by
  refine List.nodup_append.mpr ⟨different, List.pairwise_singleton _ _, ?_⟩
  intro old known last newest same
  rw [same, List.mem_singleton.mp newest] at known
  exact absent known

omit [DecidableEq κ] in
theorem ne_of_mem_rest {e x : κ × α} (different : ((e :: entries).map (·.1)).Nodup)
    (member : x ∈ entries) : x.1 ≠ e.1 := by
  intro same
  apply (List.nodup_cons.mp different).1
  show e.1 ∈ entries.map (·.1)
  rw [← same]
  exact List.mem_map_of_mem member

theorem get?_of_mem (different : (entries.map (·.1)).Nodup) (member : (key, value) ∈ entries) :
    get? ⟨entries⟩ key = some value := by
  induction entries with
  | nil => cases member
  | cons e rest ih =>
      rcases List.mem_cons.mp member with rfl | later
      · simp [get?]
      · have other : e.1 ≠ key := (ne_of_mem_rest different later).symm
        have found := ih (List.nodup_cons.mp different).2 later
        rw [get?] at found ⊢
        rw [List.find?_cons_of_neg (by simpa using other)]
        exact found

theorem mem_of_get? (found : get? ⟨entries⟩ key = some value) : (key, value) ∈ entries := by
  obtain ⟨e, first, rfl⟩ := Option.map_eq_some_iff.mp found
  have same : e.1 = key := by simpa using List.find?_some first
  rw [← same]
  exact List.mem_of_find?_eq_some first

theorem mem_keys_iff (t : Table κ α) (key : κ) : key ∈ t.keys ↔ ∃ v, t.get? key = some v := by
  constructor
  · intro known
    obtain ⟨e, member, rfl⟩ := List.mem_map.mp known
    cases found : t.entries.find? (·.1 = e.1) with
    | none =>
      have other := List.find?_eq_none.mp found e member
      simp at other
    | some first => exact ⟨first.2, by simp [get?, found]⟩
  · rintro ⟨v, found⟩
    exact List.mem_map_of_mem (mem_of_get? found)

theorem get?_eq_none_iff (t : Table κ α) (key : κ) : t.get? key = none ↔ key ∉ t.keys := by
  rw [mem_keys_iff]
  cases t.get? key <;> simp

omit [DecidableEq κ] in
theorem size_eq (t : Table κ α) : t.size = t.keys.length := by simp [size, keys]

theorem keys_insert_of_notMem {t : Table κ α} (absent : key ∉ t.keys) (value : α) :
    (t.insert key value).keys = t.keys ++ [key] := by
  simp [keys, insert, put_of_notMem absent]

theorem keys_put_of_mem (present : key ∈ entries.map (·.1)) (value : α) :
    (put key value entries).map (·.1) = entries.map (·.1) := by
  induction entries with
  | nil => cases present
  | cons e rest ih =>
    rw [put]
    split
    · next same => simp [same]
    · next other =>
      have later : key ∈ rest.map (·.1) := by simpa [Ne.symm other] using present
      simp [ih later]

theorem keys_insert_of_mem {t : Table κ α} (present : key ∈ t.keys) (value : α) :
    (t.insert key value).keys = t.keys :=
  keys_put_of_mem present value

theorem put_of_mem (different : (entries.map (·.1)).Nodup) (present : key ∈ entries.map (·.1)) :
    put key value entries = entries.map fun e => if e.1 = key then (key, value) else e := by
  induction entries with
  | nil => cases present
  | cons e rest ih =>
    rw [put, List.map_cons]
    by_cases same : e.1 = key
    · have untouched : (rest.map fun x => if x.1 = key then (key, value) else x) = rest :=
        (List.map_congr_left fun x member => if_neg (same ▸ ne_of_mem_rest different member)).trans
          (List.map_id' rest)
      rw [if_pos same, if_pos same, untouched, same]
    · have later : key ∈ rest.map (·.1) := (List.mem_cons.mp present).resolve_left (Ne.symm same)
      rw [if_neg same, if_neg same, ih (List.nodup_cons.mp different).2 later]

/-- A new value under a key that is listed. -/
theorem put_map {value : κ → α} {keys : List κ} (different : keys.Nodup) (present : key ∈ keys)
    (fresh : α) :
    put key fresh (keys.map fun k => (k, value k))
      = keys.map fun k => (k, if k = key then fresh else value k) := by
  have names : (keys.map fun k => (k, value k)).map (·.1) = keys := by simp [Function.comp_def]
  rw [put_of_mem (names.symm ▸ different) (names.symm ▸ present), List.map_map]
  apply List.map_congr_left
  intro k _
  by_cases same : k = key <;> simp [same]

/-- At most one entry is under a key. -/
theorem filter_key (different : (entries.map (·.1)).Nodup) (key : κ) :
    entries.filter (·.1 = key) = ((get? ⟨entries⟩ key).map (key, ·)).toList := by
  induction entries with
  | nil => rfl
  | cons e rest ih =>
    have next := ih (List.nodup_cons.mp different).2
    rw [get?] at next ⊢
    by_cases same : e.1 = key
    · have none : rest.filter (·.1 = key) = [] := by
        apply List.filter_eq_nil_iff.mpr
        intro x member
        simpa [← same] using ne_of_mem_rest different member
      subst same
      simp [none]
    · simpa [same] using next

theorem get?_map (value : κ → α) (keys : List κ) (key : κ) :
    get? ⟨keys.map fun k => (k, value k)⟩ key = if key ∈ keys then some (value key) else none := by
  induction keys with
  | nil => rfl
  | cons first rest ih =>
    rw [get?] at ih ⊢
    rw [List.map_cons, List.find?_cons]
    by_cases same : first = key
    · simp [same]
    · have unlike : ¬ key = first := Ne.symm same
      simp only [same, decide_false, List.mem_cons, unlike, false_or]
      exact ih

theorem get?_restrict (t : Table κ α) (keep : κ → Bool) (key : κ) :
    (t.restrict keep).get? key = if keep key then t.get? key else none := by
  have same : (fun e : κ × α => decide (keep e.1 = true ∧ decide (e.1 = key) = true))
      = fun e => keep key && decide (e.1 = key) := by
    funext e
    by_cases here : e.1 = key <;> simp [here]
  rw [get?, restrict, List.find?_filter, same]
  cases keep key <;> simp [get?]

theorem keys_erase (t : Table κ α) (key : κ) : (t.erase key).keys = t.keys.filter (· ≠ key) := by
  simp [keys, erase, List.filter_map, Function.comp_def]

theorem erase_insert {t : Table κ α} (absent : key ∉ t.keys) {other : κ} (unlike : key ≠ other)
    (value : α) : (t.insert key value).erase other = (t.erase other).insert key value := by
  have gone : key ∉ (t.erase other).keys := by
    rw [keys_erase]
    intro member
    exact absent (List.mem_filter.mp member).1
  have ends : (t.erase other).insert key value = ⟨(t.erase other).entries ++ [(key, value)]⟩ :=
    congrArg Table.mk (put_of_notMem gone)
  rw [ends, insert, put_of_notMem absent]
  simp [erase, unlike]

theorem erase_insert_self (t : Table κ α) (key : κ) (value : α) :
    (t.insert key value).erase key = t.erase key := by
  refine congrArg mk ?_
  show (put key value t.entries).filter _ = t.entries.filter _
  induction t.entries with
  | nil => simp [put]
  | cons entry rest ih =>
    rw [put]
    split
    · next same => simp [same]
    · next other => simp only [List.filter_cons, ih]

theorem eq_of_keys {t u : Table κ α} (same : t.keys = u.keys) (different : t.keys.Nodup)
    (agree : ∀ key, t.get? key = u.get? key) : t = u := by
  obtain ⟨entries⟩ := t
  obtain ⟨others⟩ := u
  have also : (others.map (·.1)).Nodup := by
    rw [same] at different
    exact different
  have long : entries.length = others.length := by simpa [keys] using congrArg List.length same
  refine congrArg mk (List.ext_getElem long fun i here there => ?_)
  have key : entries[i].1 = others[i].1 := by
    have both := congrArg (·[i]?) same
    simpa [keys, here, there] using both
  have mine : get? ⟨entries⟩ entries[i].1 = some entries[i].2 :=
    get?_of_mem different (List.getElem_mem here)
  have other : get? ⟨others⟩ others[i].1 = some others[i].2 :=
    get?_of_mem also (List.getElem_mem there)
  rw [agree, key, other] at mine
  exact Prod.ext key (Option.some.inj mine).symm

end FlexLink.Table
