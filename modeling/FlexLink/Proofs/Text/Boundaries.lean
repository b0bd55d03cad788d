import FlexLink.Proofs.Text.Utf8

/-! # Where characters begin

A byte of an encoded text begins a character just where the bytes before it are whole characters.  So
the search for a boundary, going down byte by byte, stops at the longest start of the text made of
whole characters (`boundaryUpTo?_encode`), and never below zero. -/
set_option autoImplicit false
namespace FlexLink.Utf8

/-- Whether a character begins at byte `i`, or the text ends there. -/
def isBoundary (bytes : List UInt8) (i : Nat) : Bool :=
  i == 0 ||
    match bytes[i]? with
    | some b => !isContinuation b
    | none => i == bytes.length

/-- The last boundary at `n` or below; `none` if the search goes below zero. -/
def boundaryUpTo? (bytes : List UInt8) : Nat → Option Nat
  | 0 => if isBoundary bytes 0 then some 0 else none
  | n + 1 => if isBoundary bytes (n + 1) then some (n + 1) else boundaryUpTo? bytes n

variable {budget : Nat} {text kept : List Char}

/-! ## The longest start within a budget -/

theorem takeChars_prefix (budget : Nat) (text : List Char) : takeChars budget text <+: text := by
  induction text generalizing budget with
  | nil => exact List.nil_prefix
  | cons c text ih =>
    unfold takeChars
    split
    · simpa using ih (budget - width c)
    · exact List.nil_prefix

theorem size_takeChars_le (budget : Nat) (text : List Char) :
    size (takeChars budget text) ≤ budget := by
  induction text generalizing budget with
  | nil => exact Nat.zero_le _
  | cons c text ih =>
    unfold takeChars
    split
    · have rest := ih (budget - width c)
      rw [size_cons]
      omega
    · exact Nat.zero_le _

theorem prefix_takeChars (part : kept <+: text) (fits : size kept ≤ budget) :
    kept <+: takeChars budget text := by
  induction text generalizing budget kept with
  | nil =>
    rw [List.prefix_nil.mp part]
    exact List.nil_prefix
  | cons c text ih =>
    cases kept with
    | nil => exact List.nil_prefix
    | cons d kept =>
      obtain ⟨rfl, more⟩ := List.cons_prefix_cons.mp part
      rw [size_cons] at fits
      have first : width d ≤ budget := by omega
      rw [takeChars, if_pos first, List.cons_prefix_cons]
      exact ⟨rfl, ih more (by omega)⟩

theorem size_le_of_prefix (part : kept <+: text) : size kept ≤ size text := by
  obtain ⟨rest, rfl⟩ := part
  rw [size_append]
  omega

/-! ## Boundaries -/

/-- A character is one byte that continues nothing and then continuation bytes. -/
theorem utf8EncodeChar_eq_cons (c : Char) :
    ∃ lead more, String.utf8EncodeChar c = lead :: more ∧ isContinuation lead = false ∧
      ∀ b ∈ more, isContinuation b = true := by
  have valid : c.toNat < 55296 ∨ 57343 < c.toNat ∧ c.toNat < 1114112 := c.valid
  have code : c.toNat = c.val.toNat := rfl
  have opens : ∀ n, n < 256 → (n < 128 ∨ 192 ≤ n) → isContinuation (UInt8.ofNat n) = false := by
    intro n small outside
    simp only [isContinuation, UInt8.le_iff_toNat_le, toNat_byte small, UInt8.reduceToNat,
      Bool.and_eq_false_iff, decide_eq_false_iff_not]
    omega
  have follows : ∀ n, isContinuation (UInt8.ofNat (n % 0x40 + 0x80)) = true := by
    intro n
    have byte : (UInt8.ofNat (n % 0x40 + 0x80)).toNat = n % 0x40 + 0x80 := toNat_byte (by omega)
    apply isContinuation_of_toNat <;> omega
  fun_cases String.utf8EncodeChar c
  all_goals refine ⟨_, _, rfl, opens _ (by omega) (by omega), ?_⟩
  all_goals simp only [List.mem_cons, List.not_mem_nil, or_false, forall_eq_or_imp, forall_eq,
    false_implies, implies_true, follows, and_self]

theorem length_encoded (text : List Char) :
    (text.flatMap String.utf8EncodeChar).length = size text := by
  rw [← String.toList_ofList (l := text), ← encode_eq_flatMap, length_encode, utf8ByteSize_ofList,
    String.toList_ofList]

/-- No text begins with a continuation byte. -/
theorem head_encoded {b : UInt8} (first : (text.flatMap String.utf8EncodeChar)[0]? = some b) :
    isContinuation b = false := by
  cases text with
  | nil => cases first
  | cons c text =>
    obtain ⟨lead, more, bytes, opens, -⟩ := utf8EncodeChar_eq_cons c
    rw [List.flatMap_cons, bytes] at first
    cases first
    exact opens

theorem isBoundary_append {front tail : List UInt8} (nonempty : front ≠ [])
    (opens : ∀ b, tail[0]? = some b → isContinuation b = false) (j : Nat) :
    isBoundary (front ++ tail) (front.length + j) = isBoundary tail j := by
  have positive := List.length_pos_iff.mpr nonempty
  have there : (front ++ tail)[front.length + j]? = tail[j]? := by
    rw [List.getElem?_append_right (by omega), Nat.add_sub_cancel_left]
  have beyond : (front.length + j == 0) = false := by
    rw [beq_eq_false_iff_ne]
    omega
  unfold isBoundary
  rw [there, beyond]
  cases j with
  | zero =>
    cases first : tail[0]? with
    | none => simpa using first
    | some b => simp [opens b first]
  | succ j =>
    have shift : (front.length + (j + 1) == (front ++ tail).length) = (j + 1 == tail.length) := by
      rw [Bool.eq_iff_iff]
      simp
    rw [shift]
    simp

theorem isBoundary_inside {front tail : List UInt8} {lead : UInt8} {j : Nat}
    (inside : j < front.length) (continues : ∀ b ∈ front, isContinuation b = true) :
    isBoundary (lead :: front ++ tail) (j + 1) = false := by
  have here : (lead :: front ++ tail)[j + 1]? = some front[j] := by
    simp [List.getElem?_append_left inside]
  unfold isBoundary
  rw [here]
  simp [continues front[j] (List.getElem_mem inside)]

/-- The boundaries of an encoded text are the sizes of its starts. -/
theorem isBoundary_encoded (text : List Char) (i : Nat) :
    isBoundary (text.flatMap String.utf8EncodeChar) i = true
      ↔ ∃ kept, kept <+: text ∧ size kept = i := by
  induction text generalizing i with
  | nil =>
    have only : isBoundary [] i = true ↔ i = 0 := by simp [isBoundary]
    rw [List.flatMap_nil, only]
    constructor
    · rintro rfl
      exact ⟨[], List.nil_prefix, rfl⟩
    · rintro ⟨kept, part, rfl⟩
      rw [List.prefix_nil.mp part]
      rfl
  | cons c text ih =>
    obtain ⟨lead, more, bytes, -, continues⟩ := utf8EncodeChar_eq_cons c
    have whole : (String.utf8EncodeChar c).length = width c := String.length_utf8EncodeChar c
    rw [List.flatMap_cons]
    by_cases within : i < width c
    · cases i with
      | zero => exact ⟨fun _ => ⟨[], List.nil_prefix, rfl⟩, fun _ => rfl⟩
      | succ j =>
        -- Behind its first byte a character has no boundary.
        rw [bytes] at whole ⊢
        rw [isBoundary_inside (by simpa [← whole] using within) continues]
        refine ⟨fun wrong => Bool.noConfusion wrong, ?_⟩
        rintro ⟨kept, part, size⟩
        cases kept with
        | nil => cases size
        | cons d kept =>
          obtain ⟨rfl, -⟩ := List.cons_prefix_cons.mp part
          rw [size_cons] at size
          omega
    · obtain ⟨j, rfl⟩ := Nat.exists_eq_add_of_le (Nat.le_of_not_lt within)
      rw [← whole, isBoundary_append (by simp [bytes]) (fun b => head_encoded), ih, whole]
      have positive : 0 < width c := c.utf8Size_pos
      constructor
      · rintro ⟨kept, part, rfl⟩
        exact ⟨c :: kept, List.cons_prefix_cons.mpr ⟨rfl, part⟩, size_cons c kept⟩
      · rintro ⟨kept, part, same⟩
        cases kept with
        | nil =>
          have none : size [] = 0 := rfl
          omega
        | cons d kept =>
          obtain ⟨rfl, more⟩ := List.cons_prefix_cons.mp part
          rw [size_cons] at same
          exact ⟨kept, more, by omega⟩

/-! ## The search -/

theorem boundaryUpTo?_eq_some {bytes : List UInt8} {n k : Nat} (boundary : isBoundary bytes k = true)
    (within : k ≤ n) (last : ∀ i, isBoundary bytes i = true → i ≤ n → i ≤ k) :
    boundaryUpTo? bytes n = some k := by
  induction n with
  | zero =>
    have start : k = 0 := by omega
    rw [boundaryUpTo?, ← start, if_pos boundary]
  | succ n ih =>
    unfold boundaryUpTo?
    split
    · next here =>
      have := last (n + 1) here (Nat.le_refl _)
      congr 1
      omega
    · next other =>
      have below : k ≠ n + 1 := by
        intro same
        exact other (same ▸ boundary)
      apply ih (by omega)
      intro i here inside
      exact last i here (by omega)

/-- From the end of the budget, or of the text, the search goes down to the longest start of the text
that is within the budget. -/
theorem boundaryUpTo?_encode (budget : Nat) (text : String) :
    boundaryUpTo? (encode text) (min (encode text).length budget)
      = some (size (takeChars budget text.toList)) := by
  have part := takeChars_prefix budget text.toList
  have short := size_takeChars_le budget text.toList
  have whole := size_le_of_prefix part
  have length : (encode text).length = size text.toList := by rw [length_encode, size_toList]
  rw [length, encode_eq_flatMap]
  apply boundaryUpTo?_eq_some
  · exact (isBoundary_encoded _ _).mpr ⟨_, part, rfl⟩
  · omega
  · intro i boundary inside
    obtain ⟨kept, start, rfl⟩ := (isBoundary_encoded _ _).mp boundary
    exact size_le_of_prefix (prefix_takeChars start (by omega))

/-- The bytes before that boundary are those of the start. -/
theorem take_encode (part : kept <+: text) :
    (text.flatMap String.utf8EncodeChar).take (size kept) = kept.flatMap String.utf8EncodeChar := by
  obtain ⟨rest, rfl⟩ := part
  rw [List.flatMap_append, List.take_left' (length_encoded kept)]

/-! ## Zeros -/

/-- A text that is padded with zeros is read up to its first zero character. -/
theorem takeWhile_encoded (text : List Char) (n : Nat) :
    (text.flatMap String.utf8EncodeChar ++ List.replicate n 0).takeWhile (· != 0)
      = (text.takeWhile (· != Char.ofNat 0)).flatMap String.utf8EncodeChar := by
  induction text with
  | nil => cases n <;> simp [List.replicate_succ]
  | cons c text ih =>
    rw [List.flatMap_cons, List.append_assoc]
    by_cases zero : c = Char.ofNat 0
    · have bytes : String.utf8EncodeChar (Char.ofNat 0) = [0] := rfl
      simp [zero, bytes]
    · have nonzero : ∀ b ∈ String.utf8EncodeChar c, (b != 0) = true := by
        intro b member
        have other : b ≠ 0 := by
          rintro rfl
          refine zero_notMem_utf8EncodeChar ?_ member
          intro same
          exact zero (Char.toNat_inj.mp same)
        simpa using other
      rw [List.takeWhile_append_of_pos nonzero, ih, List.takeWhile_cons_of_pos (by simpa using zero),
        List.flatMap_cons]

end FlexLink.Utf8
