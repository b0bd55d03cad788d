import FlexLink.Text.Utf8

/-! # UTF-8 reads back what it writes

The front of an encoded text is the sequence of its first character, so decoding takes the
characters off one by one.  `decode_encode` says that no text is lost, `decodeLossy_encode` that none
gets replacement characters, and `zero_notMem_encode` that a byte of zero stands for no character but
the zero character.  The size of a text is the sum of the widths of its characters. -/
set_option autoImplicit false
namespace FlexLink.Utf8

theorem toNat_byte {n : Nat} (fits : n < 256) : (UInt8.ofNat n).toNat = n := by
  rw [UInt8.toNat_ofNat', Nat.mod_eq_of_lt fits]

theorem isContinuation_of_toNat {b : UInt8} (lower : 128 ≤ b.toNat) (upper : b.toNat ≤ 191) :
    isContinuation b = true := by
  simp [isContinuation, UInt8.le_iff_toNat_le, lower, upper]

/-! ## The front of a sequence -/

theorem front_one {c : Char} {lead : UInt8} (rest : List UInt8) (small : lead.toNat < 128)
    (value : lead.toNat = c.toNat) : front lead rest = .scalar c 0 := by
  have first : lead < 0x80 := UInt8.lt_iff_toNat_lt.mpr small
  rw [front.eq_def, if_pos first, value, Char.ofNat_toNat]

theorem front_two {c : Char} {lead b : UInt8} (rest : List UInt8)
    (lower : 194 ≤ lead.toNat) (upper : lead.toNat < 224) (second : isContinuation b = true)
    (value : (lead.toNat - 0xC0) * 64 + low b = c.toNat) :
    front lead (b :: rest) = .scalar c 1 := by
  have h1 : ¬ lead < 0x80 := by simp only [UInt8.lt_iff_toNat_lt, UInt8.reduceToNat]; omega
  have h2 : ¬ lead < 0xC2 := by simp only [UInt8.lt_iff_toNat_lt, UInt8.reduceToNat]; omega
  have h3 : lead < 0xE0 := by simp only [UInt8.lt_iff_toNat_lt, UInt8.reduceToNat]; omega
  rw [front.eq_def, if_neg h1, if_neg h2, if_pos h3]
  simp only [second, if_true, value, Char.ofNat_toNat]

theorem front_three {c : Char} {lead b d : UInt8} (rest : List UInt8)
    (lower : 224 ≤ lead.toNat) (upper : lead.toNat < 240) (second : secondOfThree lead b = true)
    (third : isContinuation d = true)
    (value : (lead.toNat - 0xE0) * 4096 + low b * 64 + low d = c.toNat) :
    front lead (b :: d :: rest) = .scalar c 2 := by
  have h1 : ¬ lead < 0x80 := by simp only [UInt8.lt_iff_toNat_lt, UInt8.reduceToNat]; omega
  have h2 : ¬ lead < 0xC2 := by simp only [UInt8.lt_iff_toNat_lt, UInt8.reduceToNat]; omega
  have h3 : ¬ lead < 0xE0 := by simp only [UInt8.lt_iff_toNat_lt, UInt8.reduceToNat]; omega
  have h4 : lead < 0xF0 := by simp only [UInt8.lt_iff_toNat_lt, UInt8.reduceToNat]; omega
  rw [front.eq_def, if_neg h1, if_neg h2, if_neg h3, if_pos h4]
  simp only [second, third, if_true, value, Char.ofNat_toNat]

theorem front_four {c : Char} {lead b d e : UInt8} (rest : List UInt8)
    (lower : 240 ≤ lead.toNat) (upper : lead.toNat < 245) (second : secondOfFour lead b = true)
    (third : isContinuation d = true) (fourth : isContinuation e = true)
    (value : (lead.toNat - 0xF0) * 262144 + low b * 4096 + low d * 64 + low e = c.toNat) :
    front lead (b :: d :: e :: rest) = .scalar c 3 := by
  have h1 : ¬ lead < 0x80 := by simp only [UInt8.lt_iff_toNat_lt, UInt8.reduceToNat]; omega
  have h2 : ¬ lead < 0xC2 := by simp only [UInt8.lt_iff_toNat_lt, UInt8.reduceToNat]; omega
  have h3 : ¬ lead < 0xE0 := by simp only [UInt8.lt_iff_toNat_lt, UInt8.reduceToNat]; omega
  have h4 : ¬ lead < 0xF0 := by simp only [UInt8.lt_iff_toNat_lt, UInt8.reduceToNat]; omega
  have h5 : lead < 0xF5 := by simp only [UInt8.lt_iff_toNat_lt, UInt8.reduceToNat]; omega
  rw [front.eq_def, if_neg h1, if_neg h2, if_neg h3, if_neg h4, if_pos h5]
  simp only [second, third, fourth, if_true, value, Char.ofNat_toNat]

theorem secondOfThree_of_toNat {lead b : UInt8} (lower : 128 ≤ b.toNat) (upper : b.toNat ≤ 191)
    (overlong : lead.toNat = 0xE0 → 0xA0 ≤ b.toNat)
    (surrogate : lead.toNat = 0xED → b.toNat ≤ 0x9F) : secondOfThree lead b = true := by
  unfold secondOfThree
  split
  · next same =>
    subst same
    simp [UInt8.le_iff_toNat_le, overlong rfl, upper]
  · split
    · next same =>
      subst same
      simp [UInt8.le_iff_toNat_le, surrogate rfl, lower]
    · exact isContinuation_of_toNat lower upper

theorem secondOfFour_of_toNat {lead b : UInt8} (lower : 128 ≤ b.toNat) (upper : b.toNat ≤ 191)
    (overlong : lead.toNat = 0xF0 → 0x90 ≤ b.toNat)
    (tooLarge : lead.toNat = 0xF4 → b.toNat ≤ 0x8F) : secondOfFour lead b = true := by
  unfold secondOfFour
  split
  · next same =>
    subst same
    simp [UInt8.le_iff_toNat_le, overlong rfl, upper]
  · split
    · next same =>
      subst same
      simp [UInt8.le_iff_toNat_le, tooLarge rfl, lower]
    · exact isContinuation_of_toNat lower upper

/-- What stands at the front of an encoded character is that character. -/
theorem front_utf8EncodeChar (c : Char) (rest : List UInt8) :
    ∃ lead more, String.utf8EncodeChar c = lead :: more ∧
      front lead (more ++ rest) = .scalar c more.length := by
  have valid : c.toNat < 55296 ∨ 57343 < c.toNat ∧ c.toNat < 1114112 := c.valid
  -- One case for each width: name the bytes as numbers, and the rest is arithmetic.
  fun_cases String.utf8EncodeChar c with
  | case1 v small =>
      refine ⟨_, _, rfl, front_one _ ?_ ?_⟩ <;> rw [toNat_byte (by omega)]
      · omega
      · rfl
  | case2 v big small =>
      have value : c.toNat = v := rfl
      have lead : (UInt8.ofNat (v / 64 % 0x20 + 0xc0)).toNat = v / 64 + 0xc0 := by
        rw [toNat_byte (by omega)]; omega
      have second : (UInt8.ofNat (v % 0x40 + 0x80)).toNat = v % 0x40 + 0x80 := toNat_byte (by omega)
      refine ⟨_, _, rfl, front_two rest ?_ ?_ (isContinuation_of_toNat ?_ ?_) ?_⟩
      all_goals simp only [low, lead, second, value]
      all_goals omega
  | case3 v large big small =>
      have value : c.toNat = v := rfl
      have lead : (UInt8.ofNat (v / 4096 % 0x10 + 0xe0)).toNat = v / 4096 + 0xe0 := by
        rw [toNat_byte (by omega)]; omega
      have second : (UInt8.ofNat (v / 64 % 0x40 + 0x80)).toNat = v / 64 % 0x40 + 0x80 :=
        toNat_byte (by omega)
      have third : (UInt8.ofNat (v % 0x40 + 0x80)).toNat = v % 0x40 + 0x80 := toNat_byte (by omega)
      refine ⟨_, _, rfl, front_three rest ?_ ?_ (secondOfThree_of_toNat ?_ ?_ ?_ ?_)
        (isContinuation_of_toNat ?_ ?_) ?_⟩
      all_goals simp only [low, lead, second, third, value]
      all_goals omega
  | case4 v huge large big =>
      have value : c.toNat = v := rfl
      have lead : (UInt8.ofNat (v / 262144 % 0x08 + 0xf0)).toNat = v / 262144 + 0xf0 := by
        rw [toNat_byte (by omega)]; omega
      have second : (UInt8.ofNat (v / 4096 % 0x40 + 0x80)).toNat = v / 4096 % 0x40 + 0x80 :=
        toNat_byte (by omega)
      have third : (UInt8.ofNat (v / 64 % 0x40 + 0x80)).toNat = v / 64 % 0x40 + 0x80 :=
        toNat_byte (by omega)
      have fourth : (UInt8.ofNat (v % 0x40 + 0x80)).toNat = v % 0x40 + 0x80 := toNat_byte (by omega)
      refine ⟨_, _, rfl, front_four rest ?_ ?_ (secondOfFour_of_toNat ?_ ?_ ?_ ?_)
        (isContinuation_of_toNat ?_ ?_) (isContinuation_of_toNat ?_ ?_) ?_⟩
      all_goals simp only [low, lead, second, third, fourth, value]
      all_goals omega

/-! ## Whole texts -/

theorem decodeFrom_skip (index : Nat) (done : List Char) (more rest : List UInt8) :
    decodeFrom index done more.length (more ++ rest)
      = decodeFrom (index + more.length) done 0 rest := by
  induction more generalizing index with
  | nil => rfl
  | cons b more ih =>
      simp only [List.length_cons, List.cons_append, decodeFrom]
      rw [ih (index + 1), Nat.add_right_comm, Nat.add_assoc]

theorem decodeFrom_encoded (index : Nat) (done chars : List Char) :
    decodeFrom index done 0 (chars.flatMap String.utf8EncodeChar) = .ok (done.reverse ++ chars) := by
  induction chars generalizing index done with
  | nil => simp [decodeFrom]
  | cons c chars ih =>
      obtain ⟨lead, more, bytes, reads⟩ :=
        front_utf8EncodeChar c (chars.flatMap String.utf8EncodeChar)
      rw [List.flatMap_cons, bytes, List.cons_append, decodeFrom, reads]
      simp only
      rw [decodeFrom_skip, ih, List.reverse_cons, List.append_assoc, List.singleton_append]

theorem toList_byteArray (bytes : ByteArray) : bytes.toList = bytes.data.toList := by
  have walk : ∀ (i : Nat) (done : List UInt8),
      ByteArray.toList.loop bytes i done = done.reverse ++ bytes.data.toList.drop i := by
    intro i done
    fun_induction ByteArray.toList.loop bytes i done with
    | case1 i done inside ih =>
        have at_i : bytes.data.toList.drop i = bytes.data[i] :: bytes.data.toList.drop (i + 1) := by
          rw [List.drop_eq_getElem_cons (by simpa using inside)]
          rfl
        rw [ih, at_i]
        simp [ByteArray.get!, inside]
    | case2 i done past =>
        rw [List.drop_eq_nil_of_le (by simpa using past), List.append_nil]
  rw [ByteArray.toList, walk 0 []]
  rfl

theorem encode_eq_flatMap (text : String) :
    encode text = text.toList.flatMap String.utf8EncodeChar := by
  rw [encode, String.toUTF8_eq_toByteArray, ← String.utf8Encode_toList, toList_byteArray]
  simp [List.utf8Encode]

theorem decode_encode (text : String) : decode (encode text) = .ok text := by
  have chars : decodeChars (encode text) = .ok text.toList := by
    rw [decodeChars, encode_eq_flatMap, decodeFrom_encoded]
    rfl
  rw [decode, chars]
  exact congrArg Except.ok String.ofList_toList

theorem decodeLossyFrom_skip (done : List Char) (more rest : List UInt8) :
    decodeLossyFrom done more.length (more ++ rest) = decodeLossyFrom done 0 rest := by
  induction more with
  | nil => rfl
  | cons b more ih => simpa [decodeLossyFrom] using ih

theorem decodeLossyFrom_encoded (done chars : List Char) :
    decodeLossyFrom done 0 (chars.flatMap String.utf8EncodeChar) = done.reverse ++ chars := by
  induction chars generalizing done with
  | nil => simp [decodeLossyFrom]
  | cons c chars ih =>
      obtain ⟨lead, more, bytes, reads⟩ :=
        front_utf8EncodeChar c (chars.flatMap String.utf8EncodeChar)
      rw [List.flatMap_cons, bytes, List.cons_append, decodeLossyFrom, reads]
      simp only
      rw [decodeLossyFrom_skip, ih, List.reverse_cons, List.append_assoc, List.singleton_append]

theorem decodeLossy_encode (text : String) : decodeLossy (encode text) = text := by
  rw [decodeLossy, encode_eq_flatMap, decodeLossyFrom_encoded]
  exact String.ofList_toList

theorem zero_notMem_utf8EncodeChar {c : Char} (nonzero : c.toNat ≠ 0) :
    (0 : UInt8) ∉ String.utf8EncodeChar c := by
  have small : c.toNat < 1114112 := by
    have valid : c.toNat < 55296 ∨ 57343 < c.toNat ∧ c.toNat < 1114112 := c.valid
    omega
  have positive : ∀ n, 0 < n → n < 256 → (0 : UInt8) ≠ UInt8.ofNat n := by
    intro n lower upper zero
    have value := toNat_byte upper
    rw [← zero, UInt8.toNat_zero] at value
    omega
  have code : c.toNat = c.val.toNat := rfl
  fun_cases String.utf8EncodeChar c
  all_goals simp only [List.mem_cons, List.not_mem_nil, or_false, not_or]
  · exact positive _ (by omega) (by omega)
  · exact ⟨positive _ (by omega) (by omega), positive _ (by omega) (by omega)⟩
  · exact ⟨positive _ (by omega) (by omega), positive _ (by omega) (by omega),
      positive _ (by omega) (by omega)⟩
  · exact ⟨positive _ (by omega) (by omega), positive _ (by omega) (by omega),
      positive _ (by omega) (by omega), positive _ (by omega) (by omega)⟩

theorem zero_notMem_encode {text : String} (nonzero : ∀ c ∈ text.toList, c.toNat ≠ 0) :
    (0 : UInt8) ∉ encode text := by
  rw [encode_eq_flatMap, List.mem_flatMap]
  rintro ⟨c, member, zero⟩
  exact zero_notMem_utf8EncodeChar (nonzero c member) zero

/-! ## Sizes -/

theorem foldl_width (n : Nat) (text : List Char) :
    text.foldl (fun n c => n + width c) n = n + size text := by
  induction text generalizing n with
  | nil => rfl
  | cons c text ih =>
      rw [size, List.foldl_cons, List.foldl_cons, ih, ih, Nat.zero_add, Nat.add_assoc]

theorem size_cons (c : Char) (text : List Char) : size (c :: text) = width c + size text := by
  rw [size, List.foldl_cons, foldl_width, Nat.zero_add]

theorem size_append (text more : List Char) : size (text ++ more) = size text + size more := by
  rw [size, List.foldl_append, foldl_width]
  rfl

theorem size_reverse (text : List Char) : size text.reverse = size text := by
  induction text with
  | nil => rfl
  | cons c text ih =>
      rw [List.reverse_cons, size_append, ih, size_cons, size_cons, Nat.add_comm]
      rfl

theorem length_le_size (text : List Char) : text.length ≤ size text := by
  induction text with
  | nil => exact Nat.le_refl _
  | cons c text ih =>
      have positive : 0 < width c := c.utf8Size_pos
      rw [size_cons, List.length_cons]
      omega

theorem utf8ByteSize_ofList (text : List Char) : (String.ofList text).utf8ByteSize = size text := by
  induction text with
  | nil => rfl
  | cons c text ih =>
      rw [String.ofList_cons, String.utf8ByteSize_append, String.utf8ByteSize_singleton, ih, size_cons]
      rfl

theorem size_toList (text : String) : size text.toList = text.utf8ByteSize := by
  rw [← utf8ByteSize_ofList, String.ofList_toList]

theorem length_encode (text : String) : (encode text).length = text.utf8ByteSize := by
  rw [encode, toList_byteArray]
  exact Array.length_toList

/-- Characters of one byte each. -/
theorem size_of_narrow {text : List Char} (narrow : ∀ c ∈ text, width c = 1) :
    size text = text.length := by
  induction text with
  | nil => rfl
  | cons c text ih =>
      obtain ⟨here, others⟩ := List.forall_mem_cons.mp narrow
      rw [size_cons, here, ih others, List.length_cons, Nat.add_comm]

end FlexLink.Utf8
