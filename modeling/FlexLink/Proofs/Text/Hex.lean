import FlexLink.Proofs.Text.Utf8
import FlexLink.Text.Hex

/-! # Hexadecimal texts stand for one byte string each

The digits of bytes are read back as the bytes, so different bytes are written differently, and so
are different texts by way of their bytes. -/
set_option autoImplicit false
namespace FlexLink

theorem Utf8.encode_injective : Function.Injective Utf8.encode := by
  intro a b same
  have decoded := congrArg Utf8.decode same
  rw [Utf8.decode_encode, Utf8.decode_encode] at decoded
  exact Except.ok.inj decoded

namespace Hex

theorem value?_digit : ∀ n < 16, value? (digit n) = some n := by decide

theorem decodeChars_encodeChars (bytes : List UInt8) :
    decodeChars (encodeChars bytes) = some bytes := by
  induction bytes with
  | nil => rfl
  | cons b rest ih =>
    have small := b.toNat_lt
    have high := value?_digit (b.toNat / 16) (by omega)
    have low := value?_digit (b.toNat % 16) (by omega)
    have whole : UInt8.ofNat (16 * (b.toNat / 16) + b.toNat % 16) = b := by
      rw [Nat.div_add_mod, UInt8.ofNat_toNat]
    have digits : encodeChars (b :: rest)
        = digit (b.toNat / 16) :: digit (b.toNat % 16) :: encodeChars rest := rfl
    rw [digits, decodeChars, high, low, ih]
    exact congrArg (fun b => some (b :: rest)) whole

theorem encode_injective : Function.Injective encode := by
  intro a b same
  have digits := congrArg String.toList same
  rw [encode, encode, String.toList_ofList, String.toList_ofList] at digits
  have decoded := congrArg decodeChars digits
  rw [decodeChars_encodeChars, decodeChars_encodeChars] at decoded
  exact Option.some.inj decoded

theorem mem_encode {bytes : List UInt8} {c : Char} (member : c ∈ (encode bytes).toList) :
    ∃ n < 16, c = digit n := by
  rw [encode, String.toList_ofList] at member
  obtain ⟨b, -, pair⟩ := List.mem_flatMap.mp member
  have small := b.toNat_lt
  rcases List.mem_cons.mp pair with high | pair
  · exact ⟨b.toNat / 16, by omega, high⟩
  · exact ⟨b.toNat % 16, by omega, List.mem_singleton.mp pair⟩

end Hex
end FlexLink
