import Mathlib.Algebra.GroupWithZero.Nat

/-!
# Numbers packed into one word

Two numbers in the halves of a 32-bit word, and a byte over 24 bits: what
is read back is the number modulo its field, and the bits of the low number that do not
fit are added to the high one.
-/

namespace PsiServe.Base

private theorem toNat_packHalves (low high : Nat) :
    (UInt32.ofNat low ||| UInt32.ofNat high <<< 16).toNat =
      low % 2 ^ 32 ||| high % 2 ^ 16 * 2 ^ 16 := by
  change low % 2 ^ 32 ||| (high % 2 ^ 32) <<< 16 % 2 ^ 32 = _
  congr 1
  omega

/-- The low half of a word. -/
theorem packHalves_low (low high : Nat) :
    ((UInt32.ofNat low ||| UInt32.ofNat high <<< 16) &&& 0xFFFF).toNat = low % 2 ^ 16 := by
  rw [UInt32.toNat_and, toNat_packHalves]
  change _ &&& (2 ^ 16 - 1) = _
  rw [Nat.and_two_pow_sub_one_eq_mod, Nat.or_mod_two_pow]
  have hhigh : high % 2 ^ 16 * 2 ^ 16 % 2 ^ 16 = 0 := by omega
  rw [hhigh, Nat.or_zero]
  omega

/-- The high half of a word also has the bits of the low number above its half. -/
theorem packHalves_high (low high : Nat) :
    ((UInt32.ofNat low ||| UInt32.ofNat high <<< 16) >>> 16).toNat =
      low % 2 ^ 32 / 2 ^ 16 ||| high % 2 ^ 16 := by
  rw [UInt32.toNat_shiftRight, toNat_packHalves]
  change (low % 2 ^ 32 ||| high % 2 ^ 16 * 2 ^ 16) >>> 16 = _
  rw [Nat.shiftRight_or_distrib, Nat.shiftRight_eq_div_pow, Nat.shiftRight_eq_div_pow,
    Nat.mul_div_cancel _ (Nat.two_pow_pos 16)]

/-- Both numbers are read back exactly if they fit. -/
theorem packHalves_eq_iff (low high : Nat) :
    (((UInt32.ofNat low ||| UInt32.ofNat high <<< 16) &&& 0xFFFF).toNat = low ∧
      ((UInt32.ofNat low ||| UInt32.ofNat high <<< 16) >>> 16).toNat = high) ↔
      low < 2 ^ 16 ∧ high < 2 ^ 16 := by
  rw [packHalves_low, packHalves_high]
  constructor
  · rintro ⟨hlow, hhigh⟩
    have hlow : low < 2 ^ 16 := by omega
    have hzero : low % 2 ^ 32 / 2 ^ 16 = 0 := by omega
    rw [hzero, Nat.zero_or] at hhigh
    exact ⟨hlow, by omega⟩
  · rintro ⟨hlow, hhigh⟩
    have hzero : low % 2 ^ 32 / 2 ^ 16 = 0 := by omega
    rw [hzero, Nat.zero_or]
    exact ⟨Nat.mod_eq_of_lt hlow, Nat.mod_eq_of_lt hhigh⟩

private theorem toNat_packByte (byte : UInt8) (low : Nat) :
    (byte.toUInt32 <<< 24 ||| UInt32.ofNat low &&& 0x00FFFFFF).toNat =
      byte.toNat * 2 ^ 24 + low % 2 ^ 24 := by
  have hbyte := byte.toNat_lt
  have hlow : (UInt32.ofNat low &&& 0x00FFFFFF).toNat = low % 2 ^ 24 := by
    change low % 2 ^ 32 &&& (2 ^ 24 - 1) = _
    rw [Nat.and_two_pow_sub_one_eq_mod]
    omega
  rw [UInt32.toNat_or, hlow, UInt32.toNat_shiftLeft]
  change (byte.toNat <<< 24 % 2 ^ 32) ||| low % 2 ^ 24 = _
  rw [Nat.mod_eq_of_lt (by rw [Nat.shiftLeft_eq]; omega),
    ← Nat.shiftLeft_add_eq_or_of_lt (Nat.mod_lt _ (Nat.two_pow_pos 24)), Nat.shiftLeft_eq]

/-- The byte of a word. -/
theorem packByte_high (byte : UInt8) (low : Nat) :
    ((byte.toUInt32 <<< 24 ||| UInt32.ofNat low &&& 0x00FFFFFF) >>> 24).toUInt8 = byte := by
  have hbyte := byte.toNat_lt
  apply UInt8.toNat_inj.mp
  rw [UInt32.toNat_toUInt8, UInt32.toNat_shiftRight, toNat_packByte, Nat.shiftRight_eq_div_pow]
  change (byte.toNat * 2 ^ 24 + low % 2 ^ 24) / 2 ^ 24 % 2 ^ 8 = byte.toNat
  omega

/-- The 24 bits under the byte. -/
theorem packByte_low (byte : UInt8) (low : Nat) :
    ((byte.toUInt32 <<< 24 ||| UInt32.ofNat low &&& 0x00FFFFFF) &&& 0x00FFFFFF).toNat =
      low % 2 ^ 24 := by
  rw [UInt32.toNat_and, toNat_packByte]
  change (byte.toNat * 2 ^ 24 + low % 2 ^ 24) &&& (2 ^ 24 - 1) = _
  rw [Nat.and_two_pow_sub_one_eq_mod]
  omega

end PsiServe.Base
