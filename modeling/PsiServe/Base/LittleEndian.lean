import Mathlib.Data.Nat.Basic
import Mathlib.Tactic.Ring

/-!
# Little-endian numbers

A number written as its low bytes, least significant first, and the
number a list of bytes stands for.
-/

namespace PsiServe.Base

open List

/-- A sequence of bytes. -/
abbrev Bytes := List UInt8

/-- A byte of at most 1 is 0 or 1. -/
theorem eq_zero_or_one {b : UInt8} (hb : b ≤ 1) : b = 0 ∨ b = 1 :=
  (Nat.le_one_iff_eq_zero_or_eq_one.mp (UInt8.le_iff_toNat_le.mp hb)).imp UInt8.toNat.inj
    UInt8.toNat.inj

/-- The low `n` bytes of a number, least significant first. -/
def leBytes : Nat → Nat → Bytes
  | 0, _ => []
  | n + 1, v => UInt8.ofNat v :: leBytes n (v / 256)

/-- The number that a sequence of bytes stands for. -/
def leValue : Bytes → Nat
  | [] => 0
  | b :: bs => b.toNat + 256 * leValue bs

/-- A number takes as many bytes as it is written with. -/
@[simp]
theorem length_leBytes (n v : Nat) : (leBytes n v).length = n := by
  induction n generalizing v with
  | zero => rfl
  | succ n ih => simp [leBytes, ih]

/-- Bytes stand for a number below the power of their length. -/
theorem leValue_lt (bs : Bytes) : leValue bs < 256 ^ bs.length := by
  induction bs with
  | nil => decide
  | cons b bs ih =>
    have hb := b.toNat_lt
    rw [length_cons, pow_succ]
    simp only [leValue]
    omega

/-- What is read back is the number modulo the bytes that were written. -/
theorem leValue_leBytes_mod (n v : Nat) : leValue (leBytes n v) = v % 256 ^ n := by
  induction n generalizing v with
  | zero => simp [leBytes, leValue, Nat.mod_one]
  | succ n ih =>
    have hb : (UInt8.ofNat v).toNat = v % 256 := UInt8.toNat_ofNat'
    simp only [leBytes, leValue, ih, hb]
    rw [pow_succ, mul_comm (256 ^ n), Nat.mod_mul]

/-- A number that fits is read back. -/
theorem leValue_leBytes {n v : Nat} (h : v < 256 ^ n) : leValue (leBytes n v) = v := by
  rw [leValue_leBytes_mod, Nat.mod_eq_of_lt h]

/-- Bytes are determined by their number and how many they are. -/
theorem leBytes_leValue (bs : Bytes) : leBytes bs.length (leValue bs) = bs := by
  induction bs with
  | nil => rfl
  | cons b bs ih =>
    have hb := b.toNat_lt
    have hlow : UInt8.ofNat (b.toNat + 256 * leValue bs) = b := by
      apply UInt8.toNat_inj.mp
      rw [UInt8.toNat_ofNat']
      omega
    have hhigh : (b.toNat + 256 * leValue bs) / 256 = leValue bs := by omega
    simp only [length_cons, leBytes, leValue, hlow, hhigh, ih]

private theorem leValue_append (xs ys : Bytes) :
    leValue (xs ++ ys) = leValue xs + 256 ^ xs.length * leValue ys := by
  induction xs with
  | nil => simp [leValue]
  | cons x xs ih =>
    simp only [cons_append, leValue, ih, length_cons, pow_succ]
    rw [mul_add, ← add_assoc, ← mul_assoc, mul_comm 256 (256 ^ xs.length)]

/-- Whether a number is below a power of two shows in its last byte. -/
theorem leValue_lt_two_pow_iff {bs : Bytes} {k : Nat} (hlen : bs.length = k + 1) (r : Nat) :
    leValue bs < 2 ^ (8 * k + r) ↔ leValue [bs.getD k 0] / 2 ^ r = 0 := by
  have hsplit : bs = bs.take k ++ [bs.getD k 0] := by
    have hlast : bs.drop k = [bs.getD k 0] := by
      have hget : bs[k]? = some bs[k] := getElem?_eq_getElem (by omega)
      rw [drop_eq_getElem_cons (by omega), drop_eq_nil_of_le (by omega),
        getD_eq_getElem?_getD, hget, Option.getD_some]
    rw [← hlast, take_append_drop]
  have htake : (bs.take k).length = k := length_take_of_le (by omega)
  have hlow := leValue_lt (bs.take k)
  have hpow : 2 ^ (8 * k + r) = 256 ^ k * 2 ^ r := by
    rw [pow_add, Nat.pow_mul]
  rw [htake] at hlow
  rw [Nat.div_eq_zero_iff_lt (Nat.pow_pos (by decide)), hpow]
  conv_lhs => rw [hsplit, leValue_append, htake]
  generalize leValue [bs.getD k 0] = last
  constructor
  · intro h
    apply Nat.lt_of_mul_lt_mul_left (a := 256 ^ k)
    omega
  · intro h
    calc leValue (bs.take k) + 256 ^ k * last < 256 ^ k + 256 ^ k * last := by omega
      _ = 256 ^ k * (last + 1) := by rw [mul_add, mul_one, add_comm]
      _ ≤ 256 ^ k * 2 ^ r := Nat.mul_le_mul_left _ h

/-- Writing a number twice modulo the width gives the same bytes. -/
theorem leBytes_mod (n v : Nat) : leBytes n (v % 256 ^ n) = leBytes n v := by
  have h := leBytes_leValue (leBytes n v)
  rw [leValue_leBytes_mod, length_leBytes] at h
  exact h

/-! ### Bits packed into bytes -/

/-- The number whose binary digits are given, least significant first. -/
def bitsValue : List Bool → Nat
  | [] => 0
  | b :: bs => b.toNat + 2 * bitsValue bs

/-- Bits in the fewest bytes that hold them, least significant first. -/
def packBits (bs : List Bool) : Bytes := leBytes ((bs.length + 7) / 8) (bitsValue bs)

/-- The first `n` bits of a sequence of bytes. -/
def unpackBits (n : Nat) (bytes : Bytes) : List Bool :=
  (range n).map (leValue bytes).testBit

private theorem bitsValue_lt (bs : List Bool) : bitsValue bs < 2 ^ bs.length := by
  induction bs with
  | nil => decide
  | cons b bs ih =>
    have hb := b.toNat_lt
    rw [length_cons, pow_succ]
    simp only [bitsValue]
    omega

private theorem testBit_bitsValue (bs : List Bool) (i : Nat) :
    (bitsValue bs).testBit i = (bs[i]?).getD false := by
  induction bs generalizing i with
  | nil => simp [bitsValue]
  | cons b bs ih =>
    cases i with
    | zero => cases b <;> simp [bitsValue, Nat.testBit_zero, Nat.add_mod]
    | succ i =>
      have hdiv : (b.toNat + 2 * bitsValue bs) / 2 = bitsValue bs := by
        have hb := b.toNat_lt
        omega
      rw [bitsValue, Nat.testBit_succ, hdiv, ih, getElem?_cons_succ]

/-- Eight bits go into a byte. -/
@[simp]
theorem length_packBits (bs : List Bool) : (packBits bs).length = (bs.length + 7) / 8 :=
  length_leBytes _ _

/-- As many bits are read as were asked for. -/
@[simp]
theorem length_unpackBits (n : Nat) (bytes : Bytes) : (unpackBits n bytes).length = n := by
  simp [unpackBits]

/-- The bytes of `n` bits hold them. -/
theorem two_pow_le_256_pow (n : Nat) : 2 ^ n ≤ 256 ^ ((n + 7) / 8) := by
  have h256 : (256 : Nat) = 2 ^ 8 := rfl
  rw [h256, ← Nat.pow_mul]
  exact Nat.pow_le_pow_right (by decide) (by omega)

private theorem leValue_packBits (bs : List Bool) : leValue (packBits bs) = bitsValue bs :=
  leValue_leBytes ((bitsValue_lt bs).trans_le (two_pow_le_256_pow _))

/-- Bits are read back. -/
theorem unpackBits_packBits (bs : List Bool) : unpackBits bs.length (packBits bs) = bs := by
  have hval := leValue_packBits bs
  apply ext_getElem
  · simp
  · intro i h₁ h₂
    simp [unpackBits, hval, testBit_bitsValue, h₂]

/-- Packed bits leave the unused bits of the last byte clear. -/
theorem packBits_last {bs : List Bool} (h : bs.length % 8 ≠ 0) :
    leValue [(packBits bs).getD ((bs.length + 7) / 8 - 1) 0] / 2 ^ (bs.length % 8) = 0 := by
  have hlen : (packBits bs).length = (bs.length + 7) / 8 - 1 + 1 := by
    rw [length_packBits]
    omega
  rw [← leValue_lt_two_pow_iff hlen, leValue_packBits]
  have hexp : 8 * ((bs.length + 7) / 8 - 1) + bs.length % 8 = bs.length := by omega
  rw [hexp]
  exact bitsValue_lt bs

variable {bytes : Bytes}

/-- Bytes without bits beyond the first `n` are those their bits pack to. -/
theorem packBits_unpackBits {n : Nat} (hlen : bytes.length = (n + 7) / 8)
    (hlt : leValue bytes < 2 ^ n) : packBits (unpackBits n bytes) = bytes := by
  have hval : bitsValue (unpackBits n bytes) = leValue bytes := by
    apply Nat.eq_of_testBit_eq
    intro i
    rw [testBit_bitsValue]
    by_cases hi : i < n
    · simp [unpackBits, hi]
    · have hbit : (leValue bytes).testBit i = false :=
        Nat.testBit_lt_two_pow (hlt.trans_le
          (Nat.pow_le_pow_right (by decide) (by omega)))
      simp [unpackBits, hi, hbit]
  rw [packBits, length_unpackBits, hval, ← hlen, leBytes_leValue]

/-! ### Bits with a delimiter -/

private theorem unpackBits_succ (n : Nat) (bytes : Bytes) :
    unpackBits (n + 1) bytes = unpackBits n bytes ++ [(leValue bytes).testBit n] := by
  rw [unpackBits, range_succ, map_append]
  rfl

/-- Bits with a delimiter behind them are found below the highest bit. -/
theorem packBits_delimited (bs : List Bool) : leValue (packBits (bs ++ [true])) ≠ 0 ∧
      (leValue (packBits (bs ++ [true]))).log2 = bs.length ∧
      unpackBits bs.length (packBits (bs ++ [true])) = bs := by
  have hall := unpackBits_packBits (bs ++ [true])
  rw [length_append, length_singleton, unpackBits_succ] at hall
  obtain ⟨hbits, hlast⟩ := append_inj' hall rfl
  have hbit : (leValue (packBits (bs ++ [true]))).testBit bs.length = true :=
    (cons.inj hlast).1
  have hlow : 2 ^ bs.length ≤ leValue (packBits (bs ++ [true])) := Nat.ge_two_pow_of_testBit hbit
  have hhigh : leValue (packBits (bs ++ [true])) < 2 ^ (bs.length + 1) := by
    rw [leValue_packBits]
    simpa using bitsValue_lt (bs ++ [true])
  have hne : leValue (packBits (bs ++ [true])) ≠ 0 := by
    omega
  exact ⟨hne, (Nat.log2_eq_iff hne).mpr ⟨hlow, hhigh⟩, hbits⟩

/-- The highest bit stands in the last byte when that byte is not 0. -/
theorem length_eq_log2_iff (hne : leValue bytes ≠ 0) :
    bytes.length = ((leValue bytes).log2 + 8) / 8 ↔ bytes.getLast? ≠ some 0 := by
  have h256 : ∀ k, (256 : Nat) ^ k = 2 ^ (8 * k) := fun k => by rw [Nat.pow_mul]
  rcases eq_nil_or_concat bytes with rfl | ⟨init, b, rfl⟩
  · exact absurd rfl hne
  rw [concat_eq_append] at hne ⊢
  have hhigh : (leValue (init ++ [b])).log2 < 8 * (init.length + 1) := by
    rw [Nat.log2_lt hne, ← h256]
    simpa using leValue_lt (init ++ [b])
  have hinit := leValue_lt init
  have hval : leValue (init ++ [b]) = leValue init + 256 ^ init.length * b.toNat := by
    rw [leValue_append]
    simp [leValue]
  rw [getLast?_concat, ne_eq, Option.some.injEq, length_append, length_singleton]
  by_cases hb : b = 0
  · subst hb
    have hlow : (leValue (init ++ [0])).log2 < 8 * init.length := by
      rw [Nat.log2_lt hne, ← h256, hval]
      simpa using hinit
    constructor
    · intro h
      omega
    · intro h
      exact absurd rfl h
  · have hpos : 1 ≤ b.toNat := by
      rcases Nat.eq_zero_or_pos b.toNat with h | h
      · exact absurd (UInt8.toNat_inj.mp h) hb
      · exact h
    have hlow : 8 * init.length ≤ (leValue (init ++ [b])).log2 := by
      rw [Nat.le_log2 hne, ← h256, hval]
      exact (Nat.le_mul_of_pos_right _ hpos).trans (Nat.le_add_left _ _)
    constructor
    · intro _
      exact hb
    · intro _
      omega

/-- Bits below the highest one give the bytes back with it as the delimiter, unless zero bytes
follow it. -/
theorem packBits_delimited_iff (hne : leValue bytes ≠ 0) :
    packBits (unpackBits (leValue bytes).log2 bytes ++ [true]) = bytes ↔
      bytes.getLast? ≠ some 0 := by
  have hbit : unpackBits (leValue bytes).log2 bytes ++ [true] =
      unpackBits ((leValue bytes).log2 + 1) bytes := by
    rw [unpackBits_succ, Nat.testBit_log2 hne]
  rw [hbit, ← length_eq_log2_iff hne]
  constructor
  · intro h
    have hlen := congrArg length h
    rw [length_packBits, length_unpackBits] at hlen
    exact hlen.symm
  · intro h
    exact packBits_unpackBits h Nat.lt_log2_self

end PsiServe.Base
