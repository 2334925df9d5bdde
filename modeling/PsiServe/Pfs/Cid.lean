import Mathlib.Data.Nat.Bitwise
import Mathlib.Tactic.IntervalCases

/-!
# Content identifiers as text

`base32_encode`, `base32_decode`, `cid::to_string` and `cid::from_string`
(`libraries/pfs/src/cid.cpp:28–110`). Both loops shift their input into a word of 64 bits and take
digits or bytes out again; what they have taken stays above and is shifted out in the end.
-/

namespace PsiServe.Pfs

/-- `(buf << width) | v` on `uint64_t`. -/
def shiftIn (buf width v : Nat) : Nat := (buf <<< width) % 2 ^ 64 ||| v

/-- `b32_alphabet[v & 0x1F]`. -/
def b32Char (v : Nat) : Char := "abcdefghijklmnopqrstuvwxyz234567".toList.getD (v &&& 0x1F) '\x00'

/-- The digits that the inner loop takes out of the buffer, and how many bits it leaves. -/
def drainDigits (buf bits : Nat) : List Char × Nat :=
  if 5 ≤ bits then
    let (out, left) := drainDigits buf (bits - 5)
    (b32Char (buf >>> (bits - 5)) :: out, left)
  else ([], bits)

/-- `base32_encode` from the state of its loop. -/
def base32EncodeFrom (buf bits : Nat) : List UInt8 → List Char
  | [] => if 0 < bits then [b32Char (buf <<< (5 - bits) % 2 ^ 64)] else []
  | b :: data =>
    let buf := shiftIn buf 8 b.toNat
    let (out, left) := drainDigits buf (bits + 8)
    out ++ base32EncodeFrom buf left data

def base32Encode : List UInt8 → List Char := base32EncodeFrom 0 0

def b32Val (c : Char) : Option Nat :=
  if 'a' ≤ c ∧ c ≤ 'z' then some (c.toNat - 'a'.toNat)
  else if '2' ≤ c ∧ c ≤ '7' then some (c.toNat - '2'.toNat + 26)
  else if 'A' ≤ c ∧ c ≤ 'Z' then some (c.toNat - 'A'.toNat)
  else none

def base32DecodeFrom (out : List UInt8) (buf bits : Nat) : List Char → Except String (List UInt8)
  | [] => .ok out
  | c :: s =>
    match b32Val c with
    | none => .error "pfs::cid: invalid base32 character"
    | some v =>
      let buf := shiftIn buf 5 v
      if 8 ≤ bits + 5 then
        let bits := bits + 5 - 8
        base32DecodeFrom (out ++ [UInt8.ofNat ((buf >>> bits) &&& 0xFF)]) buf bits s
      else base32DecodeFrom out buf (bits + 5) s

def base32Decode : List Char → Except String (List UInt8) := base32DecodeFrom [] 0 0

structure Cid where
  bytes : List UInt8
  size : bytes.length = 36

def Cid.toString (c : Cid) : List Char := 'b' :: base32Encode c.bytes

def Cid.fromString : List Char → Except String Cid
  | [] => .error "pfs::cid: empty string"
  | c :: s =>
    if c = 'b' ∨ c = 'B' then
      (base32Decode s).bind fun decoded =>
        if h : decoded.length = 36 then .ok ⟨decoded, h⟩
        else .error "pfs::cid: decoded size mismatch, expected 36 bytes"
    else .error "pfs::cid: expected base32lower multibase prefix 'b'"

private theorem shiftIn_eq {buf width v : Nat} (hw : width ≤ 64) (hv : v < 2 ^ width) :
    shiftIn buf width v = (buf * 2 ^ width + v) % 2 ^ 64 := by
  obtain ⟨k, hk⟩ := Nat.exists_eq_add_of_le hw
  rw [shiftIn, hk, pow_add, Nat.shiftLeft_eq, mul_comm (2 ^ width), Nat.mul_mod_mul_right,
    ← Nat.shiftLeft_eq, ← Nat.shiftLeft_add_eq_or_of_lt hv, Nat.shiftLeft_eq, mul_comm (2 ^ k),
    mul_comm buf, Nat.mod_mul, Nat.mul_add_mod, Nat.mod_eq_of_lt hv,
    Nat.mul_add_div (Nat.two_pow_pos width), Nat.div_eq_of_lt hv, add_zero, add_comm, mul_comm]

private theorem b32Val_b32Char (v : Nat) : b32Val (b32Char v) = some (v % 32) := by
  have hall : ∀ d < 32,
      b32Val ("abcdefghijklmnopqrstuvwxyz234567".toList.getD d '\x00') = some d := by decide
  rw [b32Char, show 0x1F = 2 ^ 5 - 1 by rfl, Nat.and_two_pow_sub_one_eq_mod]
  exact hall _ (Nat.mod_lt _ (by decide))

private theorem decode_digit (out : List UInt8) (buf bits v : Nat) (s : List Char) :
    base32DecodeFrom out buf bits (b32Char v :: s) =
      let buf := (buf * 32 + v % 32) % 2 ^ 64
      if 3 ≤ bits then
        base32DecodeFrom (out ++ [UInt8.ofNat (buf / 2 ^ (bits - 3))]) buf (bits - 3) s
      else base32DecodeFrom out buf (bits + 5) s := by
  have hv : v % 32 < 2 ^ 5 := Nat.mod_lt v (by decide)
  have hbyte (n : Nat) : UInt8.ofNat (n &&& 0xFF) = UInt8.ofNat n := by
    rw [show 0xFF = 2 ^ 8 - 1 by rfl, Nat.and_two_pow_sub_one_eq_mod]
    exact UInt8.toNat_inj.mp (by simp)
  simp [base32DecodeFrom, b32Val_b32Char, shiftIn_eq _ hv, hbyte, Nat.shiftRight_eq_div_pow]

/-- The byte that the digits so far end in: its upper bits have reached the decoder and are the last
that it read, the other `bits` are the last that the encoder read. -/
def split (bits decoded encoded : Nat) : List UInt8 :=
  if bits = 0 then []
  else [UInt8.ofNat (decoded % 2 ^ (8 - bits) * 2 ^ bits + encoded % 2 ^ bits)]

private theorem base32DecodeFrom_encodeFrom (data : List UInt8) {bits left : Nat} (hbits : bits < 5)
    (hleft : left < 8) (h : (bits + left) % 8 = 0) (out : List UInt8) (decoded encoded : Nat) :
    base32DecodeFrom out decoded left (base32EncodeFrom encoded bits data) =
      .ok (out ++ split bits decoded encoded ++ data) := by
  induction data generalizing bits left out decoded encoded with
  | nil =>
    obtain rfl : left = (8 - bits) % 8 := by omega
    interval_cases bits
    · simp [split, base32EncodeFrom, base32DecodeFrom]
    all_goals
      simp [base32EncodeFrom, decode_digit, split, base32DecodeFrom.eq_1, Nat.shiftLeft_eq,
        ← UInt8.toNat_inj]
      omega
  | cons b data ih =>
    -- After this byte the decoder again lacks what the encoder still holds.
    have hb := b.toNat_lt
    obtain rfl : left = (8 - bits) % 8 := by omega
    interval_cases bits
    all_goals
      simp [base32EncodeFrom, drainDigits, decode_digit, split, shiftIn_eq _ hb,
        Nat.shiftRight_eq_div_pow, ih, ← UInt8.toNat_inj]
      omega

/-- Decoding gives back what was encoded, of any length. -/
theorem cid_text_roundTrip :
    (∀ data, base32Decode (base32Encode data) = .ok data) ∧
      ∀ c : Cid, Cid.fromString c.toString = .ok c := by
  have hdata (data : List UInt8) : base32Decode (base32Encode data) = .ok data :=
    base32DecodeFrom_encodeFrom data (by decide) (by decide) rfl [] 0 0
  refine ⟨hdata, fun c => ?_⟩
  simp [Cid.toString, Cid.fromString, hdata, Except.bind, c.size]

end PsiServe.Pfs
