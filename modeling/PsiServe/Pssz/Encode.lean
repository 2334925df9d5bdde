import PsiServe.Ssz.Encode

/-!
# Encoding pSSZ

`to_pssz` and `pssz_size` (`to_pssz.hpp:46–278,392–765`). The tables are those of SSZ with offsets
of 1, 2 or 4 bytes. An extensible struct starts with the length of its fixed region, an optional has
a selector only when its payload can be empty, and a struct whose definition will not change counts,
if its members are of a fixed size, as its size in memory. The streams grow with what is written to
them; whether the buffer suffices is what `pssz_size` is for.
-/

namespace PsiServe.Pssz

open Base
open Ssz
open Frac (Val splitRaw)

/-- The format tags. -/
inductive Format where
  | pssz8
  | pssz16
  | pssz32
deriving DecidableEq, Repr

namespace Format

def offsetBytes : Format → Nat
  | pssz8 => 1
  | pssz16 => 2
  | pssz32 => 4

def headerBytes : Format → Nat
  | pssz8 => 1
  | pssz16 => 2
  | pssz32 => 4

def maxTotal : Format → Nat
  | pssz8 => 0xff
  | pssz16 => 0xffff
  | pssz32 => 0xffffffff

/-- An offset has bytes. -/
theorem offsetBytes_pos (F : Format) : 0 < F.offsetBytes := by cases F <;> decide

/-- A header has bytes. -/
theorem headerBytes_pos (F : Format) : 0 < F.headerBytes := by cases F <;> decide

/-- An offset holds every position of the data. -/
theorem maxTotal_lt (F : Format) : F.maxTotal < 256 ^ F.offsetBytes := by cases F <;> decide

/-- A position has 32 bits. -/
theorem maxTotal_lt_two_pow (F : Format) : F.maxTotal < 2 ^ 32 := by cases F <;> decide

end Format

/-! ### What is known at compile time -/

mutual

/-- `pssz_is_fixed_size<T>` with `pssz_fixed_size<T>`. -/
def psszFixedSize : Ty → Option Nat
  | .bool => some 1
  | .num size => some size
  | .uint256 => some 32
  | .bitvector n | .bitset n => some ((n + 7) / 8)
  | .array elem n => (psszFixedSize elem).map (n * ·)
  | .struct definitionWillNotChange size members =>
    if allFieldsFixed members && definitionWillNotChange then some size else none
  | .bitlist _ | .string | .boundedString _ | .vector _ | .boundedList _ _ | .optional _ => none

/-- `pssz_detail::all_fields_fixed<T>()` -/
def allFieldsFixed : Tys → Bool
  | .nil => true
  | .cons t ts => (psszFixedSize t).isSome && allFieldsFixed ts

end

/-- The shape of the fixed region of a struct. -/
def fieldShape : Tys → List (Option Nat)
  | .nil => []
  | .cons t ts => psszFixedSize t :: fieldShape ts

/-- `pssz_detail::fixed_header_size<F, T>()` -/
def fixedHeaderSize (F : Format) (members : Tys) : Nat := headLen F.offsetBytes (fieldShape members)

/-- `min_encoded_size<T>()` -/
def minEncodedSize : Ty → Nat
  | .bitlist _ => 1
  | .struct definitionWillNotChange size members =>
    if definitionWillNotChange then size else 1 + headLen 1 (fieldShape members)
  | t => (psszFixedSize t).getD 0

/-- `pssz_optional_needs_selector<T>` -/
def optionalNeedsSelector (t : Ty) : Bool := minEncodedSize t == 0

/-- `sizeof(T)` of a type that is copied bit by bit. -/
def sizeof (t : Ty) : Nat := (psszFixedSize t).getD 0

/-! ### Writing -/

/-- The memory of a value that is copied bit by bit. -/
def raw : Ty → Val → Bytes
  | .bool, v => [v.byte]
  | .num size, v => leBytes size v.number
  | .uint256, v => leBytes 32 v.number
  | .bitvector n, v => leBytes ((n + 7) / 8) v.number
  | .array elem _, v => v.elems.flatMap (raw elem)
  | _, _ => []

def rawMembers : Tys → List Val → Bytes
  | .cons t ts, v :: vs => raw t v ++ rawMembers ts vs
  | _, _ => []

/-- Whether a struct is written by a single copy. -/
def copied (definitionWillNotChange : Bool) (size : Nat) (members : Tys) : Bool :=
  definitionWillNotChange && memcpyLayout size members && allFieldsFixed members

mutual

/-- `to_pssz` -/
def toPssz (F : Format) : Ty → Val → Bytes
  | .bool, v => [if v.byte = 0 then 0 else 1]
  | .num size, v => leBytes size v.number
  | .uint256, v => leBytes 32 v.number
  | .bitvector n, v => leBytes ((n + 7) / 8) v.number
  -- bit by bit, so without what the last byte of a `std::bitset` has beyond them
  | .bitset n, v => leBytes ((n + 7) / 8) (v.number % 2 ^ n)
  | .bitlist _, v => bitlistBytes v.bitList
  | .string, v | .boundedString _, v => v.chars
  | .vector elem, v | .boundedList elem _, v | .array elem _, v =>
    if elem.bitwise then v.elems.flatMap (raw elem)
    else table F.offsetBytes (v.elems.map fun x => part (psszFixedSize elem) (toPssz F elem x))
  | .optional elem, v =>
    match v with
    | .some x => (if optionalNeedsSelector elem then [1] else []) ++ toPssz F elem x
    | _ => if optionalNeedsSelector elem then [0] else []
  | .struct definitionWillNotChange size members, v =>
    if copied definitionWillNotChange size members then rawMembers members v.elems
    else
      (if definitionWillNotChange then [] else leBytes F.headerBytes (fixedHeaderSize F members)) ++
        table F.offsetBytes (toPsszMembers F members v.elems)

def toPsszMembers (F : Format) : Tys → List Val → List Part
  | .cons t ts, v :: vs => part (psszFixedSize t) (toPssz F t v) :: toPsszMembers F ts vs
  | _, _ => []

end

mutual

/-- What `pssz_size` adds up. -/
def psszCount (F : Format) : Ty → Val → Nat
  | .bitlist _, v => (v.bitList.length + 8) / 8
  | .string, v | .boundedString _, v => v.chars.length
  | .vector elem, v | .boundedList elem _, v =>
    match psszFixedSize elem with
    | some size => v.elems.length * size
    | none => v.elems.length * F.offsetBytes + (v.elems.map (psszCount F elem)).sum
  | .array elem n, v =>
    match psszFixedSize elem with
    | some size => n * size
    | none => v.elems.length * F.offsetBytes + (v.elems.map (psszCount F elem)).sum
  | .optional elem, v =>
    match v with
    | .some x => (if optionalNeedsSelector elem then 1 else 0) + psszCount F elem x
    | _ => if optionalNeedsSelector elem then 1 else 0
  | .struct definitionWillNotChange size members, v =>
    if allFieldsFixed members && definitionWillNotChange then size
    else
      fixedHeaderSize F members + (if definitionWillNotChange then 0 else F.headerBytes) +
        psszCountMembers F members v.elems
  | t, _ => (psszFixedSize t).getD 0

/-- The members of a fixed size are in the fixed region. -/
def psszCountMembers (F : Format) : Tys → List Val → Nat
  | .cons t ts, v :: vs =>
    (if (psszFixedSize t).isSome then 0 else psszCount F t v) + psszCountMembers F ts vs
  | _, _ => 0

end

/-- `pssz_size`: every sum and product is one of `uint32_t`. -/
def psszSize (F : Format) (t : Ty) (v : Val) : Nat := psszCount F t v % 2 ^ 32

end PsiServe.Pssz
