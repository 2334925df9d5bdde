import PsiServe.Base.OffsetTable
import PsiServe.Ssz.Types

/-!
# Encoding SSZ

`to_ssz` (`to_ssz.hpp:195–455`). Elements and members of a fixed size are written one after the
other and the others behind offsets of 4 bytes, which are filled in as the objects are written; both
are the parts of one table. Where the source copies a whole element or struct from memory, `raw`, a
`bool` in it keeps the byte it is stored as.
-/

namespace PsiServe.Ssz

open Base
open Frac (Val)

/-- An element or a member of a table. -/
def part (fixedSize : Option Nat) (bytes : Bytes) : Part :=
  match fixedSize with
  | some _ => .inline bytes
  | none => .object bytes

/-- The bytes of a part. -/
@[simp]
theorem bytes_part (fixedSize : Option Nat) (bs : Bytes) : (part fixedSize bs).bytes = bs := by
  cases fixedSize <;> rfl

/-- A part of no fixed size is behind an offset. -/
theorem shape_part_eq_none (fixedSize : Option Nat) (bs : Bytes) :
    (part fixedSize bs).shape = none ↔ fixedSize = none := by
  cases fixedSize <;> simp [part, Part.shape]

/-- The shape of a part of the expected length. -/
theorem shape_part {fixedSize : Option Nat} {bytes : Bytes}
    (hlen : ∀ n, fixedSize = some n → bytes.length = n) :
    (part fixedSize bytes).shape = fixedSize := by
  cases fixedSize with
  | none => rfl
  | some n => exact congrArg some (hlen n rfl)

/-- `to_ssz(const bitlist<MaxN>&, S&)`: the bits and a delimiter. -/
def bitlistBytes (bs : List Bool) : Bytes := packBits (bs ++ [true])

mutual

/-- `to_ssz` -/
def toSsz (raw : Bool) : Ty → Val → Bytes
  | .bool, v => [if raw then v.byte else if v.byte = 0 then 0 else 1]
  | .num size, v => leBytes size v.number
  | .uint256, v => leBytes 32 v.number
  -- bytes are copied from memory, with the bits of the last one that the type does not have
  | .bitvector n, v | .bitset n, v => leBytes ((n + 7) / 8) v.number
  | .bitlist _, v => bitlistBytes v.bitList
  | .string, v | .boundedString _, v => v.chars
  | .vector elem, v | .boundedList elem _, v | .array elem _, v =>
    table 4 (v.elems.map fun x => part elem.fixedSize (toSsz (raw || elem.memcpyOk) elem x))
  | .optional elem, v =>
    match v with
    | .some x => 1 :: toSsz raw elem x
    | _ => [0]
  | .struct _ size members, v =>
    table 4 (toSszMembers (raw || memcpyLayout size members) members v.elems)

def toSszMembers (raw : Bool) : Tys → List Val → List Part
  | .cons t ts, v :: vs => part t.fixedSize (toSsz raw t v) :: toSszMembers raw ts vs
  | _, _ => []

end

/-- `convert_to_ssz` of a value -/
def convertToSsz (t : Ty) (v : Val) : Bytes := toSsz false t v

end PsiServe.Ssz
