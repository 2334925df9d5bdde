import Mathlib.Data.PNat.Notation
import PsiServe.Frac.Types

/-!
# Types of the SSZ family and their values

The C++ types that `to_ssz.hpp` and `to_pssz.hpp` encode, and what the two formats read of them at
compile time (`to_ssz.hpp:69–178,259–273`, `detail/layout.hpp:30–67`, `stream.hpp:58–110`). A number
is an integer or a floating point number as its bit pattern, and its size is not 0. A `bool` is its
byte of storage.
-/

namespace PsiServe.Ssz

open Base

mutual

/-- A type that can be encoded. -/
inductive Ty where
  | bool
  /-- A number of `size` bytes. -/
  | num (size : Nat)
  | uint256
  /-- `bitvector<n>`; `bitvector<0>`, which takes a byte in memory and none on the wire, is left
  out. -/
  | bitvector (n : ℕ+)
  /-- `std::bitset<n>` -/
  | bitset (n : Nat)
  | bitlist (maxN : Nat)
  | string
  | boundedString (n : Nat)
  | vector (elem : Ty)
  | boundedList (elem : Ty) (n : Nat)
  | array (elem : Ty) (n : Nat)
  | optional (elem : Ty)
  /-- A reflected struct: whether its definition will not change, and its size in memory. -/
  | struct (definitionWillNotChange : Bool) (size : Nat) (members : Tys)

/-- A list of types. -/
inductive Tys where
  | nil
  | cons (head : Ty) (tail : Tys)

end

/-- Induction on a list of types. -/
@[elab_as_elim]
theorem Tys.list_induction {motive : Tys → Prop} (nil : motive .nil)
    (cons : ∀ t ts, motive ts → motive (.cons t ts)) : ∀ ts, motive ts
  | .nil => nil
  | .cons t ts => cons t ts (list_induction nil cons ts)

/-- The types of a list, in order. -/
def Tys.toList : Tys → List Ty
  | .nil => []
  | .cons t ts => t :: ts.toList

def Tys.append : Tys → Tys → Tys
  | .nil, us => us
  | .cons t ts, us => .cons t (ts.append us)

/-- `has_bitwise_serialization<T>()` -/
def Ty.bitwise : Ty → Bool
  | .bool | .num _ | .uint256 | .bitvector _ => true
  | .array elem n => elem.bitwise && n != 0
  | _ => false

/-- Induction on a type that is copied bit by bit. -/
@[elab_as_elim]
theorem Ty.bitwise_induction {motive : (t : Ty) → t.bitwise = true → Prop}
    (bool : motive .bool rfl) (num : ∀ size, motive (.num size) rfl) (uint256 : motive .uint256 rfl)
    (bitvector : ∀ n, motive (.bitvector n) rfl)
    (array : ∀ elem n (helem : elem.bitwise = true) (hn : (n != 0) = true),
      motive elem helem → motive (.array elem n) (Bool.and_eq_true_iff.mpr ⟨helem, hn⟩)) :
    ∀ t h, motive t h
  | .bool, _ => bool
  | .num size, _ => num size
  | .uint256, _ => uint256
  | .bitvector n, _ => bitvector n
  | .array elem n, h =>
    array elem n (Bool.and_eq_true_iff.mp h).1 (Bool.and_eq_true_iff.mp h).2
      (bitwise_induction bool num uint256 bitvector array elem (Bool.and_eq_true_iff.mp h).1)

mutual

/-- `ssz_is_fixed_size_v<T>` with `ssz_fixed_size<T>`. -/
def Ty.fixedSize : Ty → Option Nat
  | .bool => some 1
  | .num size => some size
  | .uint256 => some 32
  | .bitvector n | .bitset n => some ((n + 7) / 8)
  | .array elem n => elem.fixedSize.map (n * ·)
  | .struct _ _ members => members.fixedSize
  | .bitlist _ | .string | .boundedString _ | .vector _ | .boundedList _ _ | .optional _ => none

/-- The sum of the sizes of the members, when all of them are of a fixed size. -/
def Tys.fixedSize : Tys → Option Nat
  | .nil => some 0
  | .cons t ts =>
    match t.fixedSize, ts.fixedSize with
    | some n, some m => some (n + m)
    | _, _ => none

end

/-- `layout_detail::is_memcpy_layout_struct<T>()`; the size in memory of a member that is copied bit
by bit is the size of its encoding. -/
def memcpyLayout (size : Nat) (members : Tys) : Bool :=
  members.toList.all Ty.bitwise && members.fixedSize == some size

/-- `ssz_memcpy_ok_v<T>` -/
def Ty.memcpyOk : Ty → Bool
  | .struct _ size members => memcpyLayout size members
  | t => t.bitwise

/-- The shape of a member in a table: its size, or none when it stands behind the head. -/
def Tys.shape : Tys → List (Option Nat)
  | .nil => []
  | .cons t ts => t.fixedSize :: ts.shape

end PsiServe.Ssz
