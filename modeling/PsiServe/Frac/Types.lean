import PsiServe.Base.LittleEndian

/-!
# Packable types and their values

The C++ types `fracpack.hpp` packs, the compile-time constants of `is_packable<T>`
(`fracpack.hpp:162–210,383–390,547–550,1384–1390,2005–2085`), and the values the types hold. A
number is any type copied byte by byte: integers, enumerations, floating point numbers as
their bit patterns, `uint256` and `bitvector`. A `bool` is its byte of storage, which is 0 or
1 in every value a program builds, but not in every value a `memcpy` builds.
-/

namespace PsiServe.Frac

open Base List

mutual

/-- A packable type. -/
inductive Ty where
  /-- A type of `size` bytes that is copied as it is. -/
  | num (size : Nat)
  | bool
  /-- `std::bitset<n>` -/
  | bitset (n : Nat)
  | string
  | vector (elem : Ty)
  /-- `std::set` and `std::map`; the entry of a map is a reflected pair. -/
  | assoc (elem : Ty)
  | boundedString (n : Nat)
  | boundedList (elem : Ty) (n : Nat)
  | bitlist (n : Nat)
  | array (elem : Ty) (n : Nat)
  | optional (elem : Ty)
  | tuple (elems : Tys)
  | variant (alternatives : Tys)
  /-- A reflected struct: whether its definition will not change, whether its size in memory
  is the sum of the sizes of its members, the declared maximum of its fixed region. -/
  | struct (definitionWillNotChange unpadded : Bool) (maxFixedSize : Nat) (members : Tys)

/-- A list of packable types. -/
inductive Tys where
  | nil
  | cons (head : Ty) (tail : Tys)

end

/-- A list of types, in order. -/
def Tys.ofList : List Ty → Tys
  | [] => .nil
  | t :: ts => .cons t (ofList ts)

/-- A value of a packable type. -/
inductive Val where
  | num (v : Nat)
  /-- The byte a `bool` is stored as. -/
  | bool (byte : UInt8)
  | bits (bs : List Bool)
  | string (bs : Bytes)
  /-- Elements of a container, members of a tuple or struct. -/
  | list (vs : List Val)
  | nullopt
  | some (v : Val)
  | alt (index : Nat) (v : Val)

namespace Val

/-- Whether a container holds nothing. -/
def isEmpty : Val → Bool
  | bits bs => bs.isEmpty
  | string bs => bs.isEmpty
  | list vs => vs.isEmpty
  | _ => false

/-- Whether an optional holds a value. -/
def hasValue : Val → Bool
  | nullopt => false
  | _ => true

/-- The number of a numeric value. -/
def number : Val → Nat
  | num v => v
  | _ => 0

/-- The byte a `bool` is stored as. -/
def byte : Val → UInt8
  | bool b => b
  | _ => 0

/-- The bits of a set or list of bits. -/
def bitList : Val → List Bool
  | bits bs => bs
  | _ => []

/-- The bytes of a string. -/
def chars : Val → Bytes
  | string bs => bs
  | _ => []

/-- The elements of a container, or the members of a tuple or struct. -/
def elems : Val → List Val
  | list vs => vs
  | _ => []

end Val

mutual

/-- What holds of everything in a value that has no parts. -/
def Val.Leaves (p : Val → Prop) : Val → Prop
  | .list vs => leavesAll p vs
  | .some v | .alt _ v => v.Leaves p
  | v => p v

def Val.leavesAll (p : Val → Prop) : List Val → Prop
  | [] => True
  | v :: vs => v.Leaves p ∧ leavesAll p vs

end

/-- A number of bits that does not wrap around when it is rounded up to bytes. -/
def Val.bitsFit : Val → Prop
  | .bits bs => bs.length + 7 < 2 ^ 32
  | _ => True

/-- The compile-time constants of `is_packable<T>`. -/
structure Traits where
  fixedSize : Nat
  isVariableSize : Bool
  isOptional : Bool
  supports0Offset : Bool
  /-- `is_packable_memcpy<T>` -/
  isMemcpy : Bool
deriving DecidableEq, Repr

namespace Traits

/-- A type of a fixed size. -/
def fixed (size : Nat) (isMemcpy : Bool) : Traits := ⟨size, false, false, false, isMemcpy⟩

/-- A container, reached through an offset that is 0 for an empty one. -/
def container : Traits := ⟨4, true, false, true, false⟩

/-- A type reached through an offset. -/
def offset : Traits := ⟨4, true, false, false, false⟩

/-- An optional. -/
def optional : Traits := ⟨4, true, true, false, false⟩

/-- `is_empty_container(value)`: only containers are ever empty. -/
def isEmptyContainer (tr : Traits) (v : Val) : Bool := tr.supports0Offset && v.isEmpty

end Traits

/-- `has_bitwise_serialization<T>()` (`stream.hpp:85–112`); `bool` is arithmetic and has it. -/
def Ty.isBitwise : Ty → Bool
  | .num _ | .bool => true
  | .array t _ => t.isBitwise
  | _ => false

def Ty.isBool : Ty → Bool
  | .bool => true
  | _ => false

namespace Tys

/-- `all_members_bitwise<T>()` (`layout.hpp:47–58`). -/
def allBitwise : Tys → Bool
  | .nil => true
  | .cons t ts => t.isBitwise && ts.allBitwise

def length : Tys → Nat
  | .nil => 0
  | .cons _ ts => ts.length + 1

end Tys

mutual

/-- The constants of `is_packable<T>`. -/
def Ty.traits : Ty → Traits
  | .num n => .fixed n true
  | .bool => .fixed 1 false
  | .bitset n => .fixed ((n + 7) / 8) false
  | .string | .vector _ | .assoc _ | .boundedString _ | .boundedList _ _ | .bitlist _ => .container
  | .array t n =>
    if t.traits.isVariableSize then .offset
    else .fixed (t.traits.fixedSize * n) t.traits.isMemcpy
  | .optional _ => .optional
  | .tuple _ | .variant _ => .offset
  | .struct dwnc unpadded _ ts =>
    if !dwnc || ts.anyVariableSize then .offset
    else .fixed ts.fixedSize (unpadded && ts.allBitwise)

/-- The sum of the sizes of the members' slots. -/
def Tys.fixedSize : Tys → Nat
  | .nil => 0
  | .cons t ts => t.traits.fixedSize + ts.fixedSize

def Tys.anyVariableSize : Tys → Bool
  | .nil => false
  | .cons t ts => t.traits.isVariableSize || ts.anyVariableSize

end

namespace Tys

/-- Whether the last member is an optional, which may be trimmed. -/
def hasTrailingOptionals : Tys → Bool
  | .nil => false
  | .cons t .nil => t.traits.isOptional
  | .cons _ ts => ts.hasTrailingOptionals

end Tys

/-- `bounded_length_t<N>`: the bytes of the smallest unsigned integer that holds the bound. -/
def boundedLength (n : Nat) : Nat :=
  if n < 2 ^ 8 then 1 else if n < 2 ^ 16 then 2 else if n < 2 ^ 32 then 4 else 8

/-- `frac_header_type_t<N>`: the bytes of the header of an extensible struct. -/
def headerLength (maxFixedSize : Nat) : Nat :=
  if maxFixedSize ≤ 0xffff then 2 else if maxFixedSize ≤ 0xffffffff then 4 else 8

/-- The bytes of the length of a `bounded_list<T, N>` (`fracpack.hpp:814–821,1078–1090`). -/
def Ty.listLength (t : Ty) (n : Nat) : Nat :=
  boundedLength (n * if t.traits.isMemcpy then t.traits.fixedSize else 4)

/-! ### Objects in memory -/

mutual

/-- The bytes of an object that is copied as it is; the machine is little-endian. -/
def Ty.raw : Ty → Val → Bytes
  | .num n, v => leBytes n v.number
  | .bool, v => [v.byte]
  | .array t _, v => v.elems.flatMap t.raw
  | .struct _ _ _ ts, v => ts.raw v.elems
  | _, _ => []

def Tys.raw : Tys → List Val → Bytes
  | .cons t ts, v :: vs => t.raw v ++ ts.raw vs
  | _, _ => []

end

/-- Cut bytes into `n` objects of one size. -/
def splitRaw (ofRaw : Bytes → Val) (size : Nat) : Nat → Bytes → List Val
  | 0, _ => []
  | n + 1, bs => ofRaw (bs.take size) :: splitRaw ofRaw size n (bs.drop size)

/-- Copied elements are read back. -/
theorem splitRaw_flatMap {ofRaw : Bytes → Val} {raw : Val → Bytes} {size : Nat} {vs : List Val}
    (h : ∀ v ∈ vs, (raw v).length = size ∧ ofRaw (raw v) = v) :
    splitRaw ofRaw size vs.length (vs.flatMap raw) = vs := by
  induction vs with
  | nil => rfl
  | cons v vs ih =>
    obtain ⟨hlen, hv⟩ := h v mem_cons_self
    rw [length_cons, flatMap_cons, splitRaw, ← hlen, take_left, drop_left, hv,
      hlen, ih (forall_mem_cons.mp h).2]

mutual

/-- The object that bytes are copied into. -/
def Ty.ofRaw : Ty → Bytes → Val
  | .num _, bs => .num (leValue bs)
  | .bool, bs => .bool (bs.headD 0)
  | .array t n, bs => .list (splitRaw t.ofRaw t.traits.fixedSize n bs)
  | .struct _ _ _ ts, bs => .list (ts.ofRaw bs)
  | _, _ => .list []

def Tys.ofRaw : Tys → Bytes → List Val
  | .nil, _ => []
  | .cons t ts, bs =>
    t.ofRaw (bs.take t.traits.fixedSize) :: ts.ofRaw (bs.drop t.traits.fixedSize)

end

/-! ### Values of a type -/

mutual

/-- A value of a type that a program can build. -/
def Ty.Has : Ty → Val → Prop
  | .num n, .num v => v < 256 ^ n
  | .bool, .bool b => b ≤ 1
  | .bitset n, .bits bs => bs.length = n
  | .string, .string _ => True
  | .vector t, .bits _ => t.isBool = true
  | .vector t, .list vs => t.isBool = false ∧ ∀ v ∈ vs, t.Has v
  | .assoc t, .list vs => ∀ v ∈ vs, t.Has v
  | .boundedString n, .string bs => bs.length ≤ n
  | .boundedList t n, .list vs => vs.length ≤ n ∧ ∀ v ∈ vs, t.Has v
  | .bitlist n, .bits bs => bs.length ≤ n
  | .array t n, .list vs => vs.length = n ∧ ∀ v ∈ vs, t.Has v
  | .optional _, .nullopt => True
  | .optional t, .some v => t.Has v
  | .tuple ts, .list vs => ts.Has vs
  | .variant ts, .alt i v => ts.HasAt i v
  | .struct _ _ _ ts, .list vs => ts.Has vs
  | _, _ => False

/-- One value for each type. -/
def Tys.Has : Tys → List Val → Prop
  | .nil, [] => True
  | .cons t ts, v :: vs => t.Has v ∧ ts.Has vs
  | _, _ => False

/-- A value of the type at an index. -/
def Tys.HasAt : Tys → Nat → Val → Prop
  | .cons t _, 0, v => t.Has v
  | .cons _ ts, i + 1, v => ts.HasAt i v
  | .nil, _, _ => False

end

mutual

/-- A type the library can be instantiated with: the static assertions of
`fracpack.hpp:168–174,1946,2082–2090`, and sizes that the `uint32_t` constants can hold. An
object takes at least one byte of memory, so one without padding has a size. -/
def Ty.WellFormed : Ty → Prop
  | .num n => 0 < n ∧ n < 2 ^ 32
  | .bool | .string | .boundedString _ | .bitlist _ => True
  | .bitset n => (n + 7) / 8 < 2 ^ 32
  | .vector t | .assoc t | .optional t => t.WellFormed
  | .boundedList t _ => t.WellFormed ∧ t.isBool = false
  | .array t n => t.WellFormed ∧ t.traits.fixedSize * n < 2 ^ 32 ∧ (t.traits.isMemcpy → 0 < n)
  | .tuple ts => ts.WellFormed ∧ ts.fixedSize < 2 ^ 16
  | .variant ts => ts.WellFormed ∧ 0 < ts.length ∧ ts.length < 128
  | .struct dwnc unpadded maxFixedSize ts =>
    ts.WellFormed ∧ ts.fixedSize < 2 ^ 32 ∧ (dwnc = false → ts.fixedSize ≤ maxFixedSize) ∧
      (unpadded = true → 0 < ts.fixedSize)

def Tys.WellFormed : Tys → Prop
  | .nil => True
  | .cons t ts => t.WellFormed ∧ ts.WellFormed

end

end PsiServe.Frac
