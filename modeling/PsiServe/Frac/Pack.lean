import PsiServe.Frac.Wire

/-!
# Packing

`is_packable<T>::pack` and its companions (`fracpack.hpp:243–312,383–405,547–590,690–730,
858–900,1047–1070,1384–1412,1433–1489,1590–1830,1955–1975,2092–2192`), over a stream that
grows at its end and is patched in place. A container or struct writes the fixed part of every
member first, with room for the offsets; then, member by member, it patches the offset and
writes the object it points to. `to_frac` (`fracpack.hpp:2391–2408`) sizes its buffer with
`packed_size`.
-/

namespace PsiServe.Frac

open Base

/-- `static_cast<std::uint32_t>` -/
def u32 (n : Nat) : Nat := n % 2 ^ 32

/-- The difference of two `uint32_t`. -/
def sub32 (a b : Nat) : Nat := (a + (2 ^ 32 - b)) % 2 ^ 32

/-- What has been written to a `fixed_buf_stream` (`stream.hpp:191–243`). -/
abbrev Stream := Bytes

namespace Stream

/-- `uint32_t pos = stream.written()` -/
def written (s : Stream) : Nat := u32 s.length

/-- Write a number of `width` bytes. -/
def writeRaw (s : Stream) (width v : Nat) : Stream := s ++ leBytes width v

/-- Overwrite four bytes that were written before. -/
def rewriteRaw (s : Stream) (offset v : Nat) : Stream :=
  s.take offset ++ leBytes 4 v ++ s.drop (offset + 4)

end Stream

/-- The packing half of `is_packable<T>`. -/
structure Packer where
  traits : Traits
  pack : Val → Stream → Stream
  embeddedFixedPack : Val → Stream → Stream
  embeddedFixedRepack : Val → (fixedPos heapPos : Nat) → Stream → Stream
  embeddedVariablePack : Val → Stream → Stream
  packedSize : Val → Nat
  embeddedVariablePackedSize : Val → Nat

namespace Packer

/-- `base_packable_impl`. A `size_stream` only counts what `pack` writes. -/
def base (tr : Traits) (pack : Val → Stream → Stream) : Packer where
  traits := tr
  pack := pack
  embeddedFixedPack v s := if tr.isVariableSize then s.writeRaw 4 0 else pack v s
  embeddedFixedRepack v fixedPos heapPos s :=
    if tr.isVariableSize && !tr.isEmptyContainer v then
      s.rewriteRaw fixedPos (sub32 heapPos fixedPos)
    else s
  embeddedVariablePack v s :=
    if tr.isVariableSize && !tr.isEmptyContainer v then pack v s else s
  packedSize v := u32 (pack v []).length
  embeddedVariablePackedSize v :=
    if tr.isVariableSize && !tr.isEmptyContainer v then u32 (pack v []).length else 0

/-- A type that is copied as it is. -/
def memcpy (tr : Traits) (raw : Val → Bytes) : Packer :=
  { base tr (fun v s => s ++ raw v) with
    packedSize := fun _ => tr.fixedSize
    embeddedVariablePackedSize := fun _ => 0 }

/-- A container that writes a length of `width` bytes and then bytes. -/
def bytes (width : Nat) (length : Val → Nat) (content : Val → Bytes) : Packer :=
  { base .container (fun v s => s.writeRaw width (length v) ++ content v) with
    packedSize := fun v => u32 (width + u32 (content v).length)
    embeddedVariablePackedSize := fun v =>
      if v.isEmpty then 0 else u32 (width + u32 (content v).length) }

end Packer

/-! ### Members -/

/-- Write the fixed part of each member. -/
def fixedPackAll : List (Packer × Val) → Stream → Stream
  | [], s => s
  | (p, v) :: rest, s => fixedPackAll rest (p.embeddedFixedPack v s)

/-- Patch the offset of each member and write what it points to. -/
def variablePackAll (advance : Packer → Nat) :
    List (Packer × Val) → (fixedPos : Nat) → Stream → Stream
  | [], _, s => s
  | (p, v) :: rest, fixedPos, s =>
    variablePackAll advance rest (u32 (fixedPos + advance p))
      (p.embeddedVariablePack v (p.embeddedFixedRepack v fixedPos s.written s))

/-- Both passes over members. -/
def packMembers (advance : Packer → Nat) (items : List (Packer × Val)) (s : Stream) : Stream :=
  variablePackAll advance items s.written (fixedPackAll items s)

/-- How far the offsets of members are apart. -/
def slotSize (p : Packer) : Nat := p.traits.fixedSize

namespace Packer

/-- `packable_container_impl` and `packable_bounded_container_impl`. -/
def container (width : Nat) (advance : Packer → Nat) (elem : Packer) : Packer :=
  base .container fun v s =>
    packMembers advance (v.elems.map fun x => (elem, x))
      (s.writeRaw width (u32 (v.elems.length * elem.traits.fixedSize)))

/-- `std::array<T, N>` of a type that is not copied as it is. -/
def array (tr : Traits) (elem : Packer) : Packer :=
  base tr fun v s => packMembers slotSize (v.elems.map fun x => (elem, x)) s

/-- Write the slot of an optional. -/
def optionalFixedPack (elem : Packer) (v : Val) (s : Stream) : Stream :=
  match v with
  | .some x =>
    if !elem.traits.isOptional && elem.traits.isVariableSize then elem.embeddedFixedPack x s
    else s.writeRaw 4 1
  | _ => s.writeRaw 4 1

/-- Patch the slot of an optional. -/
def optionalFixedRepack (elem : Packer) (v : Val) (fixedPos heapPos : Nat) (s : Stream) : Stream :=
  match v with
  | .some x =>
    if !elem.traits.isOptional && elem.traits.isVariableSize then
      elem.embeddedFixedRepack x fixedPos heapPos s
    else s.rewriteRaw fixedPos (sub32 heapPos fixedPos)
  | _ => s

/-- Write what an optional points to. -/
def optionalVariablePack (elem : Packer) (v : Val) (s : Stream) : Stream :=
  match v with
  | .some x => if elem.traits.isEmptyContainer x then s else elem.pack x s
  | _ => s

/-- `std::optional<T>` -/
def optional (elem : Packer) : Packer :=
  let pack (v : Val) (s : Stream) : Stream :=
    let fixed := optionalFixedPack elem v s
    optionalVariablePack elem v
      (optionalFixedRepack elem v s.written fixed.written fixed)
  { traits := .optional
    pack := pack
    embeddedFixedPack := optionalFixedPack elem
    embeddedFixedRepack := optionalFixedRepack elem
    embeddedVariablePack := optionalVariablePack elem
    packedSize := fun v => u32 (pack v []).length
    embeddedVariablePackedSize := fun v => u32 (optionalVariablePack elem v []).length }

end Packer

/-- `num_present_fn`: one more than the index of the last member that is present, after
`i` members of which `n` are counted. -/
def numPresent : (i n : Nat) → List (Packer × Val) → Nat
  | _, n, [] => n
  | i, n, (p, v) :: rest =>
    numPresent (i + 1) (if p.traits.isOptional && !v.hasValue then n else i + 1) rest

/-- The slots of members in bytes. -/
def membersFixedSize : List (Packer × Val) → Nat
  | [] => 0
  | (p, _) :: rest => p.traits.fixedSize + membersFixedSize rest

/-- The members up to the last one that is present, after a header of `width` bytes. -/
def packPresent (width : Nat) (items : List (Packer × Val)) (s : Stream) : Stream :=
  let present := items.take (numPresent 0 0 items)
  packMembers slotSize present (s.writeRaw width (u32 (membersFixedSize present)))

/-- `packed_size_fn<true>`: the size of all members. -/
def totalSize : List (Packer × Val) → Nat
  | [] => 0
  | (p, v) :: rest =>
    p.traits.fixedSize + p.embeddedVariablePackedSize v + totalSize rest

/-- `packed_size_fn<false>`: the size of the members up to the last one that is present. -/
def committedSize : (tentative committed : Nat) → List (Packer × Val) → Nat
  | _, committed, [] => committed
  | tentative, committed, (p, v) :: rest =>
    let tentative := u32 (tentative + p.traits.fixedSize + p.embeddedVariablePackedSize v)
    committedSize tentative
      (if p.traits.isOptional && !v.hasValue then committed else tentative) rest

/-- Write members that all have a fixed size. -/
def packEach : List (Packer × Val) → Stream → Stream
  | [], s => s
  | (p, v) :: rest, s => packEach rest (p.pack v s)

namespace Packer

/-- `std::tuple` -/
def tuple (elems : List Packer) : Packer :=
  base .offset fun v => packPresent 2 (elems.zip v.elems)

/-- The alternative `std::visit` finds. -/
def packAlternative (alternatives : List Packer) (i : Nat) (v : Val) (s : Stream) : Stream :=
  match alternatives[i]? with
  | some p => p.pack v s
  | none => s

/-- `std::variant`: a tag, the size of the content written last, the content. -/
def variant (alternatives : List Packer) : Packer :=
  base .offset fun v s =>
    match v with
    | .alt i x =>
      let tagged := s.writeRaw 1 i
      let opened := tagged.writeRaw 4 0
      let closed := packAlternative alternatives i x opened
      closed.rewriteRaw tagged.written (sub32 closed.written opened.written)
    | _ => s

/-- A reflected struct of a fixed size. -/
def fixedStruct (tr : Traits) (size : Nat) (members : List Packer) : Packer :=
  { base tr (fun v => packEach (members.zip v.elems)) with
    packedSize := fun _ => size
    embeddedVariablePackedSize := fun _ => 0 }

/-- A reflected struct of a variable size: all members if none can be trimmed, else those
up to the last one that is present. -/
def variableStruct (header : Nat) (trailingOptionals : Bool) (members : List Packer) : Packer :=
  let pack (v : Val) (s : Stream) : Stream :=
    let items := members.zip v.elems
    if trailingOptionals then packPresent header items s
    else packMembers slotSize items (s.writeRaw header (membersFixedSize items))
  let size (v : Val) : Nat :=
    let items := members.zip v.elems
    if trailingOptionals then u32 (header + committedSize 0 0 items)
    else u32 (header + totalSize items)
  { base .offset pack with
    packedSize := size
    embeddedVariablePackedSize := size }

end Packer

mutual

/-- The packing half of `is_packable<T>`. -/
def Ty.packer : Ty → Packer
  | .num n => .memcpy (.fixed n true) (Ty.num n).raw
  | .bool => .base (.fixed 1 false) fun v s => s ++ [v.byte]
  | .bitset n => .memcpy (.fixed ((n + 7) / 8) false) fun v => packBits v.bitList
  | .string => .bytes 4 (fun v => v.chars.length) Val.chars
  | .vector t =>
    if t.isBool then .bytes 4 (fun v => v.bitList.length) fun v => packBits v.bitList
    else if t.traits.isMemcpy then
      .bytes 4 (fun v => v.elems.length * t.traits.fixedSize) fun v => v.elems.flatMap t.raw
    else .container 4 (fun _ => 4) t.packer
  | .assoc t => .container 4 (fun _ => 4) t.packer
  | .boundedString n => .bytes (boundedLength n) (fun v => v.chars.length) Val.chars
  | .boundedList t n =>
    if t.traits.isMemcpy then
      .bytes (t.listLength n) (fun v => v.elems.length * t.traits.fixedSize)
        fun v => v.elems.flatMap t.raw
    else .container (t.listLength n) slotSize t.packer
  | .bitlist n =>
    .bytes (boundedLength n) (fun v => v.bitList.length) fun v => packBits v.bitList
  | .array t n =>
    if t.traits.isMemcpy then .memcpy (Ty.array t n).traits (Ty.array t n).raw
    else .array (Ty.array t n).traits t.packer
  | .optional t => .optional t.packer
  | .tuple ts => .tuple ts.packers
  | .variant ts => .variant ts.packers
  | .struct dwnc unpadded maxFixedSize ts =>
    let tr := (Ty.struct dwnc unpadded maxFixedSize ts).traits
    if tr.isMemcpy then .memcpy tr (Ty.struct dwnc unpadded maxFixedSize ts).raw
    else if tr.isVariableSize then
      .variableStruct (if dwnc then 0 else headerLength maxFixedSize)
        (!dwnc && ts.hasTrailingOptionals) ts.packers
    else .fixedStruct tr ts.fixedSize ts.packers

def Tys.packers : Tys → List Packer
  | .nil => []
  | .cons t ts => t.packer :: ts.packers

end

end PsiServe.Frac
