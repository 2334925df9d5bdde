import PsiServe.Base.Fallible
import PsiServe.Frac.Pack

/-!
# Unpacking

`is_packable<T>::unpack` and its companions (`fracpack.hpp:313–439,558–640,732–775,903–978,
1095–1130,1144–1345,1414–1430,1491–1588,1832–2003,2194–2387`), with the template parameters
`Unpack` and `Verify` as a mode, and the entry points `validate_frac`, `from_frac`,
`from_frac_strict` and `from_frac` of prevalidated data (`fracpack.hpp:2436–2570`).

Positions are `uint32_t`. A read outside of the buffer and a division by zero are faults of
their own, apart from `false`, which the source returns for data it rejects. The source walks
on over the remaining members after one was rejected, and then returns `false`; the model
stops at the first. Without `Unpack` the source does not store the value that the model
returns, and without `Verify` it leaves `known_end` alone and nothing looks at it.
-/

namespace PsiServe.Frac

open Base

/-- The template parameters of `unpack`. -/
structure Mode where
  unpack : Bool
  verify : Bool

/-- How unpacking ends early. -/
inductive Fault where
  /-- The data is rejected. -/
  | invalid
  /-- A byte outside of the buffer is read. -/
  | outOfBounds
  | divideByZero
deriving DecidableEq, Repr

abbrev Read (α : Type) := Except Fault α

/-- Continue only if a condition holds. -/
def require (p : Bool) : Read Unit := if p then .ok () else .error .invalid

/-- Bytes of the buffer. -/
def readBytes (src : Bytes) (pos n : Nat) : Read Bytes :=
  if pos + n ≤ src.length then .ok (window src pos (pos + n)) else .error .outOfBounds

/-- A number of `width` bytes. -/
def readNum (width : Nat) (src : Bytes) (pos : Nat) : Read Nat :=
  return leValue (← readBytes src pos width)

/-- What `unpack` leaves behind: the position after the object, whether this is known to be
its end, whether there were unknown fields. -/
structure Exit where
  pos : Nat
  known : Bool
  unknown : Bool

/-- A walk over members: the position in the fixed region, the position in the heap, whether
this is known to be the end of what was read, whether there were unknown fields. -/
structure Walk where
  fixedPos : Nat
  heapPos : Nat
  known : Bool
  unknown : Bool

/-- The walk of a member. -/
abbrev Member := Walk → Read (Val × Walk)

/-- `unpack_numeric`; the check is skipped inside of a region that was checked before. -/
def unpackNumeric (m : Mode) (skip : Bool) (width : Nat) (src : Bytes) (pos stop : Nat) :
    Read Nat := do
  require !(m.verify && !skip && sub32 stop pos < width)
  readNum width src pos

/-- The unpacking half of `is_packable<T>`. -/
structure Unpacker where
  traits : Traits
  unpack : Mode → Bytes → (unknown : Bool) → (pos stop : Nat) → Read (Val × Exit)
  embeddedVariableUnpack : Mode → (skip : Bool) → Bytes → (endFixed endHeap : Nat) → Member
  embeddedUnpack : Mode → (skip : Bool) → Bytes → (endFixed endHeap : Nat) → Member

/-- `is_empty_container(src, pos, end_pos)` of a container with a length of `width` bytes. -/
def isEmptyAt (width : Nat) (src : Bytes) (pos stop : Nat) : Read Bool :=
  if sub32 stop pos < width then .ok false else return (← readNum width src pos) == 0

/-- The checks of an offset, which has to lead to the next free position of the heap if that is
known, and not to an empty container. -/
def checkOffset (tr : Traits) (width : Nat) (src : Bytes) (endHeap offset : Nat) (w : Walk) :
    Read Unit := do
  let target := u32 (w.fixedPos + offset)
  require !(offset < 4 || target < w.heapPos || endHeap < target)
  require !(target != w.heapPos && w.known)
  if tr.supports0Offset then require !(← isEmptyAt width src target endHeap)

/-- `base_packable_impl::embedded_variable_unpack` -/
def embeddedVariable (tr : Traits) (width : Nat) (cleared : Val)
    (unpack : Mode → Bytes → Bool → Nat → Nat → Read (Val × Exit)) (m : Mode) (skip : Bool)
    (src : Bytes) (endFixed endHeap : Nat) : Member := fun w => do
  let offset ← unpackNumeric m skip 4 src w.fixedPos endFixed
  let fixedPos := u32 (w.fixedPos + 4)
  if tr.supports0Offset && offset == 0 then
    return (cleared, ⟨fixedPos, w.heapPos, true, w.unknown⟩)
  if m.verify then checkOffset tr width src endHeap offset w
  let (v, e) ← unpack m src w.unknown (u32 (w.fixedPos + offset)) endHeap
  return (v, ⟨fixedPos, e.pos, e.known, e.unknown⟩)

/-- A member of a fixed size, where it stands. -/
def embeddedFixed (unpack : Mode → Bytes → Bool → Nat → Nat → Read (Val × Exit)) (m : Mode)
    (src : Bytes) (endFixed : Nat) : Member := fun w => do
  let (v, e) ← unpack m src w.unknown w.fixedPos endFixed
  return (v, ⟨e.pos, w.heapPos, e.known, e.unknown⟩)

namespace Unpacker

/-- `base_packable_impl`, with the length and the empty value of a container. -/
def base (tr : Traits) (width : Nat) (cleared : Val)
    (unpack : Mode → Bytes → Bool → Nat → Nat → Read (Val × Exit)) : Unpacker where
  traits := tr
  unpack := unpack
  embeddedVariableUnpack := embeddedVariable tr width cleared unpack
  embeddedUnpack m skip src endFixed endHeap :=
    if tr.isVariableSize then embeddedVariable tr width cleared unpack m skip src endFixed endHeap
    else embeddedFixed unpack m src endFixed

/-- A type that is not a container. -/
def plain (tr : Traits) (unpack : Mode → Bytes → Bool → Nat → Nat → Read (Val × Exit)) : Unpacker :=
  base tr 0 (.list []) unpack

/-- A type of a fixed size whose bytes need no check. -/
def memcpy (tr : Traits) (ofRaw : Bytes → Val) : Unpacker :=
  plain tr fun m src unknown pos stop => do
    require !(m.verify && sub32 stop pos < tr.fixedSize)
    let bs ← readBytes src pos tr.fixedSize
    return (ofRaw bs, ⟨u32 (pos + tr.fixedSize), true, unknown⟩)

/-- `bool` -/
def bool : Unpacker :=
  plain (.fixed 1 false) fun m src unknown pos stop => do
    require !(m.verify && sub32 stop pos < 1)
    let byte ← readNum 1 src pos
    require !(m.verify && 1 < byte)
    return (.bool (if byte = 0 then 0 else 1), ⟨u32 (pos + 1), true, unknown⟩)

/-- `packable_container_memcpy_impl` and `packable_bounded_memcpy_impl`: a length of `width`
bytes, then elements of `size` bytes each. -/
def bytes (width size : Nat) (cleared : Val) (ofBytes : Bytes → Val) : Unpacker :=
  base .container width cleared fun m src unknown pos stop => do
    let length ← unpackNumeric m false width src pos stop
    let byteCount := u32 length
    let pos := u32 (pos + width)
    let newPos := u32 (pos + byteCount)
    require !(m.verify && (byteCount % size != 0 || newPos < pos || stop < newPos))
    let bs ← readBytes src pos byteCount
    return (ofBytes bs, ⟨newPos, true, unknown⟩)

/-- `std::vector<bool>` and, with a bound, `bitlist<MaxN>`: a number of bits, then the bits.
The number of bytes is computed in 32 bits, the bits are read without that bound. -/
def bits (width : Nat) (bound : Option Nat) : Unpacker :=
  base .container width (.bits []) fun m src unknown pos stop => do
    let length ← unpackNumeric m false width src pos stop
    let bitCount := u32 length
    let byteCount := u32 (bitCount + 7) / 8
    let pos := u32 (pos + width)
    let newPos := u32 (pos + byteCount)
    if m.verify then
      require (bound.all (bitCount ≤ ·))
      require !(newPos < pos || stop < newPos)
      if byteCount > 0 && bitCount % 8 != 0 then
        let last ← readNum 1 src (pos + byteCount - 1)
        require (last / 2 ^ (bitCount % 8) == 0)
    if m.unpack && src.length < pos + (bitCount + 7) / 8 then throw .outOfBounds
    let bs := window src pos (pos + (bitCount + 7) / 8)
    return (.bits (unpackBits bitCount bs), ⟨newPos, true, unknown⟩)

end Unpacker

/-! ### Members -/

/-- Walk over members one after another. -/
def unpackEach : List Member → Walk → Read (List Val × Walk)
  | [], w => return ([], w)
  | member :: rest, w => do
    let (v, w) ← member w
    let (vs, w) ← unpackEach rest w
    return (v :: vs, w)

namespace Unpacker

/-- `packable_container_impl` and `packable_bounded_container_impl`. -/
def container (width : Nat) (elem : Unpacker) : Unpacker :=
  base .container width (.list []) fun m src unknown pos stop => do
    let length ← unpackNumeric m false width src pos stop
    let numBytes := u32 length
    let pos := u32 (pos + width)
    let heapPos := u32 (pos + numBytes)
    if elem.traits.fixedSize = 0 then throw .divideByZero
    require !(m.verify &&
      (numBytes % elem.traits.fixedSize != 0 || heapPos < pos || stop < heapPos))
    let (vs, w) ← unpackEach
      (List.replicate (numBytes / elem.traits.fixedSize)
        (elem.embeddedUnpack m false src heapPos stop))
      ⟨pos, heapPos, true, unknown⟩
    return (.list vs, ⟨w.heapPos, w.known, w.unknown⟩)

/-- `std::array<T, N>` of a type that is not copied as it is. -/
def array (tr : Traits) (elem : Unpacker) (n : Nat) : Unpacker :=
  plain tr fun m src unknown pos stop => do
    let heapPos := u32 (pos + elem.traits.fixedSize * n)
    require !(m.verify && (heapPos < pos || stop < heapPos))
    let (vs, w) ← unpackEach
      (List.replicate n (elem.embeddedUnpack m false src heapPos stop))
      ⟨pos, heapPos, true, unknown⟩
    return (.list vs, ⟨w.heapPos, w.known, w.unknown⟩)

/-- `std::optional<T>::embedded_unpack`: 1 is no value, any other slot is that of the value. -/
def optionalMember (elem : Unpacker) (m : Mode) (skip : Bool) (src : Bytes)
    (endFixed endHeap : Nat) : Member := fun w => do
  let offset ← unpackNumeric m skip 4 src w.fixedPos endFixed
  if offset = 1 then return (.nullopt, { w with fixedPos := u32 (w.fixedPos + 4) })
  let (v, w) ← elem.embeddedVariableUnpack m skip src endFixed endHeap w
  return (.some v, w)

/-- `std::optional<T>` -/
def optional (elem : Unpacker) : Unpacker :=
  let unpack (m : Mode) (src : Bytes) (unknown : Bool) (pos stop : Nat) : Read (Val × Exit) := do
    require !(m.verify && sub32 stop pos < 4)
    let heapPos := u32 (pos + 4)
    let (v, w) ← optionalMember elem m false src heapPos stop ⟨pos, heapPos, true, unknown⟩
    return (v, ⟨w.heapPos, w.known, w.unknown⟩)
  { traits := .optional
    unpack := unpack
    embeddedVariableUnpack := embeddedVariable .optional 0 (.list []) unpack
    embeddedUnpack := optionalMember elem }

end Unpacker

/-- `verify_extensions`: slots of fields the type does not have. Each is empty or leads into
the heap, not before the previous one; where their objects end is not known. -/
def verifyExtensions (src : Bytes) (endHeap : Nat) :
    (slots fixedPos heapPos : Nat) → (known lastHasValue : Bool) → Read (Nat × Bool)
  | 0, _, heapPos, _, lastHasValue => return (heapPos, lastHasValue)
  | n + 1, fixedPos, heapPos, known, _ => do
    let offset ← readNum 4 src fixedPos
    if offset < 2 then
      verifyExtensions src endHeap n (u32 (fixedPos + 4)) heapPos known (offset != 1)
    else
      require !(offset < 4)
      require !(known && u32 (fixedPos + offset) != heapPos)
      require !(sub32 endHeap fixedPos < offset)
      require !(offset < sub32 heapPos fixedPos)
      verifyExtensions src endHeap n (u32 (fixedPos + 4)) (u32 (fixedPos + offset)) false true

/-- The end of a fixed region: slots beyond the known members are those of unknown fields. -/
def finishMembers (m : Mode) (src : Bytes) (endFixed endHeap : Nat) (w : Walk)
    (lastHasValue : Bool) : Read (Exit × Bool) := do
  if m.verify && w.fixedPos < endFixed then
    require ((endFixed - w.fixedPos) % 4 == 0)
    let (heapPos, lastHasValue) ← verifyExtensions src endHeap ((endFixed - w.fixedPos) / 4)
      w.fixedPos w.heapPos w.known lastHasValue
    return (⟨heapPos, false, true⟩, lastHasValue)
  return (⟨w.heapPos, w.known, w.unknown⟩, lastHasValue)

/-- `has_value<Verify>(src, pos, end_pos)` of an optional. -/
def hasValueAt (m : Mode) (src : Bytes) (pos stop : Nat) : Bool :=
  match unpackNumeric m false 4 src pos stop with
  | .ok offset => offset != 1
  | .error _ => false

/-- Walk over members of which the last may be missing. A missing optional holds no value.
Whether the last member has a value is read from the value itself if `byValue`. -/
def unpackTrimmed (m : Mode) (byValue : Bool) (src : Bytes) (endFixed endHeap : Nat) :
    List Unpacker → Walk → (lastHasValue : Bool) → Read (List Val × Walk × Bool)
  | [], w, last => return ([], w, last)
  | p :: rest, w, last => do
    if w.fixedPos < endFixed || !p.traits.isOptional then
      let (v, w') ← p.embeddedUnpack m false src endFixed endHeap w
      let last := !p.traits.isOptional ||
        (if byValue then v.hasValue else hasValueAt m src w.fixedPos endFixed)
      let (vs, w', last) ← unpackTrimmed m byValue src endFixed endHeap rest w' last
      return (v :: vs, w', last)
    else
      let (vs, w, last) ← unpackTrimmed m byValue src endFixed endHeap rest w last
      return (.nullopt :: vs, w, last)

/-- Walk over a member in a fixed region that was checked as a whole. -/
def Unpacker.checked (p : Unpacker) (m : Mode) (src : Bytes) (endFixed endHeap : Nat) :
    Member := fun w =>
  if p.traits.isVariableSize then p.embeddedUnpack m true src endFixed endHeap w
  else if p.traits.isMemcpy then do
    let (v, e) ← p.unpack { m with verify := false } src w.unknown w.fixedPos endFixed
    return (v, { w with fixedPos := e.pos })
  else embeddedFixed p.unpack m src endFixed w

/-- The size of a fixed region, from its header if there is one. -/
def unpackHeader (m : Mode) (header : Option Nat) (size : Nat) (src : Bytes) (pos stop : Nat) :
    Read (Nat × Nat) :=
  match header with
  | none => return (size, pos)
  | some width => do
    let n ← unpackNumeric m false width src pos stop
    require !(m.verify && 0xffffffff < n)
    return (u32 n, u32 (pos + width))

namespace Unpacker

/-- A tuple, or a struct whose last members may be trimmed. -/
def trimmed (width : Nat) (byValue : Mode → Bool) (members : List Unpacker) : Unpacker :=
  plain .offset fun m src unknown pos stop => do
    let (fixedSize, pos) ← unpackHeader m (some width) 0 src pos stop
    let heapPos := u32 (pos + fixedSize)
    require !(m.verify && (heapPos < pos || stop < heapPos))
    let (vs, w, last) ← unpackTrimmed m (byValue m) src heapPos stop members
      ⟨pos, heapPos, true, unknown⟩ true
    let (e, last) ← finishMembers m src heapPos stop w last
    require !(m.verify && !last)
    return (.list vs, e)

/-- A struct of a variable size whose members are all present. -/
def untrimmed (header : Option Nat) (size : Nat) (members : List Unpacker) : Unpacker :=
  plain .offset fun m src unknown pos stop => do
    let (fixedSize, pos) ← unpackHeader m header size src pos stop
    let heapPos := u32 (pos + fixedSize)
    require !(m.verify && (heapPos < pos || stop < heapPos))
    require !(m.verify && header.isSome && fixedSize < size)
    let (vs, w) ← unpackEach (members.map fun p => p.checked m src heapPos stop)
      ⟨pos, heapPos, true, unknown⟩
    let (e, _) ← finishMembers m src heapPos stop w true
    return (.list vs, e)

/-- A struct of a fixed size. -/
def fixedStruct (tr : Traits) (members : List Unpacker) : Unpacker :=
  plain tr fun m src unknown pos stop => do
    require !(m.verify && sub32 stop pos < tr.fixedSize)
    let (vs, w) ← unpackEach (members.map fun p => p.checked m src stop stop)
      ⟨pos, pos, true, unknown⟩
    return (.list vs, ⟨w.fixedPos, w.known, w.unknown⟩)

/-- `std::variant` -/
def variant (alternatives : List Unpacker) : Unpacker :=
  plain .offset fun m src unknown pos stop => do
    let tag ← unpackNumeric m false 1 src pos stop
    require !(m.verify && 0x80 ≤ tag)
    let pos := u32 (pos + 1)
    let size ← unpackNumeric m false 4 src pos stop
    let contentPos := u32 (pos + 4)
    let contentEnd := u32 (contentPos + size)
    require !(m.verify && (contentEnd < contentPos || stop < contentEnd))
    match alternatives[tag]? with
    | none => throw .invalid
    | some p =>
      let (v, e) ← p.unpack m src unknown contentPos contentEnd
      require !(m.verify && e.known && e.pos != contentEnd)
      return (.alt tag v, ⟨contentEnd, true, e.unknown⟩)

end Unpacker

mutual

/-- The unpacking half of `is_packable<T>`. -/
def Ty.unpacker : Ty → Unpacker
  | .num n => .memcpy (.fixed n true) (Ty.num n).ofRaw
  | .bool => .bool
  | .bitset n => .memcpy (.fixed ((n + 7) / 8) false) fun bs => .bits (unpackBits n bs)
  | .string => .bytes 4 1 (.string []) .string
  | .vector t =>
    if t.isBool then .bits 4 none
    else if t.traits.isMemcpy then
      .bytes 4 t.traits.fixedSize (.list []) fun bs =>
        .list (splitRaw t.ofRaw t.traits.fixedSize (bs.length / t.traits.fixedSize) bs)
    else .container 4 t.unpacker
  | .assoc t => .container 4 t.unpacker
  | .boundedString n => .bytes (boundedLength n) 1 (.string []) .string
  | .boundedList t n =>
    if t.traits.isMemcpy then
      .bytes (t.listLength n) t.traits.fixedSize (.list []) fun bs =>
        .list (splitRaw t.ofRaw t.traits.fixedSize (bs.length / t.traits.fixedSize) bs)
    else .container (t.listLength n) t.unpacker
  | .bitlist n => .bits (boundedLength n) (some n)
  | .array t n =>
    if t.traits.isMemcpy then .memcpy (Ty.array t n).traits (Ty.array t n).ofRaw
    else .array (Ty.array t n).traits t.unpacker n
  | .optional t => .optional t.unpacker
  | .tuple ts => .trimmed 2 (fun m => m.unpack) ts.unpackers
  | .variant ts => .variant ts.unpackers
  | .struct dwnc unpadded maxFixedSize ts =>
    let tr := (Ty.struct dwnc unpadded maxFixedSize ts).traits
    if tr.isMemcpy then .memcpy tr (Ty.struct dwnc unpadded maxFixedSize ts).ofRaw
    else if !tr.isVariableSize then .fixedStruct tr ts.unpackers
    else if dwnc then .untrimmed none ts.fixedSize ts.unpackers
    else if ts.hasTrailingOptionals then
      .trimmed (headerLength maxFixedSize) (fun _ => false) ts.unpackers
    else .untrimmed (some (headerLength maxFixedSize)) ts.fixedSize ts.unpackers

def Tys.unpackers : Tys → List Unpacker
  | .nil => []
  | .cons t ts => t.unpacker :: ts.unpackers

end

/-- `validation_t` -/
inductive Validation where
  | invalid
  | valid
  | extended
deriving DecidableEq, Repr

/-- Unpack a whole buffer, which has to end with the object if its end is known. -/
def unpackWhole (t : Ty) (m : Mode) (data : Bytes) : Read (Val × Exit) := do
  let (v, e) ← t.unpacker.unpack m data false 0 (u32 data.length)
  require !(e.known && e.pos != data.length)
  return (v, e)

/-- `validate_frac`; a fault is undefined behaviour of the validation itself. -/
def validateFrac (t : Ty) (data : Bytes) : Read Validation :=
  match unpackWhole t ⟨false, true⟩ data with
  | .ok (_, e) => return if e.unknown then .extended else .valid
  | .error .invalid => return .invalid
  | .error fault => throw fault

/-- `from_frac` -/
def fromFrac (t : Ty) (data : Bytes) : Read Val :=
  return (← unpackWhole t ⟨true, true⟩ data).1

/-- `from_frac` of prevalidated data -/
def fromFracPrevalidated (t : Ty) (data : Bytes) : Read Val :=
  return (← t.unpacker.unpack ⟨true, false⟩ data false 0 (u32 data.length)).1

end PsiServe.Frac
