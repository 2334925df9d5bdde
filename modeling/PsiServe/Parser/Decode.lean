import PsiServe.Base.Fallible
import PsiServe.Bitcode.Instr

/-!
# Decoding of function bodies

Immediates of the instructions of a function body, as
`psizam/detail/parser.hpp:1407–3193` reads them with
`psizam/detail/leb128.hpp` and `guarded_ptr.hpp`. An instruction
is decoded before it is checked; where the source reads immediates and checks in turn,
only the error reported first can differ. Instructions without control flow are decoded to
the opcode that is emitted for them.
-/

namespace PsiServe.Parser

open Base Wasm Bitcode

/-- Exception types of the parser. -/
inductive ErrorType where
  | wasmParse | wasmInterpreter | guardedPtr | vectorOob | outOfRange | badVariantAccess
deriving DecidableEq

/-- An exception raised while parsing. -/
structure ParseError where
  type : ErrorType
  text : String
deriving DecidableEq

/-- `PSIZAM_ASSERT` with a parse exception. -/
def require (p : Prop) [Decidable p] (text : String) : Except ParseError Unit :=
  if p then .ok () else .error ⟨.wasmParse, text⟩

/-- A check that passed. -/
theorem require_ok {p : Prop} [Decidable p] {text : String} {u : Unit} :
    require p text = .ok u ↔ p := by
  unfold require
  split
  next h => simp [h]
  next h => simp [h]

/-- Parser options; `parser.hpp:64–222`. The optional limits are absent from option types
without that member. -/
structure Options where
  enableSimd : Bool := true
  enableBulkMemory : Bool := true
  enableSignExt : Bool := true
  enableNontrappingFptoint : Bool := true
  enableExceptionHandling : Bool := true
  maxNestedStructures : UInt32 := 0xFFFFFFFF
  maxBrTableElements : UInt32 := 0xFFFFFFFF
  maxMemoryOffset : UInt32 := 0xFFFFFFFF
  maxLocalSets : UInt32 := 0xFFFFFFFF
  psizamMaxNestedStructures : Option Nat := none
  maxFuncLocalBytes : Option UInt64 := none
  countParams : Bool := false
  countLocals : Bool := true
  countStack : Bool := true
  hasMaxStackBytes : Bool := false

/-- Readers of a function body. -/
abbrev Read := Reader ParseError UInt8

/-- A check between reads. -/
def check (p : Prop) [Decidable p] (text : String) : Read Unit := StateT.lift (require p text)

/-- Fail with a parse exception. -/
def fail {α : Type} (text : String) : Read α := fun _ => .error ⟨.wasmParse, text⟩

/-- `*code++`; `guarded_ptr.hpp:24–49`. -/
def nextByte : Read UInt8
  | [] => .error ⟨.guardedPtr, "overbounding pointer"⟩
  | b :: rest => .ok (b, rest)

/-- `*code`. -/
def peekByte : Read UInt8
  | [] => .error ⟨.guardedPtr, "accessing out of bounds"⟩
  | b :: rest => .ok (b, b :: rest)

/-- A fixed number of bytes with the text of the bounds error. -/
def takeBytes (n : Nat) (text : String) : Read (List UInt8) := fun input =>
  if n ≤ input.length then .ok (input.take n, input.drop n) else .error ⟨.guardedPtr, text⟩

/-- Bytes left to the end of the body. -/
def remaining : Read Nat := fun input => .ok (input.length, input)

/-! ### LEB128; `leb128.hpp:11–247` -/

/-- Bytes of the longest encoding of `bits` bits. -/
def bytesNeeded (bits : Nat) : Nat := if bits = 32 then 5 else 10

/-- The bytes of one encoding, at most `fuel` of them. -/
def lebBytes : (fuel : Nat) → Read (List UInt8)
  | 0, _ => .error ⟨.wasmInterpreter, "incorrect leb128 encoding"⟩
  | _ + 1, [] => .error ⟨.wasmInterpreter, "pointer out of bounds"⟩
  | fuel + 1, b :: rest =>
    if b &&& 0x80 = 0 then .ok ([b], rest)
    else
      match lebBytes fuel rest with
      | .error e => .error e
      | .ok (bs, rest) => .ok (b :: bs, rest)

/-- The low seven bits of each byte, least significant first. -/
def lebValue : List UInt8 → Nat
  | [] => 0
  | b :: bs => b.toNat % 128 + 128 * lebValue bs

/-- Bits of the last byte of a longest encoding that exceed the width. -/
def lebMask (bits : Nat) : UInt8 := if bits = 32 then 0x70 else 0x7E

/-- Sign bit of the last byte of a longest encoding. -/
def lebSign (bits : Nat) : UInt8 := if bits = 32 then 0x08 else 0x01

/-- Unsigned integer; `leb128.hpp:69–124`. -/
def varuint (bits : Nat) : Read Nat := do
  let bs ← lebBytes (bytesNeeded bits)
  check (bs.length = bytesNeeded bits → bs.getLastD 0 &&& lebMask bits = 0)
    "unused bits of unsigned leb128 must be 0"
  return lebValue bs

/-- Signed integer as its two's complement bits; `leb128.hpp:153–241`. -/
def varint (bits : Nat) : Read Nat := do
  let bs ← lebBytes (bytesNeeded bits)
  let last := bs.getLastD 0
  check (bs.length = bytesNeeded bits →
      last &&& lebMask bits = if last &&& lebSign bits = 0 then 0 else lebMask bits)
    "unused bits of signed leb128 must be the same as the sign bit"
  return if bs.length < bytesNeeded bits ∧ last &&& 0x40 ≠ 0 then
      lebValue bs + (2 ^ bits - 2 ^ (7 * bs.length))
    else lebValue bs % 2 ^ bits

def varuint32 : Read Nat := varuint 32

/-- Little-endian value of a byte string. -/
def littleEndian : List UInt8 → Nat
  | [] => 0
  | b :: bs => b.toNat + 256 * littleEndian bs

/-- `parse_raw` and `parse_v128`; `parser.hpp:360–378`. -/
def rawBytes (n : Nat) : Read Nat := do
  let bs ← takeBytes n "guarded ptr out of bounds"
  return littleEndian bs

/-- Continuation bytes of a longer encoding that is skipped; `parser.hpp:1454`. -/
def skipContinuation : Read Unit
  | [] => .error ⟨.guardedPtr, "overbounding pointer"⟩
  | b :: rest => if b &&& 0x80 = 0 then .ok ((), rest) else skipContinuation rest

/-! ### Instructions -/

/-- Types of a block: the single result kept for compatibility, parameters and results of
a block type given by index; `parser.hpp:1432–1465`. -/
structure BlockType where
  single : ValueType
  params : List ValueType
  results : List ValueType
deriving DecidableEq

/-- A catch clause of a `try_table`; `types.hpp:308–321`. -/
structure CatchClause where
  kind : UInt8
  tagIndex : Nat
  label : Nat
deriving DecidableEq

/-- A decoded instruction. `plain` covers those that exchange operands of fixed types and
whose immediates are emitted as they are; it holds the opcode emitted for them. -/
inductive Op where
  | unreachable
  | nop
  | end_
  | return_
  | block (type : BlockType)
  | loop (type : BlockType)
  | if_ (type : BlockType)
  | else_
  | try_ (type : BlockType)
  | catch_ (tag : Nat)
  | catchAll
  | throw_ (tag : Nat)
  | rethrow (label : Nat)
  | throwRef
  | delegate (label : Nat)
  | br (label : Nat)
  | brIf (label : Nat)
  | brTable (labels : List Nat) (default : Nat)
  | call (func : Nat)
  | callIndirect (type table : Nat)
  | returnCall (func : Nat)
  | returnCallIndirect (type table : Nat)
  | tryTable (type : BlockType) (clauses : List CatchClause)
  | drop
  | select
  | typedSelect (count : Nat) (type : ValueType)
  | tableInit (elem table : Nat)
  | tableCopy (dst src : Nat)
  | refIsNull
  | plain (i : Instr)
deriving DecidableEq

/-- Types that a single byte names as a block type of `block`, `loop` and `if`. -/
def isInlineType (t : ValueType) : Bool :=
  t = types.pseudo || t = types.i32 || t = types.i64 || t = types.f32 || t = types.f64 ||
    t = types.v128 || t = types.funcref || t = types.externref || t = types.exnref

/-- A block type that is an index into the type section; `parser.hpp:1457–1465`. -/
def indexedBlockType (m : Module) : Read BlockType := do
  let index ← varint 32
  match (if index < 2 ^ 31 then m.types[index]? else none) with
  | none => fail "invalid block type index"
  | some ft => return ⟨if ft.returnCount ≠ 0 then ft.returnType else types.pseudo,
      ft.paramTypes, ft.returnTypes⟩

/-- Block type of `block`, `loop` and `if`; `parser.hpp:1432–1465`, `1496–1524`,
`1555–1581`. -/
def blockType (o : Options) (m : Module) (text : String) : Read BlockType := do
  let first ← peekByte
  if isInlineType first then
    let _ ← nextByte
    check (first = types.v128 → o.enableSimd) text
    return ⟨first, [], []⟩
  else if first = 0x63 ∨ first = 0x64 then
    let _ ← nextByte
    let heap ← nextByte
    if heap < 0x80 then
      return ⟨if heap = types.externref then types.externref else types.funcref, [], []⟩
    else
      skipContinuation
      return ⟨types.funcref, [], []⟩
  else indexedBlockType m

/-- Block type of `try` (`refs = false`) and `try_table`; `parser.hpp:1637–1652`,
`1941–1962`. -/
def tryBlockType (m : Module) (refs : Bool) : Read BlockType := do
  let first ← peekByte
  if first = types.pseudo ∨ first = types.i32 ∨ first = types.i64 ∨ first = types.f32 ∨
      first = types.f64 ∨ first = types.v128 ∨
      refs ∧ (first = types.exnref ∨ first = types.funcref ∨ first = types.externref) then
    let _ ← nextByte
    return ⟨first, [], []⟩
  else indexedBlockType m

/-- One catch clause; `parser.hpp:1969–1978`. -/
def catchClause : Read CatchClause := do
  let kind ← nextByte
  check (kind ≤ 3) "invalid catch kind"
  if kind ≤ 1 then
    let tag ← varuint32
    let label ← varuint32
    return ⟨kind, tag, label⟩
  else
    let label ← varuint32
    return ⟨kind, 0, label⟩

/-- A reader repeated. -/
def times {α : Type} (r : Read α) : Nat → Read (List α)
  | 0 => return []
  | n + 1 => do
    let a ← r
    let as ← times r n
    return a :: as

/-- Immediates of a `try_table`; `parser.hpp:1941–1978`. -/
def tryTable (m : Module) : Read Op := do
  let bt ← tryBlockType m true
  let n ← varuint32
  let left ← remaining
  check (n ≤ left / 2) "catch count exceeds function body"
  let clauses ← times catchClause n
  return .tryTable bt clauses

/-- Labels of a `br_table`; `parser.hpp:1778–1792`. -/
def brTable (o : Options) : Read Op := do
  let n ← varuint32
  check (n ≤ o.maxBrTableElements.toNat) "Too many labels in br_table"
  let labels ← times varuint32 n
  let default ← varuint32
  return .brTable labels default

/-- Static offset of a memory access; `parser.hpp:708–716`. -/
def memargOffset (m : Module) : Read Nat := do
  if m.isMemory64 then
    let offset ← varuint 64
    check (offset ≤ 0xFFFFFFFF) "memory64 offset exceeds implementation limit"
    return offset
  else varuint32

/-- Alignment and offset of a memory access. -/
def memarg (m : Module) : Read (Nat × Nat) := do
  let align ← varuint32
  let offset ← memargOffset m
  return (align, offset)

/-- A byte that has to be zero. -/
def zeroByte (text : String) : Read Unit := do
  let b ← peekByte
  check (b = 0) text
  let _ ← nextByte
  return ()

/-- Reference type of `ref.null`; `parser.hpp:2144–2160`. -/
def refNull : Read Instr := do
  let first ← nextByte
  if first = types.externref then return .refNull types.externref
  else if first < 0x80 then return .refNull types.funcref
  else
    skipContinuation
    return .refNull types.funcref

/-- Opcode emitted for a relaxed SIMD instruction; `parser.hpp:2850–2986`. -/
def relaxedOpcode (sub : Nat) : Option Nat :=
  match sub with
  | 0x100 => some 14
  | 0x101 => some 248
  | 0x102 => some 249
  | 0x103 => some 252
  | 0x104 => some 253
  | 0x105 => some 256
  | 0x106 => some 257
  | 0x107 => some 258
  | 0x108 => some 259
  | 0x109 | 0x10A | 0x10B | 0x10C => some 82
  | 0x10D => some 234
  | 0x10E => some 235
  | 0x10F => some 246
  | 0x110 => some 247
  | 0x111 => some 130
  | 0x112 => some 260
  | 0x113 => some 261
  | _ => none

/-- Instructions after the vector prefix; `parser.hpp:2458–2989`. -/
def vector (o : Options) (m : Module) : Read Instr := do
  check (o.enableSimd = true) "SIMD not enabled"
  let sub ← varuint32
  if sub ≤ 11 ∨ sub = 92 ∨ sub = 93 then
    let (align, offset) ← memarg m
    return .vecMemory sub align (UInt32.ofNat offset)
  else if sub = 12 then
    let v ← rawBytes 16
    return .const (.v128 (BitVec.ofNat 128 v))
  else if sub = 13 then
    let lanes ← takeBytes 16 "overbounding pointer"
    return .vecShuffle lanes
  else if 21 ≤ sub ∧ sub ≤ 34 then
    let lane ← nextByte
    return .vecLane sub lane
  else if 84 ≤ sub ∧ sub ≤ 91 then
    let (align, offset) ← memarg m
    let lane ← nextByte
    return .vecLaneMemory sub align (UInt32.ofNat offset) lane
  else if sub < 256 then return .vecNumeric sub
  else
    match relaxedOpcode sub with
    | none => fail "Illegal instruction"
    | some code => return .vecNumeric code

/-- Instructions after the extension prefix; `parser.hpp:2990–3103`. -/
def extended : Read Op := do
  let sub ← varuint32
  if sub ≤ 7 then return .plain (.truncSat sub)
  else if sub = 8 then
    let index ← varuint32
    zeroByte "memory.init must end with 0x00"
    return .plain (.memoryInit index)
  else if sub = 9 then
    let index ← varuint32
    return .plain (.dataDrop index)
  else if sub = 10 then
    zeroByte "memory.copy must end with 0x00 0x00"
    zeroByte "memory.copy must end with 0x00 0x00"
    return .plain .memoryCopy
  else if sub = 11 then
    zeroByte "memory.fill must end with 0x00"
    return .plain .memoryFill
  else if sub = 12 then
    let elem ← varuint32
    let table ← varuint32
    return .tableInit elem table
  else if sub = 13 then
    let index ← varuint32
    return .plain (.elemDrop index)
  else if sub = 14 then
    let dst ← varuint32
    let src ← varuint32
    return .tableCopy dst src
  else if sub = 15 then
    let table ← varuint32
    return .plain (.tableGrow table)
  else if sub = 16 then
    let table ← varuint32
    return .plain (.tableSize table)
  else if sub = 17 then
    let table ← varuint32
    return .plain (.tableFill table)
  else fail "Illegal instruction"

/-- Instructions after the atomic prefix; `parser.hpp:3108–3198`. -/
def atomic (m : Module) : Read Instr := do
  let sub ← varuint32
  -- `static_cast<atomic_sub>(sub)`, an enumeration of bytes
  let asub := sub % 2 ^ 8
  if asub = 0x03 then
    zeroByte "atomic.fence must have 0x00 byte"
    return .atomic asub 0 0
  else if asub ≤ 0x02 ∨ 0x10 ≤ sub ∧ sub ≤ 0x4E then
    let (align, offset) ← memarg m
    return .atomic asub align (UInt32.ofNat offset)
  else fail "Illegal atomic instruction"

/-- Instructions outside control flow, by their first byte. -/
def plainInstr (o : Options) (m : Module) (byte : UInt8) : Read Instr := do
  if byte = 0x20 then
    let i ← varuint32
    return .getLocal i
  else if byte = 0x21 then
    let i ← varuint32
    return .setLocal i
  else if byte = 0x22 then
    let i ← varuint32
    return .teeLocal i
  else if byte = 0x23 then
    let i ← varuint32
    return .getGlobal i
  else if byte = 0x24 then
    let i ← varuint32
    return .setGlobal i
  else if byte = 0x25 then
    let i ← varuint32
    return .tableGet i
  else if byte = 0x26 then
    let i ← varuint32
    return .tableSet i
  else if 0x28 ≤ byte ∧ byte ≤ 0x35 then
    let (align, offset) ← memarg m
    return .load byte align (UInt32.ofNat offset)
  else if 0x36 ≤ byte ∧ byte ≤ 0x3E then
    let (align, offset) ← memarg m
    return .store byte align (UInt32.ofNat offset)
  else if byte = 0x3F then
    zeroByte "memory.size must end with 0x00"
    return .currentMemory
  else if byte = 0x40 then
    zeroByte "memory.grow must end with 0x00"
    return .growMemory
  else if byte = 0x41 then
    let v ← varint 32
    return .const (.i32 (UInt32.ofNat v))
  else if byte = 0x42 then
    let v ← varint 64
    return .const (.i64 (UInt64.ofNat v))
  else if byte = 0x43 then
    let v ← rawBytes 4
    return .const (.f32 (UInt32.ofNat v))
  else if byte = 0x44 then
    let v ← rawBytes 8
    return .const (.f64 (UInt64.ofNat v))
  else if 0x45 ≤ byte ∧ byte ≤ 0xC4 then return .numeric byte
  else if byte = 0xD0 then refNull
  else if byte = 0xD2 then
    let i ← varuint32
    return .refFunc i
  else if byte = 0xFD then vector o m
  else if byte = 0xFE then atomic m
  else fail "Illegal instruction"

/-- The instruction that starts with a byte. -/
def instruction (o : Options) (m : Module) (byte : UInt8) : Read Op := do
  if byte = 0x00 then return .unreachable
  else if byte = 0x01 then return .nop
  else if byte = 0x02 then
    let bt ← blockType o m "Invalid type code in block"
    return .block bt
  else if byte = 0x03 then
    let bt ← blockType o m "Invalid type code in loop"
    return .loop bt
  else if byte = 0x04 then
    let bt ← blockType o m "Invalid type code in if"
    return .if_ bt
  else if byte = 0x05 then return .else_
  else if byte = 0x06 then
    let bt ← tryBlockType m false
    return .try_ bt
  else if byte = 0x07 then
    let tag ← varuint32
    return .catch_ tag
  else if byte = 0x08 then
    let tag ← varuint32
    return .throw_ tag
  else if byte = 0x09 then
    let label ← varuint32
    return .rethrow label
  else if byte = 0x0A then return .throwRef
  else if byte = 0x0B then return .end_
  else if byte = 0x0C then
    let label ← varuint32
    return .br label
  else if byte = 0x0D then
    let label ← varuint32
    return .brIf label
  else if byte = 0x0E then brTable o
  else if byte = 0x0F then return .return_
  else if byte = 0x10 then
    let func ← varuint32
    return .call func
  else if byte = 0x11 then
    let type ← varuint32
    let table ← varuint32
    return .callIndirect type table
  else if byte = 0x12 then
    let func ← varuint32
    return .returnCall func
  else if byte = 0x13 then
    let type ← varuint32
    let table ← varuint32
    return .returnCallIndirect type table
  else if byte = 0x18 then return .catchAll
  else if byte = 0x19 then
    let label ← varuint32
    return .delegate label
  else if byte = 0x1A then return .drop
  else if byte = 0x1B then return .select
  else if byte = 0x1C then
    let count ← varuint32
    let type ← nextByte
    return .typedSelect count type
  else if byte = 0x1F then tryTable m
  else if byte = 0xD1 then return .refIsNull
  else if byte = 0xFC then extended
  else
    let i ← plainInstr o m byte
    return .plain i

/-- An instruction and its first byte. -/
def decodeOp (o : Options) (m : Module) : Read (UInt8 × Op) := do
  let byte ← nextByte
  let op ← instruction o m byte
  return (byte, op)

end PsiServe.Parser
