import PsiServe.Bitcode.Instr

/-!
# Operands of the interpreter's plain instructions

What each `operator()` of `psizam/detail/interpret_visitor.hpp`
reads from the operand stack, by the accessor it calls (`to_ui32`, `to_i64`, `to_f32` and
so on), and the alternative it pushes. Lists give the top of the stack first. Control
flow, calls, locals and exceptions are in `PsiServe.Interp.Visit`.
-/

namespace PsiServe.Interp

open Wasm Bitcode

/-- Alternatives an instruction reads, top first, and those it pushes. -/
structure Operands where
  takes : List Kind
  gives : List Kind
deriving DecidableEq

/-- Alternative of addresses of memory 0; `interpret_visitor.hpp:170–180`. -/
def addrKind (m : Module) : Kind := if m.isMemory64 then .i64 else .i32

/-- Width in bytes and result of a scalar load; `interpret_visitor.hpp:213–284`. -/
def loadAccess (op : UInt8) : UInt32 × Kind :=
  if op = 0x28 then (4, .i32)
  else if op = 0x29 then (8, .i64)
  else if op = 0x2A then (4, .f32)
  else if op = 0x2B then (8, .f64)
  else if op = 0x2C ∨ op = 0x2D then (1, .i32)
  else if op = 0x2E ∨ op = 0x2F then (2, .i32)
  else if op = 0x30 ∨ op = 0x31 then (1, .i64)
  else if op = 0x32 ∨ op = 0x33 then (2, .i64)
  else (4, .i64)

/-- Width in bytes and operand of a scalar store; `interpret_visitor.hpp:285–336`. -/
def storeAccess (op : UInt8) : UInt32 × Kind :=
  if op = 0x36 then (4, .i32)
  else if op = 0x37 then (8, .i64)
  else if op = 0x38 then (4, .f32)
  else if op = 0x39 then (8, .f64)
  else if op = 0x3A then (1, .i32)
  else if op = 0x3B then (2, .i32)
  else if op = 0x3C then (1, .i64)
  else if op = 0x3D then (2, .i64)
  else (4, .i64)

/-- Comparison, numeric, conversion and sign-extension opcodes;
`interpret_visitor.hpp:376–1389`. -/
def numericOperands (op : UInt8) : Operands :=
  -- i32_eqz, i32_clz, i32_ctz, i32_popcnt, i32_extend8_s, i32_extend16_s
  if op = 0x45 ∨ 0x67 ≤ op ∧ op ≤ 0x69 ∨ op = 0xC0 ∨ op = 0xC1 then ⟨[.i32], [.i32]⟩
  -- i32 comparisons and binary arithmetic
  else if 0x46 ≤ op ∧ op ≤ 0x4F ∨ 0x6A ≤ op ∧ op ≤ 0x78 then ⟨[.i32, .i32], [.i32]⟩
  -- i64_eqz, i32_wrap_i64
  else if op = 0x50 ∨ op = 0xA7 then ⟨[.i64], [.i32]⟩
  -- comparisons of i64, f32 and f64
  else if 0x51 ≤ op ∧ op ≤ 0x5A then ⟨[.i64, .i64], [.i32]⟩
  else if 0x5B ≤ op ∧ op ≤ 0x60 then ⟨[.f32, .f32], [.i32]⟩
  else if 0x61 ≤ op ∧ op ≤ 0x66 then ⟨[.f64, .f64], [.i32]⟩
  -- i64_clz, i64_ctz, i64_popcnt, i64_extend8_s, i64_extend16_s, i64_extend32_s
  else if 0x79 ≤ op ∧ op ≤ 0x7B ∨ 0xC2 ≤ op ∧ op ≤ 0xC4 then ⟨[.i64], [.i64]⟩
  else if 0x7C ≤ op ∧ op ≤ 0x8A then ⟨[.i64, .i64], [.i64]⟩
  -- f32 and f64 arithmetic
  else if 0x8B ≤ op ∧ op ≤ 0x91 then ⟨[.f32], [.f32]⟩
  else if 0x92 ≤ op ∧ op ≤ 0x98 then ⟨[.f32, .f32], [.f32]⟩
  else if 0x99 ≤ op ∧ op ≤ 0x9F then ⟨[.f64], [.f64]⟩
  else if 0xA0 ≤ op ∧ op ≤ 0xA6 then ⟨[.f64, .f64], [.f64]⟩
  -- truncations to i32, i32_reinterpret_f32
  else if op = 0xA8 ∨ op = 0xA9 ∨ op = 0xBC then ⟨[.f32], [.i32]⟩
  else if op = 0xAA ∨ op = 0xAB then ⟨[.f64], [.i32]⟩
  -- extensions and truncations to i64, i64_reinterpret_f64
  else if op = 0xAC ∨ op = 0xAD then ⟨[.i32], [.i64]⟩
  else if op = 0xAE ∨ op = 0xAF then ⟨[.f32], [.i64]⟩
  else if op = 0xB0 ∨ op = 0xB1 ∨ op = 0xBD then ⟨[.f64], [.i64]⟩
  -- conversions to f32, f32_demote_f64, f32_reinterpret_i32
  else if op = 0xB2 ∨ op = 0xB3 ∨ op = 0xBE then ⟨[.i32], [.f32]⟩
  else if op = 0xB4 ∨ op = 0xB5 then ⟨[.i64], [.f32]⟩
  else if op = 0xB6 then ⟨[.f64], [.f32]⟩
  -- conversions to f64, f64_promote_f32, f64_reinterpret_i64
  else if op = 0xB7 ∨ op = 0xB8 then ⟨[.i32], [.f64]⟩
  else if op = 0xB9 ∨ op = 0xBA ∨ op = 0xBF then ⟨[.i64], [.f64]⟩
  else ⟨[.f32], [.f64]⟩

/-- Saturating truncations; `interpret_visitor.hpp:1307–1360`. -/
def truncSatOperands (sub : Nat) : Operands :=
  if sub = 0 ∨ sub = 1 then ⟨[.f32], [.i32]⟩
  else if sub = 2 ∨ sub = 3 then ⟨[.f64], [.i32]⟩
  else if sub = 4 ∨ sub = 5 then ⟨[.f32], [.i64]⟩
  else ⟨[.f64], [.i64]⟩

/-- Width of a vector load or store; `interpret_visitor.hpp:1390–1477`. -/
def vecMemoryWidth (sub : Nat) : UInt32 :=
  if sub = 0 ∨ sub = 11 then 16
  else if sub = 7 then 1
  else if sub = 8 then 2
  else if sub = 9 ∨ sub = 92 then 4
  else 8

/-- Width of a vector lane load or store; `interpret_visitor.hpp:1478–1526`. -/
def vecLaneWidth (sub : Nat) : UInt32 :=
  if sub = 84 ∨ sub = 88 then 1
  else if sub = 85 ∨ sub = 89 then 2
  else if sub = 86 ∨ sub = 90 then 4
  else 8

/-- Lane extraction and replacement; `interpret_visitor.hpp:1544–1604`. -/
def vecLaneOperands (sub : Nat) : Operands :=
  if sub = 21 ∨ sub = 22 ∨ sub = 24 ∨ sub = 25 ∨ sub = 27 then ⟨[.v128], [.i32]⟩
  else if sub = 23 ∨ sub = 26 ∨ sub = 28 then ⟨[.i32, .v128], [.v128]⟩
  else if sub = 29 then ⟨[.v128], [.i64]⟩
  else if sub = 30 then ⟨[.i64, .v128], [.v128]⟩
  else if sub = 31 then ⟨[.v128], [.f32]⟩
  else if sub = 32 then ⟨[.f32, .v128], [.v128]⟩
  else if sub = 33 then ⟨[.v128], [.f64]⟩
  else ⟨[.f64, .v128], [.v128]⟩

/-- Codes handled by `v128_unop`, `v128_extend` and `v128_extadd_pairwise`. -/
def isVecUnop (sub : Nat) : Bool :=
  sub = 77 || (94 ≤ sub && sub ≤ 98) || (103 ≤ sub && sub ≤ 106) || sub = 116 || sub = 117 ||
    sub = 122 || (124 ≤ sub && sub ≤ 129) || (135 ≤ sub && sub ≤ 138) || sub = 148 ||
    sub = 160 || sub = 161 || (167 ≤ sub && sub ≤ 170) || sub = 192 || sub = 193 ||
    (199 ≤ sub && sub ≤ 202) || sub = 224 || sub = 225 || sub = 227 || sub = 236 ||
    sub = 237 || sub = 239 || (248 ≤ sub && sub ≤ 255)

/-- Shifts: the count is popped before `v128_unop` pops the vector. -/
def isVecShift (sub : Nat) : Bool :=
  (107 ≤ sub && sub ≤ 109) || (139 ≤ sub && sub ≤ 141) || (171 ≤ sub && sub ≤ 173) ||
    (203 ≤ sub && sub ≤ 205)

/-- Codes handled by `v128_unop_i32`. -/
def isVecTest (sub : Nat) : Bool :=
  sub = 83 || sub = 99 || sub = 100 || sub = 131 || sub = 132 || sub = 163 || sub = 164 ||
    sub = 195 || sub = 196

/-- Codes handled by `v128_ternop`, and the accumulating dot product. -/
def isVecTernop (sub : Nat) : Bool :=
  sub = 82 || (256 ≤ sub && sub ≤ 259) || sub = 261

/-- Vector arithmetic; `interpret_visitor.hpp:1605–2647`. -/
def vecNumericOperands (sub : Nat) : Operands :=
  if sub = 15 ∨ sub = 16 ∨ sub = 17 then ⟨[.i32], [.v128]⟩
  else if sub = 18 then ⟨[.i64], [.v128]⟩
  else if sub = 19 then ⟨[.f32], [.v128]⟩
  else if sub = 20 then ⟨[.f64], [.v128]⟩
  else if isVecUnop sub then ⟨[.v128], [.v128]⟩
  else if isVecShift sub then ⟨[.i32, .v128], [.v128]⟩
  else if isVecTest sub then ⟨[.v128], [.i32]⟩
  else if isVecTernop sub then ⟨[.v128, .v128, .v128], [.v128]⟩
  else ⟨[.v128, .v128], [.v128]⟩

/-- Whether an atomic sub-opcode works on 64-bit values, by its name in
`enum class atomic_sub`; `opcodes.hpp:116–214`. -/
def atomicIs64 (sub : Nat) : Bool :=
  sub = 0x11 || (0x14 ≤ sub && sub ≤ 0x16) || sub = 0x18 || (0x1B ≤ sub && sub ≤ 0x1D) ||
    (0x1E ≤ sub && sub < 0x48 && ((sub - 0x1E) % 7 = 1 || 4 ≤ (sub - 0x1E) % 7)) ||
    sub = 0x49 || 0x4C ≤ sub

/-- Alternative of the values of an atomic sub-opcode. -/
def atomicKind (sub : Nat) : Kind := if atomicIs64 sub then .i64 else .i32

/-- Atomic instructions; `interpret_visitor.hpp:2648–2988`. Notify and wait pop their
operands without looking at them, so the kinds listed are those of the instruction. -/
def atomicOperands (m : Module) (sub : Nat) : Operands :=
  if sub = 0x03 then ⟨[], []⟩
  else if sub = 0x00 then ⟨[.i32, addrKind m], [.i32]⟩
  else if sub = 0x01 then ⟨[.i64, .i32, addrKind m], [.i32]⟩
  else if sub = 0x02 then ⟨[.i64, .i64, addrKind m], [.i32]⟩
  else if 0x10 ≤ sub ∧ sub ≤ 0x16 then ⟨[addrKind m], [atomicKind sub]⟩
  else if 0x17 ≤ sub ∧ sub ≤ 0x1D then ⟨[atomicKind sub, addrKind m], []⟩
  else if sub < 0x48 then ⟨[atomicKind sub, addrKind m], [atomicKind sub]⟩
  else ⟨[atomicKind sub, atomicKind sub, addrKind m], [atomicKind sub]⟩

/-- Width in bytes of an atomic access. -/
def atomicWidth (sub : Nat) : UInt32 :=
  if sub = 0x10 ∨ sub = 0x16 ∨ sub = 0x17 ∨ sub = 0x1D ∨ sub = 0x48 ∨ sub = 0x4E then 4
  else if sub = 0x11 ∨ sub = 0x18 ∨ sub = 0x49 then 8
  else if sub = 0x12 ∨ sub = 0x14 ∨ sub = 0x19 ∨ sub = 0x1B ∨ sub = 0x4A ∨ sub = 0x4C then 1
  else if sub < 0x1E ∨ 0x48 ≤ sub then 2
  else if (sub - 0x1E) % 7 = 0 ∨ (sub - 0x1E) % 7 = 6 then 4
  else if (sub - 0x1E) % 7 = 1 then 8
  else if (sub - 0x1E) % 7 = 2 ∨ (sub - 0x1E) % 7 = 4 then 1
  else 2

/-- Which bounds check a memory access makes. -/
inductive AccessType where
  | read | write
deriving DecidableEq

/-- The access of an instruction to linear memory: the check, static offset and width.
Read-modify-write atomics use the check of stores. -/
def memoryAccess : Instr → Option (AccessType × UInt32 × UInt32)
  | .load op _ offset => some (.read, offset, (loadAccess op).1)
  | .store op _ offset => some (.write, offset, (storeAccess op).1)
  | .vecMemory sub _ offset =>
    some (if sub = 11 then .write else .read, offset, vecMemoryWidth sub)
  | .vecLaneMemory sub _ offset _ =>
    some (if 88 ≤ sub then .write else .read, offset, vecLaneWidth sub)
  | .atomic sub _ offset =>
    if sub ≤ 0x03 then none
    else some (if sub ≤ 0x16 then .read else .write, offset, atomicWidth sub)
  | _ => none

/-- Operands of the instructions that only compute on the stack, memory, globals and
tables; `none` for those with their own rule. -/
def plainOperands (m : Module) : Instr → Option Operands
  | .load op _ _ => some ⟨[addrKind m], [(loadAccess op).2]⟩
  | .store op _ _ => some ⟨[(storeAccess op).2, addrKind m], []⟩
  | .currentMemory => some ⟨[], [addrKind m]⟩
  | .growMemory => some ⟨[addrKind m], [addrKind m]⟩
  | .const v => some ⟨[], [v.kind]⟩
  | .numeric op => some (numericOperands op)
  | .truncSat sub => some (truncSatOperands sub)
  | .tableGet _ => some ⟨[.i32], [.i32]⟩
  | .tableSet _ => some ⟨[.i32, .i32], []⟩
  | .refNull _ => some ⟨[], [.i32]⟩
  | .refIsNull => some ⟨[.i32], [.i32]⟩
  | .refFunc _ => some ⟨[], [.i32]⟩
  | .getGlobal i =>
    match m.globals[i]? with
    | none => some ⟨[], []⟩
    | some g => some ⟨[], [kindOf g.contentType]⟩
  | .setGlobal i =>
    match m.globals[i]? with
    | none => some ⟨[], []⟩
    | some g => some ⟨[kindOf g.contentType], []⟩
  | .memoryInit _ => some ⟨[.i32, .i32, .i32], []⟩
  | .dataDrop _ => some ⟨[], []⟩
  | .tableInit _ => some ⟨[.i32, .i32, .i32], []⟩
  | .elemDrop _ => some ⟨[], []⟩
  | .tableGrow _ => some ⟨[.i32, .i32], [.i32]⟩
  | .tableSize _ => some ⟨[], [.i32]⟩
  | .tableFill _ => some ⟨[.i32, .i32, .i32], []⟩
  | .vecMemory sub _ _ =>
    some (if sub = 11 then ⟨[.v128, addrKind m], []⟩ else ⟨[addrKind m], [.v128]⟩)
  | .vecLaneMemory sub _ _ _ =>
    some (if 88 ≤ sub then ⟨[.v128, addrKind m], []⟩ else ⟨[.v128, addrKind m], [.v128]⟩)
  | .vecShuffle _ => some ⟨[.v128, .v128], [.v128]⟩
  | .vecLane sub _ => some (vecLaneOperands sub)
  | .vecNumeric sub => some (vecNumericOperands sub)
  | .atomic sub _ _ => some (atomicOperands m sub)
  | _ => none

end PsiServe.Interp
