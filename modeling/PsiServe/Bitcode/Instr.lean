import PsiServe.Wasm.Types

/-!
# Operand stack elements and bitcode instructions

`operand_stack_elem` (`psizam/detail/stack_elem.hpp:11–36`) and
the alternatives of `opcode` that `bitcode_writer` emits
(`psizam/detail/opcodes.hpp:219–250`). Opcodes of one layout
share a constructor and keep their code: `numeric` covers the comparison, numeric,
conversion and sign-extension opcodes, `load` and `store` the scalar memory opcodes, the
`vec` constructors the sub-opcodes after `0xFD` and `atomic` those after `0xFE`.
-/

namespace PsiServe.Bitcode

open Wasm

/-- Alternatives of the operand stack variant. -/
inductive Kind where
  | i32 | i64 | f32 | f64 | v128
deriving DecidableEq, Repr

/-- Operand stack element: the held alternative and its bits. -/
inductive Value where
  | i32 (bits : UInt32)
  | i64 (bits : UInt64)
  | f32 (bits : UInt32)
  | f64 (bits : UInt64)
  | v128 (bits : BitVec 128)
deriving DecidableEq

namespace Value

/-- The alternative an element holds. -/
def kind : Value → Kind
  | i32 _ => .i32
  | i64 _ => .i64
  | f32 _ => .f32
  | f64 _ => .f64
  | v128 _ => .v128

/-- Read the storage as 64 bits whatever alternative is held, as the unchecked `get` of
`variant.hpp:207–240` does; storage beyond a narrow alternative reads as zero here. -/
def toUi64 : Value → UInt64
  | i32 b => b.toUInt64
  | i64 b => b
  | f32 b => b.toUInt64
  | f64 b => b
  | v128 b => UInt64.ofBitVec (b.truncate 64)

/-- Read the storage as 32 bits; `stack_elem.hpp:15,25`. -/
def toUi32 (v : Value) : UInt32 := v.toUi64.toUInt32

/-- Element of a given alternative from raw bits. -/
def ofBits : Kind → BitVec 128 → Value
  | .i32, b => i32 (UInt32.ofBitVec (b.truncate 32))
  | .i64, b => i64 (UInt64.ofBitVec (b.truncate 64))
  | .f32, b => f32 (UInt32.ofBitVec (b.truncate 32))
  | .f64, b => f64 (UInt64.ofBitVec (b.truncate 64))
  | .v128, b => v128 b

/-- Bits are read as the alternative that is asked for. -/
@[simp] theorem kind_ofBits (k : Kind) (b : BitVec 128) : (ofBits k b).kind = k := by
  cases k <;> rfl

end Value

/-- Alternative that holds values of a wasm type; references are held as `i32`.
`execution_context.hpp:1639–1651` and `1920–1936`. -/
def kindOf (t : ValueType) : Kind :=
  if t = types.i64 then .i64
  else if t = types.f32 then .f32
  else if t = types.f64 then .f64
  else if t = types.v128 then .v128
  else .i32

/-- Entry of a branch table; `opcodes_def.hpp:633`. -/
structure BrTableElem where
  pc : Nat
  stackPop : Nat
  ehLeaveCount : Nat
deriving DecidableEq

/-- Interpreter bitcode. Branch targets are positions in the module's bitcode. -/
inductive Instr where
  | unreachable
  | nop
  | if_ (pc : Nat)
  | else_ (pc : Nat)
  | br (data pc : Nat)
  | brIf (data pc stacksz : Nat)
  | brTable (size : Nat) (table : List BrTableElem)
  -- opcode slots that hold the entries of the branch table before them
  | brTableData
  | return_ (data pc stacksz : Nat)
  | call (index : Nat)
  | callIndirect (index : UInt32)
  | tailCall (index : Nat)
  | tailCallIndirect (index : UInt32)
  | catch_ (data pc : Nat)
  | catchAll (pc : Nat)
  | throw_ (data : Nat)
  | rethrow (data : Nat)
  | throwRef
  | delegate (data : Nat)
  | tryTable (data : UInt32) (pc : Nat)
  | drop
  | select
  | getLocal (index : Nat)
  | setLocal (index : Nat)
  | teeLocal (index : Nat)
  | getGlobal (index : Nat)
  | setGlobal (index : Nat)
  | tableGet (index : Nat)
  | tableSet (index : Nat)
  | refNull (type : ValueType)
  | refIsNull
  | refFunc (index : Nat)
  | load (op : UInt8) (align : Nat) (offset : UInt32)
  | store (op : UInt8) (align : Nat) (offset : UInt32)
  | currentMemory
  | growMemory
  | const (value : Value)
  | numeric (op : UInt8)
  | truncSat (sub : Nat)
  | memoryInit (index : Nat)
  | dataDrop (index : Nat)
  | memoryCopy
  | memoryFill
  | tableInit (index : UInt32)
  | elemDrop (index : Nat)
  | tableCopy (index : UInt32)
  | tableGrow (index : Nat)
  | tableSize (index : Nat)
  | tableFill (index : Nat)
  | vecMemory (sub align : Nat) (offset : UInt32)
  | vecLaneMemory (sub align : Nat) (offset : UInt32) (lane : UInt8)
  | vecShuffle (lanes : List UInt8)
  | vecLane (sub : Nat) (lane : UInt8)
  | vecNumeric (sub : Nat)
  | atomic (sub align : Nat) (offset : UInt32)
  | gasCharge (cost : Int)
  | exit
  | error
deriving DecidableEq

end PsiServe.Bitcode
