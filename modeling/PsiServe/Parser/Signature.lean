import PsiServe.Parser.Tracker

/-!
# Signatures of instructions without control flow

Checks and operand types of the instructions of
`psizam/detail/parser.hpp:2117–3190` that pop and push operands
of fixed types: the popped types with the topmost first, and the pushed ones.
-/

namespace PsiServe.Parser

open Base Wasm Bitcode

/-- Popped types, topmost first, and pushed types. -/
structure Signature where
  pops : List ValueType
  pushes : List ValueType
deriving DecidableEq

/-- What checking a body depends on: the options, the module, the function's type and the
types of its parameters and locals. -/
structure BodyEnv where
  o : Options
  m : Module
  ft : FuncType
  locals : List ValueType

/-- Largest alignment and result type of a scalar load; `parser.hpp:2218–2231`. -/
def loadRule (op : UInt8) : Nat × ValueType :=
  if op = 0x28 then (2, types.i32)
  else if op = 0x29 then (3, types.i64)
  else if op = 0x2A then (2, types.f32)
  else if op = 0x2B then (3, types.f64)
  else if op = 0x2C ∨ op = 0x2D then (0, types.i32)
  else if op = 0x2E ∨ op = 0x2F then (1, types.i32)
  else if op = 0x30 ∨ op = 0x31 then (0, types.i64)
  else if op = 0x32 ∨ op = 0x33 then (1, types.i64)
  else (2, types.i64)

/-- Largest alignment and operand type of a scalar store; `parser.hpp:2253–2261`. -/
def storeRule (op : UInt8) : Nat × ValueType :=
  if op = 0x36 then (2, types.i32)
  else if op = 0x37 then (3, types.i64)
  else if op = 0x38 then (2, types.f32)
  else if op = 0x39 then (3, types.f64)
  else if op = 0x3A then (0, types.i32)
  else if op = 0x3B then (1, types.i32)
  else if op = 0x3C then (0, types.i64)
  else if op = 0x3D then (1, types.i64)
  else (2, types.i64)

/-- Checks of a memory access; `parser.hpp:2197–2216` and its siblings. -/
def accessChecks (e : BodyEnv) (name : String) (maxAlign align offset : Nat) :
    Except ParseError Unit := do
  require (e.m.memories ≠ []) (name ++ " requires memory")
  require (align ≤ maxAlign) "alignment cannot be greater than size."
  require (offset ≤ e.o.maxMemoryOffset.toNat) (name ++ " offset too large.")

/-- Comparison, arithmetic, conversion and sign-extension instructions;
`parser.hpp:2284–2457`. -/
def numericSignature (op : UInt8) : Signature :=
  -- i32 tests and comparisons, then those of i64, f32 and f64
  if op = 0x45 then ⟨[types.i32], [types.i32]⟩
  else if 0x46 ≤ op ∧ op ≤ 0x4F then ⟨[types.i32, types.i32], [types.i32]⟩
  else if op = 0x50 then ⟨[types.i64], [types.i32]⟩
  else if 0x51 ≤ op ∧ op ≤ 0x5A then ⟨[types.i64, types.i64], [types.i32]⟩
  else if 0x5B ≤ op ∧ op ≤ 0x60 then ⟨[types.f32, types.f32], [types.i32]⟩
  else if 0x61 ≤ op ∧ op ≤ 0x66 then ⟨[types.f64, types.f64], [types.i32]⟩
  -- arithmetic, unary before binary
  else if 0x67 ≤ op ∧ op ≤ 0x69 then ⟨[types.i32], [types.i32]⟩
  else if 0x6A ≤ op ∧ op ≤ 0x78 then ⟨[types.i32, types.i32], [types.i32]⟩
  else if 0x79 ≤ op ∧ op ≤ 0x7B then ⟨[types.i64], [types.i64]⟩
  else if 0x7C ≤ op ∧ op ≤ 0x8A then ⟨[types.i64, types.i64], [types.i64]⟩
  else if 0x8B ≤ op ∧ op ≤ 0x91 then ⟨[types.f32], [types.f32]⟩
  else if 0x92 ≤ op ∧ op ≤ 0x98 then ⟨[types.f32, types.f32], [types.f32]⟩
  else if 0x99 ≤ op ∧ op ≤ 0x9F then ⟨[types.f64], [types.f64]⟩
  else if 0xA0 ≤ op ∧ op ≤ 0xA6 then ⟨[types.f64, types.f64], [types.f64]⟩
  -- conversions in the order of `parser.hpp:2413–2437`
  else if op = 0xA7 then ⟨[types.i64], [types.i32]⟩
  else if op = 0xA8 ∨ op = 0xA9 then ⟨[types.f32], [types.i32]⟩
  else if op = 0xAA ∨ op = 0xAB then ⟨[types.f64], [types.i32]⟩
  else if op = 0xAC ∨ op = 0xAD then ⟨[types.i32], [types.i64]⟩
  else if op = 0xAE ∨ op = 0xAF then ⟨[types.f32], [types.i64]⟩
  else if op = 0xB0 ∨ op = 0xB1 then ⟨[types.f64], [types.i64]⟩
  else if op = 0xB2 ∨ op = 0xB3 then ⟨[types.i32], [types.f32]⟩
  else if op = 0xB4 ∨ op = 0xB5 then ⟨[types.i64], [types.f32]⟩
  else if op = 0xB6 then ⟨[types.f64], [types.f32]⟩
  else if op = 0xB7 ∨ op = 0xB8 then ⟨[types.i32], [types.f64]⟩
  else if op = 0xB9 ∨ op = 0xBA then ⟨[types.i64], [types.f64]⟩
  else if op = 0xBB then ⟨[types.f32], [types.f64]⟩
  else if op = 0xBC then ⟨[types.f32], [types.i32]⟩
  else if op = 0xBD then ⟨[types.f64], [types.i64]⟩
  else if op = 0xBE then ⟨[types.i32], [types.f32]⟩
  else if op = 0xBF then ⟨[types.i64], [types.f64]⟩
  else if op = 0xC0 ∨ op = 0xC1 then ⟨[types.i32], [types.i32]⟩
  else ⟨[types.i64], [types.i64]⟩

/-- Saturating truncations; `parser.hpp:2993–3010`. -/
def truncSatSignature (sub : Nat) : Signature :=
  if sub = 0 ∨ sub = 1 then ⟨[types.f32], [types.i32]⟩
  else if sub = 2 ∨ sub = 3 then ⟨[types.f64], [types.i32]⟩
  else if sub = 4 ∨ sub = 5 then ⟨[types.f32], [types.i64]⟩
  else ⟨[types.f64], [types.i64]⟩

/-- Largest alignment of a vector access; `parser.hpp:2462–2475`. -/
def vecMaxAlign (sub : Nat) : Nat :=
  if sub = 0 ∨ sub = 11 then 4
  else if sub = 7 then 0
  else if sub = 8 then 1
  else if sub = 9 ∨ sub = 92 then 2
  else 3

/-- Largest alignment of a lane access; `parser.hpp:2503–2541`. -/
def laneMaxAlign (sub : Nat) : Nat :=
  if sub = 84 ∨ sub = 88 then 0
  else if sub = 85 ∨ sub = 89 then 1
  else if sub = 86 ∨ sub = 90 then 2
  else 3

/-- Number of lanes and types of a lane instruction; `parser.hpp:2562–2598`. -/
def laneRule (sub : Nat) : Nat × Signature :=
  if sub = 21 ∨ sub = 22 then (16, ⟨[types.v128], [types.i32]⟩)
  else if sub = 23 then (16, ⟨[types.i32, types.v128], [types.v128]⟩)
  else if sub = 24 ∨ sub = 25 then (8, ⟨[types.v128], [types.i32]⟩)
  else if sub = 26 then (8, ⟨[types.i32, types.v128], [types.v128]⟩)
  else if sub = 27 then (4, ⟨[types.v128], [types.i32]⟩)
  else if sub = 28 then (4, ⟨[types.i32, types.v128], [types.v128]⟩)
  else if sub = 29 then (2, ⟨[types.v128], [types.i64]⟩)
  else if sub = 30 then (2, ⟨[types.i64, types.v128], [types.v128]⟩)
  else if sub = 31 then (4, ⟨[types.v128], [types.f32]⟩)
  else if sub = 32 then (4, ⟨[types.f32, types.v128], [types.v128]⟩)
  else if sub = 33 then (2, ⟨[types.v128], [types.f64]⟩)
  else (2, ⟨[types.f64, types.v128], [types.v128]⟩)

/-- First and last codes of the groups of binary vector instructions. -/
def vecBinopRanges : List (Nat × Nat) :=
  [(14, 14), (35, 76), (78, 81), (101, 102), (110, 115), (118, 121), (123, 123), (130, 130),
    (133, 134), (142, 147), (149, 153), (155, 159), (174, 174), (177, 177), (181, 186),
    (188, 191), (206, 206), (209, 209), (213, 223), (228, 235), (240, 247), (260, 260)]

/-- First and last codes of the groups of unary vector instructions. -/
def vecUnopRanges : List (Nat × Nat) :=
  [(77, 77), (94, 98), (103, 106), (116, 117), (122, 122), (124, 129), (135, 138), (148, 148),
    (160, 161), (167, 170), (192, 193), (199, 202), (224, 225), (227, 227), (236, 237),
    (239, 239), (248, 255)]

/-- First and last codes of the vector tests. -/
def vecTestRanges : List (Nat × Nat) :=
  [(83, 83), (99, 100), (131, 132), (163, 164), (195, 196)]

/-- First and last codes of the vector shifts. -/
def vecShiftRanges : List (Nat × Nat) := [(107, 109), (139, 141), (171, 173), (203, 205)]

/-- Whether a code lies in one of the groups. -/
def inRanges (ranges : List (Nat × Nat)) (sub : Nat) : Bool :=
  ranges.any fun r => r.1 ≤ sub && sub ≤ r.2

/-- Vector arithmetic; `parser.hpp:2617–2986`. -/
def vecNumericSignature (sub : Nat) : Option Signature :=
  if sub = 15 ∨ sub = 16 ∨ sub = 17 then some ⟨[types.i32], [types.v128]⟩
  else if sub = 18 then some ⟨[types.i64], [types.v128]⟩
  else if sub = 19 then some ⟨[types.f32], [types.v128]⟩
  else if sub = 20 then some ⟨[types.f64], [types.v128]⟩
  else if inRanges vecBinopRanges sub then some ⟨[types.v128, types.v128], [types.v128]⟩
  else if inRanges vecUnopRanges sub then some ⟨[types.v128], [types.v128]⟩
  else if inRanges vecTestRanges sub then some ⟨[types.v128], [types.i32]⟩
  else if inRanges vecShiftRanges sub then some ⟨[types.i32, types.v128], [types.v128]⟩
  else if sub = 82 ∨ 256 ≤ sub ∧ sub ≤ 259 ∨ sub = 261 then
    some ⟨[types.v128, types.v128, types.v128], [types.v128]⟩
  else none

/-- Whether a read-modify-write or compare-exchange works on 64-bit values;
`parser.hpp:3163–3174`. -/
def atomicRmwIs64 (sub : Nat) : Bool :=
  if 0x48 ≤ sub then sub = 0x49 ∨ 0x4C ≤ sub
  else (sub - 0x1E) % 7 = 1 ∨ 4 ≤ (sub - 0x1E) % 7

/-- Atomic instructions; `parser.hpp:3104–3190`. -/
def atomicSignature (m : Module) (sub : Nat) : Signature :=
  let addr := m.memAddrType
  let rmw := if atomicRmwIs64 sub then types.i64 else types.i32
  if sub = 0x03 then ⟨[], []⟩
  else if sub = 0x00 then ⟨[types.i32, addr], [types.i32]⟩
  else if sub = 0x01 then ⟨[types.i64, types.i32, addr], [types.i32]⟩
  else if sub = 0x02 then ⟨[types.i64, types.i64, addr], [types.i32]⟩
  else if sub ≤ 0x16 then ⟨[addr], [if sub ≤ 0x13 then types.i32 else types.i64]⟩
  else if sub ≤ 0x1D then ⟨[if sub ≤ 0x1A then types.i32 else types.i64, addr], []⟩
  else if 0x48 ≤ sub then ⟨[rmw, rmw, addr], [rmw]⟩
  else ⟨[rmw, addr], [rmw]⟩

/-- Check that bulk memory instructions are enabled. -/
def bulkEnabled (e : BodyEnv) : Except ParseError Unit :=
  require (e.o.enableBulkMemory = true) "Bulk memory not enabled"

/-- Element type of a table; `parser.hpp:2178–2194` and its siblings. -/
def tableElement (e : BodyEnv) (table : Nat) (text : String) : Except ParseError ValueType :=
  match e.m.tables[table]? with
  | none => .error ⟨.wasmParse, text⟩
  | some t => .ok t.elementType

/-- A declared global; `parser.hpp:2133–2147`. -/
def globalType (e : BodyEnv) (index : Nat) : Except ParseError GlobalType :=
  match e.m.globals[index]? with
  | none => .error ⟨.wasmParse, "global index out of range"⟩
  | some g => .ok g

/-- Check a data segment index; `parser.hpp:3011–3034`. -/
def dataSegment (e : BodyEnv) (index : Nat) (text : String) : Except ParseError Unit :=
  match e.m.datacount with
  | none => .error ⟨.wasmParse, text⟩
  | some n => require (index < n) "data segment does not exist"

/-- Type of a constant. -/
def constType : Value → ValueType
  | .i32 _ => types.i32
  | .i64 _ => types.i64
  | .f32 _ => types.f32
  | .f64 _ => types.f64
  | .v128 _ => types.v128

/-- Checks and types of a plain instruction. -/
def plainSignature (e : BodyEnv) : Instr → Except ParseError Signature
  | .getLocal i => do
    let t ← localType e.locals i
    return ⟨[], [t]⟩
  | .setLocal i => do
    let t ← localType e.locals i
    return ⟨[t], []⟩
  | .teeLocal i => do
    let t ← localType e.locals i
    return ⟨[t], [t]⟩
  | .getGlobal i => do
    let g ← globalType e i
    return ⟨[], [g.contentType]⟩
  | .setGlobal i => do
    let g ← globalType e i
    require (g.mutability = true) "cannot set const global"
    return ⟨[g.contentType], []⟩
  | .tableGet i => do
    let t ← tableElement e i "table.get table index out of range"
    return ⟨[types.i32], [t]⟩
  | .tableSet i => do
    let t ← tableElement e i "table.set table index out of range"
    return ⟨[t, types.i32], []⟩
  | .refNull t => .ok ⟨[], [t]⟩
  | .refFunc i => do
    require (i < e.m.functionsTotal) "ref.func function index out of range"
    return ⟨[], [types.funcref]⟩
  | .load op align offset => do
    accessChecks e "load" (loadRule op).1 align offset.toNat
    return ⟨[e.m.memAddrType], [(loadRule op).2]⟩
  | .store op align offset => do
    accessChecks e "store" (storeRule op).1 align offset.toNat
    return ⟨[(storeRule op).2, e.m.memAddrType], []⟩
  | .currentMemory => do
    require (e.m.memories ≠ []) "memory.size requires memory"
    return ⟨[], [e.m.memAddrType]⟩
  | .growMemory => do
    require (e.m.memories ≠ []) "memory.grow requires memory"
    return ⟨[e.m.memAddrType], [e.m.memAddrType]⟩
  | .const v => .ok ⟨[], [constType v]⟩
  | .numeric op => do
    require (0xC0 ≤ op → e.o.enableSignExt = true) "Sign-extension operators not enabled"
    return numericSignature op
  | .truncSat sub => do
    require (e.o.enableNontrappingFptoint = true)
      "Non-trapping float-to-int conversions not enabled"
    return truncSatSignature sub
  | .memoryInit index => do
    bulkEnabled e
    require (e.m.memories ≠ []) "memory.init requires memory"
    dataSegment e index "memory.init requires datacount section"
    return ⟨[types.i32, types.i32, e.m.memAddrType], []⟩
  | .dataDrop index => do
    bulkEnabled e
    dataSegment e index "data.drop requires datacount section"
    return ⟨[], []⟩
  | .memoryCopy => do
    bulkEnabled e
    require (e.m.memories ≠ []) "memory.copy requires memory"
    return ⟨[e.m.memAddrType, e.m.memAddrType, e.m.memAddrType], []⟩
  | .memoryFill => do
    bulkEnabled e
    require (e.m.memories ≠ []) "memory.fill requires memory"
    return ⟨[e.m.memAddrType, types.i32, e.m.memAddrType], []⟩
  | .elemDrop index => do
    bulkEnabled e
    require (index < e.m.elements.length) "elem segment does not exist"
    return ⟨[], []⟩
  | .tableGrow i => do
    let t ← tableElement e i "table.grow table index out of range"
    return ⟨[types.i32, t], [types.i32]⟩
  | .tableSize i => do
    let _ ← tableElement e i "table.size table index out of range"
    return ⟨[], [types.i32]⟩
  | .tableFill i => do
    let t ← tableElement e i "table.fill table index out of range"
    return ⟨[types.i32, t, types.i32], []⟩
  | .vecMemory sub align offset => do
    accessChecks e (if sub = 11 then "store" else "load") (vecMaxAlign sub) align offset.toNat
    return if sub = 11 then ⟨[types.v128, e.m.memAddrType], []⟩
      else ⟨[e.m.memAddrType], [types.v128]⟩
  | .vecLaneMemory sub align offset lane => do
    accessChecks e "load" (laneMaxAlign sub) align offset.toNat
    require (lane.toNat < 2 ^ (4 - laneMaxAlign sub)) "laneidx out of bounds"
    return if 88 ≤ sub then ⟨[types.v128, e.m.memAddrType], []⟩
      else ⟨[types.v128, e.m.memAddrType], [types.v128]⟩
  | .vecShuffle lanes => do
    require (∀ lane ∈ lanes, lane < 32) "shuffle laneidx must be less than 32"
    return ⟨[types.v128, types.v128], [types.v128]⟩
  | .vecLane sub lane => do
    require (lane.toNat < (laneRule sub).1) "laneidx must be smaller than dim(shape)"
    return (laneRule sub).2
  | .vecNumeric sub =>
    match vecNumericSignature sub with
    | none => .error ⟨.wasmParse, "Illegal instruction"⟩
    | some s => .ok s
  | .atomic sub _ _ => .ok (atomicSignature e.m sub)
  | _ => .error ⟨.wasmParse, "Illegal instruction"⟩

/-- Whether an instruction is refused after the end of the function; the others are not
checked. -/
def checksInBounds : Instr → Bool
  | .getLocal _ | .getGlobal _ | .currentMemory | .const (.i32 _) | .const (.i64 _)
  | .const (.f32 _) | .const (.f64 _) => false
  | _ => true

end PsiServe.Parser
