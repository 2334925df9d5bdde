import PsiServe.Base.Fallible
import PsiServe.Bitcode.Instr

/-!
# Bitcode writer

`psizam/detail/bitcode_writer.hpp`: opcodes are appended to a
buffer of as many slots as the function body has bytes, and branch targets are filled in
once they are known. Opcodes whose operands are known when they are emitted go through
`append`; the others return the place of their target.
-/

namespace PsiServe.Bitcode

open Base Wasm

/-- Why an opcode is not emitted. -/
inductive EmitError where
  | outOfBounds
  | depthTooLarge
  | tooManyResults
deriving DecidableEq

/-- Place of a branch target: an opcode and, for a branch table, the entry;
`branch_t` of `parser.hpp:1070`. -/
structure Branch where
  slot : Nat
  entry : Nat
deriving DecidableEq

/-- Set the branch target of an opcode; the other opcodes have none. -/
def Instr.setPc (entry target : Nat) : Instr → Instr
  | .if_ _ => .if_ target
  | .else_ _ => .else_ target
  | .br data _ => .br data target
  | .brIf data _ stacksz => .brIf data target stacksz
  | .brTable size table => .brTable size (table.modify entry fun e => { e with pc := target })
  | .catch_ data _ => .catch_ data target
  | .catchAll _ => .catchAll target
  | .tryTable data _ => .tryTable data target
  | i => i

/-- Add to the cost of a gas charge. -/
def Instr.addCost (extra : Int) : Instr → Instr
  | .gasCharge cost => .gasCharge (cost + extra)
  | i => i

/-- The writer while a function is emitted: `size` slots are reserved, `baseOffset` is
added to every branch target. `bitcode_writer.hpp:529–542`. -/
structure Writer where
  baseOffset : Nat
  size : Nat
  code : List Instr
  prologueGasExtra : Int
deriving DecidableEq

namespace Writer

/-- `op_index`. -/
def opIndex (w : Writer) : Nat := w.code.length

/-- `fb[op_index++] = instr`; the vector checks its bounds. `vector.hpp:56`. -/
def append (w : Writer) (i : Instr) : Except EmitError Writer :=
  if w.opIndex < w.size then .ok { w with code := w.code ++ [i] } else .error .outOfBounds

/-- Append several opcodes. -/
def appendAll (w : Writer) (is : List Instr) : Except EmitError Writer := foldSteps append w is

variable {w w' : Writer}

/-- An opcode that is written comes last. -/
theorem append_ok {i : Instr} (h : w.append i = .ok w') :
    w' = { w with code := w.code ++ [i] } := by
  unfold append at h
  split at h
  · cases h
    rfl
  · cases h

/-- Opcodes that are written come last, in order. -/
theorem appendAll_ok {is : List Instr} (h : w.appendAll is = .ok w') :
    w' = { w with code := w.code ++ is } := by
  induction is generalizing w with
  | nil =>
    cases h
    rw [List.append_nil]
  | cons i is ih =>
    obtain ⟨w₁, hw₁, h⟩ := bind_eq_ok.mp h
    rw [ih h, append_ok hw₁, List.append_assoc]
    rfl

/-- `fix_branch`; `bitcode_writer.hpp:465`. -/
def fixBranch (w : Writer) (b : Branch) (target : Nat) : Writer :=
  { w with code := w.code.modify b.slot (Instr.setPc b.entry (w.baseOffset + target)) }

/-- `fix_branch` of several branches to one target. -/
def fixBranches (w : Writer) (bs : List Branch) (target : Nat) : Writer :=
  bs.foldl (fun w b => w.fixBranch b target) w

/-- Widen a gas charge; the handle is a slot or the prologue.
`bitcode_writer.hpp:507–510`. -/
def patchGasImmAddExtra (w : Writer) (handle : Option Nat) (extra : Int) : Writer :=
  match handle with
  | none => { w with prologueGasExtra := w.prologueGasExtra + extra }
  | some slot => { w with code := w.code.modify slot (Instr.addCost extra) }

/-- Pop count and result count of a branch in one word; `bitcode_writer.hpp:519–527`. -/
def encodeDepthChange (depthChange resultCount : Nat) : Except EmitError Nat :=
  if 0x00FFFFFF < depthChange then .error .depthTooLarge
  else if 255 < resultCount then .error .tooManyResults
  else .ok (depthChange + resultCount * 2 ^ 24)

/-- `emit_br`, also for `emit_return`; `bitcode_writer.hpp:34–61`. -/
def emitBr (w : Writer) (depthChange resultCount : Nat) : Except EmitError (Writer × Branch) := do
  let data ← encodeDepthChange depthChange resultCount
  let w' ← w.append (.br data 0)
  return (w', ⟨w.opIndex, 0⟩)

/-- `bitcode_writer.hpp:62–67`. -/
def emitBrIf (w : Writer) (depthChange resultCount ehLeaveCount : Nat) :
    Except EmitError (Writer × Branch) := do
  let data ← encodeDepthChange depthChange resultCount
  let w' ← w.append (.brIf data 0 ehLeaveCount)
  return (w', ⟨w.opIndex, 0⟩)

/-- An opcode with one branch target: `emit_if`, `emit_catch`, `emit_catch_all`. -/
def emitBranch (w : Writer) (i : Instr) : Except EmitError (Writer × Branch) := do
  let w' ← w.append i
  return (w', ⟨w.opIndex, 0⟩)

/-- The `else` opcode; the `if` jumps behind it. `bitcode_writer.hpp:53–57`. -/
def emitElse (w : Writer) (ifLoc : Branch) : Except EmitError (Writer × Branch) := do
  let w' ← w.append (.else_ 0)
  return (w'.fixBranch ifLoc w'.opIndex, ⟨w.opIndex, 0⟩)

/-- One entry of a branch table before its target is known. -/
structure BrCase where
  depthChange : Nat
  resultCount : Nat
  ehLeaveCount : Nat

/-- `emit_case`; `bitcode_writer.hpp:148–153`. -/
def BrCase.entry (c : BrCase) : Except EmitError BrTableElem := do
  let data ← encodeDepthChange c.depthChange c.resultCount
  return ⟨0, data, c.ehLeaveCount⟩

/-- Entries of all cases in order. -/
def entries : List BrCase → Except EmitError (List BrTableElem)
  | [] => .ok []
  | c :: cs => do
    let e ← c.entry
    let es ← entries cs
    return e :: es

/-- Slots of the entries of a branch table: three words each in slots of 24 bytes, and two
more. `bitcode_writer.hpp:135`. -/
def brTableSlots (tableSize : Nat) : Nat := tableSize * 12 / 24 + 2

/-- `emit_br_table` with its cases, the default last; the slot behind the entries has to
exist for the canary. `bitcode_writer.hpp:128–167`. -/
def emitBrTable (w : Writer) (cases : List BrCase) : Except EmitError Writer := do
  let table ← entries cases
  let size := cases.length - 1
  let w ← w.appendAll (.brTable size table :: List.replicate (brTableSlots size) .brTableData)
  if w.opIndex < w.size then .ok w else .error .outOfBounds

/-- A catch clause as it is emitted; `types.hpp:308–321`. -/
structure Clause where
  kind : UInt8
  tagIndex : Nat
  depthChange : Nat
  ehLeaveCount : Nat
deriving DecidableEq

/-- The two slots of a clause; the second holds the handler. -/
def Clause.slots (c : Clause) : List Instr :=
  [.tryTable (c.kind.toUInt32 <<< 24 ||| UInt32.ofNat c.tagIndex &&& 0x00FFFFFF) c.depthChange,
    .tryTable (UInt32.ofNat c.ehLeaveCount) 0]

/-- `emit_try_table`; the target of clause `j` is in slot `opIndex + 2 + 2 * j`.
`bitcode_writer.hpp:94–117`. -/
def emitTryTable (w : Writer) (clauses : List Clause) : Except EmitError Writer :=
  w.appendAll (.tryTable (UInt32.ofNat clauses.length) 0 :: clauses.flatMap Clause.slots)

/-- `emit_eh_leave`; `bitcode_writer.hpp:122–128`. -/
def emitEhLeave (w : Writer) : Except EmitError Writer := w.append (.delegate 0)

/-- A number of `emit_eh_leave`. -/
def emitEhLeaves (w : Writer) (count : Nat) : Except EmitError Writer :=
  w.appendAll (List.replicate count (.delegate 0))

/-- `emit_loop`: the header charges gas, and the label is in front of it.
`bitcode_writer.hpp:38–48`. -/
def emitLoop (w : Writer) : Except EmitError Writer := w.append (.gasCharge 1)

end Writer

end PsiServe.Bitcode
