import PsiServe.Gas.Charge
import PsiServe.Interp.Memory
import PsiServe.Interp.Operands

/-!
# Execution context of the interpreter

State of `execution_context` and the operations on its stacks;
`psizam/detail/execution_context.hpp:1360–1725` and `1877–1937`.
All stacks are lists with the top first, except `ehCatches` and `ehExnStack`, which the
source indexes from the bottom. The arithmetic of numeric opcodes and the contents of
linear memory, globals and tables are a parameter (`Ops`): nothing here depends on them.
-/

namespace PsiServe.Interp

open Wasm Bitcode Gas

/-- Program counter: a position in the module's bitcode, the halt opcode, or null. -/
inductive Pc where
  | code (n : Nat)
  | halt
  | null
deriving DecidableEq

/-- Advance by one opcode; `execution_context.hpp:1725`. -/
def Pc.inc : Pc → Pc
  | .code n => .code (n + 1)
  | pc => pc

/-- Caller state of a call; `types.hpp:39–43`. -/
structure ActivationFrame where
  pc : Pc
  lastOpIndex : Nat
  frameSize : Nat
deriving DecidableEq

/-- Catch clause of an entered `try_table`; `execution_context.hpp:1372–1383`. -/
structure EhCatchEntry where
  kind : UInt8
  tagIndex : Nat
  handlerPc : Nat
  operandDepth : Nat
  ehLeaveCount : Nat
deriving DecidableEq

/-- An entered `try_table`; `execution_context.hpp:1385–1389`. -/
structure EhFrame where
  callDepth : Nat
  catchCount : Nat
  firstCatch : Nat
deriving DecidableEq

/-- A caught exception; `execution_context.hpp:1392–1395`. -/
structure WasmException where
  tagIndex : Nat
  values : List UInt64
deriving DecidableEq

/-- Observations of a run, recorded here and not stored by the program: loads, with
whether they were in bounds when they executed, host functions entered, and deferred
bounds errors raised. -/
inductive Event where
  | load (inBounds : Bool)
  | enterHost (func : Nat)
  | deferredOutOfBounds
deriving DecidableEq

/-- Values and stored data: `eval i e vs w` is the effect of a plain instruction `i` with
effective address `e` on operands `vs`, its result bits or its trap; `tableElem` is the
function index in a table slot, or the trap of `execution_context.hpp:418–421`. -/
structure Ops (W : Type) where
  eval : Instr → UInt64 → List Value → W → Except Trap (W × BitVec 128)
  tableElem : W → UInt32 → Nat → Except Trap Nat

/-- The compiled module: code, function table and, for imports, the signatures of the host
functions they are mapped to. `functionCost` is the gas charged on entry of a defined
function and `functionStackSize` the depth a function's frame uses. -/
structure Program where
  module : Module
  code : List Instr
  functionPc : List Nat
  locals : List (List LocalEntry)
  functionCost : Nat → UInt64
  functionStackSize : Nat → Nat
  hostSignature : Nat → FuncType

/-- What an instance does not change while it runs. `mprotect` says whether the system makes a
number of pages behind a page accessible. -/
structure Env (W : Type) extends Program where
  gasHandler : Option GasHandler
  maxPages : UInt32
  allocLimit : UInt32
  mprotect : UInt32 → UInt32 → Bool
  ops : Ops W

/-- The stacks of an execution context and its position in the code;
`execution_context.hpp:2032–2052`. -/
structure Control where
  pc : Pc
  exiting : Bool
  asIndex : Nat
  osIndex : Nat
  os : List Value
  lastOpIndex : Nat
  as : List ActivationFrame
  remainingCallDepth : Nat
  ehStack : List EhFrame
  ehCatches : List EhCatchEntry
  ehExnStack : List WasmException
deriving DecidableEq

/-- The mutable state; `execution_context.hpp:594–624,2032–2052`. `events` is the record of
observations. -/
structure Context (W : Type) extends Control where
  mem : MemState
  pages : UInt32
  gas : GasState
  pool : GasPool
  world : W
  events : List Event

/-- How a visitor step ends: it continues, enters a host function, traps, leaves the
interpreter loop, or does what the source leaves undefined. -/
inductive Outcome (C : Type) where
  | next (c : C)
  | host (c : C) (func : Nat) (tail : Bool)
  | trap (c : C) (t : Trap)
  | leave (c : C)
  | undefined

/-- Outcome of an operation the source leaves undefined when it fails. -/
def Outcome.ofOption {C : Type} : Option C → Outcome C
  | none => .undefined
  | some c => .next c

/-- Replace the stacks of a context by those an outcome ends with. -/
def Context.lift {W : Type} (c : Context W) : Outcome Control → Outcome (Context W)
  | .next k => .next { c with toControl := k }
  | .host k func tail => .host { c with toControl := k } func tail
  | .trap k t => .trap { c with toControl := k } t
  | .leave k => .leave { c with toControl := k }
  | .undefined => .undefined

/-- Popping an empty operand stack; `wasm_stack.hpp:40`. -/
def underflow : Trap := ⟨.interpreter, "operand stack underflow"⟩

/-- No room for another frame; `execution_context.hpp:1433,1617`. -/
def stackOverflow : Trap := ⟨.interpreter, "stack overflow"⟩

namespace Control

variable (k : Control)

/-- Continue at the next opcode. -/
def advance : Control := { k with pc := k.pc.inc }

/-- Continue after popping one operand. -/
def withPop (f : Value → Control → Outcome Control) : Outcome Control :=
  match k.os with
  | [] => .trap k underflow
  | v :: rest => f v { k with os := rest }

/-- Position of an operand counted from the bottom of the stack. -/
def operandAt (index : Nat) : Option Value :=
  if index < k.os.length then k.os[k.os.length - 1 - index]? else none

/-- Read a parameter or local; `execution_context.hpp:1568`. -/
def getOperand (index : Nat) : Option Value := k.operandAt (k.lastOpIndex + index)

/-- Write a parameter or local; `execution_context.hpp:1573`. -/
def setOperand (index : Nat) (v : Value) : Option Control :=
  if k.lastOpIndex + index < k.os.length then
    some { k with os := k.os.set (k.os.length - 1 - (k.lastOpIndex + index)) v }
  else none

/-- Cut the operand stack down to `index` elements; `wasm_stack.hpp:49–52`. Beyond the
live elements the source would expose stale ones. -/
def eatOperands (index : Nat) : Option Control :=
  if index ≤ k.os.length then some { k with os := k.os.drop (k.os.length - index) } else none

/-- Number of activation frames; `execution_context.hpp:1577`. -/
def callDepth : Nat := k.as.length

/-- Remove the topmost EH frame and its clauses, if there is one;
`interpret_visitor.hpp:3170–3181`. -/
def leaveEhFrame : Control :=
  match k.ehStack with
  | [] => k
  | frame :: outer =>
    { k with
      ehStack := outer
      ehCatches := k.ehCatches.take frame.firstCatch }

/-- Leave a number of EH frames; `interpret_visitor.hpp:72–79`. -/
def leaveEhFrames : Nat → Control → Control
  | 0, k => k
  | n + 1, k => leaveEhFrames n k.leaveEhFrame

/-- Drop activation frames down to a depth; `execution_context.hpp:1600–1607`. -/
def unwindTo (depth : Nat) : List ActivationFrame → Control → Control
  | [], k => { k with as := [] }
  | af :: rest, k =>
    if depth < (af :: rest).length then
      unwindTo depth rest
        { k with
          remainingCallDepth := k.remainingCallDepth + af.frameSize
          lastOpIndex := af.lastOpIndex }
    else { k with as := af :: rest }

/-- `execution_context.hpp:1600–1607` from the current call stack. -/
def unwindCallStackTo (depth : Nat) : Control := unwindTo depth k.as k

/-- Move the top `result_count` operands down over the rest of the topmost
`depth_change` ones and continue at a label; `execution_context.hpp:1877–1897`. -/
def jump (popInfo newPc : Nat) : Option Control :=
  let depthChange := popInfo % 2 ^ 24
  let resultCount := popInfo / 2 ^ 24
  if resultCount ≤ depthChange ∧ depthChange ≤ k.os.length then
    some { k with
      pc := .code newPc
      os := k.os.take resultCount ++ k.os.drop depthChange }
  else none

/-- Return from a function: the results replace its parameters and locals;
`execution_context.hpp:1624–1635`. -/
def applyPopCall (numLocals returnCount : Nat) : Outcome Control :=
  match k.as with
  | [] => .trap k underflow
  | af :: rest =>
    if numLocals + returnCount ≤ k.os.length then
      .next { k with
        as := rest
        pc := af.pc
        lastOpIndex := af.lastOpIndex
        os := k.os.take returnCount ++ k.os.drop (numLocals + returnCount)
        remainingCallDepth := k.remainingCallDepth + af.frameSize }
    else .undefined

end Control

namespace Context

variable {W : Type} (c : Context W)

/-- Charge gas, with the trap of an exhausted budget; `execution_context.hpp:280–286`. -/
def chargeGas (handler : Option GasHandler) (cost : UInt64) : Context W × Option Trap :=
  let r := gasCharge handler c.gas c.pool cost
  ({ c with gas := r.gas, pool := r.pool }, r.error.map fun e => ⟨.gasExhausted, e.text⟩)

/-- Continue after charging gas. -/
def withGas (handler : Option GasHandler) (cost : UInt64)
    (f : Context W → Outcome (Context W)) : Outcome (Context W) :=
  match c.chargeGas handler cost with
  | (c, some t) => .trap c t
  | (c, none) => f c

/-- Deferred read validation as a step of the context; `execution_context.hpp:223–230`. -/
def validateReadWatermark : Context W × Option Trap :=
  match c.mem.validateReadWatermark with
  | (m, none) => ({ c with mem := m }, none)
  | (m, some t) => ({ c with mem := m, events := c.events ++ [.deferredOutOfBounds] }, some t)

/-- Continue after validating the deferred reads. -/
def withValidation (f : Context W → Outcome (Context W)) : Outcome (Context W) :=
  match c.validateReadWatermark with
  | (c, some t) => .trap c t
  | (c, none) => f c

end Context

/-- Zero value of a local; `execution_context.hpp:1922–1935`. -/
def localInit (t : ValueType) : Value :=
  if t = types.i64 then .i64 0
  else if t = types.f32 then .f32 0
  else if t = types.f64 then .f64 0
  else if t = types.v128 then .v128 0
  else if t = types.i32 then .i32 0
  else .i32 0xFFFFFFFF

/-- Declared locals of a function, one type each, in order. -/
def localTypes (locals : List LocalEntry) : List ValueType :=
  locals.flatMap fun l => List.replicate l.count l.type

/-- A local starts as a value of its type. -/
@[simp] theorem kind_localInit (t : ValueType) : (localInit t).kind = kindOf t := by
  rw [localInit, kindOf]
  simp only [apply_ite Value.kind]
  simp only [Value.kind, ite_self]

end PsiServe.Interp
