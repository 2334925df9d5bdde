import PsiServe.Interp.ControlStep

/-!
# One step of the interpreter

The remaining `operator()` overloads of
`psizam/detail/interpret_visitor.hpp`: memory, plain instructions
and calls, with `call` and `tail_call` of
`psizam/detail/execution_context.hpp:1411–1551`.
A step that enters a host function stops there; what the host function does is a step of
`PsiServe.Interp.Machine`.
-/

namespace PsiServe.Interp

open Wasm Bitcode Gas

variable {W : Type}

/-! ### Memory -/

/-- Check the access of an instruction and record a load; the address is the operand
popped last. `interpret_visitor.hpp:186–212`. -/
def Context.accessMemory (c : Context W) (i : Instr) (vals : List Value) :
    Context W × Except Trap UInt64 :=
  let ptr := vals.getLastD (.i32 0)
  match memoryAccess i with
  | none => (c, .ok 0)
  | some (.write, offset, width) => (c, c.mem.popMemopAddrWrite offset width ptr)
  | some (.read, offset, width) =>
    match c.mem.popMemopAddrRead offset width ptr with
    | .error t => (c, .error t)
    | .ok (effective, mem) =>
      ({ c with
          mem := mem
          events := c.events ++ [.load (decide (c.mem.InBounds offset width ptr))] },
        .ok effective)

/-- Grow memory by a number of pages; minus one when it cannot.
`execution_context.hpp:163–179`, `allocator.hpp:799–812`. -/
def growLinearMemory (env : Env W) (c : Context W) (delta : UInt32) :
    Except Trap (Context W × UInt32) :=
  match env.module.memories with
  | [] => .ok (c, 0xFFFFFFFF)
  | mt :: _ =>
    if env.maxPages - c.pages < delta ∨
        mt.limits.flags ∧ UInt32.ofNat mt.limits.maximum - c.pages < delta then
      .ok (c, 0xFFFFFFFF)
    else if delta = 0 then .ok (c, c.pages)
    else if env.allocLimit.toNat < delta.toNat + c.pages.toNat then
      .error ⟨.badAlloc, "exceeded max number of pages"⟩
    else if env.mprotect c.pages delta = false then .error ⟨.badAlloc, "mprotect failed"⟩
    else
      let pages := c.pages + delta
      .ok ({ c with
          pages := pages
          mem := { c.mem with memorySizeBytes := pages.toUInt64 * 65536 } }, c.pages)

/-- Result of `memory.grow` in the width of the memory's addresses;
`interpret_visitor.hpp:345–356`. -/
def growResult (m : Module) (result : UInt32) : Value :=
  if m.isMemory64 then
    if result = 0xFFFFFFFF then .i64 0xFFFFFFFFFFFFFFFF else .i64 result.toUInt64
  else .i32 result

/-- Result of `memory.size`; `interpret_visitor.hpp:337–344`. -/
def currentMemory (m : Module) (pages : UInt32) : Value :=
  if m.isMemory64 then .i64 pages.toUInt64 else .i32 pages

/-! ### Plain instructions -/

/-- Text of the trap of `set_global` on an operand of another alternative;
`execution_context.hpp:1659–1690`. -/
def setGlobalText : Kind → String
  | .i32 => "expected i32 global type"
  | .i64 => "expected i64 global type"
  | .f32 => "expected f32 global type"
  | .f64 => "expected f64 global type"
  | .v128 => "expected v128 global type"

/-- Traps of an instruction before it computes: only `set_global` looks at the
alternative of its operand. -/
def operandCheck (o : Operands) (i : Instr) (vals : List Value) : Option Trap :=
  match i, vals with
  | .setGlobal _, [v] =>
    if o.takes = [v.kind] then none else some ⟨.interpreter, setGlobalText v.kind⟩
  | _, _ => none

/-- Result operands of a plain instruction and the context it leaves. -/
def plainResult (env : Env W) (c : Context W) (i : Instr) (o : Operands) (effective : UInt64)
    (vals : List Value) : Except Trap (Context W × List Value) :=
  match i with
  | .currentMemory => .ok (c, [currentMemory env.module c.pages])
  | .growMemory =>
    match growLinearMemory env c ((vals.headD (.i32 0)).toUi32) with
    | .error t => .error t
    | .ok (c, result) => .ok (c, [growResult env.module result])
  | .const v => .ok (c, [v])
  | i =>
    match env.ops.eval i effective vals c.world with
    | .error t => .error t
    | .ok (w, bits) => .ok ({ c with world := w }, o.gives.map fun k => .ofBits k bits)

/-- An instruction that takes its operands from the stack and pushes its result. -/
def visitPlain (env : Env W) (c : Context W) (i : Instr) (o : Operands) : Outcome (Context W) :=
  if c.os.length < o.takes.length then .trap c underflow
  else
    let vals := c.os.take o.takes.length
    let rest := c.os.drop o.takes.length
    match operandCheck o i vals with
    | some t => .trap c t
    | none =>
      match c.accessMemory i vals with
      | (c, .error t) => .trap c t
      | (c, .ok effective) =>
        match plainResult env c i o effective vals with
        | .error t => .trap c t
        | .ok (c, results) => .next { c with os := results ++ rest, pc := c.pc.inc }

/-- An instruction outside control flow, locals and exceptions. -/
def visitOperands (env : Env W) (c : Context W) (i : Instr) : Outcome (Context W) :=
  match plainOperands env.module i with
  | none => .undefined
  | some o => visitPlain env c i o

/-- `memory.copy`, `memory.fill` and `table.copy` move one element per step and count
their operands down in place; `interpret_visitor.hpp:3001–3082`. `downSrc` says that a
step at the front also advances the source operand, and `backward` that the elements are
moved from the back. -/
def visitBulk (env : Env W) (c : Context W) (i : Instr) (downSrc : Bool)
    (backward : UInt32 → UInt32 → Bool) : Outcome (Context W) :=
  match c.os with
  | size :: src :: dst :: rest =>
    match env.ops.eval i 0 [size, src, dst] c.world with
    | .error t => .trap c t
    | .ok (w, _) =>
      let c := { c with world := w }
      let n := size.toUi32
      if n = 0 then .next { c with os := rest, pc := c.pc.inc }
      else if backward dst.toUi32 src.toUi32 then
        .next { c with os := .i32 (n - 1) :: src :: dst :: rest }
      else
        let src := if downSrc then .i32 (src.toUi32 + 1) else src
        .next { c with os := .i32 (n - 1) :: src :: .i32 (dst.toUi32 + 1) :: rest }
  | _ => .undefined

/-! ### Calls -/

/-- Call a function; `execution_context.hpp:1411–1472`. The deferred reads are validated
before a host function is entered. -/
def call (env : Env W) (c : Context W) (index : Nat) : Outcome (Context W) :=
  if index < env.module.importedFunctionsSize then
    match callHost env.toProgram c.toControl index with
    | .next k => ({ c with toControl := k } : Context W).withValidation fun c =>
        .host { c with events := c.events ++ [.enterHost index] } index false
    | o => c.lift o
  else
    c.withGas env.gasHandler (env.functionCost index) fun c =>
      c.lift (callWasm env.toProgram c.toControl index)

/-- Tail call a function; `execution_context.hpp:1474–1551`. The depth the caller's frame
uses is given back first, and deferred reads are not validated. -/
def tailCall (env : Env W) (c : Context W) (index : Nat) : Outcome (Context W) :=
  match c.as with
  | [] => .undefined
  | cur :: _ =>
    let c := { c with remainingCallDepth := c.remainingCallDepth + cur.frameSize }
    if index < env.module.importedFunctionsSize then
      match tailCallHost env.toProgram c.toControl index with
      | .next k => .host { c with
          toControl := k
          events := c.events ++ [.enterHost index] } index true
      | o => c.lift o
    else
      c.withGas env.gasHandler (env.functionCost index) fun c =>
        c.lift (tailCallWasm env.toProgram c.toControl index)

/-- Resolve the callee of an indirect call, with its traps;
`interpret_visitor.hpp:107–117`. The type and table index share one word. -/
def withCallee (env : Env W) (c : Context W) (index : UInt32)
    (f : Nat → Context W → Outcome (Context W)) : Outcome (Context W) :=
  match c.os with
  | [] => .trap c underflow
  | slot :: rest =>
    let c := { c with os := rest }
    match env.ops.tableElem c.world slot.toUi32 (index >>> 16).toNat with
    | .error t => .trap c t
    | .ok fn =>
      if env.module.functionsTotal ≤ fn then
        .trap c ⟨.interpreter, "call_indirect to uninitialized table entry"⟩
      else
        match env.module.types[(index &&& 0xFFFF).toNat]?, env.module.getFunctionType fn with
        | some expected, some actual =>
          if actual = expected then f fn c
          else .trap c ⟨.interpreter, "bad call_indirect type"⟩
        | none, _ => .trap c ⟨.outOfRange, "types.at"⟩
        | _, none => .undefined

/-! ### Dispatch -/

/-- One opcode that reads more than the stacks. -/
def visitContext (env : Env W) (c : Context W) : Instr → Outcome (Context W)
  | .call index => call env c index
  | .callIndirect index => withCallee env c index fun fn c => call env c fn
  | .tailCall index => tailCall env c index
  | .tailCallIndirect index => withCallee env c index fun fn c => tailCall env c fn
  | .memoryCopy => visitBulk env c .memoryCopy true fun dst src => src < dst
  | .memoryFill => visitBulk env c .memoryFill false fun _ _ => false
  | .tableCopy index =>
    visitBulk env c (.tableCopy index) true fun dst src =>
      (index &&& (0xFFFF : UInt32)) = index >>> 16 ∧ src < dst
  | .gasCharge cost => c.withValidation fun c =>
    c.withGas env.gasHandler (UInt64.ofInt cost) fun c =>
      .next { c with toControl := c.advance }
  | i => visitOperands env c i

/-- One opcode at position `n`. -/
def visitInstr (env : Env W) (c : Context W) (n : Nat) (i : Instr) : Outcome (Context W) :=
  match visitControl env.toProgram c.toControl n i with
  | some o => c.lift o
  | none => visitContext env c i

/-- One turn of the dispatch loop; `execution_context.hpp:1947–2027`. -/
def visit (env : Env W) (c : Context W) : Outcome (Context W) :=
  match c.pc with
  | .halt => .leave c
  | .null => .undefined
  | .code n =>
    match env.code[n]? with
    | none => .undefined
    | some i => visitInstr env c n i

end PsiServe.Interp
