import PsiServe.Interp.Context

/-!
# Steps on the stacks

The `operator()` overloads of
`psizam/detail/interpret_visitor.hpp` that touch only the stacks:
control flow, locals and exceptions, and the frame changes of `call` and `tail_call` of
`psizam/detail/execution_context.hpp:1411–1551`.
-/

namespace PsiServe.Interp

open Wasm Bitcode

/-! ### Frames -/

/-- Type whose values an alternative is accepted for at a host call;
`execution_context.hpp:1702–1721`. -/
def kindType : Kind → ValueType
  | .i32 => types.i32
  | .i64 => types.i64
  | .f32 => types.f32
  | .f64 => types.f64
  | .v128 => types.v128

/-- Operands of a host call have exactly the parameter types; `execution_context.hpp:1699`. -/
def typeCheck (ft : FuncType) (os : List Value) : Bool :=
  ((os.take ft.paramTypes.length).reverse.map fun v => kindType v.kind) = ft.paramTypes

/-- Locals of a defined function, top of the stack first; `execution_context.hpp:1918–1937`. -/
def setupLocals (p : Program) (func : Nat) : List Value :=
  match p.locals[func - p.module.importedFunctionsSize]? with
  | none => []
  | some locals => ((localTypes locals).map localInit).reverse

/-- Entry of a defined function; `types.hpp:412–415`. -/
def functionEntry (p : Program) (func : Nat) : Pc :=
  match p.functionPc[func - p.module.importedFunctionsSize]? with
  | none => .null
  | some pc => .code pc

/-- Push a frame for a defined function whose arguments are on the stack;
`execution_context.hpp:1610–1622`. -/
def pushCall (p : Program) (k : Control) (index : Nat) (returnPc : Pc) : Outcome Control :=
  match p.module.getFunctionType index with
  | none => .undefined
  | some ft =>
    let frameSize := p.functionStackSize index
    if k.remainingCallDepth < frameSize then .trap k stackOverflow
    else if k.os.length < ft.paramTypes.length then .undefined
    else .next { k with
      remainingCallDepth := k.remainingCallDepth - frameSize
      as := ⟨returnPc, k.lastOpIndex, frameSize⟩ :: k.as
      lastOpIndex := k.os.length - ft.paramTypes.length }

/-- Put the locals of a function on the stack and go to its entry;
`execution_context.hpp:1468–1469`. -/
def enterFunction (p : Program) (k : Control) (index : Nat) : Control :=
  { k with
    os := setupLocals p index ++ k.os
    pc := functionEntry p index }

/-- Call a defined function; `execution_context.hpp:1466–1470`. -/
def callWasm (p : Program) (k : Control) (index : Nat) : Outcome Control :=
  match pushCall p k index k.pc.inc with
  | .next k => .next (enterFunction p k index)
  | o => o

/-- Frame and argument pops of a host function call; `execution_context.hpp:1427–1450`. -/
def callHost (p : Program) (k : Control) (index : Nat) : Outcome Control :=
  match p.module.getFunctionType index with
  | none => .undefined
  | some ft =>
    if k.os.length < ft.paramTypes.length then .undefined
    else if typeCheck ft k.os then
      let frameSize := p.functionStackSize index
      if k.remainingCallDepth < frameSize then .trap k stackOverflow
      else
        let params := (p.hostSignature index).paramTypes.length
        if k.os.length < params then .trap k underflow
        else .next { k with
          pc := k.pc.inc
          remainingCallDepth := k.remainingCallDepth - frameSize
          as := ⟨.null, 0, frameSize⟩ :: k.as
          os := k.os.drop params }
    else .trap k ⟨.interpreter, "function param type mismatch"⟩

/-- Argument pops of a host function tail call: the frame of the caller goes once the host
function has returned; `execution_context.hpp:1479–1498`. -/
def tailCallHost (p : Program) (k : Control) (index : Nat) : Outcome Control :=
  match p.module.getFunctionType index with
  | none => .undefined
  | some ft =>
    if k.os.length < ft.paramTypes.length then .trap k underflow
    else .ofOption
      (({ k with os := k.os.drop ft.paramTypes.length } : Control).eatOperands k.lastOpIndex)

/-- Replace the frame of the caller by that of a defined function;
`execution_context.hpp:1526–1551`. -/
def tailCallWasm (p : Program) (k : Control) (index : Nat) : Outcome Control :=
  match k.as, p.module.getFunctionType index with
  | cur :: rest, some ft =>
    let frameSize := p.functionStackSize index
    let params := ft.paramTypes.length
    if k.remainingCallDepth < frameSize then .trap k stackOverflow
    else if k.os.length < params then .trap k underflow
    else
      match ({ k with os := k.os.drop params } : Control).eatOperands k.lastOpIndex with
      | none => .undefined
      | some d => .next (enterFunction p
          { d with
            remainingCallDepth := k.remainingCallDepth - frameSize
            os := k.os.take params ++ d.os
            lastOpIndex := d.os.length
            as := { cur with frameSize := frameSize } :: rest } index)
  | _, _ => .undefined

/-! ### Exceptions -/

/-- Whether a clause catches a tag; `interpret_visitor.hpp:3282–3291`. -/
def EhCatchEntry.catches (e : EhCatchEntry) (tag : Nat) : Bool :=
  if e.kind = 0 ∨ e.kind = 1 then e.tagIndex = tag else e.kind = 2 ∨ e.kind = 3

/-- First clause of a frame that catches a tag, in clause order;
`interpret_visitor.hpp:3278–3293`. The inner option is `none` without a match, the outer
one when the frame points beyond the stored clauses. -/
def findCatch (catches : List EhCatchEntry) (tag : Nat) :
    (first count : Nat) → Option (Option EhCatchEntry)
  | _, 0 => some none
  | first, count + 1 =>
    match catches[first]? with
    | none => none
    | some e => if e.catches tag then some (some e) else findCatch catches tag (first + 1) count

/-- Alternative a payload value is pushed as; `interpret_visitor.hpp:3319–3325`. -/
def payloadValue (t : ValueType) (bits : UInt64) : Value :=
  if t = types.i32 then .i32 bits.toUInt32
  else if t = types.f32 then .f32 bits.toUInt32
  else if t = types.f64 then .f64 bits
  else .i64 bits

/-- Payload of a caught exception, first value first; positions beyond the tag's
parameters count as `i64`. `interpret_visitor.hpp:3313–3327`. -/
def payloadValues : List ValueType → List UInt64 → List Value
  | _, [] => []
  | [], b :: bs => payloadValue types.i64 b :: payloadValues [] bs
  | t :: ts, b :: bs => payloadValue t b :: payloadValues ts bs

/-- Continue at a handler: unwind calls and operands, push the payload and the exception
reference the clause asks for, and leave the EH frames the target label lies outside of;
`interpret_visitor.hpp:3294–3352`. -/
def enterHandler (p : Program) (k : Control) (frame : EhFrame) (e : EhCatchEntry)
    (tag : Nat) (payload : List UInt64) : Outcome Control :=
  match (k.unwindCallStackTo frame.callDepth).eatOperands e.operandDepth,
      p.module.tagType tag with
  | some k, some ft =>
    let values := if e.kind = 0 ∨ e.kind = 1 then payloadValues ft.paramTypes payload else []
    let ref : List Value :=
      if e.kind = 1 ∨ e.kind = 3 then [.i64 (UInt64.ofNat k.ehExnStack.length)] else []
    let exns := if e.kind = 1 ∨ e.kind = 3 then k.ehExnStack ++ [⟨tag, payload⟩]
      else k.ehExnStack
    let k := { k with os := (values ++ ref).reverse ++ k.os, ehExnStack := exns }
    .next { k.leaveEhFrame.leaveEhFrames e.ehLeaveCount with pc := .code e.handlerPc }
  | _, _ => .undefined

/-- Search the EH frames from the top, leaving those without a matching clause;
`interpret_visitor.hpp:3272–3362`. -/
def dispatchException (p : Program) (tag : Nat) (payload : List UInt64) :
    List EhFrame → Control → Outcome Control
  | [], k => .trap k ⟨.interpreter, "unhandled wasm exception"⟩
  | frame :: outer, k =>
    match findCatch k.ehCatches tag frame.firstCatch frame.catchCount with
    | none => .undefined
    | some (some e) => enterHandler p k frame e tag payload
    | some none =>
      dispatchException p tag payload outer (k.leaveEhFrame.unwindCallStackTo frame.callDepth)

/-- Throw a tag with the payload on the stack; `interpret_visitor.hpp:3191–3207`. -/
def throwTag (p : Program) (k : Control) (tag : Nat) : Outcome Control :=
  match p.module.tagType tag with
  | none => .undefined
  | some ft =>
    let n := ft.paramTypes.length
    if k.os.length < n then .trap k underflow
    else
      let payload := (k.os.take n).reverse.map Value.toUi64
      dispatchException p tag payload k.ehStack { k with os := k.os.drop n }

/-- Throw a caught exception again; `interpret_visitor.hpp:3210–3216`. -/
def throwRef (p : Program) (k : Control) : Outcome Control :=
  k.withPop fun v k =>
    if v.toUi32 = 0xFFFFFFFF then .trap k ⟨.interpreter, "null exception reference"⟩
    else
      match k.ehExnStack[v.toUi32.toNat]? with
      | none => .trap k ⟨.interpreter, "invalid exception reference index"⟩
      | some exn => dispatchException p exn.tagIndex exn.values k.ehStack k

/-- Clauses of a `try_table` from the descriptor pairs after it;
`interpret_visitor.hpp:3248–3269`. -/
def readClauses (code : List Instr) (tryDepth : Nat) : (pc count : Nat) → Option (List EhCatchEntry)
  | _, 0 => some []
  | pc, count + 1 =>
    match code[pc]?, code[pc + 1]? with
    | some (.tryTable data depthChange), some (.tryTable leaves handlerPc) =>
      match readClauses code tryDepth (pc + 2) count with
      | none => none
      | some rest => some
          (⟨(data >>> 24).toUInt8, (data &&& 0x00FFFFFF).toNat, handlerPc,
            -- a difference of two `uint32_t`
            if depthChange ≤ tryDepth then tryDepth - depthChange
            else tryDepth + 2 ^ 32 - depthChange,
            leaves.toNat⟩ :: rest)
    | _, _ => none

/-- Enter a `try_table`; without clauses it is a plain block.
`interpret_visitor.hpp:3219–3270`. -/
def enterTryTable (p : Program) (k : Control) (n numClauses : Nat) : Outcome Control :=
  if numClauses = 0 then .next k.advance
  else
    match readClauses p.code k.os.length (n + 1) numClauses with
    | none => .undefined
    | some clauses => .next { k with
        ehStack := ⟨k.callDepth, numClauses, k.ehCatches.length⟩ :: k.ehStack
        ehCatches := k.ehCatches ++ clauses
        pc := .code (n + 1 + 2 * numClauses) }

/-! ### Dispatch -/

/-- One opcode at position `n` that touches only the stacks; `none` for the others. -/
def visitControl (p : Program) (k : Control) (n : Nat) : Instr → Option (Outcome Control)
  | .unreachable => some (.trap k ⟨.interpreter, "unreachable"⟩)
  | .nop => some (.next k.advance)
  | .if_ pc => some <| k.withPop fun v k =>
    if v.toUi32 = 0 then .next { k with pc := .code pc } else .next k.advance
  | .else_ pc => some (.next { k with pc := .code pc })
  | .br data pc => some (.ofOption (k.jump data pc))
  | .brIf data pc stacksz => some <| k.withPop fun v k =>
    match v with
    | .i32 bits =>
      if bits = 0 then .next k.advance else .ofOption ((k.leaveEhFrames stacksz).jump data pc)
    | _ => .trap k ⟨.invalidElement, "should be an i32 type"⟩
  | .brTable size table => some <| k.withPop fun v k =>
    match table[min v.toUi32.toNat size]? with
    | none => .undefined
    | some e => .ofOption ((k.leaveEhFrames e.ehLeaveCount).jump e.stackPop e.pc)
  | .return_ data pc _ => some (k.applyPopCall data (pc % 2 ^ 16))
  | .catch_ _ pc => some (.next { k with pc := .code pc })
  | .catchAll pc => some (.next { k with pc := .code pc })
  | .throw_ tag => some (throwTag p k tag)
  | .rethrow _ => some (.trap k ⟨.interpreter, "unhandled wasm exception (rethrow)"⟩)
  | .throwRef => some (throwRef p k)
  | .delegate _ => some (.next k.leaveEhFrame.advance)
  | .tryTable data _ => some (enterTryTable p k n data.toNat)
  | .drop => some <| k.withPop fun _ k => .next k.advance
  | .select => some <| k.withPop fun b k => k.withPop fun v2 k =>
    match k.os with
    | [] => .undefined
    | v1 :: rest => .next { k.advance with os := (if b.toUi32 = 0 then v2 else v1) :: rest }
  | .getLocal i => some <|
    match k.getOperand i with
    | none => .undefined
    | some v => .next { k.advance with os := v :: k.os }
  | .setLocal i => some <| k.withPop fun v k => .ofOption (k.advance.setOperand i v)
  | .teeLocal i => some <| k.withPop fun v k =>
    match k.advance.setOperand i v with
    | none => .undefined
    | some k => .next { k with os := v :: k.os }
  | .exit => some (.leave k)
  | .brTableData => some .undefined
  | .error => some .undefined
  | _ => none

end PsiServe.Interp
