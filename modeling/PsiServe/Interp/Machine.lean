import PsiServe.Interp.Visit

/-!
# Executions and host functions

`execute` of `psizam/detail/execution_context.hpp:1770–1875` and
the host function calls of `execution_context.hpp:1427–1512`. A machine is the shared
execution context together with the native calls in progress: a host function runs on top
of the `execute` that called it and may call `execute` again on the same context. What
host functions do to the context is a choice of the run.
-/

namespace PsiServe.Interp

open Wasm Bitcode

variable {W : Type}

/-- What `execute` saves of the context and restores when it is left;
`execution_context.hpp:1774–1802`. -/
structure Saved where
  lastOpIndex : Nat
  remainingCallDepth : Nat
  pc : Pc
  exiting : Bool
  asIndex : Nat
  osIndex : Nat
  ehStackSize : Nat
  ehCatchesSize : Nat
  ehExnSize : Nat
deriving DecidableEq

/-- The three places that call a host function: `call`, `tail_call` and `execute`. -/
inductive HostEntry where
  | call | tail | direct
deriving DecidableEq

/-- A native call in progress; `savedDepth` is the call depth `call` restores. -/
inductive NativeFrame where
  | execute (func : Nat) (saved : Saved)
  | host (func : Nat) (entry : HostEntry) (savedDepth : Nat)
deriving DecidableEq

/-- The native calls, innermost first, the context they share, and how the execution that
finished last ended. -/
structure Machine (W : Type) where
  stack : List NativeFrame
  ctx : Context W
  result : Option (Except Trap (Option Value))

/-- Actions of a run: the embedder or a host function calls `execute`, the interpreter
visits one opcode, or the running host function accesses memory, asks to exit, throws or
returns. -/
inductive Label (W : Type) where
  | enter (func : Nat) (args : List Value)
  | visit
  | hostMemory (w : W)
  | hostExit
  | hostThrow (t : Trap)
  | hostReturn (bits : UInt64)

/-- A context before its first execution; `execution_context.hpp:1398–1402`. -/
def Context.fresh (mem : MemState) (pages : UInt32) (maxCallDepth : Nat) (gas : Gas.GasState)
    (pool : Gas.GasPool) (w : W) : Context W where
  pc := .null
  exiting := false
  asIndex := 0
  osIndex := 0
  os := []
  lastOpIndex := 0
  as := []
  remainingCallDepth := maxCallDepth
  ehStack := []
  ehCatches := []
  ehExnStack := []
  mem := mem
  pages := pages
  gas := gas
  pool := pool
  world := w
  events := []

/-- `execution_context.hpp:1774–1789`. -/
def Context.save (c : Context W) : Saved where
  lastOpIndex := c.lastOpIndex
  remainingCallDepth := c.remainingCallDepth
  pc := c.pc
  exiting := c.exiting
  asIndex := c.asIndex
  osIndex := c.osIndex
  ehStackSize := c.ehStack.length
  ehCatchesSize := c.ehCatches.length
  ehExnSize := c.ehExnStack.length

/-- `std::vector::resize` of a list with its last element first: missing elements are
value-initialised. -/
def resizeTop {α : Type} (dflt : α) (l : List α) (n : Nat) : List α :=
  List.replicate (n - l.length) dflt ++ l.drop (l.length - n)

/-- `std::vector::resize`. -/
def resize {α : Type} (dflt : α) (l : List α) (n : Nat) : List α :=
  l.take n ++ List.replicate (n - l.length) dflt

/-- Scope guard of `execute`; `execution_context.hpp:1791–1802`. Cutting a stack to more
than its live elements would expose stale ones. -/
def Context.cleanup (c : Context W) (s : Saved) : Option (Context W) :=
  if c.osIndex ≤ c.os.length ∧ c.asIndex ≤ c.as.length then
    some { c with
      os := c.os.drop (c.os.length - c.osIndex)
      as := c.as.drop (c.as.length - c.asIndex)
      ehStack := resizeTop ⟨0, 0, 0⟩ c.ehStack s.ehStackSize
      ehCatches := resize ⟨0, 0, 0, 0, 0⟩ c.ehCatches s.ehCatchesSize
      ehExnStack := resize ⟨0xFFFFFFFF, []⟩ c.ehExnStack s.ehExnSize
      pc := s.pc
      exiting := s.exiting
      asIndex := s.asIndex
      osIndex := s.osIndex
      lastOpIndex := s.lastOpIndex
      remainingCallDepth := s.remainingCallDepth }
  else none

/-- Leave an execution with a result or an exception. -/
def finish (outer : List NativeFrame) (c : Context W) (s : Saved)
    (r : Except Trap (Option Value)) : Option (Machine W) :=
  match c.cleanup s with
  | none => none
  | some c => some ⟨outer, c, some r⟩

/-- Value `execute` returns: the first result; `execution_context.hpp:1863–1874`. -/
def executeResult (env : Env W) (c : Context W) (func : Nat) : Option Value :=
  match env.module.getFunctionType func with
  | none => none
  | some ft =>
    if ft.returnCount ≠ 0 ∧ c.exiting = false then c.os[ft.returnCount - 1]? else none

/-- Operand a host function's result is pushed as; only the first of its results and only
the four number types. `execution_context.hpp:1453–1461`. -/
def hostResult (signature : FuncType) (bits : UInt64) : List Value :=
  match signature.returnTypes with
  | [] => []
  | t :: _ =>
    if t = types.i32 then [.i32 bits.toUInt32]
    else if t = types.i64 then [.i64 bits]
    else if t = types.f32 then [.f32 bits.toUInt32]
    else if t = types.f64 then [.f64 bits]
    else []

/-- Argument check of `execute`; `execution_context.hpp:574–578`. -/
def typeCheckArgs (ft : FuncType) (args : List Value) : Option Trap :=
  if args.length ≠ ft.paramTypes.length then
    some ⟨.interpreter, "wrong number of arguments"⟩
  else if (args.map fun v => kindType v.kind) ≠ ft.paramTypes then
    some ⟨.interpreter, "unexpected argument type"⟩
  else none

/-- Start of an execution once its frame is pushed; `execution_context.hpp:1822–1860`. A
host import is called at once, without validating deferred reads. -/
def startExecution (env : Env W) (func : Nat) (c : Context W) : Outcome (Context W) :=
  if func < env.module.importedFunctionsSize then
    let params := (env.hostSignature func).paramTypes.length
    if c.os.length < params then .trap c underflow
    else .host { c with
      os := c.os.drop params
      events := c.events ++ [.enterHost func] } func false
  else
    c.withGas env.gasHandler (env.functionCost func) fun c => .next
      { c with toControl := enterFunction env.toProgram c.toControl func }

/-- Arguments, entry frame and start of an execution; `execution_context.hpp:1805–1860`. -/
def beginExecution (env : Env W) (func : Nat) (args : List Value) (c : Context W) :
    Outcome (Context W) :=
  match env.module.getFunctionType func with
  | none => .undefined
  | some ft =>
    match typeCheckArgs ft args with
    | some t => .trap c t
    | none =>
      match pushCall env.toProgram { c.toControl with os := args.reverse ++ c.os } func .halt with
      | .next k => startExecution env func { c with toControl := k }
      | o => c.lift o

namespace Machine

/-- Call `execute`; `execution_context.hpp:1770–1860`. A call by the embedder starts a new
record of observations. -/
def enter (env : Env W) (m : Machine W) (func : Nat) (args : List Value) : Option (Machine W) :=
  let c := if m.stack = [] then { m.ctx with events := [] } else m.ctx
  if 0xFFFFFFFF ≤ func then
    some { m with
      ctx := c
      result := some (.error ⟨.interpreter, "cannot execute function, function not found"⟩) }
  else
    let saved := c.save
    match beginExecution env func args
        { c with asIndex := c.as.length, osIndex := c.os.length } with
    | .next c => some { m with stack := .execute func saved :: m.stack, ctx := c }
    | .host c _ _ => some { m with
        stack := .host func .direct c.remainingCallDepth :: .execute func saved :: m.stack
        ctx := c }
    | .trap c t => finish m.stack c saved (.error t)
    | .leave _ => none
    | .undefined => none

/-- The interpreter loop takes one turn. -/
def visit (env : Env W) (m : Machine W) (func : Nat) (saved : Saved)
    (outer : List NativeFrame) : Option (Machine W) :=
  match Interp.visit env m.ctx with
  | .next c => some { m with ctx := c }
  | .host c f tail => some { m with
      stack := .host f (if tail then .tail else .call) m.ctx.remainingCallDepth :: m.stack
      ctx := c }
  | .trap c t => finish outer c saved (.error t)
  | .leave c => finish outer c saved (.ok (executeResult env c func))
  | .undefined => none

/-- A host function returns to the place that called it; `execution_context.hpp:1453–1464`,
`1499–1512`, `1846–1856`. -/
def hostReturn (env : Env W) (m : Machine W) (f : Nat) (entry : HostEntry) (savedDepth : Nat)
    (func : Nat) (saved : Saved) (outer : List NativeFrame) (bits : UInt64) :
    Option (Machine W) :=
  let c := { m.ctx with os := hostResult (env.hostSignature f) bits ++ m.ctx.os }
  match entry, c.as with
  | .direct, _ => finish outer c saved (.ok (executeResult env c func))
  | _, [] => finish outer c saved (.error underflow)
  | .call, _ :: rest => some { m with
      stack := .execute func saved :: outer
      ctx := { c with as := rest, remainingCallDepth := savedDepth } }
  | .tail, af :: rest => some { m with
      stack := .execute func saved :: outer
      ctx := { c with as := rest, pc := af.pc, lastOpIndex := af.lastOpIndex } }

/-- One step of a run. -/
def step (env : Env W) (m : Machine W) : Label W → Option (Machine W)
  | .enter func args =>
    match m.stack with
    | .execute _ _ :: _ => none
    | _ => m.enter env func args
  | .visit =>
    match m.stack with
    | .execute func saved :: outer => m.visit env func saved outer
    | _ => none
  | .hostMemory w =>
    match m.stack with
    | .host _ _ _ :: _ => some { m with ctx := { m.ctx with world := w } }
    | _ => none
  | .hostExit =>
    match m.stack with
    | .host _ _ _ :: _ => some { m with ctx := { m.ctx with pc := .halt, exiting := true } }
    | _ => none
  | .hostThrow t =>
    match m.stack with
    | .host _ _ _ :: .execute _ saved :: outer => finish outer m.ctx saved (.error t)
    | _ => none
  | .hostReturn bits =>
    match m.stack with
    | .host f entry depth :: .execute func saved :: outer =>
      m.hostReturn env f entry depth func saved outer bits
    | _ => none

end Machine
end PsiServe.Interp
