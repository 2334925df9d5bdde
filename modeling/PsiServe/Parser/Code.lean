import PsiServe.Interp.Context
import PsiServe.Parser.Body

/-!
# The code section

`parse_function_body` and `write_code_out` of
`psizam/detail/parser.hpp:1020–1061` and `3368–3423` with the
prologue, epilogue and `finalize` of the bitcode writer
(`bitcode_writer.hpp:466–497`): the bitcode of all functions in one sequence of slots.
-/

namespace PsiServe.Parser

open Base Wasm Bitcode

/-- A function body: its locals and the bytes of its code; `types.hpp:294–316`. -/
structure FunctionBody where
  locals : List LocalEntry
  code : List UInt8

namespace FunctionBody

/-- Number of declared locals. -/
def localsCount (b : FunctionBody) : Nat := (b.locals.map LocalEntry.count).sum

/-- Checks on a body before its code is parsed; `parser.hpp:1020–1061`, `1188–1198`. -/
def check (o : Options) (ft : FuncType) (b : FunctionBody) : Except ParseError Unit := do
  require (b.locals.length ≤ o.maxLocalSets.toNat) "Number of local sets exceeds limit"
  require (b.code.getLast? = some 0x0B) "failed parsing function body, expected 'end'"
  require (ft.paramTypes.length + b.localsCount ≤ 0xFFFFFFFF) "too many locals"

/-- What checking the body depends on. -/
def env (o : Options) (m : Module) (ft : FuncType) (b : FunctionBody) : BodyEnv :=
  ⟨o, m, ft, ft.paramTypes ++ Interp.localTypes b.locals⟩

end FunctionBody

/-- How a body was parsed. -/
structure Parsed where
  env : BodyEnv
  trace : Trace
  final : State

/-- The bitcode of the functions so far: `code` is all slots, `functionPc` where each
function starts, `baseOffset` what the writer takes for the start of the next one.
`parsed` is recorded here and not kept by the program. -/
structure CodeOut where
  code : List Instr
  functionPc : List Nat
  baseOffset : Nat
  nested : Nat
  gasExtra : List Int
  parsed : List Parsed

/-- The `return` at the end of a function; `bitcode_writer.hpp:484`. -/
def epilogue (ft : FuncType) (b : FunctionBody) (stackUsage : Nat) : Instr :=
  .return_ (b.localsCount + ft.paramTypes.length) ft.returnCount stackUsage

/-- Depth a frame of the function uses; `parser.hpp:3194–3197`,
`bitcode_writer.hpp:512–520`. -/
def frameUsage (o : Options) (tr : Tracker) : Except ParseError Nat :=
  if o.hasMaxStackBytes then do
    require (tr.stackUsage.toNat + 16 ≤ 0xFFFFFFFF) "Sorry, not implemented."
    return tr.stackUsage.toNat + 16
  else .ok 1

/-- Slots of a finished function and where in them it starts. A full buffer is replaced by
a new one for the `return`, and what was emitted stays in the old one: the new slots are
zero, which is the first opcode. `bitcode_writer.hpp:478–497`, `vector.hpp:23–30`. -/
def finalize (w : Writer) (ret : Instr) : List Instr × Nat :=
  if w.opIndex < w.size then (w.code ++ [ret], 0)
  else (w.code ++ List.replicate w.opIndex .unreachable ++ [ret], w.opIndex)

/-- One function; `parser.hpp:3409–3419`. -/
def writeFunction (o : Options) (m : Module) (out : CodeOut) (f : Nat × FunctionBody) :
    Except ParseError CodeOut :=
  match m.types[f.1]? with
  | none => .error ⟨.outOfRange, "types.at"⟩
  | some ft => do
    f.2.check o ft
    let bytes ← LocalBytes.ofFunction o ft f.2.locals
    let (trace, st) ← parseFunctionBodyCode (f.2.env o m ft) bytes
      ⟨out.baseOffset, f.2.code.length, [], 0⟩ out.nested f.2.code
    let usage ← frameUsage o st.tracker
    let (slots, start) := finalize st.writer (epilogue ft f.2 usage)
    return {
      code := out.code ++ slots
      functionPc := out.functionPc ++ [out.code.length + start]
      baseOffset := out.baseOffset + st.writer.opIndex + 1
      nested := st.nested
      gasExtra := out.gasExtra ++ [st.writer.prologueGasExtra]
      parsed := out.parsed ++ [⟨f.2.env o m ft, trace, st⟩] }

/-- A function that was written. -/
theorem writeFunction_ok {o : Options} {m : Module} {out out' : CodeOut} {f : Nat × FunctionBody}
    (h : writeFunction o m out f = .ok out') :
    ∃ ft p usage, m.types[f.1]? = some ft ∧ p.env = f.2.env o m ft ∧
      (∃ localBytes, parseFunctionBodyCode p.env localBytes
        ⟨out.baseOffset, f.2.code.length, [], 0⟩ out.nested f.2.code = .ok (p.trace, p.final)) ∧
      out'.code = out.code ++ (finalize p.final.writer (epilogue ft f.2 usage)).1 ∧
      out'.functionPc = out.functionPc ++
        [out.code.length + (finalize p.final.writer (epilogue ft f.2 usage)).2] ∧
      out'.baseOffset = out.baseOffset + p.final.writer.opIndex + 1 ∧
      out'.parsed = out.parsed ++ [p] := by
  unfold writeFunction at h
  split at h
  · cases h
  next ft hft =>
    have h := then_eq_ok h
    obtain ⟨localBytes, -, h⟩ := bind_eq_ok.mp h
    obtain ⟨⟨trace, st⟩, hparse, h⟩ := bind_eq_ok.mp h
    obtain ⟨usage, -, h⟩ := bind_eq_ok.mp h
    cases h
    exact
      ⟨ft, ⟨f.2.env o m ft, trace, st⟩, usage, hft, rfl, ⟨localBytes, hparse⟩, rfl, rfl, rfl, rfl⟩

/-- Positions relative to the start of the first function, as the interpreter counts
them; `execution_context.hpp:1728–1730`. -/
def CodeOut.relative (out : CodeOut) : CodeOut :=
  let start := out.functionPc.headD 0
  { out with code := out.code.drop start, functionPc := out.functionPc.map (· - start) }

/-- The whole code section; `parser.hpp:3359–3423`. -/
def writeCodeOut (o : Options) (m : Module) (bodies : List FunctionBody) :
    Except ParseError CodeOut := do
  require (bodies.length = m.functions.length)
    "code section must have the same size as the function section"
  let out ← foldSteps (writeFunction o m) ⟨[], [], 0, 0, [], []⟩ (m.functions.zip bodies)
  return out.relative

/-- A program whose code the parser wrote from accepted bodies. -/
structure Compiled (o : Options) (bodies : List FunctionBody) (out : CodeOut)
    (p : Interp.Program) : Prop where
  locals : p.locals = bodies.map FunctionBody.locals
  written : writeCodeOut o p.module bodies = .ok out
  code : p.code = out.code
  functionPc : p.functionPc = out.functionPc

end PsiServe.Parser
