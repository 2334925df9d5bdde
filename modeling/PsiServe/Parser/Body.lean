import PsiServe.Bitcode.Writer
import PsiServe.Parser.Signature

/-!
# Checking and emitting function bodies

`parse_function_body_code_impl` of
`psizam/detail/parser.hpp:1222–3213` with the bitcode writer: the
control stack, the operand types and the emitted opcodes, one instruction at a time. The
debug map and the flag that a module uses exceptions are left out.
-/

namespace PsiServe.Parser

open Base Wasm Bitcode

/-! ### State -/

/-- Target of a label: the position of a loop, or the branches that wait for the end of
the scope; `parser.hpp:1080`. -/
inductive Relocations where
  | label (pos : Nat)
  | branches (bs : List Branch)
deriving DecidableEq

/-- An element of the control stack; `parser.hpp:1071–1085`. -/
structure PcElement where
  operandDepth : UInt32
  expectedResult : ValueType
  labelResult : ValueType
  isIf : Bool
  isTryTable : Bool
  isLoop : Bool
  gasHandle : Option Nat
  relocations : Relocations
  expectedResults : List ValueType
  labelResults : List ValueType
  blockParams : List ValueType
deriving DecidableEq

namespace PcElement

/-- Types of a list, or of the single type kept beside it. -/
def typesOr (many : List ValueType) (single : ValueType) : List ValueType :=
  if many ≠ [] then many else if single = types.pseudo then [] else [single]

/-- Operands a branch to the label carries. -/
def labelTypes (e : PcElement) : List ValueType := typesOr e.labelResults e.labelResult

/-- Results of the scope. -/
def resultTypes (e : PcElement) : List ValueType := typesOr e.expectedResults e.expectedResult

end PcElement

/-- Weights of heavy opcodes in front of their charge; `gas_injector.hpp:65–96`. -/
structure GasInjectionState where
  loopStack : List Int
  prepayExtra : Int
deriving DecidableEq

/-- Weight of an opcode above one; `gas_injector.hpp:35–50`. -/
def gasHeavyExtraFor (byte : UInt8) : Int :=
  if 0x7F ≤ byte ∧ byte ≤ 0x82 ∨ byte = 0x95 ∨ byte = 0xA3 then 9
  else if byte = 0x11 then 4
  else 0

namespace GasInjectionState

def onOpcode (g : GasInjectionState) (byte : UInt8) : GasInjectionState :=
  match g.loopStack with
  | [] => { g with prepayExtra := g.prepayExtra + gasHeavyExtraFor byte }
  | x :: rest => { g with loopStack := (x + gasHeavyExtraFor byte) :: rest }

def onLoopEnter (g : GasInjectionState) : GasInjectionState :=
  { g with loopStack := 0 :: g.loopStack }

/-- The weight of the closed loop. -/
def onLoopExit (g : GasInjectionState) : Int × GasInjectionState :=
  match g.loopStack with
  | [] => (0, g)
  | x :: rest => (x, { g with loopStack := rest })

end GasInjectionState

/-- The state while a body is parsed; the innermost scope comes first. `nested` is the
count of the nesting checker, which is shared by all functions. -/
structure State where
  pcStack : List PcElement
  tracker : Tracker
  writer : Writer
  gas : GasInjectionState
  nested : Nat
deriving DecidableEq

/-- A step of the parser. -/
abbrev Step := Except ParseError State

/-- Exceptions of the writer. -/
def emitted {α : Type} : Except EmitError α → Except ParseError α
  | .ok a => .ok a
  | .error .outOfBounds => .error ⟨.vectorOob, "vector read out of bounds"⟩
  | .error .depthTooLarge => .error ⟨.wasmParse, "branch depth too large for encoding"⟩
  | .error .tooManyResults => .error ⟨.wasmParse, "too many branch results"⟩

/-- A writer's error is the parser's. -/
theorem emitted_ok {α : Type} {x : Except EmitError α} {a : α} : emitted x = .ok a ↔ x = .ok a := by
  match x with
  | .ok b | .error .outOfBounds | .error .depthTooLarge | .error .tooManyResults => simp [emitted]

namespace State

variable (st : State)

/-- `parser.hpp:1385–1388`. -/
def checkInBounds : Except ParseError Unit :=
  require (st.pcStack ≠ []) "code after function end"

/-- Scope of a label. -/
def target (label : Nat) (text : String) : Except ParseError PcElement :=
  match st.pcStack[label]? with
  | none => .error ⟨.wasmParse, text⟩
  | some e => .ok e

/-- A label is found in the control stack. -/
theorem target_ok {st : State} {label : Nat} {text : String} {el : PcElement} :
    st.target label text = .ok el ↔ st.pcStack[label]? = some el := by
  unfold target
  cases st.pcStack[label]? with
  | none => simp
  | some c => simp

/-- Emit one opcode. -/
def emit (i : Instr) : Step := do
  let w ← emitted (st.writer.append i)
  return { st with writer := w }

/-- What emitting an opcode does. -/
theorem emit_ok {st st' : State} {i : Instr} (h : st.emit i = .ok st') :
    ∃ w, st.writer.append i = .ok w ∧ st' = { st with writer := w } := by
  obtain ⟨w, hw, h⟩ := bind_eq_ok.mp h
  cases h
  exact ⟨w, emitted_ok.mp hw, rfl⟩

/-- Record the place of a branch to a label, or fill it in; `parser.hpp:1259–1265`. -/
def handleBranchTarget (label : Nat) (b : Branch) : Step := do
  let e ← st.target label "invalid label"
  match e.relocations with
  | .label pos => return { st with writer := st.writer.fixBranch b pos }
  | .branches bs => return { st with
      pcStack := st.pcStack.set label { e with relocations := .branches (bs ++ [b]) } }

/-- Several branches of one opcode, entry by entry. -/
def handleBranchTargets (slot : Nat) : (entry : Nat) → List Nat → State → Step
  | _, [], st => .ok st
  | entry, label :: labels, st => do
    let st ← st.handleBranchTarget label ⟨slot, entry⟩
    handleBranchTargets slot (entry + 1) labels st

/-- Operands to pop for a branch; `parser.hpp:1276`. -/
def depthTo (e : PcElement) : Nat := (st.tracker.operandDepth - e.operandDepth).toNat

/-- Operands and results of a branch to a label, after the results were checked;
`parser.hpp:1271–1297`. -/
def computeDepthChange (o : Options) (label : Nat) : Except ParseError (State × Nat × Nat) := do
  let e ← st.target label "invalid label"
  let tr ← st.tracker.popAll o e.labelTypes.reverse
  let tr ← tr.pushAll o e.labelTypes
  return ({ st with tracker := tr }, st.depthTo e, e.labelTypes.length)

/-- `try_table` scopes with clauses that a branch leaves; `parser.hpp:1363–1373`. -/
def countEhLeaves (label : Nat) : Nat :=
  if label < st.pcStack.length then
    ((st.pcStack.take (label + 1)).filter PcElement.isTryTable).length
  else 0

/-- `parser.hpp:1377–1381`. -/
def emitEhLeaves (label : Nat) : Step := do
  let w ← emitted (st.writer.emitEhLeaves (st.countEhLeaves label))
  return { st with writer := w }

/-- The code after this point is not reached. -/
def startUnreachable : State := { st with tracker := st.tracker.startUnreachable }

/-- `nested_checker.on_control`; `parser.hpp:178–181`. -/
def onControl (o : Options) : Step :=
  match o.psizamMaxNestedStructures with
  | none => .ok st
  | some limit => do
    require (st.nested + 1 ≤ limit) "Nested depth exceeded"
    return { st with nested := st.nested + 1 }

/-- `nested_checker.on_end`; `parser.hpp:182–185`. -/
def onEnd (o : Options) : State :=
  match o.psizamMaxNestedStructures with
  | none => st
  | some _ => { st with nested := if st.nested = 0 then 1 else st.nested - 1 }

/-- Pop and push operands. -/
def exchange (o : Options) (pops pushes : List ValueType) : Step := do
  let tr ← st.tracker.popAll o pops
  let tr ← tr.pushAll o pushes
  return { st with tracker := tr }

/-- Open a scope whose parameters were popped. -/
def enterScope (o : Options) (e : PcElement) : Step := do
  let tr ← st.tracker.pushScope.pushAll o e.blockParams
  { st with tracker := tr, pcStack := e :: st.pcStack }.onControl o

end State

/-- The control stack element of a block type; `parser.hpp:1471–1480`. -/
def BlockType.element (bt : BlockType) (depth : UInt32) : PcElement where
  operandDepth := depth
  expectedResult := bt.single
  labelResult := bt.single
  isIf := false
  isTryTable := false
  isLoop := false
  gasHandle := none
  relocations := .branches []
  expectedResults := bt.results
  labelResults := bt.results
  blockParams := bt.params

/-! ### Scopes -/

/-- The second branch of an `if`, also for one that is not written: the results of the
first are checked and removed, and the `if` jumps behind the `else`.
`parser.hpp:1322–1338`, `1608–1628`. -/
def elseBranch (o : Options) (e : PcElement) (tr : Tracker) (w : Writer) :
    Except ParseError (PcElement × Tracker × Writer) := do
  let tr ← tr.popAll o e.resultTypes.reverse
  let tr ← tr.popScope o types.pseudo
  let tr ← tr.pushScope.pushAll o e.blockParams
  match e.relocations with
  | .label _ => .error ⟨.badVariantAccess, "std::get: wrong index for variant"⟩
  -- an `if` has its own branch in front of all others
  | .branches [] => .error ⟨.badVariantAccess, "relocations[0]"⟩
  | .branches (b :: bs) =>
    let (w, b') ← emitted (w.emitElse b)
    return ({ e with isIf := false, relocations := .branches (b' :: bs) }, tr, w)

/-- Parameters of an `if` without `else` are its results; `parser.hpp:1311–1319`. -/
def checkIf (e : PcElement) : Except ParseError Unit :=
  if e.blockParams ≠ [] ∨ e.expectedResults ≠ [] then
    require (e.blockParams = e.expectedResults)
      "type mismatch: if without else requires matching params and results"
  else
    require (e.expectedResult = types.pseudo)
      "type mismatch: if without else cannot have a return value"

/-- An `if` without `else` passes its parameters through; `parser.hpp:1311–1341`. -/
def closeIf (o : Options) (e : PcElement) (tr : Tracker) (w : Writer) :
    Except ParseError (PcElement × Tracker × Writer) :=
  if e.isIf then
    checkIf e >>= fun _ => if e.blockParams ≠ [] then elseBranch o e tr w else .ok (e, tr, w)
  else .ok (e, tr, w)

/-- The branches that wait for the end of a scope go to the end. -/
def fixRelocations (w : Writer) : Relocations → Writer
  | .label _ => w
  | .branches bs => w.fixBranches bs w.opIndex

/-- Charge the heavy opcodes of a loop at its header; `parser.hpp:1304–1310`. -/
def closeLoop (st : State) (e : PcElement) : State :=
  if e.isLoop then
    { st with
      gas := st.gas.onLoopExit.2
      writer := match e.gasHandle with
        | none => st.writer
        | some slot => st.writer.patchGasImmAddExtra (some slot) st.gas.onLoopExit.1 }
  else st

/-- Close the innermost scope; `parser.hpp:1299–1356`. -/
def exitScope (o : Options) (st : State) : Step :=
  match st.pcStack with
  | [] => .error ⟨.wasmParse, "unexpected end instruction"⟩
  | e :: outer => do
    let st := closeLoop st e
    let (e, tr, w) ← closeIf o e st.tracker st.writer
    let w ← emitted (if e.isTryTable then w.emitEhLeave else .ok w)
    let w := fixRelocations w e.relocations
    let tr ← tr.popScopeMulti o e.resultTypes
    return { st with pcStack := outer, tracker := tr, writer := w }

/-! ### Instructions -/

variable (e : BodyEnv) (st : State)

/-- `parser.hpp:1408–1414`. -/
def stepUnreachable : Step := do
  st.checkInBounds
  let st ← st.emit .unreachable
  return st.startUnreachable

/-- `end`; `last` says that no byte is left. `parser.hpp:1412–1419`. -/
def stepEnd (last : Bool) : Step := do
  st.checkInBounds
  let st ← exitScope e.o st
  require (st.pcStack ≠ [] ∨ last = true) "function too short"
  return st.onEnd e.o

/-- A jump to a label that is checked and emitted; `parser.hpp:1420–1431`, `1748–1761`. -/
def jumpTo (label : Nat) : Step := do
  let (st, depth, count) ← st.computeDepthChange e.o label
  let (w, b) ← emitted (st.writer.emitBr depth count)
  let st ← { st with writer := w }.handleBranchTarget label b
  return st.startUnreachable

/-- `br`; `parser.hpp:1748–1761`. -/
def stepBr (label : Nat) : Step := do
  st.checkInBounds
  let st ← st.emitEhLeaves label
  jumpTo e st label

/-- `return` branches to the scope of the function; `parser.hpp:1420–1431`. -/
def stepReturn : Step := stepBr e st (st.pcStack.length - 1)

/-- `parser.hpp:1762–1776`. -/
def stepBrIf (label : Nat) : Step := do
  st.checkInBounds
  let st ← st.exchange e.o [types.i32] []
  let leaves := st.countEhLeaves label
  let (st, depth, count) ← st.computeDepthChange e.o label
  let (w, b) ← emitted (st.writer.emitBrIf depth count leaves)
  { st with writer := w }.handleBranchTarget label b

/-- A label of a `br_table` has the arity and single result of the default label;
`parser.hpp:1802–1813`. -/
def checkCase (polymorphic : Bool) (default : PcElement) (label : Nat) :
    Except ParseError PcElement := do
  let c ← st.target label "invalid label"
  require (c.labelTypes.length = default.labelTypes.length)
    "br_table labels must have the same arity"
  require (polymorphic = false → c.labelResult = default.labelResult)
    "br_table labels must have the same type"
  return c

/-- Cases of a `br_table` that are emitted without looking at the operands;
`parser.hpp:1815–1830`. -/
def brCases (polymorphic : Bool) (default : PcElement) :
    List Nat → Except ParseError (List Writer.BrCase)
  | [] => .ok []
  | label :: labels => do
    let c ← checkCase st polymorphic default label
    let cs ← brCases polymorphic default labels
    return ⟨st.depthTo c, c.labelTypes.length, st.countEhLeaves label⟩ :: cs

/-- `parser.hpp:1777–1840`. -/
def stepBrTable (labels : List Nat) (default : Nat) : Step := do
  st.checkInBounds
  let st ← st.exchange e.o [types.i32] []
  let target ← st.target default "invalid label"
  let cases ← brCases st st.tracker.isPolymorphic target labels
  let leaves := st.countEhLeaves default
  let (st, depth, count) ← st.computeDepthChange e.o default
  let slot := st.writer.opIndex
  let w ← emitted (st.writer.emitBrTable (cases ++ [⟨depth, count, leaves⟩]))
  let st ← { st with writer := w }.handleBranchTargets slot 0 (labels ++ [default])
  return st.startUnreachable

/-- `block` and `try`; `parser.hpp:1432–1489`, `1634–1670`. -/
def stepBlock (bt : BlockType) : Step := do
  let st ← st.exchange e.o bt.params.reverse []
  st.enterScope e.o (bt.element st.tracker.operandDepth)

/-- `parser.hpp:1634–1670`. -/
def stepTry (bt : BlockType) : Step := do
  st.checkInBounds
  stepBlock e st bt

/-- `parser.hpp:1490–1549`. -/
def stepLoop (bt : BlockType) : Step := do
  let st ← st.exchange e.o bt.params.reverse []
  let pos := st.writer.opIndex
  let w ← emitted st.writer.emitLoop
  let st := { st with writer := w, gas := st.gas.onLoopEnter }
  st.enterScope e.o
    { bt.element st.tracker.operandDepth with
      labelResult := types.pseudo
      isLoop := true
      gasHandle := some pos
      relocations := .label pos
      labelResults := bt.params }

/-- `parser.hpp:1550–1606`. -/
def stepIf (bt : BlockType) : Step := do
  st.checkInBounds
  let (w, b) ← emitted (st.writer.emitBranch (.if_ 0))
  let st ← { st with writer := w }.exchange e.o (types.i32 :: bt.params.reverse) []
  st.enterScope e.o
    { bt.element st.tracker.operandDepth with
      isIf := true
      relocations := .branches [b] }

/-- `parser.hpp:1607–1631`. -/
def stepElse : Step :=
  match st.pcStack with
  | [] => .error ⟨.wasmParse, "code after function end"⟩
  | top :: outer => do
    require (top.isIf = true) "else outside if"
    let (top, tr, w) ← elseBranch e.o top st.tracker st.writer
    { st with pcStack := top :: outer, tracker := tr, writer := w }.onControl e.o

/-- A catch block of the legacy exception proposal: the block before it jumps to the end
of the scope. `parser.hpp:1671–1692`, `1723–1738`. -/
def catchBlock (params : List ValueType) (i : Instr) : Step :=
  match st.pcStack with
  | [] => .error ⟨.wasmParse, "code after function end"⟩
  | top :: outer => do
    let tr ← st.tracker.popAll e.o top.resultTypes.reverse
    let tr ← tr.popScope e.o types.pseudo
    let tr ← tr.pushScope.pushAll e.o params
    match top.relocations with
    | .label _ => .error ⟨.badVariantAccess, "std::get: wrong index for variant"⟩
    | .branches bs =>
      let (w, b) ← emitted (st.writer.emitBranch i)
      { st with
        pcStack := { top with relocations := .branches (bs ++ [b]) } :: outer
        tracker := tr
        writer := w }.onControl e.o

/-- Type of a tag's payload. -/
def tagParams (tag : Nat) : Except ParseError (List ValueType) := do
  require (tag < e.m.tags.length) "invalid tag index"
  match e.m.tagType tag with
  | none => .error ⟨.outOfRange, "types[]"⟩
  | some ft => return ft.paramTypes

/-- `parser.hpp:1671–1692`. -/
def stepCatch (tag : Nat) : Step := do
  st.checkInBounds
  let params ← tagParams e tag
  catchBlock e st params (.catch_ tag 0)

/-- `parser.hpp:1723–1738`. -/
def stepCatchAll : Step := do
  st.checkInBounds
  catchBlock e st [] (.catchAll 0)

/-- Exception handling is enabled. -/
def ehEnabled : Except ParseError Unit :=
  require (e.o.enableExceptionHandling = true) "Exception handling not enabled"

/-- `parser.hpp:1693–1705`. -/
def stepThrow (tag : Nat) : Step := do
  st.checkInBounds
  ehEnabled e
  let params ← tagParams e tag
  let st ← st.exchange e.o params.reverse []
  let st ← st.emit (.throw_ tag)
  return st.startUnreachable

/-- `parser.hpp:1706–1714`. -/
def stepRethrow (label : Nat) : Step := do
  st.checkInBounds
  ehEnabled e
  let (st, _, _) ← st.computeDepthChange e.o label
  let st ← st.emit (.rethrow label)
  return st.startUnreachable

/-- `parser.hpp:1715–1722`. -/
def stepThrowRef : Step := do
  st.checkInBounds
  ehEnabled e
  let st ← st.exchange e.o [types.exnref] []
  let st ← st.emit .throwRef
  return st.startUnreachable

/-- `delegate` ends its scope after an opcode of its own; `parser.hpp:1739–1747`. -/
def stepDelegate (label : Nat) : Step := do
  st.checkInBounds
  let (st, _, _) ← st.computeDepthChange e.o label
  let st ← st.emit (.delegate label)
  let st ← exitScope e.o st
  return st.onEnd e.o

/-- A function of the index space. -/
def callee (func : Nat) (text : String) : Except ParseError FuncType := do
  require (func < e.m.functionsTotal) text
  match e.m.getFunctionType func with
  | none => .error ⟨.outOfRange, "types.at"⟩
  | some ft => return ft

/-- `parser.hpp:1841–1854`. -/
def stepCall (func : Nat) : Step := do
  st.checkInBounds
  let ft ← callee e func "call function index out of range"
  let st ← st.exchange e.o ft.paramTypes.reverse ft.returnTypes
  st.emit (.call func)

/-- The word of an indirect call; `bitcode_writer.hpp:171–173`. -/
def indirectIndex (type table : Nat) : UInt32 :=
  UInt32.ofNat (e.m.typeAlias type) ||| UInt32.ofNat table <<< 16

/-- Table of an indirect call; `parser.hpp:1867–1869`, `1920–1922`. -/
def checkFuncTable (table : Nat) (name : String) : Except ParseError Unit := do
  let t ← tableElement e table (name ++ " table index out of range")
  require (t = types.funcref) (name ++ " requires funcref table")

/-- `parser.hpp:1855–1872`. -/
def stepCallIndirect (type table : Nat) : Step := do
  st.checkInBounds
  match e.m.types[type]? with
  | none => .error ⟨.wasmParse, "call_indirect type index out of range"⟩
  | some ft =>
    require (e.m.tables ≠ []) "call_indirect requires a table"
    let st ← st.exchange e.o (types.i32 :: ft.paramTypes.reverse) ft.returnTypes
    checkFuncTable e table "call_indirect"
    st.emit (.callIndirect (indirectIndex e type table))

/-- The end of a tail call: EH frames are left before it, and a return follows it that is
never reached. `parser.hpp:1885–1907`, `1923–1933`. -/
def tailCallTo (i : Instr) : Step := do
  let label := st.pcStack.length - 1
  let st ← st.emitEhLeaves label
  let st ← st.emit i
  jumpTo e st label

/-- `return_call`; `parser.hpp:1874–1908`. -/
def stepReturnCall (func : Nat) : Step := do
  st.checkInBounds
  let ft ← callee e func "return_call function index out of range"
  require (ft.returnTypes = e.ft.returnTypes) "return_call type mismatch"
  let st ← st.exchange e.o ft.paramTypes.reverse ft.returnTypes
  tailCallTo e st (.tailCall func)

/-- `return_call_indirect`; `parser.hpp:1909–1934`. -/
def stepReturnCallIndirect (type table : Nat) : Step := do
  st.checkInBounds
  match e.m.types[type]? with
  | none => .error ⟨.outOfRange, "types.at"⟩
  | some ft =>
    require (ft.returnTypes = e.ft.returnTypes) "return_call_indirect type mismatch"
    require (e.m.tables ≠ []) "return_call_indirect requires a table"
    let st ← st.exchange e.o (types.i32 :: ft.paramTypes.reverse) ft.returnTypes
    checkFuncTable e table "return_call_indirect"
    tailCallTo e st (.tailCallIndirect (indirectIndex e type table))

/-- Payload a catch clause pushes. -/
def payloadTypes (c : CatchClause) : Except ParseError (List ValueType) :=
  if c.kind ≤ 1 then tagParams e c.tagIndex else .ok []

/-- Values a catch clause pushes; `parser.hpp:1988–1996`. -/
def catchTypes (c : CatchClause) : Except ParseError (List ValueType) := do
  let params ← payloadTypes e c
  return params ++ if c.kind = 1 ∨ c.kind = 3 then [types.exnref] else []

/-- The values of a clause are what its label expects; `parser.hpp:1997–2016`. -/
def checkCatch (pushed : List ValueType) (target : PcElement) : Except ParseError Unit :=
  if target.labelTypes = [] then
    require (pushed = [])
      "type mismatch: catch clause pushes values but target label expects none"
  else do
    require (pushed.length = target.labelTypes.length)
      "type mismatch: catch clause arity doesn't match target label"
    require (pushed = target.labelTypes)
      "type mismatch: catch clause type doesn't match target label"

/-- A clause as it is emitted; its label is one of the scopes around the `try_table`.
`parser.hpp:1967–2053`. -/
def emitClause (c : CatchClause) : Except ParseError Writer.Clause := do
  let pushed ← catchTypes e c
  let target ← st.target c.label "invalid catch label"
  checkCatch pushed target
  return ⟨c.kind, c.tagIndex, st.depthTo target, st.countEhLeaves c.label⟩

/-- All clauses of a `try_table`. -/
def emitClauses : List CatchClause → Except ParseError (List Writer.Clause)
  | [] => .ok []
  | c :: cs => do
    let clause ← emitClause e st c
    let clauses ← emitClauses cs
    return clause :: clauses

/-- Handlers of the clauses, in the second slot of each. -/
def handleClauses : (slot : Nat) → List CatchClause → State → Step
  | _, [], st => .ok st
  | slot, c :: cs, st => do
    let st ← st.handleBranchTarget c.label ⟨slot, 0⟩
    handleClauses (slot + 2) cs st

/-- `parser.hpp:1935–2088`. The depth of the clauses is taken before the parameters are
popped. -/
def stepTryTable (bt : BlockType) (clauses : List CatchClause) : Step := do
  st.checkInBounds
  ehEnabled e
  let emittedClauses ← emitClauses e st clauses
  let st ← st.exchange e.o bt.params.reverse []
  let slot := st.writer.opIndex
  let w ← emitted (st.writer.emitTryTable emittedClauses)
  let st ← handleClauses (slot + 2) clauses { st with writer := w }
  st.enterScope e.o
    { bt.element st.tracker.operandDepth with isTryTable := clauses ≠ [] }

/-- `parser.hpp:2089`. -/
def stepDrop : Step := do
  st.checkInBounds
  let (_, tr) ← st.tracker.popAny e.o
  { st with tracker := tr }.emit .drop

/-- Types a `select` without annotation may have; `parser.hpp:2098–2101`. -/
def isSelectType (t : ValueType) : Bool :=
  t = anyType || t = types.i32 || t = types.i64 || t = types.f32 || t = types.f64 ||
    t = types.v128

/-- `parser.hpp:2090–2104`. -/
def stepSelect : Step := do
  st.checkInBounds
  let tr ← st.tracker.pop e.o types.i32
  let (t0, tr) ← tr.popAny e.o
  let (t1, tr) ← tr.popAny e.o
  require (t0 = t1 ∨ t0 = anyType ∨ t1 = anyType) "incorrect types for select"
  let resolved := if t0 = anyType then t1 else t0
  require (isSelectType resolved = true) "type mismatch"
  let tr ← tr.push e.o resolved
  { st with tracker := tr }.emit .select

/-- `parser.hpp:2105–2115`. The type is any byte. -/
def stepTypedSelect (count : Nat) (t : ValueType) : Step := do
  st.checkInBounds
  require (count = 1) "select t* must have exactly one type"
  let st ← st.exchange e.o [types.i32, t, t] [t]
  st.emit .select

/-- `parser.hpp:2161–2169`. -/
def stepRefIsNull : Step := do
  st.checkInBounds
  let (t, tr) ← st.tracker.popAny e.o
  require (t = types.funcref ∨ t = types.externref ∨ t = anyType)
    "ref.is_null requires reference type"
  let tr ← tr.push e.o types.i32
  { st with tracker := tr }.emit .refIsNull

/-- `parser.hpp:3058–3072`. -/
def stepTableInit (elem table : Nat) : Step := do
  st.checkInBounds
  bulkEnabled e
  require (e.m.tables ≠ []) "table.init requires table"
  let t ← tableElement e table "table.init table index out of range"
  require (elem < e.m.elements.length) "elem segment does not exist"
  require (e.m.elements[elem]? = some t) "type mismatch"
  let st ← st.exchange e.o [types.i32, types.i32, types.i32] []
  st.emit (.tableInit (UInt32.ofNat elem ||| UInt32.ofNat table <<< 16))

/-- `parser.hpp:3080–3092`. -/
def stepTableCopy (dst src : Nat) : Step := do
  st.checkInBounds
  bulkEnabled e
  require (e.m.tables ≠ []) "table.copy requires table"
  let _ ← tableElement e dst "table.copy dst table index out of range"
  let _ ← tableElement e src "table.copy src table index out of range"
  let st ← st.exchange e.o [types.i32, types.i32, types.i32] []
  st.emit (.tableCopy (UInt32.ofNat dst ||| UInt32.ofNat src <<< 16))

/-- An instruction of fixed types. -/
def stepPlain (i : Instr) : Step := do
  require (checksInBounds i = true → st.pcStack ≠ []) "code after function end"
  let s ← plainSignature e i
  let st ← st.exchange e.o s.pops s.pushes
  st.emit i

/-- One instruction; `last` says that it is the last of the body. -/
def step (last : Bool) : Op → Step
  | .unreachable => stepUnreachable st
  | .nop => st.emit .nop
  | .end_ => stepEnd e st last
  | .return_ => stepReturn e st
  | .block bt => stepBlock e st bt
  | .loop bt => stepLoop e st bt
  | .if_ bt => stepIf e st bt
  | .else_ => stepElse e st
  | .try_ bt => stepTry e st bt
  | .catch_ tag => stepCatch e st tag
  | .catchAll => stepCatchAll e st
  | .throw_ tag => stepThrow e st tag
  | .rethrow label => stepRethrow e st label
  | .throwRef => stepThrowRef e st
  | .delegate label => stepDelegate e st label
  | .br label => stepBr e st label
  | .brIf label => stepBrIf e st label
  | .brTable labels default => stepBrTable e st labels default
  | .call func => stepCall e st func
  | .callIndirect type table => stepCallIndirect e st type table
  | .returnCall func => stepReturnCall e st func
  | .returnCallIndirect type table => stepReturnCallIndirect e st type table
  | .tryTable bt clauses => stepTryTable e st bt clauses
  | .drop => stepDrop e st
  | .select => stepSelect e st
  | .typedSelect count t => stepTypedSelect e st count t
  | .tableInit elem table => stepTableInit e st elem table
  | .tableCopy dst src => stepTableCopy e st dst src
  | .refIsNull => stepRefIsNull e st
  | .plain i => stepPlain e st i

/-! ### Bodies -/

/-- The scope of the function; `parser.hpp:1230–1241`. -/
def functionScope (ft : FuncType) : PcElement where
  operandDepth := 0
  expectedResult := if ft.returnCount ≠ 0 then ft.returnType else types.pseudo
  labelResult := if ft.returnCount ≠ 0 then ft.returnType else types.pseudo
  isIf := false
  isTryTable := false
  isLoop := false
  gasHandle := none
  relocations := .branches []
  expectedResults := if 1 < ft.returnCount then ft.returnTypes else []
  labelResults := if 1 < ft.returnCount then ft.returnTypes else []
  blockParams := []

/-- One instruction from the bytes, or nothing at the end; `parser.hpp:1400–1407`. -/
def next (bytes : List UInt8) : Except ParseError (Op × State × List UInt8) := do
  require (st.pcStack.length ≤ e.o.maxNestedStructures.toNat)
    "nested structures validation failure"
  let ((byte, op), rest) ← decodeOp e.o e.m bytes
  let st ← step e { st with gas := st.gas.onOpcode byte } rest.isEmpty op
  return (op, st, rest)

/-- The instructions a body was parsed to, each with the state it was parsed in. -/
abbrev Trace := List (State × Op)

/-- The loop over a body; every instruction takes a byte, so the length of the body is
enough fuel. The trace is recorded here and not kept by the program. -/
def parseCode (e : BodyEnv) : (fuel : Nat) → List UInt8 → State →
    Except ParseError (Trace × State)
  | _, [], st => .ok ([], st)
  | 0, _ :: _, _ => .error ⟨.wasmParse, "out of fuel"⟩
  | fuel + 1, b :: bytes, st => do
    let (op, st', rest) ← next e st (b :: bytes)
    let (trace, final) ← parseCode e fuel rest st'
    return ((st, op) :: trace, final)

/-- Parse a body with the writer and nesting count left by the functions before it;
`parser.hpp:1222–3213`. -/
def parseFunctionBodyCode (e : BodyEnv) (localBytes : LocalBytes) (w : Writer) (nested : Nat)
    (bytes : List UInt8) : Except ParseError (Trace × State) := do
  let (trace, st) ← parseCode e bytes.length bytes
    ⟨[functionScope e.ft], .initial localBytes, w, ⟨[], 0⟩, nested⟩
  require (st.pcStack = []) "function body too long"
  return (trace, { st with writer := st.writer.patchGasImmAddExtra none st.gas.prepayExtra })

end PsiServe.Parser
