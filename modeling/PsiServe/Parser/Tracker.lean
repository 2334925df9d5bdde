import PsiServe.Parser.Decode

/-!
# Operand type stack

`operand_stack_type_tracker` of
`psizam/detail/parser.hpp:1087–1183` with the byte counters it
keeps (`parser.hpp:95–167`, `246–262`; `max_func_local_bytes` has 64 bits as in
`options.hpp:41`) and `local_types_t` (`parser.hpp:1185–1212`).
-/

namespace PsiServe.Parser

open Base Wasm

/-- Mark of a value of unknown type; `parser.hpp:1087`. -/
def anyType : ValueType := 0x82

/-- Mark below operands of unreachable code; `parser.hpp:1094`. -/
def unreachableTag : ValueType := 0x80

/-- Mark of the start of a scope; `parser.hpp:1095`. -/
def scopeTag : ValueType := 0x81

/-- Bytes a value of a type occupies; `parser.hpp:28–43`. -/
def getSizeForType (t : ValueType) : UInt64 :=
  if t = types.i32 ∨ t = types.f32 then 4
  else if t = types.i64 ∨ t = types.f64 ∨ t = types.funcref ∨ t = types.externref ∨
      t = types.exnref then 8
  else if t = types.v128 then 16
  else 0

/-- Bytes of locals and operands; `max_func_local_bytes_stack_checker`. -/
structure LocalBytes where
  count : UInt64
  unreachableDepth : UInt32
deriving DecidableEq

namespace LocalBytes

/-- Count bytes against the limit; `parser.hpp:114–126`. Without a limit nothing is
counted. -/
def onBytes (o : Options) (c : LocalBytes) (size : UInt64) : Except ParseError LocalBytes :=
  match o.maxFuncLocalBytes with
  | none => .ok c
  | some limit =>
    let count := c.count + size
    if count ≤ limit ∧ size ≤ count then .ok { c with count := count }
    else .error ⟨.wasmParse, "local variable limit exceeded"⟩

/-- `parser.hpp:139–143`. -/
def pushStack (o : Options) (c : LocalBytes) (t : ValueType) : Except ParseError LocalBytes :=
  if c.unreachableDepth = 0 ∧ o.countStack then c.onBytes o (getSizeForType t) else .ok c

/-- `parser.hpp:144–148`. -/
def popStack (o : Options) (c : LocalBytes) (t : ValueType) : LocalBytes :=
  if c.unreachableDepth = 0 ∧ o.countStack ∧ o.maxFuncLocalBytes.isSome then
    { c with count := c.count - getSizeForType t }
  else c

/-- `parser.hpp:149–154`. -/
def pushUnreachable (c : LocalBytes) : LocalBytes :=
  { c with unreachableDepth := c.unreachableDepth + 1 }

def popUnreachable (c : LocalBytes) : LocalBytes :=
  { c with unreachableDepth := c.unreachableDepth - 1 }

/-- Parameters of a function and its declared locals; `parser.hpp:107–126`. -/
def ofFunction (o : Options) (ft : FuncType) (locals : List LocalEntry) :
    Except ParseError LocalBytes := do
  let c ← foldSteps (fun c t => onBytes o c (getSizeForType t)) ⟨0, 0⟩
    (if o.countParams then ft.paramTypes else [])
  foldSteps (fun c l => onBytes o c (getSizeForType l.type * UInt64.ofNat l.count)) c
    (if o.countLocals then locals else [])

end LocalBytes

/-- Types of the operands with the marks of scopes and unreachable code, top first. -/
structure Tracker where
  state : List ValueType
  operandDepth : UInt32
  maximumOperandDepth : UInt32
  localBytes : LocalBytes
  stackUsage : UInt64
deriving DecidableEq

/-- A step of the tracker. -/
abbrev Track := Except ParseError Tracker

namespace Tracker

variable (o : Options) (tr : Tracker)

/-- The tracker at the start of a body; `parser.hpp:1089–1093`. -/
def initial (localBytes : LocalBytes) : Tracker :=
  ⟨[scopeTag], 0, 0, localBytes, localBytes.count⟩

/-- `parser.hpp:1101–1110`. -/
def push (t : ValueType) : Track := do
  require (tr.operandDepth < 0xFFFFFFFF) "integer overflow in operand depth"
  let bytes ← tr.localBytes.pushStack o t
  let depth := tr.operandDepth + 1
  return { tr with
    state := t :: tr.state
    operandDepth := depth
    maximumOperandDepth :=
      if tr.maximumOperandDepth < depth then depth else tr.maximumOperandDepth
    localBytes := bytes
    stackUsage := if tr.stackUsage < bytes.count then bytes.count else tr.stackUsage }

/-- Remove the topmost type. -/
def dropTop (t : ValueType) (rest : List ValueType) : Tracker :=
  { tr with
    state := rest
    operandDepth := tr.operandDepth - 1
    localBytes := tr.localBytes.popStack o t }

/-- Pop an operand of a type; `parser.hpp:1111–1126`. -/
def pop (expected : ValueType) : Track :=
  if expected = types.pseudo then .ok tr
  else
    match tr.state with
    | [] => .error ⟨.wasmParse, "unexpected pop"⟩
    | t :: rest =>
      if t = unreachableTag then .ok tr
      else if t = expected ∨ t = anyType then .ok (tr.dropTop o expected rest)
      else .error ⟨.wasmParse, "wrong type"⟩

/-- Pop an operand of any type; `parser.hpp:1127–1138`. -/
def popAny : Except ParseError (ValueType × Tracker) :=
  match tr.state with
  | [] => .error ⟨.wasmParse, "unexpected pop"⟩
  | t :: rest =>
    if t = scopeTag then .error ⟨.wasmParse, "unexpected pop"⟩
    else if t = unreachableTag then .ok (anyType, tr)
    else .ok (t, tr.dropTop o t rest)

/-- Pop operands in the order given. -/
def popAll (ts : List ValueType) : Track := foldSteps (pop o) tr ts

/-- Push operands in the order given. -/
def pushAll (ts : List ValueType) : Track := foldSteps (push o) tr ts

/-- Types above the innermost scope mark. -/
def segment : List ValueType → List ValueType
  | [] => []
  | t :: rest => if t = scopeTag then [] else t :: segment rest

/-- From the innermost scope mark down. -/
def belowSegment : List ValueType → List ValueType
  | [] => []
  | t :: rest => if t = scopeTag then t :: rest else belowSegment rest

/-- `parser.hpp:1144–1152`. -/
def startUnreachable : Tracker :=
  { tr with
    state := unreachableTag :: belowSegment tr.state
    operandDepth := tr.operandDepth -
      UInt32.ofNat ((segment tr.state).filter (· ≠ unreachableTag)).length
    localBytes := tr.localBytes.pushUnreachable }

/-- `parser.hpp:1153–1155`. -/
def pushScope : Tracker := { tr with state := scopeTag :: tr.state }

/-- Remove the mark of unreachable code if it is on top. -/
def leaveUnreachable : Tracker :=
  match tr.state with
  | t :: rest =>
    if t = unreachableTag then
      { tr with state := rest, localBytes := tr.localBytes.popUnreachable }
    else tr
  | [] => tr

/-- Close a scope with its results in order; `parser.hpp:1161–1174`. -/
def popScopeMulti (results : List ValueType) : Track := do
  let tr ← tr.popAll o results.reverse
  require (tr.state ≠ []) "unexpected end"
  let tr := tr.leaveUnreachable
  match tr.state with
  | [] => .error ⟨.wasmParse, "unexpected end"⟩
  | t :: rest =>
    require (t = scopeTag) "unexpected end"
    { tr with state := rest }.pushAll o results

/-- Close a scope with at most one result; `parser.hpp:1156–1160`. -/
def popScope (result : ValueType) : Track :=
  tr.popScopeMulti o (if result = types.pseudo then [] else [result])

/-- `parser.hpp:1182`. -/
def isPolymorphic : Bool :=
  match tr.state with
  | t :: _ => t = unreachableTag
  | [] => false

end Tracker

/-- Type of a parameter or local; `parser.hpp:1199–1206`. -/
def localType (locals : List ValueType) (index : Nat) : Except ParseError ValueType :=
  match locals[index]? with
  | none => .error ⟨.wasmParse, "undefined local"⟩
  | some t => .ok t

end PsiServe.Parser
