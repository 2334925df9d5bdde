import Mathlib.Algebra.GroupWithZero.Nat
import Mathlib.Data.List.Basic

/-!
# Value types, function types and module declarations

The declarations of `psizam/types.hpp` that function bodies and
the interpreter read. A function type carries what `parse_func_type`
(`psizam/detail/parser.hpp:735–770`) checks before it keeps one.
-/

namespace PsiServe.Wasm

open List

/-- One byte naming a value type; `types.hpp:31`. -/
abbrev ValueType := UInt8

/-! ### The members of `enum types`; `types.hpp:27` -/

namespace types

def i32 : ValueType := 0x7f
def i64 : ValueType := 0x7e
def f32 : ValueType := 0x7d
def f64 : ValueType := 0x7c
def v128 : ValueType := 0x7b
def funcref : ValueType := 0x70
def externref : ValueType := 0x6f
def exnref : ValueType := 0x69
def pseudo : ValueType := 0x40

end types

/-- Types a function parameter may have; `parser.hpp:745–748`. -/
def IsParamType (t : ValueType) : Prop :=
  t = types.i32 ∨ t = types.i64 ∨ t = types.f32 ∨ t = types.f64 ∨ t = types.v128 ∨
    t = types.funcref ∨ t = types.externref

/-- Types of results, locals and block types: a parameter type or an exception
reference; `parser.hpp:761–764`. -/
def IsValueType (t : ValueType) : Prop := IsParamType t ∨ t = types.exnref

instance (t : ValueType) : Decidable (IsParamType t) :=
  inferInstanceAs (Decidable (_ ∨ _ ∨ _ ∨ _ ∨ _ ∨ _ ∨ _))

instance (t : ValueType) : Decidable (IsValueType t) := inferInstanceAs (Decidable (_ ∨ _))

-- Ahead of the enumeration of all bytes, which is found first once bytes are a finite type.
instance (priority := 2000) decidableForallMem {p : ValueType → Prop} [DecidablePred p]
    (l : List ValueType) : Decidable (∀ t ∈ l, p t) := decidableBAll p l

/-- A function type as `parse_func_type` accepts it; `types.hpp:51–74`. -/
structure FuncType where
  paramTypes : List ValueType
  returnTypes : List ValueType
  params_valid : ∀ t ∈ paramTypes, IsParamType t := by decide
  returns_valid : ∀ t ∈ returnTypes, IsValueType t := by decide
  returns_le : returnTypes.length ≤ 16 := by decide
deriving DecidableEq

namespace FuncType

/-- No parameters and no results. -/
def void : FuncType := ⟨[], [], by decide, by decide, by decide⟩

/-- Result count as stored in eight bits; `types.hpp:61–62`. -/
def returnCount (ft : FuncType) : Nat := ft.returnTypes.length % 2 ^ 8

/-- The first result type, zero without results; `types.hpp:63`. -/
def returnType (ft : FuncType) : ValueType := ft.returnTypes.headD 0

/-- At most sixteen results are kept, so the eight-bit count is exact. -/
theorem returnCount_eq (ft : FuncType) : ft.returnCount = ft.returnTypes.length := by
  have := ft.returns_le
  unfold returnCount
  omega

end FuncType

/-- Limits of a table or memory; `types.hpp:45–49`. -/
structure ResizableLimits where
  flags : Bool
  initial : Nat
  maximum : Nat
deriving DecidableEq

/-- A declared or imported global; `types.hpp:194–197`. -/
structure GlobalType where
  contentType : ValueType
  mutability : Bool
  content_valid : IsParamType contentType := by decide
deriving DecidableEq

/-- A declared or imported table; `types.hpp:204–207`. -/
structure TableType where
  elementType : ValueType
  limits : ResizableLimits
  element_valid : elementType = types.funcref ∨ elementType = types.externref := by decide
deriving DecidableEq

/-- A table of function references. -/
def TableType.funcs (limits : ResizableLimits) : TableType := ⟨types.funcref, limits, by decide⟩

/-- A declared or imported memory; `types.hpp:216–219`. -/
structure MemoryType where
  limits : ResizableLimits
  isMemory64 : Bool
deriving DecidableEq

/-- A run of locals of one type; `types.hpp:278–281`. -/
structure LocalEntry where
  count : Nat
  type : ValueType
  type_valid : IsValueType type := by decide
deriving DecidableEq

/-- Declarations of a module that function bodies refer to; `types.hpp:343–356`.
`imports` lists the type indices of the function imports, `elements` the element types
of the element segments and `datacount` the declared number of data segments. -/
structure Module where
  types : List FuncType
  imports : List Nat
  functions : List Nat
  tables : List TableType
  memories : List MemoryType
  globals : List GlobalType
  tags : List Nat
  elements : List ValueType
  datacount : Option Nat
deriving DecidableEq

namespace Module

/-- Number of function imports; `types.hpp:394–409`. -/
def importedFunctionsSize (m : Module) : Nat := m.imports.length

/-- Number of functions, imported and defined; `types.hpp:411`. -/
def functionsTotal (m : Module) : Nat := m.importedFunctionsSize + m.functions.length

/-- Type of the function at an index of the function index space; `types.hpp:422–438`. -/
def getFunctionType (m : Module) (index : Nat) : Option FuncType :=
  if index < m.importedFunctionsSize then
    match m.imports[index]? with
    | none => none
    | some t => m.types[t]?
  else
    match m.functions[index - m.importedFunctionsSize]? with
    | none => none
    | some t => m.types[t]?

/-- Type of the payload of a tag; `parser.hpp:1686` and its siblings. -/
def tagType (m : Module) (tag : Nat) : Option FuncType :=
  match m.tags[tag]? with
  | none => none
  | some t => m.types[t]?

/-- Whether memory 0 has 64-bit addresses; `execution_context.hpp:182`. -/
def isMemory64 (m : Module) : Bool :=
  match m.memories with
  | [] => false
  | mt :: _ => mt.isMemory64

/-- Address type of memory 0; `parser.hpp:703–705`. -/
def memAddrType (m : Module) : ValueType := if m.isMemory64 then types.i64 else types.i32

/-- First type index with an equal function type; `parser.hpp:772–793`. -/
def typeAlias (m : Module) (index : Nat) : Nat :=
  match m.types[index]? with
  | none => index
  | some t => m.types.findIdx (· = t)

/-- The alias of a type index names an equal type. -/
theorem types_typeAlias (m : Module) (index : Nat) (t : FuncType)
    (h : m.types[index]? = some t) : m.types[m.typeAlias index]? = some t := by
  have hmem : t ∈ m.types := mem_of_getElem? h
  have hlt : m.types.findIdx (· = t) < m.types.length :=
    findIdx_lt_length_of_exists ⟨t, hmem, by simp⟩
  have hat : decide (m.types[m.types.findIdx (· = t)] = t) = true :=
    findIdx_getElem (w := hlt)
  have hval : m.types[m.types.findIdx (· = t)] = t := by simpa using hat
  unfold typeAlias
  rw [h, getElem?_eq_getElem hlt, hval]

end Module

end PsiServe.Wasm
