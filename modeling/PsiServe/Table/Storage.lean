import Mathlib.Logic.Function.Basic
import PsiServe.Wasm.Types

/-!
# Tables at run time

The tables of an execution context
(`psizam/detail/execution_context.hpp:333–500,605–608`) and the
operations on them. Table 0 lives either in the page before linear memory or on the heap;
that page also holds, at its start, the pointer through which compiled code reaches a heap
table, so a pointer written there lies over the first inline entry. Heap addresses are
chosen by the system and are an argument of the operations that allocate.
-/

namespace PsiServe.Table

open Wasm Function List

/-- `psizam/types.hpp:202–207`. -/
structure TableEntry where
  type : UInt32
  index : UInt32
  codePtr : UInt64
deriving DecidableEq

namespace TableEntry

/-- All bytes `0xff`, as `reset` fills a table; `execution_context.hpp:352`. -/
def blank : TableEntry := ⟨0xFFFFFFFF, 0xFFFFFFFF, 0xFFFFFFFFFFFFFFFF⟩

/-- Entry the visitor makes of a reference;
`psizam/detail/interpret_visitor.hpp:3128–3131`. -/
def ofReference (value : UInt32) : TableEntry := ⟨0xFFFFFFFF, value, 0⟩

end TableEntry

/-- How an element segment is used; `types.hpp:257`. -/
inductive ElemMode where
  | active
  | passive
  | declarative
deriving DecidableEq

/-- An element segment with its offset expression evaluated. -/
structure ElemSegment where
  mode : ElemMode
  index : Nat
  offset : Nat
  elems : List TableEntry

/-- What the table operations read of a module, and the size of the page before linear
memory. -/
structure TableModule where
  tables : List TableType
  elements : List ElemSegment
  areaSize : Nat

/-- Whether compiled code reaches a table through a pointer; `types.hpp:489–503`. -/
def TableModule.indirectTable (mod : TableModule) (i : Nat) : Bool :=
  match mod.tables[i]? with
  | none => false
  | some t =>
    let large := t.limits.initial * 16 > mod.areaSize - 8
    let growable := i = 0 ∧ (t.limits.flags = false ∨ t.limits.maximum > t.limits.initial)
    decide (large ∨ growable)

/-- Where the entries of a table are. -/
inductive Base where
  | inline
  | heap (address : UInt64)
deriving DecidableEq

/-- Entries of the page before linear memory, the size recorded there, the heap, and the
context's own view of its tables; `execution_context.hpp:605–608`. -/
structure Tables where
  area : Nat → TableEntry
  recordedSize : Nat
  heap : UInt64 → Option (List TableEntry)
  altTable : Option UInt64
  extraTables : List UInt64
  tableData : List Base
  tableSizes : List Nat
  droppedElems : List Bool

/-- Lay a pointer over the first eight bytes of the page. -/
def storePointer (area : Nat → TableEntry) (p : UInt64) : Nat → TableEntry :=
  update area 0 { area 0 with type := p.toUInt32, index := (p >>> 32).toUInt32 }

/-- The pointer in the first eight bytes of the page. -/
def loadPointer (area : Nat → TableEntry) : UInt64 :=
  (area 0).index.toUInt64 <<< 32 ||| (area 0).type.toUInt64

/-- The heap after an owning pointer gave its array back. -/
def release (heap : UInt64 → Option (List TableEntry)) : Option UInt64 →
    UInt64 → Option (List TableEntry)
  | none => heap
  | some p => update heap p none

namespace Tables

variable (mod : TableModule)

/-- Put an array on the heap at a free address. -/
def allocate (s : Tables) (p : UInt64) (entries : List TableEntry) : Option Tables :=
  match s.heap p with
  | some _ => none
  | none => some { s with heap := update s.heap p (some entries) }

/-- Size of a table. -/
def sizeOf (s : Tables) (t : Nat) : Nat := s.tableSizes.getD t 0

/-- Entry `i` from a base; nothing is read of an array that was given back. -/
def readAt (s : Tables) (base : Base) (i : Nat) : Option TableEntry :=
  match base with
  | .inline => some (s.area i)
  | .heap p => (s.heap p).bind (·[i]?)

/-- Entry `i` of a table, as `get_table_base(t)[i]` reads it. -/
def read (s : Tables) (t i : Nat) : Option TableEntry :=
  (s.tableData[t]?).bind fun base => s.readAt base i

/-- Store entry `i` of a table, as `get_table_base(t)[i] = e` does. -/
def write (s : Tables) (t i : Nat) (e : TableEntry) : Tables :=
  match s.tableData[t]? with
  | none => s
  | some .inline => { s with area := update s.area i e }
  | some (.heap p) =>
    { s with heap := update s.heap p ((s.heap p).map (·.set i e)) }

/-- Store entries one after the other. -/
def writeAll (s : Tables) (t i : Nat) : List TableEntry → Tables
  | [] => s
  | e :: es => (s.write t i e).writeAll t (i + 1) es

/-- `table.set`; `interpret_visitor.hpp:3101–3111`. -/
def set (s : Tables) (t : Nat) (idx value : UInt32) : Tables :=
  if idx.toNat < s.sizeOf t then s.write t idx.toNat (.ofReference value) else s

/-- `execution_context.hpp:494–500`. -/
def tableFill (s : Tables) (t : Nat) (i value n : UInt32) : Tables :=
  if i.toNat + n.toNat > s.sizeOf t then s
  else s.writeAll t i.toNat (replicate n.toNat (.ofReference value))

/-- `execution_context.hpp:423–434`. -/
def initTable (s : Tables) (x : Nat) (d src n : UInt32) (t : Nat) : Tables :=
  let elems := (mod.elements[x]?.map (·.elems)).getD []
  let elemLen := if s.droppedElems.getD x false then 0 else elems.length
  if src.toNat + n.toNat > elemLen then s
  else if d.toNat + n.toNat > s.sizeOf t then s
  else s.writeAll t d.toNat ((elems.drop src.toNat).take n.toNat)

/-- `execution_context.hpp:436–447`. -/
def dropElem (s : Tables) (x : Nat) : Tables :=
  if x ≥ s.droppedElems.length then s else { s with droppedElems := s.droppedElems.set x true }

/-- Assign one entry to another. -/
def assign (s : Tables) (dstTable dst srcTable src : Nat) : Tables :=
  match s.read srcTable src with
  | none => s
  | some e => s.write dstTable dst e

/-- `table.copy`, one entry a visit with its bounds checked each time;
`interpret_visitor.hpp:3063–3091`. -/
def tableCopy (s : Tables) (dstTable srcTable dst src : Nat) : Nat → Tables
  | 0 => s
  | n + 1 =>
    if src + (n + 1) > s.sizeOf srcTable ∨ dst + (n + 1) > s.sizeOf dstTable then s
    else if dstTable ≠ srcTable ∨ dst ≤ src then
      (s.assign dstTable dst srcTable src).tableCopy dstTable srcTable (dst + 1) (src + 1) n
    else (s.assign dstTable (dst + n) srcTable (src + n)).tableCopy dstTable srcTable dst src n

/-- Largest size a table may grow to; `execution_context.hpp:460–461`. -/
def maxSize (t : Nat) : Nat :=
  match mod.tables[t]? with
  | some tt => if tt.limits.flags then tt.limits.maximum else 0xFFFFFFFF
  | none => 0xFFFFFFFF

/-- Entries of a grown table: the old ones followed by the initial value. -/
def grown (s : Tables) (t : Nat) (delta : Nat) (init : TableEntry) : List TableEntry :=
  (range (s.sizeOf t)).map (fun i => (s.read t i).getD .blank) ++ replicate delta init

/-- Let table 0 own a new array and store its address and size for compiled code;
`execution_context.hpp:469–478`. -/
def adopt (s : Tables) (p : UInt64) (newSize : Nat) : Tables :=
  { s with
    heap := release s.heap s.altTable
    altTable := some p
    tableData := s.tableData.set 0 (.heap p)
    area := storePointer s.area p
    recordedSize := newSize }

/-- Replace the array of another table, found by its address; `execution_context.hpp:479–487`. -/
def replaceExtra (s : Tables) (t : Nat) (p : UInt64) : Tables :=
  match s.tableData[t]? with
  | some (.heap old) =>
    if old ∈ s.extraTables then
      { s with
        heap := release s.heap (some old)
        extraTables := s.extraTables.set (s.extraTables.idxOf old) p
        tableData := s.tableData.set t (.heap p) }
    else s
  | _ => s

/-- `table.grow` with the address the new array gets. A refused growth allocates nothing;
`execution_context.hpp:455–491`. -/
def tableGrow (s : Tables) (t : Nat) (delta value : UInt32) (p : UInt64) : Option Tables :=
  let newSize := s.sizeOf t + delta.toNat
  if newSize > maxSize mod t then some s
  else
    (s.allocate p (s.grown t delta.toNat (.ofReference value))).map fun s' =>
      let s' := if t = 0 then s'.adopt p newSize else s'.replaceExtra t p
      { s' with tableSizes := s'.tableSizes.set t newSize }

/-! ### Reset -/

/-- Table 0 of a fresh context; `execution_context.hpp:338–356`. -/
def resetFirst (s : Tables) (tsize : Nat) (p : UInt64) : Option Tables :=
  let s := { s with heap := release s.heap s.altTable, altTable := none }
  if mod.indirectTable 0 then
    (s.allocate p (replicate tsize .blank)).map fun s =>
      { s with
        altTable := some p
        area := storePointer s.area p
        tableData := [.heap p]
        tableSizes := [tsize]
        recordedSize := tsize }
  else
    some { s with
      area := fun i => if i < tsize then .blank else s.area i
      tableData := [.inline]
      tableSizes := [tsize]
      recordedSize := tsize }

/-- One further table; `execution_context.hpp:357–363`. -/
def resetExtra (s : Tables) (tsize : Nat) (p : UInt64) : Option Tables :=
  (s.allocate p (replicate tsize .blank)).map fun s =>
    { s with
      extraTables := s.extraTables ++ [p]
      tableData := s.tableData ++ [.heap p]
      tableSizes := s.tableSizes ++ [tsize] }

/-- The further tables in order, each at its own address. -/
def resetExtras (s : Tables) : List TableType → List UInt64 → Option Tables
  | [], _ => some s
  | _ :: _, [] => none
  | t :: ts, p :: ps => (s.resetExtra t.limits.initial p).bind fun s => s.resetExtras ts ps

/-- Write one active segment and drop it; an error stops the reset;
`execution_context.hpp:368–383`. -/
def applyElem (s : Tables) (i : Nat) (seg : ElemSegment) : Option Tables :=
  match seg.mode with
  | .passive => some s
  | .declarative => some { s with droppedElems := s.droppedElems.set i true }
  | .active =>
    if seg.index ≥ mod.tables.length then none
    else if seg.offset + seg.elems.length > s.sizeOf seg.index then none
    else
      let s := s.writeAll seg.index seg.offset seg.elems
      some { s with droppedElems := s.droppedElems.set i true }

/-- The segments in order from position `i` on. -/
def applyElems (s : Tables) (i : Nat) : List ElemSegment → Option Tables
  | [] => some s
  | seg :: segs => (s.applyElem mod i seg).bind fun s => s.applyElems (i + 1) segs

/-- Tables of a module with at least one, at the addresses given;
`execution_context.hpp:333–384`. -/
def reset (s : Tables) (addresses : List UInt64) : Option Tables :=
  match mod.tables, addresses with
  | [], _ => none
  | _ :: _, [] => none
  | first :: rest, p :: ps => do
    let cleared := { s with
      heap := s.extraTables.foldl (fun heap p => release heap (some p)) s.heap
      extraTables := [] }
    let s ← cleared.resetFirst mod first.limits.initial p
    let s ← s.resetExtras rest ps
    { s with droppedElems := mod.elements.map fun _ => false }.applyElems mod 0 mod.elements

end Tables

end PsiServe.Table
