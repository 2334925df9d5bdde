import Mathlib.Data.Finset.Max
import Mathlib.Data.List.AList
import Mathlib.Data.Prod.Lex

/-!
# Allocator of executable memory

The `jit_allocator` of `psizam/allocator.hpp:189–344`: segments of
mapped memory cut into free and allocated blocks, each recorded twice, by address and by
size. What `mmap` returns is an argument of the call that may reach it. Results are absent
where a call breaks a precondition that the source only asserts.
-/

namespace PsiServe.Jit

/-- A block as the sets by size order it: size first, then address;
`allocator.hpp:257–269`. -/
abbrev Block := Nat ×ₗ Nat

/-- The block of a size at an address. -/
def block (size address : Nat) : Block := toLex (size, address)

/-- Size of a block. -/
def Block.size (b : Block) : Nat := (ofLex b).1

/-- Address of a block. -/
def Block.address (b : Block) : Nat := (ofLex b).2

/-- Sizes of blocks by address; `allocator.hpp:277`. -/
abbrev BlockMap := AList fun _ : Nat => Nat

namespace BlockMap

/-- `std::map::insert`, which keeps an entry that is already there. -/
def emplace (m : BlockMap) (p n : Nat) : BlockMap := if p ∈ m then m else m.insert p n

/-- Address of the entry before the one at `p`, if `p` is not the first. -/
def before (m : BlockMap) (p : Nat) : Option Nat := (m.keys.filter (· < p)).max?

/-- Address of the entry after the one at `p`, if `p` is not the last. -/
def after (m : BlockMap) (p : Nat) : Option Nat := (m.keys.filter (p < ·)).min?

end BlockMap

/-- Segments and the four indices of their blocks; `allocator.hpp:270–274`. -/
structure JitAllocator where
  segments : List (Nat × Nat)
  freeBlocksBySize : Finset Block
  allocatedBlocksBySize : Finset Block
  freeBlocks : BlockMap
  allocatedBlocks : BlockMap

/-- Least size of a mapped segment; `allocator.hpp:190`. -/
def segmentSize : Nat := 1024 * 1024 * 1024

/-- `allocator.hpp:340–343`. -/
def roundToPage (pagesize offset : UInt64) : UInt64 :=
  (offset + pagesize - 1) &&& ~~~(pagesize - 1)

/-- First block of at least a size in the order by size; `allocator.hpp:196`. -/
def lowerBound (blocks : Finset Block) (size : Nat) : Option Block :=
  (blocks.filter fun b => size ≤ b.size).min

/-- `transfer_node` between the maps by address; `allocator.hpp:279–288`. -/
def transferBlock (source target : BlockMap) (p : Nat) : Option (BlockMap × BlockMap) :=
  match source.lookup p with
  | none => none
  | some n => if p ∈ target then none else some (source.erase p, target.insert p n)

/-- `transfer_node` between the sets by size; `allocator.hpp:279–288`. -/
def transferSized (source target : Finset Block) (b : Block) :
    Option (Finset Block × Finset Block) :=
  if b ∈ source ∧ b ∉ target then some (source.erase b, insert b target) else none

namespace JitAllocator

/-- An allocator that has mapped nothing yet. -/
def empty : JitAllocator := ⟨[], ∅, ∅, ∅, ∅⟩

/-- Map a segment and record it as one free block, unless `mmap` fails;
`allocator.hpp:290–307`. -/
def allocateSegment (t : JitAllocator) (minSize : Nat) (mmap : Option Nat) :
    Option (JitAllocator × Block) :=
  match mmap with
  | none => none
  | some base =>
    let size := max minSize segmentSize
    some ({ t with
        segments := t.segments ++ [(base, size)]
        freeBlocksBySize := insert (block size base) t.freeBlocksBySize
        freeBlocks := BlockMap.emplace t.freeBlocks base size },
      block size base)

/-- Cut a free block; the piece of the given size comes first. Both pieces are recorded
before the old block is erased; `allocator.hpp:309–321`. -/
def splitBlock (t : JitAllocator) (pos : Block) (size : Nat) : JitAllocator × Block :=
  let new1 := block size pos.address
  let new2 := block (pos.size - size) (pos.address + size)
  ({ t with
      freeBlocksBySize := (insert new2 (insert new1 t.freeBlocksBySize)).erase pos
      freeBlocks :=
        (BlockMap.emplace t.freeBlocks new2.address new2.size).insert new1.address new1.size },
    new1)

/-- Record a free block as allocated; `allocator.hpp:203–205`. -/
def markAllocated (t : JitAllocator) (best : Block) : Option (JitAllocator × Nat) := do
  let (freeBlocks, allocatedBlocks) ← transferBlock t.freeBlocks t.allocatedBlocks best.address
  let (freeBlocksBySize, allocatedBlocksBySize) ←
    transferSized t.freeBlocksBySize t.allocatedBlocksBySize best
  some ({ t with freeBlocks, allocatedBlocks, freeBlocksBySize, allocatedBlocksBySize },
    best.address)

/-- Cut the block found to size and record it as allocated; `allocator.hpp:200–205`. -/
def take (t : JitAllocator) (best : Block) (size : Nat) : Option (JitAllocator × Nat) :=
  let (t, best) := if size < best.size then t.splitBlock best size else (t, best)
  t.markAllocated best

/-- Allocate whole pages; the call throws, and has no address, when a segment is needed
and `mmap` fails; `allocator.hpp:193–206`. -/
def alloc (t : JitAllocator) (pagesize size : UInt64) (mmap : Option Nat) :
    Option (JitAllocator × Option Nat) :=
  let size := (roundToPage pagesize size).toNat
  match lowerBound t.freeBlocksBySize size with
  | some best => (t.take best size).map fun (t, p) => (t, some p)
  | none =>
    match t.allocateSegment size mmap with
    | none => some (t, none)
    | some (t, best) => (t.take best size).map fun (t, p) => (t, some p)

/-- Join two free blocks if the first ends where the second starts; the result is the block
to go on from; `allocator.hpp:323–338`. -/
def maybeConsolidateBlocks (t : JitAllocator) (lhs rhs : Nat) : JitAllocator × Nat :=
  match t.freeBlocks.lookup lhs, t.freeBlocks.lookup rhs with
  | some l, some r =>
    if lhs + l = rhs then
      ({ t with
          freeBlocksBySize :=
            (insert (block (l + r) lhs) (t.freeBlocksBySize.erase (block l lhs))).erase
              (block r rhs)
          freeBlocks := (t.freeBlocks.insert lhs (l + r)).erase rhs },
        lhs)
    else (t, rhs)
  | _, _ => (t, rhs)

/-- Join the free block at `p` with the one before it. -/
def consolidateBefore (t : JitAllocator) (p : Nat) : JitAllocator × Nat :=
  match BlockMap.before t.freeBlocks p with
  | none => (t, p)
  | some prev => t.maybeConsolidateBlocks prev p

/-- Join the free block at `p` with the one after it. -/
def consolidateAfter (t : JitAllocator) (p : Nat) : JitAllocator :=
  match BlockMap.after t.freeBlocks p with
  | none => t
  | some next => (t.maybeConsolidateBlocks p next).1

/-- Record an allocated block as free; `allocator.hpp:210–211`. -/
def markFree (t : JitAllocator) (p : Nat) : Option JitAllocator := do
  let n ← t.allocatedBlocks.lookup p
  let (allocatedBlocks, freeBlocks) ← transferBlock t.allocatedBlocks t.freeBlocks p
  let (allocatedBlocksBySize, freeBlocksBySize) ←
    transferSized t.allocatedBlocksBySize t.freeBlocksBySize (block n p)
  some { t with freeBlocks, allocatedBlocks, freeBlocksBySize, allocatedBlocksBySize }

/-- Give a block back and join it with its free neighbours; `allocator.hpp:208–223`. -/
def free (t : JitAllocator) (p : Nat) : Option JitAllocator :=
  (t.markFree p).map fun t =>
    let (t, pos) := t.consolidateBefore p
    t.consolidateAfter pos

end JitAllocator

end PsiServe.Jit
