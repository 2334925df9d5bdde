import PsiServe.Base.LittleEndian
import PsiServe.Base.Window

/-!
# Fixed regions with offsets into a heap

A fixed region is a sequence of slots followed by a heap. A slot holds
its bytes inline, a marker word, or the distance from itself to an object in the heap; the
objects stand in the heap in the order of their slots, without gaps.
-/

namespace PsiServe.Base

open List

/-- One slot of a fixed region, with the object it points to. -/
inductive Slot where
  | inline (bytes : Bytes)
  | word (value : Nat)
  | pointer (object : Bytes)
deriving DecidableEq, Repr

namespace Slot

/-- How many bytes of the fixed region a slot takes. -/
def fixedLen : Slot → Nat
  | inline bytes => bytes.length
  | word _ | pointer _ => 4

/-- What a slot puts into the heap. -/
def heap : Slot → Bytes
  | inline _ | word _ => []
  | pointer object => object

/-- The bytes of a slot that stands `distance` bytes before the next free heap position. -/
def bytes (distance : Nat) : Slot → Bytes
  | inline bytes => bytes
  | word value => leBytes 4 value
  | pointer _ => leBytes 4 distance

/-- A slot takes its fixed length. -/
@[simp]
theorem length_bytes (distance : Nat) (s : Slot) : (s.bytes distance).length = s.fixedLen := by
  cases s <;> simp [bytes, fixedLen]

end Slot

/-- The length of a fixed region. -/
def fixedLen : List Slot → Nat
  | [] => 0
  | s :: ss => s.fixedLen + fixedLen ss

/-- The heap of a fixed region. -/
def heapOf : List Slot → Bytes
  | [] => []
  | s :: ss => s.heap ++ heapOf ss

/-- The fixed region of slots that start `distance` bytes before the free heap. -/
def fixedOf (distance : Nat) : List Slot → Bytes
  | [] => []
  | s :: ss => s.bytes distance ++ fixedOf (distance + s.heap.length - s.fixedLen) ss

/-- A fixed region directly followed by its heap. -/
def layout (ss : List Slot) : Bytes := fixedOf (fixedLen ss) ss ++ heapOf ss

variable {ss : List Slot}

/-- The length of a fixed region. -/
@[simp]
theorem length_fixedOf (distance : Nat) (ss : List Slot) :
    (fixedOf distance ss).length = fixedLen ss := by
  induction ss generalizing distance with
  | nil => rfl
  | cons s ss ih => simp [fixedOf, fixedLen, ih]

/-- The length of a fixed region with its heap. -/
theorem length_layout (ss : List Slot) : (layout ss).length = fixedLen ss + (heapOf ss).length := by
  simp [layout]

/-- Fixed lengths add up. -/
theorem fixedLen_append (ss ts : List Slot) : fixedLen (ss ++ ts) = fixedLen ss + fixedLen ts := by
  induction ss with
  | nil => simp [fixedLen]
  | cons s ss ih => simp [fixedLen, ih, add_assoc]

/-- Heaps follow each other. -/
theorem heapOf_append (ss ts : List Slot) : heapOf (ss ++ ts) = heapOf ss ++ heapOf ts := by
  induction ss with
  | nil => simp [heapOf]
  | cons s ss ih => simp [heapOf, ih]

/-- The slots after others are as far from the free heap as their position says. -/
theorem fixedOf_append {distance : Nat} (ts : List Slot) (h : fixedLen ss ≤ distance) :
    fixedOf distance (ss ++ ts) =
      fixedOf distance ss ++ fixedOf (distance + (heapOf ss).length - fixedLen ss) ts := by
  induction ss generalizing distance with
  | nil => rfl
  | cons s ss ih =>
    rw [fixedLen] at h
    have hdist : distance + s.heap.length - s.fixedLen + (heapOf ss).length - fixedLen ss =
        distance + (s.heap.length + (heapOf ss).length) - (s.fixedLen + fixedLen ss) := by omega
    rw [cons_append, fixedOf, fixedOf, ih (by omega), hdist, append_assoc, heapOf,
      length_append, fixedLen]

/-! ### Slots in place -/

/-- A slot that holds its bytes itself. -/
def Slot.IsInline (s : Slot) : Prop := ∃ bs, s = .inline bs

section

variable {ts : List Slot}

/-- Inline slots have no heap. -/
theorem heapOf_inline (h : ∀ s ∈ ss, s.IsInline) : heapOf ss = [] := by
  induction ss with
  | nil => rfl
  | cons s ss ih =>
    obtain ⟨bs, rfl⟩ := h s mem_cons_self
    exact ih (forall_mem_cons.mp h).2

/-- Inline slots do not depend on the distance to the heap. -/
theorem fixedOf_inline (h : ∀ s ∈ ss, s.IsInline) (d d' : Nat) : fixedOf d ss = fixedOf d' ss := by
  induction ss generalizing d d' with
  | nil => rfl
  | cons s ss ih =>
    obtain ⟨bs, rfl⟩ := h s mem_cons_self
    exact congrArg (bs ++ ·) (ih (forall_mem_cons.mp h).2 _ _)

/-- Slots in place can be cut off at the end. -/
theorem layout_prefix_inline (h : ∀ s ∈ ss ++ ts, s.IsInline) : layout ss <+: layout
    (ss ++ ts) := by
  have hss : ∀ s ∈ ss, s.IsInline := fun s hs => h s (mem_append_left ts hs)
  rw [layout, layout, heapOf_inline hss, heapOf_inline h, append_nil, append_nil,
    fixedOf_append ts (by rw [fixedLen_append]; exact Nat.le_add_right _ _),
    fixedOf_inline hss (fixedLen ss) (fixedLen (ss ++ ts))]
  exact prefix_append _ _

end

/-- Slots of one size. -/
theorem fixedLen_of_forall {n : Nat} (h : ∀ s ∈ ss, s.fixedLen = n) :
    fixedLen ss = ss.length * n := by
  induction ss with
  | nil => simp [fixedLen]
  | cons s ss ih =>
    have hs := h s mem_cons_self
    have hss := ih (forall_mem_cons.mp h).2
    rw [fixedLen, hs, hss, length_cons, Nat.succ_mul, add_comm]

end PsiServe.Base
