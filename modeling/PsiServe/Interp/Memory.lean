import PsiServe.Bitcode.Instr

/-!
# Linear memory accesses of the interpreter

Effective addresses and bounds checks of
`psizam/detail/interpret_visitor.hpp:168–212`, the read watermark
of `psizam/detail/execution_context.hpp:211–231` and memory growth
of `execution_context.hpp:158–179`. Address arithmetic is the 64-bit arithmetic of the
source; `exactEnd` is the same sum without wrap-around.
-/

namespace PsiServe.Interp

open Wasm Bitcode

/-- Memory safety modes; `options.hpp:19`. -/
inductive MemSafety where
  | guarded | checked | unchecked | memory16
deriving DecidableEq, Repr

/-- When a checked read is validated; `options.hpp:20`. -/
inductive CheckedMode where
  | strict | relaxed | immediate
deriving DecidableEq, Repr

/-- Exceptions the interpreter leaves an execution with; `outOfRange` is that of the
checked accesses of `std::vector`. -/
inductive ExceptionType where
  | interpreter | memory | gasExhausted | badAlloc | invalidElement | outOfRange
deriving DecidableEq, Repr

/-- A trap: the exception class and its text. -/
structure Trap where
  exception : ExceptionType
  text : String
deriving DecidableEq, Repr

/-- Address space reserved for guarded accesses; `constants.hpp:21`. -/
def maxMemory : Nat := 4 * 2 ^ 31

/-- What a memory access reads of the execution context; `execution_context.hpp:182,205–231`. -/
structure MemState where
  memMode : MemSafety
  checkedKind : CheckedMode
  isMemory64 : Bool
  memorySizeBytes : UInt64
  readWatermark : UInt64
deriving DecidableEq

namespace MemState

/-- Effective address of a popped address operand; `interpret_visitor.hpp:168–184`. -/
def computeEffective (m : MemState) (offset : UInt32) (ptr : Value) : Except Trap UInt64 :=
  if m.isMemory64 then
    let addr := ptr.toUi64
    let effective := offset.toUInt64 + addr
    if m.memMode = .guarded ∧ ¬ (effective.toNat < maxMemory ∧ addr ≤ effective) then
      .error ⟨.memory, "memory address out of range"⟩
    else .ok effective
  else
    let addr := ptr.toUi32
    let addr := if m.memMode = .memory16 then addr &&& 0xFFFF else addr
    .ok (offset.toUInt64 + addr.toUInt64)

/-- Keep the largest end of a strict deferred read; `execution_context.hpp:217–219`. -/
def trackReadMax (m : MemState) (last : UInt64) : MemState :=
  if m.readWatermark < last then { m with readWatermark := last } else m

/-- Collect the bits of the ends of relaxed deferred reads; `execution_context.hpp:220–222`. -/
def trackReadOr (m : MemState) (last : UInt64) : MemState :=
  { m with readWatermark := m.readWatermark ||| last }

/-- Address of a load, with the watermark it leaves; `interpret_visitor.hpp:186–201`. -/
def popMemopAddrRead (m : MemState) (offset accessSize : UInt32) (ptr : Value) :
    Except Trap (UInt64 × MemState) :=
  match m.computeEffective offset ptr with
  | .error e => .error e
  | .ok effective =>
    if m.memMode = .checked then
      let last := effective + accessSize.toUInt64
      match m.checkedKind with
      | .immediate =>
        if last ≤ m.memorySizeBytes then .ok (effective, m)
        else .error ⟨.memory, "memory read out of bounds"⟩
      | .strict => .ok (effective, m.trackReadMax last)
      | .relaxed => .ok (effective, m.trackReadOr last)
    else .ok (effective, m)

/-- Address of a store; `interpret_visitor.hpp:203–212`. -/
def popMemopAddrWrite (m : MemState) (offset accessSize : UInt32) (ptr : Value) :
    Except Trap UInt64 :=
  match m.computeEffective offset ptr with
  | .error e => .error e
  | .ok effective =>
    if m.memMode = .checked then
      let last := effective + accessSize.toUInt64
      if last ≤ m.memorySizeBytes then .ok effective
      else .error ⟨.memory, "memory write out of bounds"⟩
    else .ok effective

/-- Compare the watermark with the memory size and clear it; `execution_context.hpp:223–230`.
The watermark is cleared in both outcomes. -/
def validateReadWatermark (m : MemState) : MemState × Option Trap :=
  if m.memMode = .checked then
    if m.memorySizeBytes < m.readWatermark then
      ({ m with readWatermark := 0 }, some ⟨.memory, "deferred memory read out-of-bounds"⟩)
    else ({ m with readWatermark := 0 }, none)
  else (m, none)

variable (m : MemState) (offset accessSize : UInt32) (ptr : Value)

/-- Address operand of an access, as the number the instruction means. -/
def address : Nat :=
  if m.isMemory64 then ptr.toUi64.toNat else ptr.toUi32.toNat

/-- End of an access computed without wrap-around. -/
def exactEnd : Nat :=
  m.address ptr + offset.toNat + accessSize.toNat

/-- The access ends at or before the end of linear memory. -/
def InBounds : Prop :=
  m.exactEnd offset accessSize ptr ≤ m.memorySizeBytes.toNat

instance : Decidable (m.InBounds offset accessSize ptr) := inferInstanceAs (Decidable (_ ≤ _))

/-- Bytes from an effective address on lie inside linear memory. -/
def Inside (effective : UInt64) (accessSize : UInt32) : Prop :=
  effective.toNat + accessSize.toNat ≤ m.memorySizeBytes.toNat

/-- Stores, and loads of the immediate kind, proceed exactly when they are in bounds, and
then stay inside linear memory. -/
structure BoundsExact : Prop where
  write_iff : (∃ e, m.popMemopAddrWrite offset accessSize ptr = .ok e) ↔
    m.InBounds offset accessSize ptr
  write_inside : ∀ e, m.popMemopAddrWrite offset accessSize ptr = .ok e → m.Inside e accessSize
  read_iff : m.checkedKind = .immediate →
    ((∃ r, m.popMemopAddrRead offset accessSize ptr = .ok r) ↔ m.InBounds offset accessSize ptr)
  read_inside : m.checkedKind = .immediate →
    ∀ r, m.popMemopAddrRead offset accessSize ptr = .ok r → m.Inside r.1 accessSize

/-- The wrapped sum of address and offset, which checked mode uses as it is. -/
def effective : UInt64 :=
  offset.toUInt64 + if m.isMemory64 then ptr.toUi64 else ptr.toUi32.toUInt64

/-- Checked mode leaves the effective address unexamined. -/
theorem computeEffective_of_checked (hc : m.memMode = .checked) :
    m.computeEffective offset ptr = .ok (m.effective offset ptr) := by
  unfold computeEffective effective
  by_cases h64 : m.isMemory64
  · simp [h64, hc]
  · simp [h64, hc]

/-- The effective address is the exact one modulo `2 ^ 64`. -/
theorem toNat_effective :
    (m.effective offset ptr).toNat = (m.address ptr + offset.toNat) % 2 ^ 64 := by
  unfold effective address
  rw [UInt64.toNat_add, UInt32.toNat_toUInt64, Nat.add_comm]
  by_cases h64 : m.isMemory64
  · rw [if_pos h64, if_pos h64]
  · rw [if_neg h64, if_neg h64, UInt32.toNat_toUInt64]

/-- The compared end is the exact end modulo `2 ^ 64`. -/
theorem toNat_effective_add : (m.effective offset ptr + accessSize.toUInt64).toNat =
      m.exactEnd offset accessSize ptr % 2 ^ 64 := by
  rw [UInt64.toNat_add, toNat_effective, UInt32.toNat_toUInt64]
  unfold exactEnd
  omega

/-- A checked store proceeds when its wrapped end is at most the memory size. -/
theorem popMemopAddrWrite_ok_iff (hc : m.memMode = .checked) (e : UInt64) :
    m.popMemopAddrWrite offset accessSize ptr = .ok e ↔
      e = m.effective offset ptr ∧
        m.exactEnd offset accessSize ptr % 2 ^ 64 ≤ m.memorySizeBytes.toNat := by
  unfold popMemopAddrWrite
  rw [m.computeEffective_of_checked offset ptr hc, ← toNat_effective_add, ← UInt64.le_iff_toNat_le]
  by_cases hle : m.effective offset ptr + accessSize.toUInt64 ≤ m.memorySizeBytes
  · simp [hc, hle, eq_comm]
  · simp [hc, hle]

/-- A load of the immediate kind makes the same comparison and keeps the watermark. -/
theorem popMemopAddrRead_ok_iff (hc : m.memMode = .checked) (hk : m.checkedKind = .immediate)
    (r : UInt64 × MemState) :
    m.popMemopAddrRead offset accessSize ptr = .ok r ↔
      r = (m.effective offset ptr, m) ∧
        m.exactEnd offset accessSize ptr % 2 ^ 64 ≤ m.memorySizeBytes.toNat := by
  unfold popMemopAddrRead
  rw [m.computeEffective_of_checked offset ptr hc, ← toNat_effective_add, ← UInt64.le_iff_toNat_le]
  by_cases hle : m.effective offset ptr + accessSize.toUInt64 ≤ m.memorySizeBytes
  · simp [hc, hk, hle, eq_comm]
  · simp [hc, hk, hle]

/-- The exact end exceeds `2 ^ 64` by less than the largest offset and size. -/
theorem exactEnd_lt : m.exactEnd offset accessSize ptr < 2 ^ 64 + 2 ^ 33 := by
  have haddr : m.address ptr < 2 ^ 64 := by
    unfold address
    split
    · exact ptr.toUi64.toNat_lt
    · have := ptr.toUi32.toNat_lt
      omega
  have hoff := offset.toNat_lt
  have hsize := accessSize.toNat_lt
  unfold exactEnd
  omega

/-- Without wrap-around the effective address is followed by exactly the access. -/
theorem inside_effective_iff (hlt : m.exactEnd offset accessSize ptr < 2 ^ 64) :
    m.Inside (m.effective offset ptr) accessSize ↔ m.InBounds offset accessSize ptr := by
  unfold Inside InBounds
  rw [toNat_effective]
  unfold exactEnd at *
  rw [Nat.mod_eq_of_lt (by omega)]

/-- In checked mode the bounds checks are exact precisely when the end of the access does
not wrap, or wraps to a value that is still beyond the memory. -/
theorem boundsExact_iff (hc : m.memMode = .checked) : m.BoundsExact offset accessSize ptr ↔
      m.exactEnd offset accessSize ptr < 2 ^ 64 ∨
        m.memorySizeBytes.toNat < m.exactEnd offset accessSize ptr - 2 ^ 64 := by
  have hmem := m.memorySizeBytes.toNat_lt
  have hlt := m.exactEnd_lt offset accessSize ptr
  constructor
  · intro hb
    by_contra hwrap
    -- the wrapped end is accepted although the exact one is beyond any memory
    have hok : m.popMemopAddrWrite offset accessSize ptr = .ok (m.effective offset ptr) :=
      (m.popMemopAddrWrite_ok_iff offset accessSize ptr hc _).mpr ⟨rfl, by omega⟩
    have hin : m.InBounds offset accessSize ptr := hb.write_iff.mp ⟨_, hok⟩
    unfold InBounds at hin
    omega
  · intro hcond
    have hcmp : m.exactEnd offset accessSize ptr % 2 ^ 64 ≤ m.memorySizeBytes.toNat ↔
        m.InBounds offset accessSize ptr := by
      unfold InBounds
      omega
    have hinside (hin : m.InBounds offset accessSize ptr) :
        m.Inside (m.effective offset ptr) accessSize := by
      apply (m.inside_effective_iff offset accessSize ptr _).mpr hin
      unfold InBounds at hin
      omega
    refine ⟨?_, ?_, ?_, ?_⟩
    · simp only [m.popMemopAddrWrite_ok_iff offset accessSize ptr hc, exists_eq_left, hcmp]
    · intro e he
      rw [m.popMemopAddrWrite_ok_iff offset accessSize ptr hc, hcmp] at he
      rw [he.1]
      exact hinside he.2
    · intro hk
      simp only [m.popMemopAddrRead_ok_iff offset accessSize ptr hc hk, exists_eq_left, hcmp]
    · intro hk r hr
      rw [m.popMemopAddrRead_ok_iff offset accessSize ptr hc hk, hcmp] at hr
      rw [hr.1]
      exact hinside hr.2

/-- A four-byte access at address 65533 of a one-page memory64 memory: its end is far from
wrapping, so the checks are exact there. -/
theorem boundsExact_page_end :
    (MemState.mk .checked .immediate true 65536 0).BoundsExact 0 4 (.i64 65533) :=
  (boundsExact_iff (MemState.mk .checked .immediate true 65536 0) 0 4 (.i64 65533) rfl).mpr
    (.inl (by decide))

/-- A one-byte store at address `2 ^ 64 - 1` of a one-page memory64 memory proceeds: its
end wraps to zero. -/
theorem wrapped_store_proceeds : ¬ ∀ (m : MemState) (offset accessSize : UInt32) (ptr : Value),
      m.memMode = .checked → m.BoundsExact offset accessSize ptr := by
  intro h
  have hb := h (MemState.mk .checked .immediate true 65536 0) 0 1 (.i64 0xFFFFFFFFFFFFFFFF) rfl
  have hin := hb.write_iff.mp ⟨0xFFFFFFFFFFFFFFFF, by decide⟩
  exact absurd hin (by decide)

end MemState
end PsiServe.Interp
