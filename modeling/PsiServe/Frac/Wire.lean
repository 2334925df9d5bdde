import PsiServe.Base.OffsetLayout
import PsiServe.Frac.Types

/-!
# The wire format

The encoding of each type as `fracpack-spec.md` describes it, without streams, positions or
patches: the bytes of an object on its own, and the slot it takes as a member or element of
another object.
-/

namespace PsiServe.Frac

open Base List Ty

/-- The encoding of a type. -/
structure Coding where
  /-- The bytes of an object on its own. -/
  body : Val → Bytes
  /-- The object as a member or element. -/
  slot : Val → Slot

namespace Coding

/-- A type that is not an optional: in place if it has a fixed size, else behind a pointer,
where an empty container is the offset 0. -/
def of (tr : Traits) (body : Val → Bytes) : Coding where
  body := body
  slot v :=
    if tr.isVariableSize then
      if tr.isEmptyContainer v then .word 0 else .pointer (body v)
    else .inline (body v)

/-- The slot of an optional: 1 if it is empty, the slot of the value if that is behind a
pointer of its own, else a pointer to the value. -/
def optionalSlot (tr : Traits) (c : Coding) : Val → Slot
  | .some v => if tr.isVariableSize && !tr.isOptional then c.slot v else .pointer (c.body v)
  | _ => .word 1

/-- An optional over an encoding. -/
def optional (tr : Traits) (c : Coding) : Coding where
  body v := layout [optionalSlot tr c v]
  slot := optionalSlot tr c

end Coding

/-- A fixed region announced by its length, and its heap. -/
def headed (width : Nat) (ss : List Slot) : Bytes := leBytes width (fixedLen ss) ++ layout ss

/-- Slots without the empty optionals at their end. -/
def trim : List Slot → List Slot
  | [] => []
  | s :: ss => if (trim ss).isEmpty && s == .word 1 then [] else s :: trim ss

/-- A list of bits with their number in front. -/
def bitsBody (width : Nat) (bs : List Bool) : Bytes := leBytes width bs.length ++ packBits bs

/-- Bytes with their number in front. -/
def charsBody (width : Nat) (bs : Bytes) : Bytes := leBytes width bs.length ++ bs

mutual

/-- The encoding of a type. -/
def Ty.coding : Ty → Coding
  | .num n => .of (.fixed n true) fun v => leBytes n v.number
  | .bool => .of (.fixed 1 false) fun v => [v.byte]
  | .bitset n => .of (.fixed ((n + 7) / 8) false) fun v => packBits v.bitList
  | .string => .of .container fun v => charsBody 4 v.chars
  | .vector t => .of .container fun v =>
    if t.isBool then bitsBody 4 v.bitList
    else leBytes 4 (v.elems.length * t.traits.fixedSize) ++ layout (v.elems.map t.coding.slot)
  | .assoc t => .of .container fun v =>
    leBytes 4 (v.elems.length * t.traits.fixedSize) ++ layout (v.elems.map t.coding.slot)
  | .boundedString n => .of .container fun v => charsBody (boundedLength n) v.chars
  | .boundedList t n => .of .container fun v =>
    leBytes (t.listLength n) (v.elems.length * t.traits.fixedSize) ++
      layout (v.elems.map t.coding.slot)
  | .bitlist n => .of .container fun v => bitsBody (boundedLength n) v.bitList
  | .array t n => .of (array t n).traits fun v => layout (v.elems.map t.coding.slot)
  | .optional t => .optional t.traits t.coding
  | .tuple ts => .of .offset fun v => headed 2 (trim (ts.slots v.elems))
  | .variant ts => .of .offset fun
    | .alt i v => UInt8.ofNat i :: (leBytes 4 (ts.bodyAt i v).length ++ ts.bodyAt i v)
    | _ => []
  | .struct dwnc unpadded maxFixedSize ts =>
    .of (struct dwnc unpadded maxFixedSize ts).traits fun v =>
      if dwnc then layout (ts.slots v.elems)
      else headed (headerLength maxFixedSize) (trim (ts.slots v.elems))

/-- The slots of members. -/
def Tys.slots : Tys → List Val → List Slot
  | .cons t ts, v :: vs => t.coding.slot v :: ts.slots vs
  | _, _ => []

/-- The encoding of a value of the type at an index. -/
def Tys.bodyAt : Tys → Nat → Val → Bytes
  | .cons t _, 0, v => t.coding.body v
  | .cons _ ts, i + 1, v => ts.bodyAt i v
  | .nil, _, _ => []

end

/-! ### Sizes of slots -/

namespace Coding

variable {tr : Traits} {body : Val → Bytes} {v : Val}

/-- An object of a fixed size is in its slot. -/
theorem slot_of_fixed (h : tr.isVariableSize = false) (v : Val) :
    (Coding.of tr body).slot v = .inline (body v) := by
  simp [Coding.of, h]

/-- An empty container has the offset 0. -/
theorem slot_of_empty (h : tr.isVariableSize = true) (hv : tr.isEmptyContainer v = true) :
    (Coding.of tr body).slot v = .word 0 := by
  simp [Coding.of, h, hv]

/-- Any other object is behind an offset. -/
theorem slot_of_pointer (h : tr.isVariableSize = true) (hv : tr.isEmptyContainer v = false) :
    (Coding.of tr body).slot v = .pointer (body v) := by
  simp [Coding.of, h, hv]

/-- The slot of an object of a variable size is an offset. -/
theorem fixedLen_slot_of (h : tr.isVariableSize = true) (v : Val) :
    ((Coding.of tr body).slot v).fixedLen = 4 := by
  cases hv : tr.isEmptyContainer v with
  | true => rw [slot_of_empty h hv, Slot.fixedLen]
  | false => rw [slot_of_pointer h hv, Slot.fixedLen]

/-- Only an optional has a slot that says there is no value. -/
theorem slot_of_ne_nullopt (v : Val) : (Coding.of tr body).slot v ≠ .word 1 := by
  unfold of
  dsimp only
  split
  · split <;> simp
  · simp

-- its equations are made here, not while the proofs below wait
attribute [local simp] Ty.traits

end Coding

/-- What is left after trimming is the start of the slots. -/
theorem trim_eq_take (ss : List Slot) : trim ss = ss.take (trim ss).length := by
  induction ss with
  | nil => rfl
  | cons s ss ih =>
    rw [trim]
    split
    · rfl
    · rw [length_cons, take_succ_cons, ← ih]

private theorem heapOf_eq_nil {ss : List Slot} (h : ∀ s ∈ ss, s.heap = []) : heapOf ss = [] := by
  induction ss with
  | nil => rfl
  | cons s ss ih =>
    rw [heapOf, h s mem_cons_self, ih (forall_mem_cons.mp h).2, append_nil]

/-- The constants of a type are those of one of four kinds of types. -/
theorem Ty.traits_cases (t : Ty) :
    t.traits = .container ∨ t.traits = .offset ∨ t.traits = .optional ∨
      ∃ size isMemcpy, t.traits = .fixed size isMemcpy := by
  cases t <;> simp only [traits, true_or, or_true]
  case num => exact .inr (.inr (.inr ⟨_, _, rfl⟩))
  case bool => exact .inr (.inr (.inr ⟨_, _, rfl⟩))
  case bitset => exact .inr (.inr (.inr ⟨_, _, rfl⟩))
  case array =>
    split
    · exact .inr (.inl rfl)
    · exact .inr (.inr (.inr ⟨_, _, rfl⟩))
  case struct =>
    split
    · exact .inr (.inl rfl)
    · exact .inr (.inr (.inr ⟨_, _, rfl⟩))

/-- An array is no optional. -/
theorem Ty.isOptional_array (t : Ty) (n : Nat) : (array t n).traits.isOptional = false := by
  rw [traits]
  split <;> rfl

/-- A struct is no optional. -/
theorem Ty.isOptional_struct (dwnc unpadded : Bool) (n : Nat) (ts : Tys) :
    (struct dwnc unpadded n ts).traits.isOptional = false := by
  rw [traits]
  split <;> rfl

variable {t : Ty}

/-- The traits of a struct of a fixed size. -/
theorem Ty.fixedStruct_traits {ts : Tys} (h : ts.anyVariableSize = false) (unpadded : Bool)
    (n : Nat) :
    (struct true unpadded n ts).traits = .fixed ts.fixedSize (unpadded && ts.allBitwise) := by
  rw [traits, h]
  rfl

/-- The elements of an array of a fixed size have one. -/
theorem Ty.fixed_of_array {n : Nat} (h : (array t n).traits.isVariableSize = false) :
    t.traits.isVariableSize = false := by
  rw [traits] at h
  split at h
  · cases h
  next hvar => exact Bool.eq_false_iff.mpr hvar

/-- A struct of a fixed size will not change, and has no variable member. -/
theorem Ty.fixed_of_struct {dwnc unpadded : Bool} {n : Nat} {ts : Tys}
    (h : (struct dwnc unpadded n ts).traits.isVariableSize = false) :
    dwnc = true ∧ ts.anyVariableSize = false := by
  rw [traits] at h
  split at h
  · cases h
  next hvar => simpa using hvar

/-- Any other struct is behind an offset. -/
theorem Ty.struct_traits {dwnc unpadded : Bool} {n : Nat} {ts : Tys}
    (h : (struct dwnc unpadded n ts).traits.isVariableSize = true) :
    (struct dwnc unpadded n ts).traits = .offset := by
  rw [traits] at h ⊢
  split
  · rfl
  next hfix =>
    rw [if_neg hfix] at h
    cases h

/-- A slot of a variable-size type is an offset. -/
theorem Ty.fixedSize_of_variable (h : t.traits.isVariableSize = true) : t.traits.fixedSize = 4 := by
  obtain ht | ht | ht | ⟨size, m, ht⟩ := t.traits_cases <;> rw [ht] at h ⊢
  · rfl
  · rfl
  · rfl
  · cases h

/-- The encoding of a type that is not an optional. -/
theorem Ty.coding_eq_of (t : Ty) (h : t.traits.isOptional = false) :
    t.coding = .of t.traits t.coding.body := by
  cases t <;> simp only [coding, traits] <;> first | rfl | skip
  · cases h

private theorem Coding.fixedLen_optionalSlot {v : Val}
    (h : ∀ x, v = .some x → (t.coding.slot x).fixedLen = t.traits.fixedSize) :
    (Coding.optionalSlot t.traits t.coding v).fixedLen = 4 := by
  cases v with
  | some x =>
    rw [Coding.optionalSlot]
    split
    next hvar =>
      rw [Bool.and_eq_true] at hvar
      rw [h x rfl, fixedSize_of_variable hvar.1]
    · rfl
  | _ => rfl

/-- The fixed length of elements. -/
theorem fixedLen_map {vs : List Val}
    (h : ∀ v ∈ vs, (t.coding.slot v).fixedLen = t.traits.fixedSize) :
    fixedLen (vs.map t.coding.slot) = vs.length * t.traits.fixedSize := by
  rw [fixedLen_of_forall (n := t.traits.fixedSize), length_map]
  exact forall_mem_map.mpr h

section

variable (h : t.traits.isVariableSize = false)

include h

/-- The traits of an array of elements of a fixed size. -/
theorem Ty.array_traits (n : Nat) :
    (array t n).traits = .fixed (t.traits.fixedSize * n) t.traits.isMemcpy := by
  rw [traits, if_neg (by simp [h])]

/-- Optionals have a variable size. -/
theorem Ty.isOptional_of_fixed : t.traits.isOptional = false := by
  obtain ht | ht | ht | ⟨size, m, ht⟩ := t.traits_cases <;> rw [ht] at h ⊢
  · rfl
  · rfl
  · cases h
  · rfl

/-- An object of a fixed size is in its slot. -/
theorem Ty.inline_of_fixed (v : Val) : t.coding.slot v = .inline (t.coding.body v) := by
  rw [t.coding_eq_of (isOptional_of_fixed h), Coding.slot_of_fixed h]
  rfl

/-- What has a fixed size puts nothing into the heap. -/
theorem Ty.heap_slot_of_fixed (v : Val) : (t.coding.slot v).heap = [] := by
  rw [inline_of_fixed h, Slot.heap]

/-- Elements of a fixed size have no heap. -/
theorem heapOf_map (vs : List Val) : heapOf (vs.map t.coding.slot) = [] := by
  apply heapOf_eq_nil
  exact forall_mem_map.mpr fun v _ => heap_slot_of_fixed h v

end

/-- Members of a fixed size have no heap. -/
theorem Tys.heapOf_slots {ts : Tys} (h : ts.anyVariableSize = false) (vs : List Val) :
    heapOf (ts.slots vs) = [] := by
  match ts, vs with
  | .nil, _ => rfl
  | .cons _ _, [] => rfl
  | .cons t ts, v :: vs =>
    rw [Tys.anyVariableSize, Bool.or_eq_false_iff] at h
    rw [Tys.slots, heapOf, heap_slot_of_fixed h.1, Tys.heapOf_slots h.2, append_nil]

mutual

/-- A slot takes the bytes its type says. -/
theorem Ty.fixedLen_slot : ∀ (t : Ty) {v : Val}, t.Has v →
    (t.coding.slot v).fixedLen = t.traits.fixedSize
  | .num _, _, _ | .bool, _, _ => by
    simp [Ty.coding, Coding.of, Ty.traits, Traits.fixed, Slot.fixedLen]
  | .bitset n, .bits bs, h => by
    rw [Ty.Has] at h
    simp [Ty.coding, Coding.of, Ty.traits, Traits.fixed, Slot.fixedLen, Val.bitList, h]
  | .string, v, _ | .vector _, v, _ | .assoc _, v, _ | .boundedString _, v, _
  | .boundedList _ _, v, _ | .bitlist _, v, _ => Coding.fixedLen_slot_of rfl v
  | .array t n, .list vs, h => by
    cases hvar : t.traits.isVariableSize with
    | true =>
      have htr : (Ty.array t n).traits = .offset := by rw [Ty.traits, if_pos hvar]
      rw [Ty.coding, Coding.fixedLen_slot_of (by rw [htr]; rfl), htr]
      rfl
    | false =>
      have htr := Ty.array_traits hvar n
      rw [Ty.coding, Coding.slot_of_fixed (by rw [htr]; rfl), htr]
      simp only [Slot.fixedLen, length_layout, heapOf_map hvar, length_nil, Val.elems,
        fixedLen_map fun v hv => Ty.fixedLen_slot t (h.2 v hv), h.1, Traits.fixed]
      rw [mul_comm, add_zero]
  | .optional t, v, h => by
    have hfix := Coding.fixedLen_optionalSlot (t := t) (v := v) fun x hx =>
      Ty.fixedLen_slot t (by rw [hx, Ty.Has] at h; exact h)
    exact hfix
  | .tuple _, v, _ | .variant _, v, _ => Coding.fixedLen_slot_of rfl v
  | .struct dwnc unpadded maxFixedSize ts, .list vs, h => by
    cases hvar : !dwnc || ts.anyVariableSize with
    | true =>
      have htr : (Ty.struct dwnc unpadded maxFixedSize ts).traits = .offset := by
        rw [Ty.traits, if_pos hvar]
      rw [Ty.coding, Coding.fixedLen_slot_of (by rw [htr]; rfl), htr]
      rfl
    | false =>
      simp only [Bool.or_eq_false_iff, Bool.not_eq_false'] at hvar
      obtain ⟨rfl, hvar⟩ := hvar
      have htr := Ty.fixedStruct_traits hvar unpadded maxFixedSize
      rw [Ty.coding, Coding.slot_of_fixed (by rw [htr]; rfl), htr]
      simp only [Slot.fixedLen, if_true, length_layout, Tys.heapOf_slots hvar,
        length_nil, Val.elems, Traits.fixed, add_zero]
      exact Tys.fixedLen_slots ts h

/-- The slots of members take their fixed size. -/
theorem Tys.fixedLen_slots : ∀ (ts : Tys) {vs : List Val}, ts.Has vs →
    fixedLen (ts.slots vs) = ts.fixedSize
  | .nil, [], _ => rfl
  | .cons t ts, v :: vs, h => by
    rw [Tys.slots, fixedLen, Tys.fixedSize, Ty.fixedLen_slot t h.1, Tys.fixedLen_slots ts h.2]

end

end PsiServe.Frac
