import Mathlib.Algebra.GroupWithZero.Nat
import PsiServe.Base.Chain

/-!
# Handle table: slab, free list and generations

The fixed-capacity slab of `psizam/handle_table.hpp:21–138`. A
handle packs a slot index and the low bits of the slot's generation; vacant slots are
linked through `next_free` from `free_head_`. Placing an element may throw after the slot
has left the free list and before it is marked occupied.
-/

namespace PsiServe.Handle

open Base Vector

variable {T : Type} {capacity index : Nat}

/-- One slot; `storage` is empty while no element is alive in it; `handle_table.hpp:25–33`. -/
structure Slot (T : Type) where
  storage : Option T
  nextFree : Nat
  generation : UInt16
  occupied : Bool
deriving DecidableEq

/-- The table with the bound its `static_assert` puts on the capacity;
`handle_table.hpp:22–38`. -/
structure HandleTable (T : Type) (capacity : Nat) where
  slots : Vector (Slot T) capacity
  freeHead : Nat
  liveCount : Nat
  maxLive : Nat
  capacity_le : capacity ≤ 0xFFFF
deriving DecidableEq

/-- Handle of a slot at a generation; `handle_table.hpp:40–42`. -/
def pack (index : Nat) (gen : UInt16) : UInt32 := UInt32.ofNat index <<< 16 ||| gen.toUInt32

/-- Slot index of a handle; `handle_table.hpp:43`. -/
def unpackIndex (handle : UInt32) : Nat := (handle >>> 16).toNat

/-- Generation of a handle; `handle_table.hpp:44`. -/
def unpackGen (handle : UInt32) : UInt16 := (handle &&& 0xFFFF).toUInt16

/-- What `create` returns when it finds no room; `handle_table.hpp:47`. -/
def invalidHandle : UInt32 := 0xFFFFFFFF

/-- Destroy the element of an occupied slot and step its generation;
`handle_table.hpp:108–110,121–125`. -/
def Slot.release (s : Slot T) : Slot T :=
  if s.occupied then
    { s with storage := none, occupied := false, generation := s.generation + 1 }
  else s

/-- A slot that was recycled is vacant. -/
theorem Slot.occupied_release (s : Slot T) : s.release.occupied = false := by
  cases h : s.occupied <;> simp [Slot.release, h]

namespace HandleTable

/-- A table with every slot vacant; `handle_table.hpp:50–55`. -/
def new (maxLive : Nat) (hcap : capacity ≤ 0xFFFF) : HandleTable T capacity where
  slots := ofFn fun i => ⟨none, i + 1, 0, false⟩
  freeHead := 0
  liveCount := 0
  maxLive := maxLive
  capacity_le := hcap

/-- `create` turns the request down before it touches a slot; `handle_table.hpp:66–67`. -/
def Exhausted (t : HandleTable T capacity) : Prop :=
  t.liveCount ≥ t.maxLive ∨ t.freeHead ≥ capacity

instance (t : HandleTable T capacity) : Decidable t.Exhausted :=
  inferInstanceAs (Decidable (_ ∨ _))

/-- Place an element and return its handle. `make` is what the element's constructor
yields, nothing when it throws; the call then has no result; `handle_table.hpp:65–78`. -/
def create (t : HandleTable T capacity) (make : Option T) :
    HandleTable T capacity × Option UInt32 :=
  if h : t.Exhausted then (t, some invalidHandle)
  else
    have hidx : t.freeHead < capacity := Nat.lt_of_not_le fun hle => h (.inr hle)
    let s := t.slots[t.freeHead]
    let popped := { t with freeHead := s.nextFree }
    match make with
    | none => (popped, none)
    | some v =>
      ({ popped with
          slots := t.slots.set t.freeHead { s with storage := some v, occupied := true }
          liveCount := t.liveCount + 1 },
        some (pack t.freeHead s.generation))

/-- Slot a handle names, if it is occupied at the handle's generation;
`handle_table.hpp:83–87,103–107`. -/
def lookup (t : HandleTable T capacity) (handle : UInt32) : Option (Fin capacity) :=
  if h : unpackIndex handle < capacity then
    let s := t.slots[unpackIndex handle]
    if !s.occupied || s.generation != unpackGen handle then none else some ⟨_, h⟩
  else none

/-- Element a handle resolves to; `handle_table.hpp:82–98`. -/
def get (t : HandleTable T capacity) (handle : UInt32) : Option T :=
  (t.lookup handle).bind fun i => t.slots[i].storage

/-- Destroy the element of a handle and put its slot in front of the free list;
`handle_table.hpp:102–116`. -/
def destroy (t : HandleTable T capacity) (handle : UInt32) : HandleTable T capacity × Bool :=
  match t.lookup handle with
  | none => (t, false)
  | some i =>
    ({ t with
        slots := t.slots.set i { t.slots[i].release with nextFree := t.freeHead }
        freeHead := i
        liveCount := t.liveCount - 1 },
      true)

/-- Destroy every element and relink all slots in order; `handle_table.hpp:120–132`. -/
def destroyAll (t : HandleTable T capacity) : HandleTable T capacity where
  slots := (t.slots.map Slot.release).mapIdx fun i s => { s with nextFree := i + 1 }
  freeHead := 0
  liveCount := 0
  maxLive := t.maxLive
  capacity_le := t.capacity_le

/-- Successor of a slot in the free list. -/
def next (t : HandleTable T capacity) (i : Nat) : Nat :=
  if h : i < capacity then t.slots[i].nextFree else i

/-- Position of a slot that holds no element. -/
def Vacant (t : HandleTable T capacity) (i : Nat) : Prop :=
  ∃ h : i < capacity, t.slots[i].occupied = false

/-- Number of occupied slots. -/
def occupiedCount (t : HandleTable T capacity) : Nat := t.slots.countP (·.occupied)

/-- From `free_head_` the links pass through each vacant slot once and then leave the slab. -/
def FreeListExact (t : HandleTable T capacity) : Prop :=
  ∃ nodes, Threads t.next t.freeHead nodes capacity ∧ nodes.Nodup ∧ ∀ i, i ∈ nodes ↔ t.Vacant i

/-- The bookkeeping of the slab is exact. -/
structure Sound (t : HandleTable T capacity) : Prop where
  free : t.FreeListExact
  live : t.liveCount = t.occupiedCount

end HandleTable

/-! ### Handles -/

private theorem toNat_pack (h : index < 2 ^ 16) (gen : UInt16) :
    (pack index gen).toNat = index * 2 ^ 16 + gen.toNat := by
  have hgen := gen.toNat_lt
  have hindex : (UInt32.ofNat index).toNat = index := by
    rw [UInt32.toNat_ofNat']
    omega
  rw [pack, UInt32.toNat_or, UInt32.toNat_shiftLeft, hindex]
  have hshift : index <<< ((16 : UInt32).toNat % 32) % 2 ^ 32 = index <<< 16 := by
    rw [show (16 : UInt32).toNat % 32 = 16 from rfl, Nat.shiftLeft_eq]
    omega
  rw [hshift, UInt16.toNat_toUInt32, ← Nat.shiftLeft_add_eq_or_of_lt hgen, Nat.shiftLeft_eq]

private theorem unpackIndex_eq (handle : UInt32) : unpackIndex handle = handle.toNat / 2 ^ 16 := by
  rw [unpackIndex, UInt32.toNat_shiftRight, show (16 : UInt32).toNat % 32 = 16 from rfl,
    Nat.shiftRight_eq_div_pow]

private theorem toNat_unpackGen (handle : UInt32) :
    (unpackGen handle).toNat = handle.toNat % 2 ^ 16 := by
  rw [unpackGen, UInt32.toNat_toUInt16, UInt32.toNat_and,
    show (0xFFFF : UInt32).toNat = 2 ^ 16 - 1 from rfl, Nat.and_two_pow_sub_one_eq_mod]
  omega

/-- The index of a handle is read back. -/
theorem unpackIndex_pack (h : index < 2 ^ 16) (gen : UInt16) :
    unpackIndex (pack index gen) = index := by
  have hgen := gen.toNat_lt
  rw [unpackIndex_eq, toNat_pack h]
  omega

/-- The generation of a handle is read back. -/
theorem unpackGen_pack (h : index < 2 ^ 16) (gen : UInt16) : unpackGen (pack index gen) = gen := by
  have hgen := gen.toNat_lt
  apply UInt16.toNat_inj.mp
  rw [toNat_unpackGen, toNat_pack h]
  omega

/-- A handle is its slot index and its generation. -/
theorem handle_ext {a b : UInt32} (hindex : unpackIndex a = unpackIndex b)
    (hgen : unpackGen a = unpackGen b) : a = b := by
  have hmod := congrArg UInt16.toNat hgen
  rw [unpackIndex_eq, unpackIndex_eq] at hindex
  rw [toNat_unpackGen, toNat_unpackGen] at hmod
  apply UInt32.toNat_inj.mp
  omega

/-- Below the largest capacity no handle is the invalid one. -/
theorem pack_ne_invalidHandle (h : index < 0xFFFF) (gen : UInt16) :
    pack index gen ≠ invalidHandle := by
  intro heq
  have := congrArg unpackIndex heq
  rw [unpackIndex_pack (by omega), unpackIndex_eq,
    show invalidHandle.toNat = 0xFFFFFFFF from rfl] at this
  omega

namespace HandleTable

variable {t : HandleTable T capacity} {i j : Nat}

/-! ### What the operations do to a slot -/

variable {handle : UInt32}

/-- A handle is looked up at its own slot, occupied at its own generation. -/
theorem lookup_eq_some_iff {i : Fin capacity} :
    t.lookup handle = some i ↔ unpackIndex handle = i ∧ t.slots[i].occupied = true ∧
      t.slots[i].generation = unpackGen handle := by
  obtain ⟨i, hi⟩ := i
  unfold lookup
  by_cases h : unpackIndex handle < capacity
  · rw [dif_pos h]
    dsimp only
    by_cases hidx : unpackIndex handle = i
    · subst hidx
      cases t.slots[unpackIndex handle].occupied <;> simp
    · simp [hidx]
  · rw [dif_neg h]
    constructor
    · intro hn
      cases hn
    · rintro ⟨rfl, -⟩
      exact absurd hi h

/-- The slots after an element was placed. -/
theorem create_some {v : T} (h : ¬t.Exhausted) : ∃ hidx : t.freeHead < capacity, t.create (some v) =
      ({ t with
          freeHead := t.slots[t.freeHead].nextFree
          slots := t.slots.set t.freeHead
            { t.slots[t.freeHead] with storage := some v, occupied := true }
          liveCount := t.liveCount + 1 },
        some (pack t.freeHead t.slots[t.freeHead].generation)) := by
  refine ⟨Nat.lt_of_not_le fun hle => h (.inr hle), ?_⟩
  rw [create, dif_neg h]

/-- Destroying a stale handle does nothing. -/
theorem destroy_none (h : t.lookup handle = none) : t.destroy handle = (t, false) := by
  rw [destroy, h]

/-- Destroying a live handle recycles its slot. -/
theorem destroy_some {i : Fin capacity} (h : t.lookup handle = some i) : t.destroy handle =
      ({ t with
          slots := t.slots.set i { t.slots[i].release with nextFree := t.freeHead }
          freeHead := i
          liveCount := t.liveCount - 1 },
        true) := by
  rw [destroy, h]

section

variable (h : i < capacity)

include h

/-- A slot is vacant exactly if it is not occupied. -/
theorem vacant_iff : t.Vacant i ↔ t.slots[i].occupied = false :=
  ⟨fun ⟨_, hv⟩ => hv, fun hv => ⟨h, hv⟩⟩

private theorem next_eq : t.next i = t.slots[i].nextFree := by
  rw [next, dif_pos h]

/-- Both loops together, seen at one slot. -/
theorem destroyAll_slot :
    t.destroyAll.slots[i] = { t.slots[i].release with nextFree := i + 1 } := by
  simp only [destroyAll, getElem_mapIdx, getElem_map]

/-! ### The free list and the live count -/

/-- Rewriting one slot leaves the links of the others. -/
theorem next_set (s : Slot T) (freeHead liveCount maxLive : Nat) (hne : j ≠ i) :
    next ⟨t.slots.set i s, freeHead, liveCount, maxLive, t.capacity_le⟩ j = t.next j := by
  by_cases hj : j < capacity
  · rw [next_eq hj, next_eq hj]
    simp only [getElem_set_ne h hj (Ne.symm hne)]
  · rw [next, next, dif_neg hj, dif_neg hj]

private theorem vacant_set (s : Slot T) (freeHead liveCount maxLive : Nat) :
    Vacant ⟨t.slots.set i s, freeHead, liveCount, maxLive, t.capacity_le⟩ j ↔
      if j = i then s.occupied = false else t.Vacant j := by
  by_cases hj : j < capacity
  · rw [vacant_iff hj, vacant_iff hj]
    simp only [getElem_set h hj, eq_comm (a := i)]
    split <;> rfl
  · have hne : j ≠ i := fun heq => hj (heq ▸ h)
    rw [if_neg hne]
    exact ⟨fun ⟨hlt, _⟩ => absurd hlt hj, fun ⟨hlt, _⟩ => absurd hlt hj⟩

end

/-- Links that count upwards from zero through vacant slots are exact. -/
theorem freeListExact_of_ascending (hhead : t.freeHead = 0)
    (hslot : ∀ i (h : i < capacity), t.slots[i].nextFree = i + 1 ∧ t.slots[i].occupied = false) :
    t.FreeListExact := by
  refine ⟨List.range' 0 capacity, ?_, List.nodup_range', fun i => ?_⟩
  · have hthread : Threads t.next 0 (List.range' 0 capacity) (0 + capacity) := by
      refine .range' fun i _ hi => ?_
      rw [next_eq (by omega)]
      exact (hslot i (by omega)).1
    rw [hhead]
    rwa [Nat.zero_add] at hthread
  · rw [List.mem_range'_1]
    constructor
    · rintro ⟨-, hi⟩
      exact ⟨by omega, (hslot i (by omega)).2⟩
    · rintro ⟨hi, -⟩
      omega

private theorem occupiedCount_of_vacant
    (hslot : ∀ i (h : i < capacity), t.slots[i].occupied = false) : t.occupiedCount = 0 := by
  rw [occupiedCount, countP_eq_zero]
  intro s hs
  obtain ⟨i, hi, rfl⟩ := getElem_of_mem hs
  rw [hslot i hi]
  decide

/-- A new table is sound. -/
theorem sound_new (maxLive : Nat) (hcap : capacity ≤ 0xFFFF) :
    (new maxLive hcap : HandleTable T capacity).Sound := by
  constructor
  · apply freeListExact_of_ascending rfl
    intro i hi
    simp [new]
  · refine (occupiedCount_of_vacant fun i hi => ?_).symm
    simp [new]

/-- `destroy_all` leaves a sound table. -/
theorem sound_destroyAll (t : HandleTable T capacity) : t.destroyAll.Sound := by
  constructor
  · apply freeListExact_of_ascending rfl
    intro i hi
    rw [destroyAll_slot hi]
    exact ⟨rfl, Slot.occupied_release _⟩
  · refine (occupiedCount_of_vacant fun i hi => ?_).symm
    rw [destroyAll_slot hi]
    exact Slot.occupied_release _

/-- The list starts at a vacant slot unless it is empty. -/
theorem FreeListExact.head_vacant (h : t.FreeListExact) (hlt : t.freeHead < capacity) :
    t.Vacant t.freeHead := by
  obtain ⟨nodes, hthread, -, hmem⟩ := h
  obtain ⟨ns, rfl, -⟩ := hthread.uncons (Nat.ne_of_lt hlt)
  exact (hmem _).mp List.mem_cons_self

/-- Taking the head off the list and marking it occupied. -/
theorem Sound.create (h : t.Sound) (v : T) (hroom : ¬t.Exhausted) :
    (t.create (some v)).1.Sound := by
  obtain ⟨hidx, heq⟩ := create_some (v := v) hroom
  have hvac := (vacant_iff hidx).mp (h.free.head_vacant hidx)
  obtain ⟨nodes, hthread, hnodup, hmem⟩ := h.free
  obtain ⟨ns, rfl, hrest⟩ := hthread.uncons (Nat.ne_of_lt hidx)
  obtain ⟨hnotin, hns⟩ := List.nodup_cons.mp hnodup
  rw [heq]
  refine ⟨⟨ns, ?_, hns, fun i => ?_⟩, ?_⟩
  · rw [next_eq hidx] at hrest
    refine hrest.congr fun n hn => next_set hidx _ _ _ _ ?_
    rintro rfl
    exact hnotin hn
  · rw [vacant_set hidx]
    by_cases hi : i = t.freeHead
    · rw [if_pos hi, hi]
      exact ⟨fun hin => absurd hin hnotin, nofun⟩
    · rw [if_neg hi, ← hmem, List.mem_cons]
      exact ⟨.inr, fun hin => hin.resolve_left hi⟩
  · have hlive := h.live
    simp only [occupiedCount, countP_set hidx, hvac] at hlive ⊢
    simp only [Bool.false_eq_true, if_false, if_true]
    omega

/-- Putting a released slot in front of the list. -/
theorem Sound.destroy (h : t.Sound) (handle : UInt32) : (t.destroy handle).1.Sound := by
  cases hl : t.lookup handle with
  | none =>
    rw [destroy_none hl]
    exact h
  | some i =>
    obtain ⟨-, hocc, -⟩ := lookup_eq_some_iff.mp hl
    obtain ⟨nodes, hthread, hnodup, hmem⟩ := h.free
    have hnotin : i.val ∉ nodes := by
      intro hin
      have := (vacant_iff i.isLt).mp ((hmem _).mp hin)
      exact Bool.noConfusion (hocc.symm.trans this)
    rw [destroy_some hl]
    refine ⟨⟨i :: nodes, ⟨rfl, ?_⟩, List.nodup_cons.mpr ⟨hnotin, hnodup⟩, fun j => ?_⟩, ?_⟩
    · rw [next_eq i.isLt]
      simp only [getElem_set_self]
      refine hthread.congr fun n hn => next_set i.isLt _ _ _ _ ?_
      rintro rfl
      exact hnotin hn
    · rw [vacant_set i.isLt, List.mem_cons, hmem]
      by_cases hj : j = i
      · rw [if_pos hj]
        exact ⟨fun _ => Slot.occupied_release _, fun _ => .inl hj⟩
      · rw [if_neg hj]
        exact ⟨fun hin => hin.resolve_left hj, .inr⟩
    · have hlive := h.live
      have hi : t.slots[i.val].occupied = true := hocc
      simp only [occupiedCount, countP_set i.isLt, hi, Slot.occupied_release] at hlive ⊢
      simp only [Bool.false_eq_true, if_false, if_true]
      omega

/-- A sound table has run out of slots exactly when all of them are live. -/
theorem Sound.freeHead_ge_iff (h : t.Sound) : t.freeHead ≥ capacity ↔ t.liveCount = capacity := by
  rw [h.live, occupiedCount, countP_eq_size]
  obtain ⟨nodes, hthread, -, hmem⟩ := h.free
  constructor
  · intro hge s hs
    obtain ⟨i, hi, rfl⟩ := getElem_of_mem hs
    have hnil : nodes = [] := by
      cases nodes with
      | nil => rfl
      | cons n ns =>
        obtain ⟨hlt, -⟩ := (hmem n).mp List.mem_cons_self
        have : t.freeHead = n := hthread.1
        omega
    have hnot : ¬t.Vacant i := by
      rw [← hmem, hnil]
      exact List.not_mem_nil
    rw [vacant_iff hi] at hnot
    exact (Bool.not_eq_false _).mp hnot
  · intro hall
    by_contra hlt
    have hlt : t.freeHead < capacity := Nat.lt_of_not_le hlt
    obtain ⟨hlt', hvac⟩ := h.free.head_vacant hlt
    have := hall _ (getElem_mem hlt)
    exact Bool.noConfusion (hvac.symm.trans this)

end HandleTable

end PsiServe.Handle
