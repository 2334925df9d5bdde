import PsiServe.Base.Run
import PsiServe.Base.Tiling
import PsiServe.Jit.Allocator

/-!
# The allocator's blocks partition its segments

The indices of `jit_allocator` (`psizam/allocator.hpp:189–344`) read
as a tiling of the mapped segments. A call is regular when it asks for at least one byte,
its size rounds up without wrapping, and a segment it maps leaves a gap to those mapped
before; `mmap` itself only promises that the segment is not mapped already.
-/

namespace PsiServe.Jit

open Base List JitAllocator BlockMap UInt64 AList

/-! ### Rounding -/

variable {k p n q : Nat} {m : BlockMap} {s : Finset Block}

/-- Masking the low bits of a word rounds it down. -/
theorem and_mask {x : Nat} (hk : k < 64) (hx : x < 2 ^ 64) :
    x &&& (2 ^ 64 - 1 - (2 ^ k - 1)) = x / 2 ^ k * 2 ^ k := by
  have hpow : 2 ^ k < 2 ^ 64 := Nat.pow_lt_pow_right (by decide) hk
  rw [← Nat.shiftRight_eq_div_pow, ← Nat.shiftLeft_eq,
    show 2 ^ 64 - 1 - (2 ^ k - 1) = 2 ^ 64 - (2 ^ k - 1 + 1) by omega]
  apply Nat.eq_of_testBit_eq
  intro i
  rw [Nat.testBit_and, Nat.testBit_two_pow_sub_succ (by omega), Nat.testBit_two_pow_sub_one,
    Nat.testBit_shiftLeft, Nat.testBit_shiftRight]
  by_cases hi : i < k
  · simp [hi]
  · rw [show k + (i - k) = i by omega]
    by_cases hlt : i < 64
    · simp [hi, hlt, Nat.le_of_not_lt hi]
    · have hzero : x.testBit i = false :=
        Nat.testBit_lt_two_pow (hx.trans_le (Nat.pow_le_pow_right (by decide) (by omega)))
      simp [hzero]

/-- Rounding up to a power of two, as long as the sum fits the word. -/
theorem toNat_roundToPage (hk : k < 64) {size : UInt64}
    (hsize : size.toNat + 2 ^ k ≤ 2 ^ 64) : (roundToPage (UInt64.ofNat (2 ^ k)) size).toNat =
      (size.toNat + (2 ^ k - 1)) / 2 ^ k * 2 ^ k := by
  have hpow : 2 ^ k < 2 ^ 64 := Nat.pow_lt_pow_right (by decide) hk
  have hpos : 0 < 2 ^ k := Nat.two_pow_pos k
  have hpage : (UInt64.ofNat (2 ^ k)).toNat = 2 ^ k := by
    rw [UInt64.toNat_ofNat', Nat.mod_eq_of_lt hpow]
  have hone : (1 : UInt64).toNat = 1 := rfl
  have hmask : (~~~(UInt64.ofNat (2 ^ k) - 1)).toNat = 2 ^ 64 - 1 - (2 ^ k - 1) := by
    rw [UInt64.toNat_not, UInt64.toNat_sub, hpage, hone, show UInt64.size = 2 ^ 64 from rfl]
    omega
  have hsum : (size + UInt64.ofNat (2 ^ k) - 1).toNat = size.toNat + (2 ^ k - 1) := by
    rw [UInt64.toNat_sub, UInt64.toNat_add, hpage, hone]
    omega
  rw [roundToPage, UInt64.toNat_and, hmask, hsum, and_mask hk (by omega)]

/-! ### Maps and sets of blocks -/

private theorem block_inj {m : Nat} : block n p = block m q ↔ n = m ∧ p = q := by
  simp [block]

private theorem exists_block (b : Block) : ∃ n p, b = block n p := ⟨b.size, b.address, rfl⟩

private theorem lookup_erase_eq (m : BlockMap) (p q : Nat) :
    (m.erase p).lookup q = if q = p then none else m.lookup q := by
  split
  next h => rw [h, lookup_erase]
  next h => exact lookup_erase_ne h

private theorem lookup_insert_eq (m : BlockMap) (p n q : Nat) :
    (m.insert p n).lookup q = if q = p then some n else m.lookup q := by
  split
  next h => rw [h, lookup_insert]
  next h => exact lookup_insert_ne h

private theorem emplace_of_absent (h : m.lookup p = none) : emplace m p n = m.insert p n := by
  rw [emplace, if_neg (lookup_eq_none.mp h)]

/-- The set by size holds the entries of the map by address. -/
def Indexes (blocks : Finset Block) (m : BlockMap) : Prop :=
  ∀ p n, block n p ∈ blocks ↔ m.lookup p = some n

private theorem Indexes.congr {m' : BlockMap} (h : Indexes s m)
    (hm : ∀ q, m'.lookup q = m.lookup q) : Indexes s m' := fun q l => by rw [hm, h]

private theorem Indexes.add (h : Indexes s m) (hp : m.lookup p = none) (n : Nat) :
    Indexes (insert (block n p) s) (m.insert p n) := by
  intro q l
  rw [Finset.mem_insert, h q l, lookup_insert_eq, block_inj]
  by_cases hq : q = p
  · subst hq
    rw [if_pos rfl, hp]
    simp [eq_comm]
  · simp [hq]

private theorem Indexes.drop (h : Indexes s m) (hp : m.lookup p = some n) :
    Indexes (s.erase (block n p)) (m.erase p) := by
  intro q l
  rw [Finset.mem_erase, h q l, lookup_erase_eq, Ne, block_inj]
  by_cases hq : q = p
  · subst hq
    rw [if_pos rfl, hp]
    simp [eq_comm]
  · simp [hq]

/-- Recording another size of a block. -/
theorem Indexes.resize (h : Indexes s m) (hp : m.lookup p = some n) (k : Nat) :
    Indexes (insert (block k p) (s.erase (block n p))) (m.insert p k) := by
  refine ((h.drop hp).add (lookup_erase p m) k).congr fun q => ?_
  rw [lookup_insert_eq, lookup_insert_eq, lookup_erase_eq]
  split
  · rfl
  · rfl

/-- Moving an entry over moves it in both indices. -/
theorem transfer_ok {m' : BlockMap} {s' : Finset Block} (hs : Indexes s m)
    (hs' : Indexes s' m') (hp : m.lookup p = some n) (hp' : m'.lookup p = none) :
    transferBlock m m' p = some (m.erase p, m'.insert p n) ∧
    transferSized s s' (block n p) = some (s.erase (block n p), insert (block n p) s') ∧
    Indexes (s.erase (block n p)) (m.erase p) ∧
    Indexes (insert (block n p) s') (m'.insert p n) := by
  refine ⟨?_, ?_, hs.drop hp, hs'.add hp' n⟩
  · rw [transferBlock, hp]
    exact if_neg (lookup_eq_none.mp hp')
  · apply if_pos
    refine ⟨(hs p n).mpr hp, fun hin => ?_⟩
    rw [hs' p n, hp'] at hin
    cases hin

/-- The entry that moves stays in one of the maps. -/
theorem lookup_transfer {m' : BlockMap} (hp : m.lookup p = some n)
    (hp' : m'.lookup p = none)
    (q l : Nat) : (m.erase p).lookup q = some l ∨ (m'.insert p n).lookup q = some l ↔
      m.lookup q = some l ∨ m'.lookup q = some l := by
  rw [lookup_erase_eq, lookup_insert_eq]
  by_cases hq : q = p
  · rw [hq]
    simp [hp, hp']
  · simp [hq]

/-- The entry before `p` is the last one that starts below it. -/
theorem before_eq_some_iff :
    before m p = some q ↔ (q < p ∧ q ∈ m) ∧ ∀ r, r < p → r ∈ m → r ≤ q := by
  rw [before, max?_eq_some_iff]
  simp only [mem_filter, ← AList.mem_keys, decide_eq_true_eq]
  exact ⟨fun ⟨h, hmax⟩ => ⟨h.symm, fun r hlt hr => hmax r ⟨hr, hlt⟩⟩,
    fun ⟨h, hmax⟩ => ⟨h.symm, fun r hr => hmax r hr.2 hr.1⟩⟩

private theorem before_eq_none (h : before m p = none) : ∀ r, r < p → r ∉ m := by
  intro r hlt hr
  rw [before, max?_eq_none_iff, filter_eq_nil_iff] at h
  exact h r (mem_keys.mp hr) (decide_eq_true hlt)

/-- The entry after `p` is the first one that starts above it. -/
theorem after_eq_some_iff :
    BlockMap.after m p = some q ↔ (p < q ∧ q ∈ m) ∧ ∀ r, p < r → r ∈ m → q ≤ r := by
  rw [BlockMap.after, min?_eq_some_iff]
  simp only [mem_filter, ← AList.mem_keys, decide_eq_true_eq]
  exact ⟨fun ⟨h, hmin⟩ => ⟨h.symm, fun r hlt hr => hmin r ⟨hr, hlt⟩⟩,
    fun ⟨h, hmin⟩ => ⟨h.symm, fun r hr => hmin r hr.2 hr.1⟩⟩

private theorem after_eq_none (h : BlockMap.after m p = none) : ∀ r, p < r → r ∉ m := by
  intro r hlt hr
  rw [BlockMap.after, min?_eq_none_iff, filter_eq_nil_iff] at h
  exact h r (mem_keys.mp hr) (decide_eq_true hlt)

private theorem mem_of_lookup (h : m.lookup p = some n) : p ∈ m :=
  lookup_isSome.mp (by rw [h]; rfl)

private theorem lookup_of_mem (h : p ∈ m) : ∃ n, m.lookup p = some n :=
  Option.isSome_iff_exists.mp (lookup_isSome.mpr h)

namespace JitAllocator

/-! ### The recorded blocks as a tiling -/

variable {t : JitAllocator} {q k : Nat}

/-- A mapped segment. -/
def Segment (t : JitAllocator) (base size : Nat) : Prop := (base, size) ∈ t.segments

/-- Size of the free block at an address. -/
def freeAt (t : JitAllocator) (p : Nat) : Option Nat := t.freeBlocks.lookup p

/-- Size of the allocated block at an address. -/
def allocatedAt (t : JitAllocator) (p : Nat) : Option Nat := t.allocatedBlocks.lookup p

/-- A recorded block, free or allocated. -/
def Owns (t : JitAllocator) (p n : Nat) : Prop := t.freeAt p = some n ∨ t.allocatedAt p = some n

/-- The four indices describe one tiling of the segments. -/
structure Indexed (t : JitAllocator) : Prop where
  tiles : Tiling t.Segment t.Owns
  exclusive : ∀ {p n}, t.freeAt p = some n → t.allocatedAt p = none
  freeIndex : Indexes t.freeBlocksBySize t.freeBlocks
  allocatedIndex : Indexes t.allocatedBlocksBySize t.allocatedBlocks

/-- No free block ends where another one starts. -/
def Coalesced (t : JitAllocator) : Prop :=
  ∀ p n, t.freeAt p = some n → t.freeAt (p + n) = none

/-- The segments are nonempty with gaps between them, and their blocks tile them with no two
free ones touching. -/
structure Partitioned (t : JitAllocator) : Prop extends Indexed t where
  separated : Separated t.Segment
  mapped : ∀ b s, t.Segment b s → 0 < s
  coalesced : t.Coalesced

private theorem partitioned_empty : empty.Partitioned where
  tiles := ⟨fun h => by simp [Owns, freeAt, allocatedAt, empty] at h,
    fun h => by simp [Owns, freeAt, allocatedAt, empty] at h,
    fun h => by simp [Owns, freeAt, allocatedAt, empty] at h,
    fun h => by simp [Segment, empty] at h⟩
  exclusive h := by simp [freeAt, empty] at h
  freeIndex p n := by simp [empty]
  allocatedIndex p n := by simp [empty]
  separated b s b' s' h := by simp [Segment, empty] at h
  mapped b s h := by simp [Segment, empty] at h
  coalesced p n h := by simp [freeAt, empty] at h

/-- Nothing else starts inside a block. -/
theorem Indexed.free_inside (h : t.Indexed) (hp : t.Owns p n) (hlt : p < q)
    (hq : q < p + n) : t.freeAt q = none := by
  cases hf : t.freeAt q with
  | none => rfl
  | some m =>
    have := h.tiles.apart hp (.inl hf)
    omega

private theorem Indexed.exclusive' (h : t.Indexed) (hp : t.allocatedAt p = some n) :
    t.freeAt p = none := by
  cases hf : t.freeAt p with
  | none => rfl
  | some m =>
    rw [h.exclusive hf] at hp
    cases hp

/-! ### Allocation -/

/-- A segment with a gap to every other becomes one free block. -/
theorem Partitioned.allocateSegment (h : t.Partitioned) (minSize : Nat) {base size : Nat}
    (hsize : max minSize segmentSize = size)
    (hgap : ∀ b s, t.Segment b s → b + s < base ∨ base + size < b) :
    ∃ t', t.allocateSegment minSize (some base) = some (t', block size base) ∧
      t'.Partitioned ∧ t'.freeAt base = some size ∧ t'.allocatedAt = t.allocatedAt := by
  have hpos : 0 < size := hsize ▸ lt_of_lt_of_le (by decide) (le_max_right _ _)
  have htiles := h.tiles.extend (b := base) hpos fun b s hb => by
    have := hgap b s hb
    omega
  -- no recorded block reaches into the new segment
  have hfar : ∀ {q m}, t.Owns q m → q + m < base ∨ base + size < q := by
    intro q m hq
    obtain ⟨b, s, hb, hle, hle'⟩ := h.tiles.inside hq
    have := hgap b s hb
    omega
  have hfresh : t.freeBlocks.lookup base = none := by
    cases hf : t.freeBlocks.lookup base with
    | none => rfl
    | some m =>
      have := hfar (.inl hf)
      omega
  have hfresh' : t.allocatedAt base = none := by
    cases hf : t.allocatedAt base with
    | none => rfl
    | some m =>
      have := hfar (.inr hf)
      omega
  have hfree : ∀ q, (emplace t.freeBlocks base size).lookup q =
      if q = base then some size else t.freeAt q := by
    intro q
    rw [emplace_of_absent hfresh, lookup_insert_eq]
    rfl
  have hseg : ∀ b s, (b, s) ∈ t.segments ++ [(base, size)] ↔
      t.Segment b s ∨ (b = base ∧ s = size) := by
    intro b s
    simp [Segment]
  refine ⟨⟨t.segments ++ [(base, size)], insert (block size base) t.freeBlocksBySize,
      t.allocatedBlocksBySize, emplace t.freeBlocks base size, t.allocatedBlocks⟩,
    by rw [JitAllocator.allocateSegment, hsize], ⟨⟨?_, fun {q m} hq => ?_, ?_, h.allocatedIndex⟩,
    fun b s b' s' hb hb' => ?_, fun b s hb => ?_, fun q m hq => ?_⟩, ?_, rfl⟩
  · have hseg' : Segment ⟨t.segments ++ [(base, size)], insert (block size base) t.freeBlocksBySize,
        t.allocatedBlocksBySize, emplace t.freeBlocks base size, t.allocatedBlocks⟩ =
        fun b s => t.Segment b s ∨ (b = base ∧ s = size) :=
      funext fun b => funext fun s => propext (hseg b s)
    rw [hseg']
    refine htiles.congr fun q m => ?_
    simp only [Owns, freeAt, allocatedAt, hfree q]
    by_cases hq : q = base
    · subst hq
      have hnone : t.allocatedBlocks.lookup q = none := hfresh'
      simp [hfresh, hnone, eq_comm]
    · simp [hq]
  · simp only [freeAt, hfree q] at hq
    by_cases hqb : q = base
    · rw [hqb]
      exact hfresh'
    · rw [if_neg hqb] at hq
      exact h.exclusive hq
  · rw [emplace_of_absent hfresh]
    exact h.freeIndex.add hfresh size
  · rcases (hseg b s).mp hb with hold | ⟨rfl, rfl⟩ <;>
      rcases (hseg b' s').mp hb' with hold' | ⟨rfl, rfl⟩
    · exact h.separated b s b' s' hold hold'
    · exact .inr (hgap b s hold)
    · exact .inr (hgap b' s' hold').symm
    · exact .inl ⟨rfl, rfl⟩
  · rcases (hseg b s).mp hb with hold | ⟨-, rfl⟩
    · exact h.mapped b s hold
    · exact hpos
  · simp only [freeAt, hfree] at hq ⊢
    by_cases hqb : q = base
    · rw [if_pos hqb] at hq
      cases hq
      rw [if_neg (by omega)]
      cases hf : t.freeAt (q + size) with
      | none => exact hf
      | some l =>
        have := hfar (.inl hf)
        omega
    · rw [if_neg hqb] at hq
      have := hfar (.inl hq)
      rw [if_neg (by omega)]
      exact h.coalesced q m hq
  · simp only [freeAt, hfree, if_true]

/-- Cutting a free block in two. -/
theorem Indexed.splitBlock (h : t.Indexed) (hp : t.freeAt p = some n) (hk : 0 < k)
    (hkn : k < n) : (t.splitBlock (block n p) k).1.Indexed ∧
      ∀ q, (t.splitBlock (block n p) k).1.freeAt q =
        if q = p then some k else if q = p + k then some (n - k) else t.freeAt q := by
  have hnone : t.freeBlocks.lookup (p + k) = none :=
    h.free_inside (.inl hp) (by omega) (by omega)
  have halloc : t.allocatedAt (p + k) = none := by
    cases hf : t.allocatedAt (p + k) with
    | none => rfl
    | some m =>
      have := h.tiles.apart (.inl hp) (.inr hf)
      omega
  have hfree : ∀ q, (t.splitBlock (block n p) k).1.freeAt q =
      if q = p then some k else if q = p + k then some (n - k) else t.freeAt q := by
    intro q
    have hemplace : emplace t.freeBlocks (p + k) (n - k) =
        t.freeBlocks.insert (p + k) (n - k) := emplace_of_absent hnone
    show ((emplace t.freeBlocks (p + k) (n - k)).insert p k).lookup q = _
    rw [hemplace, lookup_insert_eq, lookup_insert_eq]
    rfl
  refine ⟨⟨?_, fun {q m} hq => ?_, ?_, h.allocatedIndex⟩, hfree⟩
  · refine h.tiles.split (.inl hp) hk hkn fun q m => ?_
    have howns : (t.splitBlock (block n p) k).1.Owns q m ↔
        (if q = p then some k else if q = p + k then some (n - k) else t.freeAt q) = some m ∨
          t.allocatedAt q = some m := by
      rw [Owns, hfree]
      rfl
    rw [howns]
    by_cases hq : q = p
    · subst hq
      rw [h.exclusive hp]
      simp [eq_comm, hk.ne']
    · by_cases hq' : q = p + k
      · subst hq'
        simp [hk.ne', halloc, Owns, freeAt, hnone, eq_comm]
      · simp [hq, hq', Owns]
  · rw [hfree] at hq
    by_cases hqp : q = p
    · rw [hqp]
      exact h.exclusive hp
    · rw [if_neg hqp] at hq
      by_cases hq' : q = p + k
      · rw [hq']
        exact halloc
      · rw [if_neg hq'] at hq
        exact h.exclusive hq
  · have hcut := (h.freeIndex.resize hp k).add (p := p + k) (by
      rw [lookup_insert_eq, if_neg (by omega), hnone]) (n - k)
    have hsized : (t.splitBlock (block n p) k).1.freeBlocksBySize = insert (block (n - k) (p + k))
        (insert (block k p) (t.freeBlocksBySize.erase (block n p))) := by
      show (insert (block (n - k) (p + k)) (insert (block k p) t.freeBlocksBySize)).erase _ = _
      rw [Finset.erase_insert_of_ne (by rw [Ne, block_inj]; omega),
        Finset.erase_insert_of_ne (by rw [Ne, block_inj]; omega)]
    rw [hsized]
    refine hcut.congr fun q => (hfree q).trans ?_
    rw [lookup_insert_eq, lookup_insert_eq]
    by_cases hq : q = p
    · rw [if_pos hq, if_neg (by omega), if_pos hq]
    · rw [if_neg hq, if_neg hq]
      rfl

/-- Recording a free block as allocated. -/
theorem Indexed.markAllocated (h : t.Indexed) (hp : t.freeAt p = some n) :
    ∃ t', t.markAllocated (block n p) = some (t', p) ∧ t'.Indexed ∧ t'.Segment = t.Segment ∧
      (∀ q, t'.freeAt q = if q = p then none else t.freeAt q) ∧
      ∀ q, t'.allocatedAt q = if q = p then some n else t.allocatedAt q := by
  obtain ⟨hmove, hsized, hfree, halloc⟩ :=
    transfer_ok h.freeIndex h.allocatedIndex hp (h.exclusive hp)
  refine ⟨⟨t.segments, t.freeBlocksBySize.erase (block n p),
    insert (block n p) t.allocatedBlocksBySize, t.freeBlocks.erase p,
    t.allocatedBlocks.insert p n⟩, ?_, ⟨h.tiles.congr fun q m => ?_, fun {q m} hq => ?_, hfree,
    halloc⟩, rfl, lookup_erase_eq _ _, lookup_insert_eq _ _ _⟩
  · have haddress : (block n p).address = p := rfl
    rw [JitAllocator.markAllocated, haddress, hmove, hsized]
    rfl
  · exact lookup_transfer hp (h.exclusive hp) q m
  · simp only [freeAt, allocatedAt, lookup_erase_eq, lookup_insert_eq] at hq ⊢
    split at hq
    · cases hq
    next hne =>
      rw [if_neg hne]
      exact h.exclusive hq

/-- Taking a free block, cut to size, leaves a partition with one more allocated block. -/
theorem Partitioned.take (h : t.Partitioned) (hp : t.freeAt p = some n) (hk : 0 < k) (hkn : k ≤ n) :
    ∃ t', t.take (block n p) k = some (t', p) ∧ t'.Partitioned ∧
      ∀ q, t'.allocatedAt q = if q = p then some k else t.allocatedAt q := by
  by_cases hlt : k < n
  · obtain ⟨hidx, hcut⟩ := h.toIndexed.splitBlock hp hk hlt
    obtain ⟨t', htake, hidx', hseg, hfree, halloc⟩ := hidx.markAllocated (p := p) (n := k) (by
      rw [hcut, if_pos rfl])
    refine ⟨t', ?_, ⟨hidx', hseg ▸ h.separated, hseg ▸ h.mapped, fun q m hq => ?_⟩, halloc⟩
    · have hlt' : k < (block n p).size := hlt
      rw [JitAllocator.take, if_pos hlt']
      exact htake
    · -- the rest of the block lies between what was free before
      rw [hfree, hcut] at hq ⊢
      by_cases hqp : q = p
      · rw [if_pos hqp] at hq
        cases hq
      · rw [if_neg hqp, if_neg hqp] at hq
        by_cases hq' : q = p + k
        · rw [if_pos hq'] at hq
          cases hq
          rw [if_neg (by omega), if_neg (by omega), if_neg (by omega), hq',
            show p + k + (n - k) = p + n by omega]
          exact h.coalesced p n hp
        · rw [if_neg hq'] at hq
          have hapart := h.tiles.apart (.inl hp) (.inl hq)
          by_cases hqm : q + m = p
          · rw [if_pos hqm]
          · rw [if_neg hqm, if_neg hqm, if_neg (by omega)]
            exact h.coalesced q m hq
  · obtain rfl : k = n := by omega
    obtain ⟨t', htake, hidx', hseg, hfree, halloc⟩ := h.toIndexed.markAllocated hp
    refine ⟨t', ?_, ⟨hidx', hseg ▸ h.separated, hseg ▸ h.mapped, fun q m hq => ?_⟩, halloc⟩
    · have hlt' : ¬k < (block k p).size := hlt
      rw [take, if_neg hlt']
      exact htake
    · rw [hfree] at hq ⊢
      split at hq
      · cases hq
      · split
        · rfl
        · exact h.coalesced q m hq

/-! ### Giving blocks back -/

/-- Recording an allocated block as free. -/
theorem Indexed.markFree (h : t.Indexed) (hp : t.allocatedAt p = some n) :
    ∃ t', t.markFree p = some t' ∧ t'.Indexed ∧ t'.Segment = t.Segment ∧
      (∀ q, t'.freeAt q = if q = p then some n else t.freeAt q) ∧
      ∀ q, t'.allocatedAt q = if q = p then none else t.allocatedAt q := by
  obtain ⟨hmove, hsized, halloc, hfree⟩ :=
    transfer_ok h.allocatedIndex h.freeIndex hp (h.exclusive' hp)
  refine ⟨⟨t.segments, insert (block n p) t.freeBlocksBySize,
    t.allocatedBlocksBySize.erase (block n p), t.freeBlocks.insert p n,
    t.allocatedBlocks.erase p⟩, ?_, ⟨h.tiles.congr fun q m => ?_, fun {q m} hq => ?_, hfree,
    halloc⟩, rfl, lookup_insert_eq _ _ _, lookup_erase_eq _ _⟩
  · have hlookup : t.allocatedBlocks.lookup p = some n := hp
    rw [JitAllocator.markFree, hlookup, hmove]
    show (transferSized _ _ (block n p)).bind _ = _
    rw [hsized]
    rfl
  · exact or_comm.trans ((lookup_transfer hp (h.exclusive' hp) q m).trans or_comm)
  · simp only [freeAt, allocatedAt, lookup_erase_eq, lookup_insert_eq] at hq ⊢
    split at hq
    next heq => rw [if_pos heq]
    next hne =>
      rw [if_neg hne]
      exact h.exclusive hq

/-- Blocks that do not touch stay as they are. -/
theorem maybeConsolidateBlocks_apart {m : Nat} (hp : t.freeAt p = some n)
    (hq : t.freeAt q = some m) (hne : p + n ≠ q) : t.maybeConsolidateBlocks p q = (t, q) := by
  have hp' : t.freeBlocks.lookup p = some n := hp
  have hq' : t.freeBlocks.lookup q = some m := hq
  rw [maybeConsolidateBlocks, hp', hq']
  exact if_neg hne

/-- Free blocks touch only at the block that was given back last. -/
def TouchesAt (t : JitAllocator) (p : Nat) : Prop :=
  ∀ q l m, t.freeAt q = some l → t.freeAt (q + l) = some m → q = p ∨ q + l = p

/-- Free blocks touch only where the block at `p` ends. -/
def TouchesAfter (t : JitAllocator) (p : Nat) : Prop :=
  ∀ q l m, t.freeAt q = some l → t.freeAt (q + l) = some m → q = p

section

variable (h : t.Indexed) (hsep : Separated t.Segment) (hp : t.freeAt p = some n)

include h hsep hp

/-- Joining two free blocks that touch. -/
theorem Indexed.merge {m : Nat} (hq : t.freeAt (p + n) = some m) :
    ∃ t', t.maybeConsolidateBlocks p (p + n) = (t', p) ∧ t'.Indexed ∧ t'.Segment = t.Segment ∧
      t'.allocatedAt = t.allocatedAt ∧
      ∀ q, t'.freeAt q =
        if q = p then some (n + m) else if q = p + n then none else t.freeAt q := by
  have hn := h.tiles.positive (.inl hp)
  have hp' : t.freeBlocks.lookup p = some n := hp
  have hq' : t.freeBlocks.lookup (p + n) = some m := hq
  have hfree : ∀ q, ((t.freeBlocks.insert p (n + m)).erase (p + n)).lookup q =
      if q = p then some (n + m) else if q = p + n then none else t.freeAt q := by
    intro q
    rw [lookup_erase_eq, lookup_insert_eq]
    by_cases hqp : q = p
    · rw [if_pos hqp, if_pos hqp, if_neg (by omega)]
    · rw [if_neg hqp, if_neg hqp]
      rfl
  refine ⟨⟨t.segments, (insert (block (n + m) p) (t.freeBlocksBySize.erase (block n p))).erase
    (block m (p + n)), t.allocatedBlocksBySize, (t.freeBlocks.insert p (n + m)).erase (p + n),
    t.allocatedBlocks⟩, ?_, ⟨?_, fun {q l} hl => ?_, ?_, h.allocatedIndex⟩, rfl, rfl, hfree⟩
  · rw [maybeConsolidateBlocks, hp', hq']
    exact if_pos rfl
  · refine h.tiles.merge hsep (.inl hp) (.inl hq) fun q l => ?_
    simp only [Owns, freeAt, hfree q]
    by_cases hqp : q = p
    · subst hqp
      have hnone : t.allocatedAt q = none := h.exclusive hp
      simp only [allocatedAt] at hnone ⊢
      simp [hnone, eq_comm]
    · by_cases hqn : q = p + n
      · subst hqn
        have hnone : t.allocatedAt (p + n) = none := h.exclusive hq
        simp only [allocatedAt] at hnone ⊢
        simp [hnone, hn.ne']
      · simp only [allocatedAt]
        simp [hqp, hqn]
  · simp only [freeAt, hfree q] at hl
    by_cases hqp : q = p
    · rw [hqp]
      exact h.exclusive hp
    · rw [if_neg hqp] at hl
      split at hl
      · cases hl
      · exact h.exclusive hl
  · refine (h.freeIndex.resize hp (n + m)).drop ?_
    rw [lookup_insert_eq, if_neg (by omega), hq']

/-- After joining with the block before it, a block touches at most the one after it. -/
theorem Indexed.consolidateBefore (htouch : t.TouchesAt p) :
    ∃ t' pos n', t.consolidateBefore p = (t', pos) ∧ t'.Indexed ∧ t'.Segment = t.Segment ∧
      t'.allocatedAt = t.allocatedAt ∧ t'.freeAt pos = some n' ∧ t'.TouchesAfter pos := by
  have hstay : (∀ q l, t.freeAt q = some l → q + l ≠ p) → t.TouchesAfter p :=
    fun hno q l m hl hm => (htouch q l m hl hm).resolve_right (hno q l hl)
  cases hb : before t.freeBlocks p with
  | none =>
    refine ⟨t, p, n, by rw [JitAllocator.consolidateBefore, hb], h, rfl, rfl, hp, hstay ?_⟩
    intro q l hl heq
    have := h.tiles.positive (.inl hl)
    exact before_eq_none hb q (by omega) (mem_of_lookup hl)
  | some prev =>
    obtain ⟨⟨hlt, hmem⟩, hmax⟩ := before_eq_some_iff.mp hb
    obtain ⟨k, hk⟩ := lookup_of_mem hmem
    by_cases heq : prev + k = p
    · subst heq
      obtain ⟨t', hmerge, hidx, hseg, halloc, hfree⟩ := h.merge hsep hk hp
      refine ⟨t', prev, k + n, by simp only [consolidateBefore, hb, hmerge], hidx, hseg,
        halloc, by rw [hfree, if_pos rfl], fun q l m hl hm => ?_⟩
      by_cases hqp : q = prev
      · exact hqp
      · -- a block that touched the previous one from below would have been joined before
        rw [hfree, if_neg hqp] at hl
        split at hl
        · cases hl
        · rw [hfree] at hm
          by_cases hql : q + l = prev
          · have := htouch q l k hl (hql ▸ hk)
            omega
          · rw [if_neg hql] at hm
            split at hm
            · cases hm
            · have := htouch q l m hl hm
              omega
    · refine ⟨t, p, n, ?_, h, rfl, rfl, hp, hstay ?_⟩
      · rw [JitAllocator.consolidateBefore, hb]
        exact maybeConsolidateBlocks_apart hk hp heq
      · intro q l hl hql
        have hlpos := h.tiles.positive (.inl hl)
        have hkpos := h.tiles.positive (.inl hk)
        have hle := hmax q (by omega) (mem_of_lookup hl)
        rcases h.tiles.apart (.inl hl) (.inl hk) with ⟨rfl, rfl⟩ | hle' | hle'
        · exact heq hql
        · omega
        · omega

/-- After joining with the block after it, no free blocks touch. -/
theorem Indexed.consolidateAfter (htouch : t.TouchesAfter p) :
    (t.consolidateAfter p).Indexed ∧ (t.consolidateAfter p).Segment = t.Segment ∧
      (t.consolidateAfter p).allocatedAt = t.allocatedAt ∧ (t.consolidateAfter p).Coalesced := by
  have hstay : t.freeAt (p + n) = none → t.Coalesced := by
    intro hno q l hl
    cases hm : t.freeAt (q + l) with
    | none => rfl
    | some m =>
      obtain rfl := htouch q l m hl hm
      obtain rfl := Option.mem_unique hl hp
      rw [hno] at hm
      cases hm
  have hnpos := h.tiles.positive (.inl hp)
  cases ha : after t.freeBlocks p with
  | none =>
    rw [JitAllocator.consolidateAfter, ha]
    refine ⟨h, rfl, rfl, hstay ?_⟩
    exact lookup_eq_none.mpr (after_eq_none ha _ (by omega))
  | some next =>
    obtain ⟨⟨hlt, hmem⟩, hmin⟩ := after_eq_some_iff.mp ha
    obtain ⟨k, hk⟩ := lookup_of_mem hmem
    have hkpos := h.tiles.positive (.inl hk)
    rw [JitAllocator.consolidateAfter, ha]
    by_cases heq : p + n = next
    · subst heq
      obtain ⟨t', hmerge, hidx, hseg, halloc, hfree⟩ := h.merge hsep hp hk
      dsimp only
      rw [hmerge]
      refine ⟨hidx, hseg, halloc, fun q l hl => ?_⟩
      rw [hfree] at hl ⊢
      by_cases hqp : q = p
      · rw [if_pos hqp] at hl
        cases hl
        rw [if_neg (by omega), if_neg (by omega), hqp]
        cases hm : t.freeAt (p + (n + k)) with
        | none => rfl
        | some m =>
          have := htouch (p + n) k m hk (by rw [← hm, add_assoc])
          omega
      · rw [if_neg hqp] at hl
        split at hl
        · cases hl
        next hqn =>
          have hnone : t.freeAt (q + l) = none := by
            cases hm : t.freeAt (q + l) with
            | none => rfl
            | some m => exact absurd (htouch q l m hl hm) hqp
          by_cases hql : q + l = p
          · rw [hql, hp] at hnone
            cases hnone
          · rw [if_neg hql, hnone]
            split <;> rfl
    · dsimp only
      rw [maybeConsolidateBlocks_apart hp hk heq]
      refine ⟨h, rfl, rfl, hstay ?_⟩
      -- the next block starts past the end, so none starts there
      cases hm : t.freeAt (p + n) with
      | none => rfl
      | some m =>
        have hle := hmin (p + n) (by omega) (mem_of_lookup hm)
        have := h.tiles.apart (.inl hp) (.inl hk)
        omega

end

/-- Giving back an allocated block leaves a partition without it. -/
theorem Partitioned.free (h : t.Partitioned) (hp : t.allocatedAt p = some n) :
    ∃ t', t.free p = some t' ∧ t'.Partitioned ∧
      ∀ q, t'.allocatedAt q = if q = p then none else t.allocatedAt q := by
  obtain ⟨t₁, hmark, hidx₁, hseg₁, hfree₁, halloc₁⟩ := h.toIndexed.markFree hp
  have hsep₁ : Separated t₁.Segment := hseg₁ ▸ h.separated
  have htouch : t₁.TouchesAt p := by
    intro q l m hl hm
    by_cases hq : q = p
    · exact .inl hq
    · rw [hfree₁, if_neg hq] at hl
      rw [hfree₁] at hm
      by_cases hql : q + l = p
      · exact .inr hql
      · rw [if_neg hql, h.coalesced q l hl] at hm
        cases hm
  obtain ⟨t₂, pos, n', hbefore, hidx₂, hseg₂, halloc₂, hpos, hafter⟩ :=
    hidx₁.consolidateBefore hsep₁ (by rw [hfree₁, if_pos rfl]) htouch
  obtain ⟨hidx₃, hseg₃, halloc₃, hcoal⟩ :=
    hidx₂.consolidateAfter (hseg₂ ▸ hsep₁) hpos hafter
  have hseg : (t₂.consolidateAfter pos).Segment = t.Segment := hseg₃.trans (hseg₂.trans hseg₁)
  refine ⟨t₂.consolidateAfter pos, ?_, ⟨hidx₃, hseg ▸ h.separated, hseg ▸ h.mapped, hcoal⟩,
    fun q => ?_⟩
  · rw [JitAllocator.free, hmark, Option.map_some, hbefore]
  · rw [halloc₃, halloc₂]
    exact halloc₁ q

/-! ### Runs -/

/-- A call on the allocator; `mmap` is what the system would map for it. -/
inductive Call where
  | alloc (size : UInt64) (mmap : Option Nat)
  | free (p : Nat)

/-- One call on a system with pages of `2 ^ k` bytes. -/
def step (k : Nat) (t : JitAllocator) : Call → Option JitAllocator
  | .alloc size mmap => (t.alloc (ofNat (2 ^ k)) size mmap).map Prod.fst
  | .free p => t.free p

/-- A region keeps a gap to every segment. -/
def Gap (t : JitAllocator) (base size : Nat) : Prop :=
  ∀ seg ∈ t.segments, seg.1 + seg.2 < base ∨ base + size < seg.1

/-- The request is for at least one byte and rounds up without wrapping, and a segment mapped
for it keeps away from the others. -/
def Regular (k : Nat) (t : JitAllocator) : Call → Prop
  | .alloc size mmap => 0 < size.toNat ∧ size.toNat + 2 ^ k ≤ 2 ^ 64 ∧
      ∀ base ∈ mmap,
        t.Gap base (max (roundToPage (ofNat (2 ^ k)) size).toNat segmentSize)
  | .free _ => True

instance (t : JitAllocator) (base size : Nat) : Decidable (t.Gap base size) :=
  inferInstanceAs (Decidable (∀ seg ∈ t.segments, _ ∨ _))

instance (k : Nat) (t : JitAllocator) : ∀ c, Decidable (Regular k t c)
  | .alloc _ mmap =>
    @instDecidableAnd _ _ _ (@instDecidableAnd _ _ _ (Option.decidableForallMem mmap))
  | .free _ => isTrue trivial

/-- A regular request either fails with `mmap` and changes nothing, or is given a block that
was free and is large enough. -/
theorem Partitioned.alloc (h : t.Partitioned) (hk : k < 64) {size : UInt64} {mmap : Option Nat}
    (hreg : Regular k t (.alloc size mmap)) :
    t.alloc (ofNat (2 ^ k)) size mmap = some (t, none) ∨
    ∃ t' p n, t.alloc (ofNat (2 ^ k)) size mmap = some (t', some p) ∧ t'.Partitioned ∧
      size.toNat ≤ n ∧ t'.allocatedAt p = some n ∧
      (∀ q, q ≠ p → t'.allocatedAt q = t.allocatedAt q) ∧
      ∀ q m, t.allocatedAt q = some m → p + n ≤ q ∨ q + m ≤ p := by
  obtain ⟨hpos, hfits, hgap⟩ := hreg
  have hround := toNat_roundToPage hk hfits
  generalize hrounded : (roundToPage (ofNat (2 ^ k)) size).toNat = rounded at hround hgap
  have hle : size.toNat ≤ rounded := by
    rw [hround, Nat.div_mul_self_eq_mod_sub_self]
    omega
  -- whichever block is found, what is cut from it was free
  have hgiven : ∀ {t₀ : JitAllocator} {p n : Nat}, t₀.Partitioned → t₀.freeAt p = some n →
      rounded ≤ n → t₀.allocatedAt = t.allocatedAt →
      ∃ t', t₀.take (block n p) rounded = some (t', p) ∧ t'.Partitioned ∧
        size.toNat ≤ rounded ∧ t'.allocatedAt p = some rounded ∧
        (∀ q, q ≠ p → t'.allocatedAt q = t.allocatedAt q) ∧
        ∀ q m, t.allocatedAt q = some m → p + rounded ≤ q ∨ q + m ≤ p := by
    intro t₀ p n h₀ hp hn halloc
    obtain ⟨t', htake, hpart, hnew⟩ := h₀.take hp (by omega : 0 < rounded) hn
    refine ⟨t', htake, hpart, hle, by rw [hnew, if_pos rfl], fun q hq => ?_, fun q m hq => ?_⟩
    · rw [hnew, if_neg hq, halloc]
    · rw [← halloc] at hq
      have hne : p ≠ q := by
        rintro rfl
        rw [h₀.exclusive hp] at hq
        cases hq
      rcases h₀.tiles.apart (.inl hp) (.inr hq) with ⟨heq, -⟩ | hle' | hle'
      · exact absurd heq hne
      · exact .inl (by omega)
      · exact .inr hle'
  unfold JitAllocator.alloc
  rw [hrounded]
  dsimp only
  cases hl : lowerBound t.freeBlocksBySize rounded with
  | some best =>
    obtain ⟨n, p, rfl⟩ := exists_block best
    obtain ⟨hmem, hn⟩ := Finset.mem_filter.mp (Finset.mem_of_min hl)
    obtain ⟨t', htake, hrest⟩ := hgiven h ((h.freeIndex p n).mp hmem) hn rfl
    refine .inr ⟨t', p, rounded, ?_, hrest⟩
    dsimp only
    rw [htake, Option.map_some]
  | none =>
    cases mmap with
    | none => exact .inl rfl
    | some base =>
      obtain ⟨t₀, hseg, h₀, hfree, halloc⟩ := h.allocateSegment rounded rfl
        fun b s hb => hgap base rfl (b, s) hb
      obtain ⟨t', htake, hrest⟩ := hgiven h₀ hfree (le_max_left _ _) halloc
      refine .inr ⟨t', base, rounded, ?_, hrest⟩
      rw [hseg]
      dsimp only
      rw [htake, Option.map_some]

/-- Regular calls keep the partition. -/
theorem partitioned_step (hk : k < 64) (t : JitAllocator) (c : Call) (t' : JitAllocator)
    (h : t.Partitioned) (hreg : Regular k t c) (hs : step k t c = some t') : t'.Partitioned := by
  cases c with
  | alloc size mmap =>
    rw [step] at hs
    rcases h.alloc hk hreg with hfail | ⟨t₁, p, n, halloc, hpart, -⟩
    · rw [hfail] at hs
      cases hs
      exact h
    · rw [halloc] at hs
      cases hs
      exact hpart
  | free p =>
    cases hp : t.allocatedAt p with
    | none =>
      have hlookup : t.allocatedBlocks.lookup p = none := hp
      rw [step, free, markFree, hlookup] at hs
      cases hs
    | some n =>
      obtain ⟨t₁, hfree, hpart, -⟩ := h.free hp
      rw [step, hfree] at hs
      cases hs
      exact hpart

/-- A segment without allocated blocks is one free block. -/
theorem Partitioned.whole (h : t.Partitioned) (hnone : ∀ p, t.allocatedAt p = none) {b s : Nat}
    (hseg : t.Segment b s) : t.freeAt b = some s := by
  have hfree : ∀ {p n}, t.Owns p n → t.freeAt p = some n := by
    intro p n hp
    rcases hp with hp | hp
    · exact hp
    · rw [hnone p] at hp
      cases hp
  refine hfree (h.tiles.whole h.separated h.mapped (fun p n m hp hq => ?_) hseg)
  have hnext := hfree hq
  rw [h.coalesced p n (hfree hp)] at hnext
  cases hnext

/-- After any run of regular calls, on pages of any size, the recorded blocks partition every
segment with no free blocks touching; the next regular request gets a large enough block
away from every live one, every live block can be given back, and segments without live
blocks are one free block. -/
theorem blocks_partition_segments (k : Nat) (hk : k < 64) (calls : List Call) (t : JitAllocator)
    (hok : AllSteps (step k) (Regular k) empty calls)
    (hrun : runSteps (step k) empty calls = some t) :
    t.Partitioned ∧
    (∀ size mmap, Regular k t (.alloc size mmap) →
      t.alloc (ofNat (2 ^ k)) size mmap = some (t, none) ∨
      ∃ t' p n, t.alloc (ofNat (2 ^ k)) size mmap = some (t', some p) ∧
        t'.allocatedAt p = some n ∧ size.toNat ≤ n ∧
        ∀ q m, t.allocatedAt q = some m → p + n ≤ q ∨ q + m ≤ p) ∧
    (∀ p n, t.allocatedAt p = some n → ∃ t', t.free p = some t') ∧
    ((∀ p, t.allocatedAt p = none) → ∀ b s, t.Segment b s → t.freeAt b = some s) := by
  have h := runSteps_invariant (partitioned_step hk) partitioned_empty hok hrun
  refine ⟨h, fun size mmap hreg => ?_, fun p n hp => ?_, fun hnone b s hseg => h.whole hnone hseg⟩
  · rcases h.alloc hk hreg with hfail | ⟨t', p, n, halloc, -, hle, hp, -, hapart⟩
    · exact .inl hfail
    · exact .inr ⟨t', p, n, halloc, hp, hle, hapart⟩
  · obtain ⟨t', hfree, -⟩ := h.free hp
    exact ⟨t', hfree⟩

/-- Two blocks are taken from a segment and given back in the other order. -/
theorem blocks_partition_segments_reunited :
    ∃ t, runSteps (step 12) empty [.alloc 100 (some 65536), .alloc 5000 none, .free 65536,
        .free 69632] = some t ∧
      t.segments = [(65536, segmentSize)] ∧ t.Partitioned ∧ t.freeAt 65536 = some segmentSize := by
  refine ⟨_, rfl, rfl, ?_⟩
  obtain ⟨hpart, -, -, hwhole⟩ := blocks_partition_segments 12 (by decide)
    [.alloc 100 (some 65536), .alloc 5000 none, .free 65536, .free 69632] _ (by decide) rfl
  refine ⟨hpart, hwhole (fun p => ?_) 65536 segmentSize ?_⟩
  · exact lookup_empty p
  · exact mem_singleton_self _

/-- A request for no bytes erases the block it was cut from, so nothing of the new segment is
recorded; and blocks of two segments that happen to touch are joined across the boundary. -/
theorem empty_request_loses_segment :
    (∃ t, runSteps (step 12) empty [.alloc 0 (some 65536)] = some t ∧
      t.segments = [(65536, segmentSize)] ∧ t.freeBlocks = ∅ ∧ t.freeBlocksBySize = ∅ ∧
      t.allocatedAt 65536 = some 0 ∧ ¬t.Partitioned) ∧
    (∃ t, runSteps (step 12) empty [.alloc 1073741824 (some 65536),
        .alloc 1073741824 (some 1073807360), .free 65536, .free 1073807360] = some t ∧
      t.segments = [(65536, segmentSize), (1073807360, segmentSize)] ∧
      t.freeAt 65536 = some (2 * segmentSize) ∧ ¬t.Partitioned) := by
  constructor
  · refine ⟨_, rfl, rfl, rfl, rfl, rfl, fun h => ?_⟩
    have halloc := @h.tiles.positive 65536 0 (.inr rfl)
    exact lt_irrefl 0 halloc
  · refine ⟨_, rfl, rfl, rfl, fun h => ?_⟩
    obtain ⟨b, s, hseg, hle, hend⟩ := @h.tiles.inside 65536 (2 * segmentSize) (.inl rfl)
    change _ ∈ [(65536, segmentSize), (1073807360, segmentSize)] at hseg
    simp only [segmentSize, mem_cons, Prod.mk.injEq, not_mem_nil, or_false] at hseg hend
    omega

end JitAllocator

end PsiServe.Jit
