import Mathlib.Data.List.Nodup
import PsiServe.Base.Run
import PsiServe.Table.Storage

/-!
# Compiled code and the interpreter see the same table 0

Compiled code decides by `indirect_table(0)`, once for the module, whether table 0 is read
in the page before linear memory or through the pointer stored there
(`psizam/detail/x86_64.hpp:702–722`); the interpreter follows
`_table_data[0]` and `_table_sizes[0]`. The invariant says that both name the same array.
-/

namespace PsiServe.Table

open PsiServe.Base Wasm List Function Option

namespace Tables

variable (mod : TableModule) {t' tsize i : Nat} {q : UInt64}

/-- Base of table 0 in compiled code; `x86_64.hpp:713–721`. -/
def jitBase (s : Tables) : Table.Base :=
  if mod.indirectTable 0 then .heap (loadPointer s.area) else .inline

/-- Size of table 0 in compiled code; `x86_64.hpp:703–711`. -/
def jitSize (s : Tables) : Nat :=
  if mod.indirectTable 0 then s.recordedSize else (mod.tables.head?.map (·.limits.initial)).getD 0

/-- Compiled code and the interpreter see one size and, at every index, one entry. -/
structure Agrees (s : Tables) : Prop where
  size : s.jitSize mod = s.sizeOf 0
  recorded : s.recordedSize = s.sizeOf 0
  entries : ∀ i, i < s.sizeOf 0 →
    ∃ e, s.read 0 i = some e ∧ s.readAt (s.jitBase mod) i = some e

/-- The arrays of the tables are live, distinct and long enough, and table 0 is where compiled
code looks for it unless it is empty. -/
structure Mirrors (first : Table.Base) (s : Tables) : Prop where
  data : s.tableData = first :: s.extraTables.map .heap
  sizes : s.tableSizes.length = s.tableData.length
  live : ∀ {t p}, s.tableData[t]? = some (.heap p) →
    ∃ es, s.heap p = some es ∧ s.sizeOf t ≤ es.length
  distinct : s.extraTables.Nodup
  apart : ∀ {p}, first = .heap p → p ∉ s.extraTables
  owned : ∀ {p}, s.altTable = some p → first = .heap p
  pointer : mod.indirectTable 0 = true → first = .heap (loadPointer s.area)
  inline : mod.indirectTable 0 = false →
    s.sizeOf 0 = (mod.tables.head?.map (·.limits.initial)).getD 0 ∧
      (s.sizeOf 0 = 0 ∨ first = .inline)
  recorded : s.recordedSize = s.sizeOf 0

variable {mod} {first : Table.Base} {s s' : Tables} {t n : Nat} {p : UInt64}
  {es : List TableEntry}

private theorem loadPointer_storePointer (area : Nat → TableEntry) (p : UInt64) :
    loadPointer (storePointer area p) = p := by
  apply UInt64.toNat_inj.mp
  have hp := p.toNat_lt
  have hhigh : (p >>> 32).toNat = p.toNat / 2 ^ 32 := by
    rw [UInt64.toNat_shiftRight, show (32 : UInt64).toNat % 64 = 32 from rfl,
      Nat.shiftRight_eq_div_pow]
  simp only [loadPointer, storePointer, update_self, UInt64.toNat_or,
    UInt64.toNat_shiftLeft, UInt32.toNat_toUInt64, UInt64.toNat_toUInt32, hhigh,
    show (32 : UInt64).toNat % 64 = 32 from rfl]
  have hlow : p.toNat % 2 ^ 32 < 2 ^ 32 := Nat.mod_lt _ (by decide)
  rw [Nat.mod_eq_of_lt (show p.toNat / 2 ^ 32 < 2 ^ 32 by omega), Nat.shiftLeft_eq,
    Nat.mod_eq_of_lt (show p.toNat / 2 ^ 32 * 2 ^ 32 < 2 ^ 64 by omega), ← Nat.shiftLeft_eq,
    ← Nat.shiftLeft_add_eq_or_of_lt hlow, Nat.shiftLeft_eq]
  omega

/-! ### Growth -/

private theorem allocate_eq_some (h : s.allocate p es = some s') :
    s.heap p = none ∧ s' = { s with heap := update s.heap p (some es) } := by
  unfold allocate at h
  split at h
  · cases h
  next hp => exact ⟨hp, (some.inj h).symm⟩

private theorem sizeOf_set (h : t' < s.tableSizes.length) (s' : Tables)
    (hs' : s'.tableSizes = s.tableSizes.set t n) :
    s'.sizeOf t' = if t = t' then n else s.sizeOf t' := by
  rw [sizeOf, sizeOf, hs', getD_eq_getElem?_getD, getD_eq_getElem?_getD, getElem?_set]
  split
  next heq =>
    rw [if_pos (heq ▸ h)]
    rfl
  · rfl

section

variable (h : s.Mirrors mod first)

include h

private theorem Mirrors.agrees : s.Agrees mod := by
  have hread : ∀ i, s.read 0 i = s.readAt first i := by
    intro i
    rw [read, h.data]
    rfl
  have hdefined : ∀ i, i < s.sizeOf 0 → ∃ e, s.readAt first i = some e := by
    intro i hi
    cases hb : first with
    | inline => exact ⟨_, rfl⟩
    | heap p =>
      obtain ⟨es, hes, hle⟩ := h.live (t := 0) (p := p) (by rw [h.data, hb]; rfl)
      refine ⟨es[i], ?_⟩
      rw [readAt, hes, bind_some, getElem?_eq_getElem]
  cases hind : mod.indirectTable 0 with
  | true =>
    refine ⟨?_, h.recorded, fun i hi => ?_⟩
    · rw [jitSize, hind, if_pos rfl, h.recorded]
    · obtain ⟨e, he⟩ := hdefined i hi
      rw [hread, jitBase, hind, if_pos rfl, ← h.pointer hind]
      exact ⟨e, he, he⟩
  | false =>
    obtain ⟨hsize, hinline⟩ := h.inline hind
    refine ⟨?_, h.recorded, fun i hi => ?_⟩
    · rw [jitSize, hind, if_neg Bool.false_ne_true, hsize]
    · obtain ⟨e, he⟩ := hdefined i hi
      have hfirst : first = .inline := hinline.resolve_left (Nat.ne_of_gt (Nat.zero_lt_of_lt hi))
      rw [hread, jitBase, hind, if_neg Bool.false_ne_true, ← hfirst]
      exact ⟨e, he, he⟩

/-! ### Stores -/

private theorem Mirrors.data_inline (ht : s.tableData[t]? = some .inline) : t = 0 ∧
    first = .inline := by
  rw [h.data] at ht
  cases t with
  | zero => exact ⟨rfl, some.inj ht⟩
  | succ t =>
    rw [getElem?_cons_succ, getElem?_map] at ht
    obtain ⟨p, -, hp⟩ := map_eq_some_iff.mp ht
    cases hp

/-- Storing an entry moves no table. -/
theorem Mirrors.write (t i : Nat) (e : TableEntry) : (s.write t i e).Mirrors mod first := by
  unfold Tables.write
  split
  · exact h
  next ht =>
    obtain ⟨-, rfl⟩ := h.data_inline ht
    exact { h with pointer := fun hind => nomatch h.pointer hind }
  next p ht =>
    refine { h with live := fun {t' q} hq => ?_ }
    obtain ⟨es, hes, hle⟩ := h.live hq
    dsimp only
    by_cases hqp : q = p
    · subst hqp
      rw [update_self, hes]
      exact ⟨es.set i e, rfl, by rw [length_set]; exact hle⟩
    · rw [update_of_ne hqp]
      exact ⟨es, hes, hle⟩

private theorem Mirrors.writeAll (t i : Nat) (es : List TableEntry) :
    (s.writeAll t i es).Mirrors mod first := by
  induction es generalizing s i with
  | nil => exact h
  | cons e es ih => exact ih (h.write t i e) (i + 1)

private theorem Mirrors.assign (dt d st src : Nat) : (s.assign dt d st src).Mirrors mod first := by
  unfold Tables.assign
  split
  · exact h
  · exact h.write _ _ _

private theorem Mirrors.tableCopy (dt st d src n : Nat) :
    (s.tableCopy dt st d src n).Mirrors mod first := by
  induction n generalizing s d src with
  | zero => exact h
  | succ n ih =>
    unfold Tables.tableCopy
    split
    · exact h
    · split
      · exact ih (h.assign _ _ _ _) _ _
      · exact ih (h.assign _ _ _ _) _ _

private theorem Mirrors.initTable (x : Nat) (d src n : UInt32) (t : Nat) :
    (s.initTable mod x d src n t).Mirrors mod first := by
  unfold Tables.initTable
  dsimp only
  generalize (if s.droppedElems.getD x false = true then 0 else _) = elemLen
  split
  · exact h
  · split
    · exact h
    · exact h.writeAll _ _ _

/-- Dropped segments are no part of the tables. -/
theorem Mirrors.dropped (dropped : List Bool) :
    Mirrors mod first { s with droppedElems := dropped } :=
  { h with }

private theorem Mirrors.live_extra {j : Nat} (hq : s.extraTables[j]? = some q) :
    s.tableData[j + 1]? = some (.heap q) ∧ q ∈ s.extraTables := by
  rw [h.data, getElem?_cons_succ, getElem?_map, hq]
  exact ⟨rfl, mem_of_getElem? hq⟩

/-- No two tables share an array. -/
theorem Mirrors.data_heap (ht : s.tableData[t]? = some (.heap q))
    (ht' : s.tableData[t']? = some (.heap q)) : t = t' := by
  have hextra : ∀ {j}, s.tableData[j + 1]? = some (.heap q) → s.extraTables[j]? = some q := by
    intro j hj
    rw [h.data, getElem?_cons_succ, getElem?_map] at hj
    obtain ⟨q', hq', heq⟩ := map_eq_some_iff.mp hj
    cases heq
    exact hq'
  have hzero : s.tableData[0]? = some (.heap q) → q ∉ s.extraTables := by
    intro h0
    rw [h.data] at h0
    exact h.apart (some.inj h0)
  cases t with
  | zero =>
    cases t' with
    | zero => rfl
    | succ j => exact absurd (mem_of_getElem? (hextra ht')) (hzero ht)
  | succ i =>
    cases t' with
    | zero => exact absurd (mem_of_getElem? (hextra ht)) (hzero ht')
    | succ j =>
      obtain ⟨hi, hieq⟩ := List.getElem?_eq_some_iff.mp (hextra ht)
      obtain ⟨hj, hjeq⟩ := List.getElem?_eq_some_iff.mp (hextra ht')
      exact congrArg Nat.succ (h.distinct.getElem_inj_iff.mp (hieq.trans hjeq.symm))

private theorem Mirrors.size_pos : 0 < s.tableSizes.length := by
  rw [h.sizes, h.data]
  exact Nat.zero_lt_succ _

section

variable (hp : s.heap p = none)

include hp

/-- An address that is free is that of no table. -/
theorem Mirrors.ne_of_free (hq : s.tableData[t]? = some (.heap q)) : q ≠ p := by
  rintro rfl
  obtain ⟨es, hes, -⟩ := h.live hq
  rw [hp] at hes
  cases hes

private theorem Mirrors.fresh : first ≠ .heap p ∧ p ∉ s.extraTables := by
  constructor
  · intro heq
    exact h.ne_of_free (t := 0) hp (by rw [h.data, heq]; rfl) rfl
  · intro hin
    obtain ⟨j, hj, rfl⟩ := getElem_of_mem hin
    exact h.ne_of_free hp (h.live_extra (getElem?_eq_getElem hj)).1 rfl

/-- Growing table 0 moves it to the heap; compiled code follows if it uses the pointer. -/
theorem Mirrors.moveFirst (hlen : n ≤ es.length)
    (hsee : mod.indirectTable 0 = true ∨ s.sizeOf 0 = 0 ∧ n = 0)
    (hdata : s'.tableData = s.tableData.set 0 (.heap p)) (hextras : s'.extraTables = s.extraTables)
    (hset : s'.tableSizes = s.tableSizes.set 0 n) (halt : s'.altTable = some p)
    (harea : s'.area = storePointer s.area p) (hrec : s'.recordedSize = n)
    (hheap : ∀ q, .heap q ≠ first → s'.heap q = update s.heap p (some es) q) :
    s'.Mirrors mod (.heap p) := by
  obtain ⟨hfirst, hextra⟩ := h.fresh hp
  have hsize : s'.sizeOf 0 = n := by
    rw [sizeOf_set h.size_pos s' hset, if_pos rfl]
  have hdata' : s'.tableData = .heap p :: s'.extraTables.map .heap := by
    rw [hdata, h.data, hextras]
    rfl
  refine ⟨hdata', ?_, fun {t q} hq => ?_, hextras ▸ h.distinct, fun {q} hq => ?_, fun {q} hq => ?_,
    fun _ => ?_, fun hind => ?_, hrec.trans hsize.symm⟩
  · rw [hset, hdata, length_set, length_set, h.sizes]
  · cases t with
    | zero =>
      rw [hdata'] at hq
      cases hq
      refine ⟨es, ?_, hsize.symm ▸ hlen⟩
      exact (hheap p (Ne.symm hfirst)).trans (update_self _ _ _)
    | succ j =>
      rw [hdata', hextras, getElem?_cons_succ, getElem?_map] at hq
      obtain ⟨q', hq', heq⟩ := map_eq_some_iff.mp hq
      cases heq
      obtain ⟨hget, hmem⟩ := h.live_extra hq'
      obtain ⟨es', hes', hle⟩ := h.live hget
      have hne : q ≠ p := fun heq => hextra (heq ▸ hmem)
      have hnf : Base.heap q ≠ first := fun heq => h.apart heq.symm hmem
      refine ⟨es', (hheap q hnf).trans ((update_of_ne hne _ _).trans hes'), ?_⟩
      have hlt : j + 1 < s.tableSizes.length := h.sizes ▸ (List.getElem?_eq_some_iff.mp hget).1
      rw [sizeOf_set hlt s' hset, if_neg (Nat.succ_ne_zero j).symm]
      exact hle
  · cases hq
    exact hextras ▸ hextra
  · exact congrArg Base.heap (mem_unique halt hq)
  · rw [harea, loadPointer_storePointer]
  · obtain ⟨hzero, rfl⟩ := hsee.resolve_left (by rw [hind]; exact Bool.false_ne_true)
    rw [hsize, ← (h.inline hind).1]
    exact ⟨hzero.symm, .inl rfl⟩

/-- Growing another table replaces its array and no other. -/
theorem Mirrors.growExtra (hlen : n ≤ es.length) (ht : t ≠ 0)
    (hs' : s' = Tables.replaceExtra { s with heap := update s.heap p (some es) } t p) :
    Mirrors mod first { s' with tableSizes := s'.tableSizes.set t n } := by
  obtain ⟨hfirst, hextra⟩ := h.fresh hp
  obtain ⟨j, rfl⟩ := Nat.exists_eq_succ_of_ne_zero ht
  cases hj : s.extraTables[j]? with
  | none =>
    -- no such table: an array nobody owns is all that changed
    have hnone : s.tableData[j + 1]? = none := by
      rw [h.data, getElem?_cons_succ, getElem?_map, hj]
      rfl
    have hsame : s' = { s with heap := update s.heap p (some es) } := by
      rw [hs', replaceExtra]
      rw [hnone]
    have hlen' : s.tableSizes.set (j + 1) n = s.tableSizes := by
      apply set_eq_of_length_le
      rw [h.sizes]
      exact getElem?_eq_none_iff.mp hnone
    subst hsame
    rw [hlen']
    refine { h with live := fun {t q} hq => ?_ }
    obtain ⟨es', hes', hle⟩ := h.live hq
    exact ⟨es', (update_of_ne (h.ne_of_free hp hq) _ _).trans hes', hle⟩
  | some old =>
    obtain ⟨hget, hmem⟩ := h.live_extra hj
    have hidx : s.extraTables.idxOf old = j := by
      obtain ⟨hlt, rfl⟩ := List.getElem?_eq_some_iff.mp hj
      exact h.distinct.idxOf_getElem j hlt
    have hsame : s' = { s with
        heap := release (update s.heap p (some es)) (some old)
        extraTables := s.extraTables.set j p
        tableData := s.tableData.set (j + 1) (.heap p) } := by
      rw [hs', replaceExtra]
      rw [hget]
      dsimp only
      rw [if_pos hmem, hidx]
    subst hsame
    have hdata : s.tableData.set (j + 1) (.heap p) =
        first :: (s.extraTables.set j p).map .heap := by
      rw [h.data, set_cons_succ, map_set]
    have hsize : ∀ {s' : Tables} {t}, s'.tableSizes = s.tableSizes.set (j + 1) n →
        t < s.tableSizes.length → s'.sizeOf t = if j + 1 = t then n else s.sizeOf t :=
      fun hs' ht => sizeOf_set ht _ hs'
    have hzero : ∀ {s' : Tables}, s'.tableSizes = s.tableSizes.set (j + 1) n →
        s'.sizeOf 0 = s.sizeOf 0 := by
      intro s' hs'
      rw [hsize hs' h.size_pos, if_neg (Nat.succ_ne_zero j)]
    -- an array other than the new and the old one is where it was
    have hkept : ∀ {t q}, s.tableData[t]? = some (.heap q) → q ≠ old →
        release (update s.heap p (some es)) (some old) q = s.heap q ∧
          ∃ es', s.heap q = some es' ∧ s.sizeOf t ≤ es'.length := by
      intro t q hq hne
      obtain ⟨es', hes', hle⟩ := h.live hq
      have hqp := h.ne_of_free hp hq
      exact ⟨(update_of_ne hne _ _).trans (update_of_ne hqp _ _), es', hes', hle⟩
    refine ⟨hdata, ?_, fun {t q} hq => ?_, List.Nodup.set h.distinct hextra, fun {q} hq hin => ?_,
      h.owned, h.pointer, fun hind => ?_, ?_⟩
    · rw [length_set, length_set, h.sizes]
    · have hlt' : j + 1 < s.tableSizes.length := h.sizes ▸ (List.getElem?_eq_some_iff.mp hget).1
      by_cases hmoved : j + 1 = t
      · subst hmoved
        rw [getElem?_set_self (h.sizes ▸ hlt')] at hq
        cases hq
        have hne : p ≠ old := fun heq => hextra (heq ▸ hmem)
        refine ⟨es, (update_of_ne hne _ _).trans (update_self _ _ _), ?_⟩
        rw [hsize rfl hlt', if_pos rfl]
        exact hlen
      · rw [getElem?_set_ne hmoved] at hq
        have hne : q ≠ old := by
          rintro rfl
          exact hmoved (h.data_heap hget hq)
        obtain ⟨hheap, es', hes', hle⟩ := hkept hq hne
        refine ⟨es', hheap.trans hes', ?_⟩
        rw [hsize rfl (h.sizes ▸ (List.getElem?_eq_some_iff.mp hq).1), if_neg hmoved]
        exact hle
    · rcases mem_or_eq_of_mem_set hin with hold | rfl
      · exact h.apart hq hold
      · exact hfirst hq
    · rw [hzero rfl]
      exact h.inline hind
    · rw [hzero rfl]
      exact h.recorded

end

/-! ### Reset -/

omit h in
/-- Table 0 of a fresh context is where compiled code looks for it. -/
theorem mirrors_resetFirst (hextras : s.extraTables = [])
    (hsize : (mod.tables.head?.map (·.limits.initial)).getD 0 = tsize)
    (h : s.resetFirst mod tsize p = some s') : ∃ first, s'.Mirrors mod first := by
  unfold resetFirst at h
  split at h
  next hind =>
    obtain ⟨s₁, halloc, rfl⟩ := map_eq_some_iff.mp h
    obtain ⟨-, rfl⟩ := allocate_eq_some halloc
    refine ⟨.heap p, by simp [hextras], rfl, fun {t q} hq => ?_, by simp [hextras],
      by simp [hextras], fun {q} hq => ?_, fun _ => ?_, fun hno => ?_, rfl⟩
    · cases t with
      | zero =>
        cases hq
        exact ⟨_, update_self _ _ _, Nat.le_of_eq length_replicate.symm⟩
      | succ t => simp at hq
    · cases hq
      rfl
    · rw [loadPointer_storePointer]
    · rw [hind] at hno
      cases hno
  next hind =>
    cases h
    refine ⟨.inline, by simp [hextras], rfl, fun {t q} hq => ?_, by simp [hextras],
      fun {q} hq => (by cases hq), fun {q} hq => (by cases hq), fun hyes => absurd hyes hind,
      fun _ => ⟨hsize.symm, .inr rfl⟩, rfl⟩
    cases t with
    | zero => cases hq
    | succ t => simp at hq

/-- A further table gets an array of its own. -/
theorem Mirrors.resetExtra (hs' : s.resetExtra tsize p = some s') :
    s'.Mirrors mod first := by
  obtain ⟨s₁, halloc, rfl⟩ := map_eq_some_iff.mp hs'
  obtain ⟨hp, rfl⟩ := allocate_eq_some halloc
  obtain ⟨hfirst, hextra⟩ := h.fresh hp
  have hold : ∀ {s' : Tables} {t}, s'.tableSizes = s.tableSizes ++ [tsize] →
      t < s.tableSizes.length → s'.sizeOf t = s.sizeOf t := by
    intro s' t hs' ht
    rw [sizeOf, sizeOf, hs', getD_eq_getElem?_getD, getD_eq_getElem?_getD, getElem?_append_left ht]
  refine ⟨?_, ?_, fun {t q} hq => ?_, ?_, fun {q} hq hin => ?_, h.owned, h.pointer, fun hind => ?_,
    ?_⟩
  · rw [h.data, map_append]
    rfl
  · rw [length_append, length_append, h.sizes]
    rfl
  · dsimp only at hq ⊢
    by_cases ht : t < s.tableData.length
    · rw [getElem?_append_left ht] at hq
      obtain ⟨es, hes, hle⟩ := h.live hq
      have hne := h.ne_of_free hp hq
      rw [hold rfl (h.sizes ▸ ht)]
      exact ⟨es, (update_of_ne hne _ _).trans hes, hle⟩
    · have hlt := (List.getElem?_eq_some_iff.mp hq).1
      rw [length_append, length_singleton] at hlt
      obtain rfl : t = s.tableData.length := by omega
      rw [getElem?_concat_length] at hq
      cases hq
      refine ⟨_, update_self _ _ _, ?_⟩
      rw [sizeOf, ← h.sizes, getD_eq_getElem?_getD, getElem?_concat_length, length_replicate]
      exact Nat.le_refl _
  · exact nodup_append.mpr ⟨h.distinct, nodup_singleton p, fun a ha b hb =>
      fun heq => hextra (mem_singleton.mp hb ▸ heq ▸ ha)⟩
  · rcases mem_append.mp hin with hin | hin
    · exact h.apart hq hin
    · rw [mem_singleton.mp hin] at hq
      exact hfirst hq
  · rw [hold rfl h.size_pos]
    exact h.inline hind
  · rw [hold rfl h.size_pos]
    exact h.recorded

private theorem Mirrors.resetExtras {ts : List TableType} {ps : List UInt64}
    (hs' : s.resetExtras ts ps = some s') : s'.Mirrors mod first := by
  induction ts generalizing s ps with
  | nil =>
    cases hs'
    exact h
  | cons t ts ih =>
    cases ps with
    | nil => cases hs'
    | cons p ps =>
      obtain ⟨s₁, hfirst, hrest⟩ := bind_eq_some_iff.mp hs'
      exact ih (h.resetExtra hfirst) hrest

private theorem Mirrors.applyElem {seg : ElemSegment} (hs' : s.applyElem mod i seg = some s') :
    s'.Mirrors mod first := by
  unfold Tables.applyElem at hs'
  split at hs'
  · cases hs'
    exact h
  · cases hs'
    exact h.dropped _
  · split at hs'
    · cases hs'
    · split at hs'
      · cases hs'
      · cases hs'
        exact (h.writeAll _ _ _).dropped _

private theorem Mirrors.applyElems {segs : List ElemSegment}
    (hs' : s.applyElems mod i segs = some s') : s'.Mirrors mod first := by
  induction segs generalizing s i with
  | nil =>
    cases hs'
    exact h
  | cons seg segs ih =>
    obtain ⟨s₁, happly, hrest⟩ := bind_eq_some_iff.mp hs'
    exact ih (h.applyElem happly) hrest

end

private theorem mirrors_reset {addresses : List UInt64} (h : s.reset mod addresses = some s') :
    ∃ first, s'.Mirrors mod first := by
  unfold reset at h
  cases hts : mod.tables with
  | nil =>
    rw [hts] at h
    cases h
  | cons t ts =>
    rw [hts] at h
    cases addresses with
    | nil => cases h
    | cons p ps =>
      obtain ⟨s₁, hfirst, h⟩ := bind_eq_some_iff.mp h
      obtain ⟨s₂, hextras, h⟩ := bind_eq_some_iff.mp h
      obtain ⟨first, hm⟩ := mirrors_resetFirst rfl (by rw [hts]; rfl) hfirst
      exact ⟨first, ((hm.resetExtras hextras).dropped _).applyElems h⟩

/-! ### Runs -/

/-- One operation on the tables; those that trap change nothing. -/
inductive Operation where
  | grow (t : Nat) (delta value : UInt32) (address : UInt64)
  | set (t : Nat) (idx value : UInt32)
  | fill (t : Nat) (i value n : UInt32)
  | init (x : Nat) (d src n : UInt32) (t : Nat)
  | drop (x : Nat)
  | copy (dstTable srcTable : Nat) (d src n : UInt32)

variable (mod) in
/-- Perform an operation. It is refused only when a growth is given an address in use. -/
def step (s : Tables) : Operation → Option Tables
  | .grow t delta value address => s.tableGrow mod t delta value address
  | .set t idx value => some (s.set t idx value)
  | .fill t i value n => some (s.tableFill t i value n)
  | .init x d src n t => some (s.initTable mod x d src n t)
  | .drop x => some (s.dropElem x)
  | .copy dt st d src n => some (s.tableCopy dt st d.toNat src.toNat n.toNat)

variable (mod) in
/-- A growth of table 0 is seen by compiled code: the table is reached through the pointer,
or is empty, or the growth is refused. -/
def Seen (s : Tables) : Operation → Prop
  | .grow t delta _ _ => t = 0 → mod.indirectTable 0 = true ∨ s.sizeOf 0 + delta.toNat = 0 ∨
      maxSize mod 0 < s.sizeOf 0 + delta.toNat
  | _ => True

instance (s : Tables) : ∀ op, Decidable (s.Seen mod op)
  | .grow _ _ _ _ => inferInstanceAs (Decidable (_ → _ ∨ _ ∨ _))
  | .set _ _ _ | .fill _ _ _ _ | .init _ _ _ _ _ | .drop _ | .copy _ _ _ _ _ => isTrue trivial

private theorem mirrors_step (s : Tables) (op : Operation) (s' : Tables)
    (h : ∃ first, s.Mirrors mod first) (hseen : s.Seen mod op) (hs : s.step mod op = some s') :
    ∃ first, s'.Mirrors mod first := by
  obtain ⟨first, h⟩ := h
  cases op with
  | grow t delta value p =>
    simp only [step, tableGrow] at hs
    split at hs
    · cases hs
      exact ⟨first, h⟩
    next hmax =>
      obtain ⟨s₁, halloc, rfl⟩ := map_eq_some_iff.mp hs
      obtain ⟨hp, rfl⟩ := allocate_eq_some halloc
      have hlen : s.sizeOf t + delta.toNat ≤
          (s.grown t delta.toNat (.ofReference value)).length := by
        simp [grown]
      by_cases ht : t = 0
      · subst ht
        refine ⟨.heap p, h.moveFirst hp hlen ?_ rfl rfl rfl rfl rfl rfl fun q hq => ?_⟩
        · rcases hseen rfl with hind | hzero | hlt
          · exact .inl hind
          · exact .inr (by omega)
          · exact absurd hlt hmax
        -- the array given back is the one table 0 had before
        · cases halt : s.altTable with
          | none => rfl
          | some old =>
            have hne : q ≠ old := fun heq => hq (heq ▸ (h.owned halt).symm)
            exact update_of_ne hne _ _
      · rw [if_neg ht]
        exact ⟨first, h.growExtra hp hlen ht rfl⟩
  | set t idx value =>
    cases hs
    unfold Tables.set
    split
    · exact ⟨first, h.write _ _ _⟩
    · exact ⟨first, h⟩
  | fill t i value n =>
    cases hs
    unfold tableFill
    split
    · exact ⟨first, h⟩
    · exact ⟨first, h.writeAll _ _ _⟩
  | init x d src n t =>
    cases hs
    exact ⟨first, h.initTable _ _ _ _ _⟩
  | drop x =>
    cases hs
    unfold dropElem
    split
    · exact ⟨first, h⟩
    · exact ⟨first, h.dropped _⟩
  | copy dt st d src n =>
    cases hs
    exact ⟨first, h.tableCopy _ _ _ _ _⟩

/-- After a reset and any operations on the tables, each growth of table 0 being one that
compiled code sees, compiled code and the interpreter agree on table 0. -/
theorem jit_sees_table (blank : Tables) (addresses : List UInt64) (s₀ : Tables)
    (ops : List Operation) (s : Tables) (hreset : blank.reset mod addresses = some s₀)
    (hok : AllSteps (step mod) (Seen mod) s₀ ops) (hrun : runSteps (step mod) s₀ ops = some s) :
    s.Agrees mod := by
  obtain ⟨first, h⟩ := runSteps_invariant mirrors_step (mirrors_reset hreset) hok hrun
  exact h.agrees

end Tables

/-- A context that has no tables yet. -/
def Tables.blank : Tables := ⟨fun _ => .blank, 0, fun _ => none, none, [], [], [], []⟩

/-- A module with one table of two entries that may not grow. -/
def fixedModule : TableModule := ⟨[.funcs ⟨true, 2, 2⟩], [], 4096⟩

/-- The same module with room to grow to three entries. -/
def growableModule : TableModule := ⟨[.funcs ⟨true, 2, 3⟩], [], 4096⟩

namespace Tables

/-- A growable table is stored through, grown and stored through again. -/
theorem jit_sees_table_grown : ∃ s₀ s, blank.reset growableModule [64] = some s₀ ∧
      runSteps (step growableModule) s₀ [.set 0 1 7, .grow 0 1 9 128, .set 0 0 5] = some s ∧
      s.Agrees growableModule ∧ s.read 0 1 = some (.ofReference 7) ∧ s.sizeOf 0 = 3 := by
  refine ⟨_, _, rfl, rfl, ?_, by decide, by decide⟩
  exact jit_sees_table blank [64] _ [.set 0 1 7, .grow 0 1 9 128, .set 0 0 5] _
    (rfl : blank.reset growableModule [64] = _) (by decide) rfl

/-- Growing a fixed table by nothing succeeds and moves it: compiled code goes on reading the
page, where the new pointer lies over the first entry. -/
theorem grow_by_zero_moves_table : ∃ s₀ s, blank.reset fixedModule [64] = some s₀ ∧
      runSteps (step fixedModule) s₀ [.set 0 0 5, .grow 0 0 0 128, .set 0 1 7] = some s ∧
      s.read 0 0 = some (.ofReference 5) ∧ s.read 0 1 = some (.ofReference 7) ∧
      s.readAt (s.jitBase fixedModule) 0 = some ⟨128, 0, 0⟩ ∧
      s.readAt (s.jitBase fixedModule) 1 = some .blank ∧ ¬s.Agrees fixedModule := by
  refine ⟨_, _, rfl, rfl, by decide, by decide, by decide, by decide, fun h => ?_⟩
  obtain ⟨e, he, hj⟩ := h.entries 1 (by decide)
  exact absurd (hj.trans he.symm) (by decide)

end Tables

end PsiServe.Table
