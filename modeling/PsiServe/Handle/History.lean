import PsiServe.Base.Run
import PsiServe.Handle.Table

/-!
# Handle table: what handles resolve to

Whole histories of a `handle_table`
(`psizam/handle_table.hpp:62–132`). Each element is numbered by
the call that placed it, so that a handle which comes back to a reused slot is told apart
from the handle the slot's element was placed under. The numbers, and how often the slot
of a handle was recycled since, are kept beside the table and not by it.
-/

namespace PsiServe.Handle

open Base List HandleTable

variable {T : Type} {capacity : Nat}

/-- A handle that `create` has returned, the element it was created for, how often its slot
was recycled since, and whether the handle was destroyed. -/
structure Issued (T : Type) where
  handle : UInt32
  object : T
  recycled : Nat
  destroyed : Bool
deriving DecidableEq

/-- A table together with every handle it has returned, oldest first. The elements in the
table carry the position of their handle in that list. -/
structure History (T : Type) (capacity : Nat) where
  table : HandleTable (Nat × T) capacity
  issued : List (Issued T)
deriving DecidableEq

/-- A call on the table. A `create` whose element constructor throws makes nothing. -/
inductive Operation (T : Type) where
  | create (make : Option T)
  | get (handle : UInt32)
  | destroy (handle : UInt32)
  | destroyAll

/-- Record of a handle after `destroy` succeeded on another or on itself. -/
def Issued.onDestroy (e : Issued T) (handle : UInt32) : Issued T :=
  { e with
    destroyed := e.destroyed || e.handle == handle
    recycled := e.recycled + if unpackIndex e.handle = unpackIndex handle then 1 else 0 }

/-- Record of a handle after `destroy_all`, `reused` being whether its slot was occupied. -/
def Issued.onDestroyAll (e : Issued T) (reused : Bool) : Issued T :=
  { e with
    destroyed := true
    recycled := e.recycled + if reused then 1 else 0 }

namespace History

/-- A fresh table that has returned no handle. -/
def start (maxLive : Nat) (hcap : capacity ≤ 0xFFFF) : History T capacity :=
  ⟨.new maxLive hcap, []⟩

/-- The slot at a position holds an element. -/
def occupiedAt (r : History T capacity) (i : Nat) : Bool :=
  r.table.slots[i]?.any (·.occupied)

/-- One call on the table and what it means for the handles returned so far. -/
def step (r : History T capacity) : Operation T → Option (History T capacity)
  | .create make =>
    let (table, result) := r.table.create (make.map fun v => (r.issued.length, v))
    match make, result with
    | some v, some handle =>
      if handle = invalidHandle then some { r with table }
      else some ⟨table, r.issued ++ [⟨handle, v, 0, false⟩]⟩
    | _, _ => some { r with table }
  | .get _ => some r
  | .destroy handle =>
    match r.table.destroy handle with
    | (table, true) => some ⟨table, r.issued.map (·.onDestroy handle)⟩
    | (table, false) => some { r with table }
  | .destroyAll =>
    some ⟨r.table.destroyAll,
      r.issued.map fun e => e.onDestroyAll (r.occupiedAt (unpackIndex e.handle))⟩

/-- A throwing constructor is not reached: the call is turned down before. -/
def NoThrow (r : History T capacity) : Operation T → Prop
  | .create none => r.table.Exhausted
  | _ => True

instance (r : History T capacity) : ∀ op, Decidable (r.NoThrow op)
  | .create none => inferInstanceAs (Decidable r.table.Exhausted)
  | .create (some _) | .get _ | .destroy _ | .destroyAll => isTrue trivial

/-- What the record of the `k`-th handle says about its slot. -/
structure Entry (s : Slot (Nat × T)) (k : Nat) (e : Issued T) : Prop where
  generation : s.generation = unpackGen e.handle + UInt16.ofNat e.recycled
  live : e.destroyed = false →
    e.recycled = 0 ∧ s.occupied = true ∧ s.storage = some (k, e.object)
  gone : e.destroyed = true → 0 < e.recycled

/-- The records match the table, and every element in it belongs to a live handle. -/
structure Recorded (r : History T capacity) : Prop where
  sound : r.table.Sound
  entries : ∀ (k : Nat) (e : Issued T), r.issued[k]? = some e →
    ∃ s, r.table.slots[unpackIndex e.handle]? = some s ∧ Entry s k e
  owned : ∀ (i : Nat) (s : Slot (Nat × T)), r.table.slots[i]? = some s → s.occupied = true →
    ∃ (k : Nat) (e : Issued T), r.issued[k]? = some e ∧ e.destroyed = false ∧
      unpackIndex e.handle = i

/-- The free list, the live count, room for `create` and the meaning of every handle
returned so far are as they should be. -/
structure Tracked (r : History T capacity) : Prop where
  freeList : r.table.FreeListExact
  liveCount : r.table.liveCount = r.table.occupiedCount
  createFails : ∀ v, (r.table.create (some v)).2 = some invalidHandle →
    r.table.maxLive ≤ r.table.liveCount ∨ capacity ≤ r.table.liveCount
  resolves : ∀ (k : Nat) (e : Issued T), r.issued[k]? = some e →
    (r.table.get e.handle = some (k, e.object) ↔ e.destroyed = false ∧ e.recycled < 65536)
  stale : ∀ (k : Nat) (e : Issued T), r.issued[k]? = some e → e.destroyed = true →
    e.recycled < 65536 → r.table.get e.handle = none

private theorem recorded_start (maxLive : Nat) (hcap : capacity ≤ 0xFFFF) :
    (start maxLive hcap : History T capacity).Recorded where
  sound := sound_new maxLive hcap
  entries k e he := by simp [start] at he
  owned i s hs hocc := by
    obtain ⟨hi, rfl⟩ := Vector.getElem?_eq_some_iff.mp hs
    simp [start, new] at hocc

/-! ### Steps keep the records -/

section Create

variable {r : History T capacity} {s : Slot (Nat × T)} {k : Nat}

/-- The record of an element just placed. -/
theorem Entry.placed {i : Nat} (hi : i < 2 ^ 16) (v : T) :
    Entry { s with storage := some (k, v), occupied := true } k
      ⟨pack i s.generation, v, 0, false⟩ where
  generation := by
    rw [unpackGen_pack hi]
    exact (UInt16.add_zero _).symm
  live _ := ⟨rfl, rfl, rfl⟩
  gone hd := by cases hd

/-- Placing an element makes a record for it and changes no other. -/
theorem Recorded.create (h : r.Recorded) (v : T) (hroom : ¬r.table.Exhausted) :
    ∃ (table : HandleTable (Nat × T) capacity) (handle : UInt32),
      r.table.create (some (r.issued.length, v)) = (table, some handle) ∧
      handle ≠ invalidHandle ∧
      Recorded ⟨table, r.issued ++ [⟨handle, v, 0, false⟩]⟩ := by
  have hsound := h.sound.create (r.issued.length, v) hroom
  obtain ⟨hidx, heq⟩ := create_some (v := (r.issued.length, v)) hroom
  have hcap := r.table.capacity_le
  have hvac := (vacant_iff hidx).mp (h.sound.free.head_vacant hidx)
  have hunpack := unpackIndex_pack (show r.table.freeHead < 2 ^ 16 by omega)
    r.table.slots[r.table.freeHead].generation
  rw [heq] at hsound
  refine ⟨_, _, heq, pack_ne_invalidHandle (by omega) _, hsound, fun k e he => ?_,
    fun i s hs hocc => ?_⟩
  · dsimp only at he ⊢
    rw [Vector.getElem?_set]
    by_cases hk : k < r.issued.length
    · rw [getElem?_append_left hk] at he
      obtain ⟨s, hs, hentry⟩ := h.entries k e he
      by_cases hsame : r.table.freeHead = unpackIndex e.handle
      · rw [if_pos hsame]
        rw [← hsame, Vector.getElem?_eq_getElem hidx] at hs
        cases hs
        -- another element in a vacant slot changes nothing for the handles it had before
        exact ⟨_, rfl, hentry.generation,
          fun hd => Bool.noConfusion ((hentry.live hd).2.1.symm.trans hvac), hentry.gone⟩
      · rw [if_neg hsame]
        exact ⟨s, hs, hentry⟩
    · have hlt := (List.getElem?_eq_some_iff.mp he).1
      rw [length_append, length_singleton] at hlt
      obtain rfl : k = r.issued.length := by omega
      rw [getElem?_concat_length] at he
      cases he
      rw [hunpack, if_pos rfl]
      exact ⟨_, rfl, .placed (by omega) v⟩
  · dsimp only at hs ⊢
    rw [Vector.getElem?_set] at hs
    by_cases hsame : r.table.freeHead = i
    · exact ⟨r.issued.length, _, getElem?_concat_length, rfl, hunpack.trans hsame⟩
    · rw [if_neg hsame] at hs
      obtain ⟨k, e, hk, hd, hindex⟩ := h.owned i s hs hocc
      refine ⟨k, e, ?_, hd, hindex⟩
      rw [getElem?_append_left (List.getElem?_eq_some_iff.mp hk).1]
      exact hk

end Create

section Destroy

variable {r : History T capacity} {s : Slot (Nat × T)} {k : Nat} {e : Issued T} {handle : UInt32}

private theorem getElem?_map_eq_some {f : Issued T → Issued T} (h : (r.issued.map f)[k]? = some e) :
    ∃ e₀, r.issued[k]? = some e₀ ∧ f e₀ = e := by
  rw [getElem?_map] at h
  exact Option.map_eq_some_iff.mp h

private theorem generation_add (g : UInt16) (n : Nat) :
    g + UInt16.ofNat n + 1 = g + UInt16.ofNat (n + 1) := by
  rw [UInt16.ofNat_add, UInt16.add_assoc]
  rfl

/-- Recycling a slot destroys whatever live handle it had. -/
theorem Entry.release (h : Entry s k e) (hocc : s.occupied = true) (nextFree : Nat)
    {e' : Issued T} (hhandle : e'.handle = e.handle) (hrecycled : e'.recycled = e.recycled + 1)
    (hdestroyed : e'.destroyed = true) : Entry { s.release with nextFree := nextFree } k e' where
  generation := by
    rw [hhandle, hrecycled, ← generation_add, ← h.generation]
    simp only [Slot.release, hocc, if_true]
  live hd := Bool.noConfusion (hd.symm.trans hdestroyed)
  gone _ := by omega

/-- A successful `destroy` ends the one live handle of its slot. -/
theorem Recorded.destroy (h : r.Recorded) {i : Fin capacity}
    (hl : r.table.lookup handle = some i) :
    Recorded ⟨(r.table.destroy handle).1, r.issued.map (·.onDestroy handle)⟩ := by
  have hsound := h.sound.destroy handle
  obtain ⟨hidx, hocc, hgen⟩ := lookup_eq_some_iff.mp hl
  rw [destroy_some hl] at hsound ⊢
  refine ⟨hsound, fun k e he => ?_, fun j s hs hjocc => ?_⟩
  · obtain ⟨e₀, he₀, rfl⟩ := getElem?_map_eq_some he
    obtain ⟨s, hs, hentry⟩ := h.entries k e₀ he₀
    rw [show (e₀.onDestroy handle).handle = e₀.handle from rfl, Vector.getElem?_set]
    by_cases hsame : i.val = unpackIndex e₀.handle
    · rw [if_pos hsame]
      rw [← hsame, Vector.getElem?_eq_getElem i.isLt] at hs
      cases hs
      have hindex : unpackIndex e₀.handle = unpackIndex handle := hsame.symm.trans hidx.symm
      refine ⟨_, rfl, hentry.release hocc _ rfl ?_ ?_⟩
      · rw [Issued.onDestroy, if_pos hindex]
      · cases hd : e₀.destroyed with
        | true => rw [Issued.onDestroy, hd, Bool.true_or]
        | false =>
          have hhandle : e₀.handle = handle := by
            have hlive := hentry.generation
            rw [(hentry.live hd).1] at hlive
            exact handle_ext hindex ((hlive.trans (UInt16.add_zero _)).symm.trans hgen)
          rw [Issued.onDestroy, hhandle, beq_self_eq_true, Bool.or_true]
    · rw [if_neg hsame]
      have hindex : unpackIndex e₀.handle ≠ unpackIndex handle := fun heq =>
        hsame (hidx.symm.trans heq.symm)
      have hother : (e₀.handle == handle) = false :=
        beq_eq_false_iff_ne.mpr fun heq => hindex (congrArg unpackIndex heq)
      rw [Issued.onDestroy, if_neg hindex, hother, Bool.or_false, Nat.add_zero]
      exact ⟨s, hs, hentry⟩
  · rw [Vector.getElem?_set] at hs
    by_cases hsame : i.val = j
    · rw [if_pos hsame] at hs
      cases hs
      exact Bool.noConfusion (hjocc.symm.trans (Slot.occupied_release _))
    · rw [if_neg hsame] at hs
      obtain ⟨k, e, hk, hd, hindex⟩ := h.owned j s hs hjocc
      refine ⟨k, e.onDestroy handle, ?_, ?_, hindex⟩
      · rw [getElem?_map, hk]
        rfl
      · have hother : (e.handle == handle) = false :=
          beq_eq_false_iff_ne.mpr fun heq => hsame (by rw [← hindex, heq, hidx])
        rw [Issued.onDestroy, hd, hother]
        rfl

/-- After `destroy_all` no handle is live. -/
theorem Recorded.destroyAll (h : r.Recorded) : Recorded ⟨r.table.destroyAll,
      r.issued.map fun e => e.onDestroyAll (r.occupiedAt (unpackIndex e.handle))⟩ := by
  refine ⟨sound_destroyAll _, fun k e he => ?_, fun i s hs hocc => ?_⟩
  · obtain ⟨e₀, he₀, rfl⟩ := getElem?_map_eq_some he
    obtain ⟨s, hs, hentry⟩ := h.entries k e₀ he₀
    obtain ⟨hi, rfl⟩ := Vector.getElem?_eq_some_iff.mp hs
    have hat : r.occupiedAt (unpackIndex e₀.handle) =
        r.table.slots[unpackIndex e₀.handle].occupied := by
      rw [occupiedAt, hs, Option.any_some]
    refine ⟨_, Vector.getElem?_eq_getElem hi, ?_⟩
    rw [destroyAll_slot hi, hat]
    cases hocc : r.table.slots[unpackIndex e₀.handle].occupied with
    | true => exact hentry.release hocc _ rfl rfl rfl
    | false =>
      refine ⟨?_, nofun, fun _ => ?_⟩
      · simp only [Slot.release, hocc, Issued.onDestroyAll]
        exact hentry.generation
      · cases hd : e₀.destroyed with
        | true => exact hentry.gone hd
        | false => exact Bool.noConfusion ((hentry.live hd).2.1.symm.trans hocc)
  · obtain ⟨hi, rfl⟩ := Vector.getElem?_eq_some_iff.mp hs
    rw [destroyAll_slot hi] at hocc
    exact Bool.noConfusion (hocc.symm.trans (Slot.occupied_release _))

end Destroy

/-- Every call that reaches no throwing constructor keeps the records. -/
theorem recorded_step (r : History T capacity) (op : Operation T) (r' : History T capacity)
    (h : r.Recorded) (hok : r.NoThrow op) (hs : r.step op = some r') : r'.Recorded := by
  cases op with
  | create make =>
    by_cases hroom : r.table.Exhausted
    · rw [step, create, dif_pos hroom] at hs
      cases make with
      | none =>
        cases hs
        exact h
      | some v =>
        cases hs
        exact h
    · cases make with
      | none => exact absurd hok hroom
      | some v =>
        obtain ⟨table, handle, heq, hvalid, hrec⟩ := h.create v hroom
        rw [step, Option.map_some, heq] at hs
        simp only [if_neg hvalid] at hs
        cases hs
        exact hrec
  | get handle =>
    cases hs
    exact h
  | destroy handle =>
    cases hl : r.table.lookup handle with
    | none =>
      rw [step, destroy_none hl] at hs
      cases hs
      exact h
    | some i =>
      have hrec := h.destroy hl
      rw [destroy_some hl] at hrec
      rw [step, destroy_some hl] at hs
      cases hs
      exact hrec
  | destroyAll =>
    cases hs
    exact h.destroyAll

/-! ### What the records say -/

section Tracked

variable {r : History T capacity} {s : Slot (Nat × T)} {k : Nat} {e : Issued T}

/-- A generation that has moved on by less than its range is another one. -/
theorem generation_ne {g : UInt16} {n : Nat} (hpos : 0 < n) (hlt : n < 65536) :
    g + UInt16.ofNat n ≠ g := by
  intro heq
  have hnat := congrArg UInt16.toNat heq
  rw [UInt16.toNat_add, UInt16.toNat_ofNat'] at hnat
  omega

private theorem Entry.get_live (h : Entry s k e)
    (hs : r.table.slots[unpackIndex e.handle]? = some s)
    (hd : e.destroyed = false) : r.table.get e.handle = some (k, e.object) := by
  obtain ⟨hi, rfl⟩ := Vector.getElem?_eq_some_iff.mp hs
  obtain ⟨hzero, hocc, hstored⟩ := h.live hd
  have hl : r.table.lookup e.handle = some ⟨_, hi⟩ := by
    refine HandleTable.lookup_eq_some_iff.mpr ⟨rfl, hocc, ?_⟩
    have hgen := h.generation
    rw [hzero] at hgen
    exact hgen.trans (UInt16.add_zero _)
  rw [HandleTable.get, hl]
  exact hstored

private theorem Entry.get_stale (h : Entry s k e)
    (hs : r.table.slots[unpackIndex e.handle]? = some s)
    (hd : e.destroyed = true) (hlt : e.recycled < 65536) : r.table.get e.handle = none := by
  cases hl : r.table.lookup e.handle with
  | none => rw [HandleTable.get, hl, Option.bind_none]
  | some i =>
    obtain ⟨hidx, -, hgen⟩ := lookup_eq_some_iff.mp hl
    rw [hidx, Vector.getElem?_eq_getElem i.isLt] at hs
    cases hs
    exact absurd (h.generation.symm.trans hgen) (generation_ne (h.gone hd) hlt)

/-- However often its slot was recycled, a destroyed handle does not bring back its own
element: what the slot holds belongs to a live handle. -/
theorem Recorded.get_destroyed (h : r.Recorded) (hk : r.issued[k]? = some e)
    (hd : e.destroyed = true) : r.table.get e.handle ≠ some (k, e.object) := by
  intro hget
  obtain ⟨i, hl, hstored⟩ := Option.bind_eq_some_iff.mp hget
  obtain ⟨-, hocc, -⟩ := lookup_eq_some_iff.mp hl
  have hat : r.table.slots[i.val]? = some r.table.slots[i] := Vector.getElem?_eq_getElem i.isLt
  obtain ⟨k', e', hk', hd', hindex⟩ := h.owned i _ hat hocc
  obtain ⟨s, hs, hentry⟩ := h.entries k' e' hk'
  rw [hindex, hat] at hs
  cases hs
  have hpair := Option.some.inj (hstored.symm.trans (hentry.live hd').2.2)
  have hkk : k = k' := congrArg Prod.fst hpair
  rw [hkk, hk'] at hk
  have hee : e' = e := Option.some.inj hk
  exact Bool.noConfusion (hd'.symm.trans (hee ▸ hd))

private theorem Recorded.tracked (h : r.Recorded) : r.Tracked where
  freeList := h.sound.free
  liveCount := h.sound.live
  createFails v hfail := by
    by_cases hroom : r.table.Exhausted
    · exact hroom.imp id fun hge => Nat.le_of_eq (h.sound.freeHead_ge_iff.mp hge).symm
    · obtain ⟨hidx, heq⟩ := create_some (v := v) hroom
      have hcap := r.table.capacity_le
      rw [heq] at hfail
      exact absurd (Option.some.inj hfail) (pack_ne_invalidHandle (by omega) _)
  resolves k e hk := by
    obtain ⟨s, hs, hentry⟩ := h.entries k e hk
    constructor
    · intro hget
      cases hd : e.destroyed with
      | true => exact absurd hget (h.get_destroyed hk hd)
      | false =>
        refine ⟨rfl, ?_⟩
        rw [(hentry.live hd).1]
        decide
    · rintro ⟨hd, -⟩
      exact hentry.get_live hs hd
  stale k e hk hd hlt := by
    obtain ⟨s, hs, hentry⟩ := h.entries k e hk
    exact hentry.get_stale hs hd hlt

end Tracked

/-- In every history whose throwing constructors are never reached, the free list, the live
count, the failures of `create` and the meaning of every handle are exact. -/
theorem handles_tracked (maxLive : Nat) (hcap : capacity ≤ 0xFFFF) (ops : List (Operation T))
    (r : History T capacity) (hok : AllSteps step NoThrow (start maxLive hcap) ops)
    (hrun : runSteps step (start maxLive hcap) ops = some r) : r.Tracked :=
  (runSteps_invariant recorded_step (recorded_start maxLive hcap) hok hrun).tracked

/-- A table of one slot: its handle is destroyed and the slot given out again, after which
the first handle resolves to nothing and the second to its own element. -/
theorem handles_tracked_reuse : ∃ r : History Nat 1,
      runSteps step (start 1 (by decide)) [.create (some 7), .create none, .destroy 0,
        .create (some 8)] = some r ∧
      r.issued = [⟨0, 7, 1, true⟩, ⟨1, 8, 0, false⟩] ∧
      r.table.get 0 = none ∧ r.table.get 1 = some (1, 8) ∧ r.Tracked := by
  refine ⟨_, rfl, by decide, ?_⟩
  have h := handles_tracked 1 (show 1 ≤ 0xFFFF by decide) [.create (some 7), .create none,
    .destroy 0, .create (some 8)] _ (by decide) rfl
  refine ⟨?_, ?_, h⟩
  · exact h.stale 0 ⟨0, 7, 1, true⟩ rfl rfl (by decide)
  · exact (h.resolves 1 ⟨1, 8, 0, false⟩ rfl).mpr ⟨rfl, by decide⟩

/-- A constructor that throws loses its slot: the only slot of the table is vacant and on no
free list, and the next `create` fails although nothing is live. -/
theorem throwing_create_loses_slot : ∃ r : History Nat 1,
      runSteps step (start 1 (by decide)) [.create none] = some r ∧
      r.table.Vacant 0 ∧ r.table.freeHead = 1 ∧ ¬r.table.FreeListExact ∧
      r.table.liveCount = 0 ∧ (r.table.create (some (0, 7))).2 = some invalidHandle ∧
      ¬r.Tracked := by
  refine ⟨_, rfl, ⟨by decide, by decide⟩, by decide, ?lost, by decide, by decide,
    fun h => ?lost h.freeList⟩
  rintro ⟨nodes, hthread, -, hmem⟩
  cases nodes with
  | nil => exact not_mem_nil ((hmem 0).mpr ⟨by decide, by decide⟩)
  | cons n ns =>
    obtain ⟨hlt, -⟩ := (hmem n).mp mem_cons_self
    have : 1 = n := hthread.1
    omega

end History

end PsiServe.Handle
