import Mathlib.Data.Nat.Bitwise
import PsiServe.Interp.Frame

/-!
# Deferred read validation

Runs of an instance in checked mode whose reads are validated later, at loop headers and
host calls: `psizam/detail/execution_context.hpp:217–230` with
the checkpoints of `interpret_visitor.hpp:50–58` and `execution_context.hpp:1451`.
The watermark stands for the loads since the last checkpoint; the theorems relate it to
the loads that were out of bounds when they executed.
-/

namespace PsiServe.Interp

open Base Wasm Bitcode List Machine

variable {W : Type}

/-! ### Records of a run -/

/-- An out-of-bounds load has executed and the deferred error has not been raised since. -/
def Pending (events : List Event) : Prop :=
  ∃ before after, events = before ++ .load false :: after ∧ .deferredOutOfBounds ∉ after

/-- Between an out-of-bounds load and a host function entered after it the deferred error
is raised. -/
def HostSafe (events : List Event) : Prop :=
  ∀ before between after f, events = before ++ .load false :: between ++ .enterHost f :: after →
    .deferredOutOfBounds ∈ between

/-- All loads were in bounds when they executed. -/
def LoadsInBounds (events : List Event) : Prop := .load false ∉ events

private theorem not_pending_nil : ¬ Pending [] := by
  rintro ⟨before, after, h, -⟩
  exact append_ne_nil_of_right_ne_nil before (cons_ne_nil _ after) h.symm

private theorem pending_append_iff (events : List Event) (e : Event) : Pending (events ++ [e]) ↔
      e = .load false ∨ Pending events ∧ e ≠ .deferredOutOfBounds := by
  constructor
  · rintro ⟨before, after, h, hafter⟩
    rcases eq_nil_or_concat after with rfl | ⟨after', last, rfl⟩
    · left
      exact (append_inj' h rfl).2 |> head_eq_of_cons_eq
    · right
      rw [concat_eq_append] at h hafter
      rw [← cons_append, ← append_assoc] at h
      obtain ⟨hinit, hlast⟩ := append_inj' h rfl
      obtain rfl := head_eq_of_cons_eq hlast
      rw [mem_append, mem_singleton, not_or] at hafter
      exact ⟨⟨before, after', hinit, hafter.1⟩, Ne.symm hafter.2⟩
  · rintro (rfl | ⟨⟨before, after, rfl, hafter⟩, hne⟩)
    · exact ⟨events, [], rfl, not_mem_nil⟩
    · refine ⟨before, after ++ [e], by rw [append_assoc, cons_append], ?_⟩
      rw [mem_append, mem_singleton, not_or]
      exact ⟨hafter, Ne.symm hne⟩

private theorem hostSafe_nil : HostSafe [] := by
  intro before between after f h
  exact absurd h.symm (append_ne_nil_of_right_ne_nil _ (cons_ne_nil _ after))

/-- A record stays safe when an event is added, provided a host function is entered only
while no out-of-bounds load is pending. -/
theorem HostSafe.append {events : List Event} (hsafe : HostSafe events) {e : Event}
    (he : ∀ f, e = .enterHost f → ¬ Pending events) : HostSafe (events ++ [e]) := by
  intro before between after f h
  rcases eq_nil_or_concat after with rfl | ⟨after', last, rfl⟩
  · obtain ⟨hinit, hlast⟩ := append_inj' h rfl
    by_contra hnot
    exact he f (head_eq_of_cons_eq hlast) ⟨before, between, hinit, hnot⟩
  · rw [concat_eq_append, ← cons_append, ← append_assoc] at h
    exact hsafe before between after' f (append_inj' h rfl).1

private theorem loadsInBounds_append_iff (events : List Event) (e : Event) :
    LoadsInBounds (events ++ [e]) ↔ LoadsInBounds events ∧ e ≠ .load false := by
  rw [LoadsInBounds, mem_append, mem_singleton, not_or, LoadsInBounds, ne_comm]

/-! ### The watermark -/

namespace MemState

/-- Checked mode with reads validated at checkpoints. -/
structure Deferred (m : MemState) : Prop where
  checked : m.memMode = .checked
  kind : m.checkedKind ≠ .immediate

/-- Accumulator after a read that ends at `last`; `interpret_visitor.hpp:193–198`. -/
def accumulate (m : MemState) (last : UInt64) : UInt64 :=
  if m.checkedKind = .relaxed then m.readWatermark ||| last
  else if m.readWatermark < last then last else m.readWatermark

variable {m : MemState} {offset accessSize : UInt32} {ptr : Value}

/-- A deferred read proceeds and only moves the watermark. -/
theorem Deferred.popMemopAddrRead_eq (h : m.Deferred) :
    m.popMemopAddrRead offset accessSize ptr = .ok (m.effective offset ptr,
      { m with
        readWatermark := m.accumulate (m.effective offset ptr + accessSize.toUInt64) }) := by
  unfold popMemopAddrRead accumulate
  rw [m.computeEffective_of_checked offset ptr h.checked]
  dsimp only
  rw [if_pos h.checked]
  split
  next hkind => exact absurd hkind h.kind
  next hkind =>
    have hne : m.checkedKind ≠ .relaxed := by rw [hkind]; decide
    rw [if_neg hne, trackReadMax]
    split
    · rfl
    · rfl
  next hkind =>
    rw [if_pos hkind, trackReadOr]

private theorem readWatermark_le_accumulate (last : UInt64) :
    m.readWatermark ≤ m.accumulate last := by
  unfold accumulate
  split
  · exact Nat.left_le_or
  · split
    next hlt => exact UInt64.le_of_lt hlt
    · exact UInt64.le_refl _

private theorem le_accumulate (last : UInt64) : last ≤ m.accumulate last := by
  unfold accumulate
  split
  · exact Nat.right_le_or
  · split
    · exact UInt64.le_refl _
    next hge => exact UInt64.not_lt.mp hge

/-- The compared end of an access whose exact end is below `2 ^ 64`. -/
theorem toNat_last (hlt : m.exactEnd offset accessSize ptr < 2 ^ 64) :
    (m.effective offset ptr + accessSize.toUInt64).toNat = m.exactEnd offset accessSize ptr := by
  rw [toNat_effective_add, Nat.mod_eq_of_lt hlt]

/-- Ends of relaxed reads that the OR accumulator keeps apart from an end equal to the
memory size: it is empty, holds that same end, or neither of the two is the size. -/
def Unmixed (m : MemState) (last : Nat) : Prop :=
  m.readWatermark.toNat = 0 ∨ m.readWatermark.toNat = last ∨
    m.readWatermark.toNat ≠ m.memorySizeBytes.toNat ∧ last ≠ m.memorySizeBytes.toNat

instance (m : MemState) (last : Nat) : Decidable (m.Unmixed last) :=
  inferInstanceAs (Decidable (_ ∨ _ ∨ _))

/-- Bits of two numbers up to a power of two stay below it unless one of them is it. -/
theorem or_le_of_le_two_pow {a b k : Nat} (ha : a ≤ 2 ^ k) (hb : b ≤ 2 ^ k)
    (h : a = 0 ∨ a = b ∨ a ≠ 2 ^ k ∧ b ≠ 2 ^ k) : a ||| b ≤ 2 ^ k := by
  rcases h with rfl | rfl | ⟨hna, hnb⟩
  · rwa [Nat.zero_or]
  · rwa [Nat.or_self]
  · exact (Nat.or_lt_two_pow (by omega) (by omega)).le

/-- In-bounds reads keep the accumulator within the memory. -/
theorem accumulate_le {last : UInt64} (hw : m.readWatermark ≤ m.memorySizeBytes)
    (hlast : last ≤ m.memorySizeBytes)
    (hpow : m.checkedKind = .relaxed → m.memorySizeBytes.toNat.isPowerOfTwo)
    (hmix : m.checkedKind = .relaxed → m.Unmixed last.toNat) :
    m.accumulate last ≤ m.memorySizeBytes := by
  unfold accumulate
  split
  next hk =>
    obtain ⟨k, hsize⟩ := hpow hk
    have hmix := hmix hk
    unfold Unmixed at hmix
    rw [UInt64.le_iff_toNat_le] at hw hlast ⊢
    rw [hsize] at hw hlast hmix ⊢
    exact or_le_of_le_two_pow hw hlast hmix
  · split
    · exact hlast
    · exact hw

/-- Outcomes of a validation in checked mode. -/
theorem Deferred.validateReadWatermark_eq (h : m.Deferred) :
    m.validateReadWatermark = ({ m with readWatermark := 0 },
      if m.memorySizeBytes < m.readWatermark then
        some ⟨.memory, "deferred memory read out-of-bounds"⟩
      else none) := by
  unfold validateReadWatermark
  rw [if_pos h.checked]
  split
  · rfl
  · rfl

end MemState

/-! ### Runs -/

/-- Steps that leave no out-of-bounds load unvalidated: the end of a load does not wrap,
and memory is grown and a host function entered by a tail call, or by `execute` from a host
function, only while the watermark is within the memory. -/
def HostEntryOk (env : Env W) (m : Machine W) : Label W → Prop
  | .enter func _ => m.stack ≠ [] → func < env.module.importedFunctionsSize →
    m.ctx.mem.readWatermark ≤ m.ctx.mem.memorySizeBytes
  | .visit => ∀ i ∈ m.ctx.fetch env,
    (∀ o ∈ plainOperands env.module i, ∀ a ∈ memoryAccess i, a.1 = .read →
      m.ctx.mem.exactEnd a.2.1 a.2.2 (m.ctx.accessPtr o) < 2 ^ 64) ∧
    (i = .growMemory → m.ctx.mem.readWatermark ≤ m.ctx.mem.memorySizeBytes) ∧
    (∀ f ∈ tailTarget env m.ctx i, f < env.module.importedFunctionsSize →
      m.ctx.mem.readWatermark ≤ m.ctx.mem.memorySizeBytes)
  | _ => True

instance (env : Env W) (m : Machine W) : DecidablePred (HostEntryOk env m)
  | .enter _ _ => inferInstanceAs (Decidable (_ → _ → _))
  | .visit => inferInstanceAs (Decidable (∀ i ∈ m.ctx.fetch env, _))
  | .hostMemory _ | .hostExit | .hostThrow _ | .hostReturn _ => isTrue trivial

/-- Steps that raise no alarm of their own: the embedder calls `execute` with the watermark
within the memory, and a relaxed load does not mix an end equal to the memory size with
another end. -/
def ReadsOk (env : Env W) (m : Machine W) : Label W → Prop
  | .enter _ _ => m.stack = [] → m.ctx.mem.readWatermark ≤ m.ctx.mem.memorySizeBytes
  | .visit => ∀ i ∈ m.ctx.fetch env, ∀ o ∈ plainOperands env.module i, ∀ a ∈ memoryAccess i,
    a.1 = .read → m.ctx.mem.checkedKind = .relaxed →
      m.ctx.mem.Unmixed (m.ctx.mem.exactEnd a.2.1 a.2.2 (m.ctx.accessPtr o))
  | _ => True

instance (env : Env W) (m : Machine W) : DecidablePred (ReadsOk env m)
  | .enter _ _ => inferInstanceAs (Decidable (_ → _))
  | .visit => inferInstanceAs (Decidable (∀ i ∈ m.ctx.fetch env, _))
  | .hostMemory _ | .hostExit | .hostThrow _ | .hostReturn _ => isTrue trivial

/-- Under the relaxed kind the memory size is a power of two. -/
def PowerOfTwoSize (m : Machine W) : Prop :=
  m.ctx.mem.checkedKind = .relaxed → m.ctx.mem.memorySizeBytes.toNat.isPowerOfTwo

instance (m : Machine W) : Decidable (PowerOfTwoSize m) := inferInstanceAs (Decidable (_ → _))

/-- Invariant behind host safety: a pending load has moved the watermark beyond the
memory. -/
structure HostInv (o : Obs) : Prop where
  deferred : o.mem.Deferred
  pending : Pending o.events → o.mem.memorySizeBytes < o.mem.readWatermark
  safe : HostSafe o.events

/-- Invariant behind the absence of false alarms: as long as all loads were in bounds, so is
the watermark. -/
structure ReadInv (o : Obs) : Prop where
  deferred : o.mem.Deferred
  size : o.mem.memorySizeBytes = o.pages.toUInt64 * 65536
  clean : LoadsInBounds o.events →
    o.mem.readWatermark ≤ o.mem.memorySizeBytes ∧ .deferredOutOfBounds ∉ o.events

namespace HostInv

variable {o : Obs} {mem : MemState}

private theorem not_pending (h : HostInv o) (hw : o.mem.readWatermark ≤ o.mem.memorySizeBytes) :
    ¬ Pending o.events := fun hp => UInt64.not_lt.mpr hw (h.pending hp)

/-- A host function is entered with no load pending. -/
theorem enterHost (h : HostInv o) (hp : ¬ Pending o.events) (f : Nat) :
    HostInv (o.record (.enterHost f)) := by
  refine ⟨h.deferred, ?_, h.safe.append fun _ _ => hp⟩
  intro hpend
  rcases (pending_append_iff _ _).mp hpend with heq | ⟨hold, -⟩
  · cases heq
  · exact absurd hold hp

private theorem load (h : HostInv o) {offset width : UInt32} {ptr : Value} {effective : UInt64}
    {mem : MemState} (hlt : o.mem.exactEnd offset width ptr < 2 ^ 64)
    (hpop : o.mem.popMemopAddrRead offset width ptr = .ok (effective, mem)) :
    HostInv (({ o with mem := mem } : Obs).record
      (.load (decide (o.mem.InBounds offset width ptr)))) := by
  rw [h.deferred.popMemopAddrRead_eq] at hpop
  cases hpop
  refine ⟨⟨h.deferred.checked, h.deferred.kind⟩, ?_, h.safe.append nofun⟩
  intro hpend
  rcases (pending_append_iff _ _).mp hpend with heq | ⟨hold, -⟩
  · -- the load itself was out of bounds, and its end did not wrap
    have hout : ¬ o.mem.InBounds offset width ptr := of_decide_eq_false (Event.load.inj heq)
    refine UInt64.lt_of_lt_of_le ?_ (MemState.le_accumulate _)
    rw [UInt64.lt_iff_toNat_lt, MemState.toNat_last hlt]
    exact Nat.lt_of_not_le hout
  · exact UInt64.lt_of_lt_of_le (h.pending hold) (MemState.readWatermark_le_accumulate _)

private theorem grow (h : HostInv o) (hw : o.mem.readWatermark ≤ o.mem.memorySizeBytes)
    (size : UInt64) (pages : UInt32) :
    HostInv { o with mem := { o.mem with memorySizeBytes := size }, pages := pages } :=
  ⟨⟨h.deferred.checked, h.deferred.kind⟩, fun hp => absurd hp (h.not_pending hw), h.safe⟩

private theorem rejected (h : HostInv o) {t : Trap}
    (hv : o.mem.validateReadWatermark = (mem, some t)) :
    HostInv (({ o with mem := mem } : Obs).record .deferredOutOfBounds) := by
  rw [h.deferred.validateReadWatermark_eq] at hv
  obtain ⟨rfl, -⟩ := Prod.mk.inj hv
  refine ⟨⟨h.deferred.checked, h.deferred.kind⟩, ?_, h.safe.append nofun⟩
  intro hpend
  rcases (pending_append_iff _ _).mp hpend with heq | ⟨-, hne⟩
  · cases heq
  · exact absurd rfl hne

/-- A validation that passes shows that no load is pending. -/
theorem validated (h : HostInv o) (hv : o.mem.validateReadWatermark = (mem, none)) :
    HostInv { o with mem := mem } ∧ ¬ Pending o.events := by
  rw [h.deferred.validateReadWatermark_eq] at hv
  obtain ⟨rfl, hnone⟩ := Prod.mk.inj hv
  have hp : ¬ Pending o.events := by
    apply h.not_pending
    by_contra hgt
    rw [if_pos (UInt64.not_le.mp hgt)] at hnone
    cases hnone
  exact ⟨⟨⟨h.deferred.checked, h.deferred.kind⟩, fun hpend => absurd hpend hp, h.safe⟩, hp⟩

/-- One step keeps the invariant. -/
theorem step {env : Env W} {m m' : Machine W} {l : Label W} (h : HostInv m.ctx.obs)
    (hok : HostEntryOk env m l) (hstep : m.step env l = some m') : HostInv m'.ctx.obs := by
  have hstart : HostInv m.startObs := by
    unfold startObs
    split
    · exact ⟨h.deferred, fun hp => absurd hp not_pending_nil, hostSafe_nil⟩
    · exact h
  refine MachineRule.step (Q := HostInv) ⟨h, fun _ _ _ => hstart, ?_, ?_⟩ hstep
  · rintro func args rfl himp
    apply hstart.enterHost
    unfold startObs
    split
    · exact not_pending_nil
    next hne => exact h.not_pending (hok hne himp)
  · rintro rfl i hi
    obtain ⟨hload, hgrow, htail⟩ := hok i hi
    refine ⟨h, ?_, ?_, fun mem t hv => h.rejected hv, fun mem hv => (h.validated hv).1, ?_, ?_⟩
    · intro o ho offset width effective mem haccess hpop
      exact h.load (hload o ho _ haccess rfl) hpop
    · intro pages hi' _
      exact h.grow (hgrow hi') _ _
    · intro mem f hv
      exact (h.validated hv).1.enterHost (h.validated hv).2 f
    · intro f hf himp
      exact h.enterHost (h.not_pending (htail f hf himp)) f

end HostInv

namespace ReadInv

variable {o : Obs} {mem : MemState}

/-- Entering a host function is no alarm. -/
theorem enterHost (h : ReadInv o) (f : Nat) : ReadInv (o.record (.enterHost f)) := by
  refine ⟨h.deferred, h.size, ?_⟩
  intro hin
  obtain ⟨hw, hnot⟩ := h.clean ((loadsInBounds_append_iff _ _).mp hin).1
  refine ⟨hw, ?_⟩
  rw [Obs.record, mem_append, not_or]
  exact ⟨hnot, by simp⟩

private theorem load (h : ReadInv o) {offset width : UInt32} {ptr : Value} {effective : UInt64}
    (hpow : o.mem.checkedKind = .relaxed → o.mem.memorySizeBytes.toNat.isPowerOfTwo)
    (hmix : o.mem.checkedKind = .relaxed → o.mem.Unmixed (o.mem.exactEnd offset width ptr))
    (hpop : o.mem.popMemopAddrRead offset width ptr = .ok (effective, mem)) :
    ReadInv (({ o with mem := mem } : Obs).record
      (.load (decide (o.mem.InBounds offset width ptr)))) := by
  rw [h.deferred.popMemopAddrRead_eq] at hpop
  cases hpop
  refine ⟨⟨h.deferred.checked, h.deferred.kind⟩, h.size, ?_⟩
  intro hin
  obtain ⟨hold, hne⟩ := (loadsInBounds_append_iff _ _).mp hin
  obtain ⟨hw, hnot⟩ := h.clean hold
  have hbound : o.mem.InBounds offset width ptr := by
    by_contra hout
    exact hne (congrArg Event.load (decide_eq_false hout))
  -- an access within the memory does not wrap
  have hlast : (o.mem.effective offset ptr + width.toUInt64).toNat =
      o.mem.exactEnd offset width ptr :=
    MemState.toNat_last (hbound.trans_lt o.mem.memorySizeBytes.toNat_lt)
  constructor
  · apply MemState.accumulate_le hw _ hpow
    · rw [hlast]
      exact hmix
    · rw [UInt64.le_iff_toNat_le, hlast]
      exact hbound
  · rw [Obs.record, mem_append, not_or]
    exact ⟨hnot, by simp⟩

private theorem grow (h : ReadInv o) {pages : UInt32} {size : UInt64} (hle : o.pages ≤ pages)
    (hsize : size = pages.toUInt64 * 65536) :
    ReadInv { o with mem := { o.mem with memorySizeBytes := size }, pages := pages } := by
  refine ⟨⟨h.deferred.checked, h.deferred.kind⟩, hsize, ?_⟩
  intro hin
  obtain ⟨hw, hnot⟩ := h.clean hin
  refine ⟨UInt64.le_trans hw ?_, hnot⟩
  have hpages := pages.toNat_lt
  have hpage : (65536 : UInt64).toNat = 65536 := rfl
  rw [UInt32.le_iff_toNat_le] at hle
  rw [h.size, UInt64.le_iff_toNat_le, hsize, UInt64.toNat_mul, UInt64.toNat_mul,
    UInt32.toNat_toUInt64, UInt32.toNat_toUInt64, hpage]
  omega

private theorem rejected (h : ReadInv o) {t : Trap}
    (hv : o.mem.validateReadWatermark = (mem, some t)) :
    ReadInv (({ o with mem := mem } : Obs).record .deferredOutOfBounds) := by
  rw [h.deferred.validateReadWatermark_eq] at hv
  obtain ⟨rfl, hsome⟩ := Prod.mk.inj hv
  refine ⟨⟨h.deferred.checked, h.deferred.kind⟩, h.size, ?_⟩
  intro hin
  -- with every load in bounds the comparison cannot have failed
  have hw := (h.clean ((loadsInBounds_append_iff _ _).mp hin).1).1
  rw [if_neg (UInt64.not_lt.mpr hw)] at hsome
  cases hsome

private theorem validated (h : ReadInv o) (hv : o.mem.validateReadWatermark = (mem, none)) :
    ReadInv { o with mem := mem } := by
  rw [h.deferred.validateReadWatermark_eq] at hv
  obtain ⟨rfl, -⟩ := Prod.mk.inj hv
  refine ⟨⟨h.deferred.checked, h.deferred.kind⟩, h.size, ?_⟩
  intro hin
  exact ⟨UInt64.zero_le, (h.clean hin).2⟩

/-- One step keeps the invariant. -/
theorem step {env : Env W} {m m' : Machine W} {l : Label W} (h : ReadInv m.ctx.obs)
    (hok : PowerOfTwoSize m ∧ ReadsOk env m l) (hstep : m.step env l = some m') :
    ReadInv m'.ctx.obs := by
  obtain ⟨hpow, hok⟩ := hok
  have hstart (func : Nat) (args : List Value) (hl : l = .enter func args) :
      ReadInv m.startObs := by
    subst hl
    unfold startObs
    split
    next hidle => exact ⟨h.deferred, h.size, fun _ => ⟨hok hidle, not_mem_nil⟩⟩
    · exact h
  refine MachineRule.step (Q := ReadInv) ⟨h, hstart, ?_, ?_⟩ hstep
  · intro func args hl _
    exact (hstart func args hl).enterHost func
  · rintro rfl i hi
    refine ⟨h, ?_, fun pages _ hle => h.grow hle rfl, fun mem t hv => h.rejected hv,
      fun mem hv => h.validated hv, fun mem f hv => (h.validated hv).enterHost f,
      fun f _ _ => h.enterHost f⟩
    intro o ho offset width effective mem haccess hpop
    exact h.load hpow (hok i hi o ho _ haccess rfl) hpop

end ReadInv

/-! ### Main result -/

/-- A machine no native call is running on, with deferred reads and an empty record. -/
structure Machine.Idle (m : Machine W) : Prop where
  stack : m.stack = []
  deferred : m.ctx.mem.Deferred
  size : m.ctx.mem.memorySizeBytes = m.ctx.pages.toUInt64 * 65536
  events : m.ctx.events = []

private theorem Machine.Idle.hostInv {m : Machine W} (h : m.Idle) : HostInv m.ctx.obs := by
  refine ⟨h.deferred, ?_, ?_⟩
  · intro hp
    rw [Context.obs, h.events] at hp
    exact absurd hp not_pending_nil
  · rw [Context.obs, h.events]
    exact hostSafe_nil

/-- Deferred validation over whole runs: with no unvalidated entry no host function is
entered after an out-of-bounds load that has not raised the deferred error, and with no
mixed ends a run whose loads are all in bounds raises none. -/
theorem deferred_reads_validated (env : Env W) (m m' : Machine W) (labels : List (Label W))
    (hidle : m.Idle) (hrun : runSteps (step env) m labels = some m') :
    (AllSteps (step env) (HostEntryOk env) m labels → HostSafe m'.ctx.events) ∧
    (m.ctx.mem.readWatermark ≤ m.ctx.mem.memorySizeBytes →
      AllSteps (step env) (fun m l => PowerOfTwoSize m ∧ ReadsOk env m l) m labels →
      LoadsInBounds m'.ctx.events → .deferredOutOfBounds ∉ m'.ctx.events) := by
  constructor
  · intro hok
    have hinv : HostInv m'.ctx.obs :=
      runSteps_invariant (P := fun m => HostInv m.ctx.obs)
        (fun _ _ _ h hok hstep => h.step hok hstep) hidle.hostInv hok hrun
    exact hinv.safe
  · intro hw hok hin
    have hstart : ReadInv m.ctx.obs := by
      refine ⟨hidle.deferred, hidle.size, fun _ => ⟨hw, ?_⟩⟩
      rw [Context.obs, hidle.events]
      exact not_mem_nil
    have hinv : ReadInv m'.ctx.obs :=
      runSteps_invariant (P := fun m => ReadInv m.ctx.obs)
        (fun _ _ _ h hok hstep => h.step hok hstep) hstart hok hrun
    exact (hinv.clean hin).2

/-- An instance with one memory, one host import (function 0) and one function without
parameters (function 1). -/
def pageEnv (code : List Instr) : Env Unit where
  module :=
    { types := [.void]
      imports := [0]
      functions := [0]
      tables := []
      memories := [⟨⟨false, 1, 0⟩, false⟩]
      globals := []
      tags := []
      elements := []
      datacount := none }
  code := code
  functionPc := [0]
  locals := [[]]
  functionCost := fun _ => 1
  functionStackSize := fun _ => 1
  hostSignature := fun _ => .void
  gasHandler := none
  maxPages := 65536
  allocLimit := 65536
  mprotect := fun _ _ => true
  ops := ⟨fun _ _ _ w => .ok (w, 0), fun _ _ _ => .error underflow⟩

/-- An idle machine with one page of memory. -/
def pageMachine (kind : CheckedMode) : Machine Unit :=
  ⟨[], .fresh ⟨.checked, kind, false, 65536, 0⟩ 1 250 ⟨0, 1000⟩ ⟨0, 0⟩ (), none⟩

/-- A function that loads from `address`, drops the value and tail calls the host import. -/
def loadThenTailCall (address : UInt32) : List Instr :=
  [.const (.i32 address), .load 0x28 2 0, .drop, .tailCall 0, .return_ 0 0 0]

/-- Call function 1 and run it into its host call. -/
def callAndVisit (n : Nat) : List (Label Unit) := .enter 1 [] :: replicate n .visit

private theorem pageMachine_idle (kind : CheckedMode) (hk : kind ≠ .immediate) :
    (pageMachine kind).Idle :=
  have hsize : (65536 : UInt64) = (1 : UInt32).toUInt64 * 65536 := by decide
  ⟨rfl, ⟨rfl, hk⟩, hsize, rfl⟩

/-- A function that loads from two addresses and calls the host import after each load. -/
def loadsAndCalls (first second : UInt32) : List Instr :=
  [.const (.i32 first), .load 0x28 2 0, .drop, .call 0, .const (.i32 second), .load 0x28 2 0, .drop,
    .call 0, .return_ 0 0 0]

/-- Call function 1, and run it through one host call into the next. -/
def callTwice : List (Label Unit) := callAndVisit 4 ++ .hostReturn 0 :: replicate 4 .visit

/-- The second host call is not entered after a load beyond the page, and after one within the page
no error is raised. -/
theorem deferred_reads_validated_twice :
    (∃ m', runSteps (step (pageEnv (loadsAndCalls 8 65536))) (pageMachine .relaxed) callTwice =
        some m' ∧ m'.ctx.events = [.load true, .enterHost 0, .load false, .deferredOutOfBounds] ∧
        HostSafe m'.ctx.events) ∧
      ∃ m', runSteps (step (pageEnv (loadsAndCalls 8 16))) (pageMachine .relaxed) callTwice =
        some m' ∧ m'.ctx.events = [.load true, .enterHost 0, .load true, .enterHost 0] ∧
        .deferredOutOfBounds ∉ m'.ctx.events := by
  have hidle := pageMachine_idle .relaxed (by decide)
  refine ⟨⟨_, rfl, rfl, ?_⟩, ⟨_, rfl, rfl, ?_⟩⟩
  · exact (deferred_reads_validated (pageEnv (loadsAndCalls 8 65536)) _ _ callTwice hidle rfl).1
      (by decide)
  · have hin : LoadsInBounds [.load true, .enterHost 0, .load true, .enterHost 0] :=
      by simp [LoadsInBounds]
    exact (deferred_reads_validated (pageEnv (loadsAndCalls 8 16)) _ _ callTwice hidle rfl).2
      (by decide) (by decide) hin

-- Two in-bounds loads, one of which ends at the end of memory, raise the relaxed alarm.
example : ∃ m', runSteps (step (pageEnv
      [.const (.i32 65532), .load 0x28 2 0, .drop, .const (.i32 0), .load 0x28 2 0, .drop,
        .call 0, .return_ 0 0 0])) (pageMachine .relaxed) (callAndVisit 7) = some m' ∧
    m'.ctx.events = [.load true, .load true, .deferredOutOfBounds] := ⟨_, rfl, rfl⟩

/-- A load beyond the page followed by a tail call enters the host function unvalidated. -/
theorem tail_call_enters_host_unvalidated :
    ¬ ∀ (env : Env Unit) (m m' : Machine Unit) (labels : List (Label Unit)), m.Idle →
      m.ctx.mem.readWatermark = 0 → runSteps (step env) m labels = some m' →
      HostSafe m'.ctx.events ∧
        (AllSteps (step env) (fun m _ => PowerOfTwoSize m) m labels →
          LoadsInBounds m'.ctx.events → .deferredOutOfBounds ∉ m'.ctx.events) := by
  intro h
  have hsafe := (h (pageEnv (loadThenTailCall 65536)) (pageMachine .strict) _ (callAndVisit 4)
    (pageMachine_idle .strict (by decide)) rfl rfl).1
  exact absurd (hsafe [] [] [] 0 rfl) not_mem_nil

end PsiServe.Interp
