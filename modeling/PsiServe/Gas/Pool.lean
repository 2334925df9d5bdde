import PsiServe.Base.ListSum
import PsiServe.Base.Run

/-!
# Gas pool leases under interleaving

The shared ledger of `psizam/gas_pool.hpp:46–85` and the
teardown credit of `libraries/psizam/src/runtime.cpp:374–394`. A lease is a
`fetch_sub`, a comparison of the value it returned, and, on failure, a compensating
`fetch_add`; other threads run between the three. The counter is an unsigned 64-bit
word, so a failing lease leaves it wrapped until the compensation lands.
-/

namespace PsiServe.Gas

open Base

/-- The pool ledger; `gas_pool.hpp:46–55`. -/
structure GasPool where
  remaining : UInt64
  leaseSize : UInt64
deriving DecidableEq

namespace GasPool

/-- A pool holding its whole budget; `gas_pool.hpp:57–58`. -/
def create (budget lease : UInt64) : GasPool := ⟨budget, lease⟩

/-- Atomic subtraction returning the previous value. -/
def fetchSub (pool : GasPool) (want : UInt64) : UInt64 × GasPool :=
  (pool.remaining, { pool with remaining := pool.remaining - want })

/-- Atomic addition returning the previous value. -/
def fetchAdd (pool : GasPool) (delta : UInt64) : UInt64 × GasPool :=
  (pool.remaining, { pool with remaining := pool.remaining + delta })

/-- Refill from the host side; `gas_pool.hpp:71–73`. -/
def add (pool : GasPool) (delta : UInt64) : GasPool := (pool.fetchAdd delta).2

/-- One uninterrupted lease; `gas_pool.hpp:78–84`. -/
def tryLease (pool : GasPool) (amount : UInt64) : UInt64 × GasPool :=
  let (prev, taken) := pool.fetchSub amount
  if amount ≤ prev then (amount, taken) else (0, (taken.fetchAdd amount).2)

/-- Gas an instance returns at teardown; `runtime.cpp:386–392`. -/
def unusedGas (consumed deadline : UInt64) : UInt64 :=
  if consumed < deadline then deadline - consumed else 0

/-- Teardown credit. Nothing is added when nothing is unused; `runtime.cpp:386–392`. -/
def creditUnused (pool : GasPool) (consumed deadline : UInt64) : GasPool :=
  (pool.fetchAdd (unusedGas consumed deadline)).2

end GasPool

/-- Where one `try_lease` call stands between its atomic steps; `gas_pool.hpp:78–84`. -/
inductive LeaseCall where
  | entered (want : UInt64)
  | subtracted (want prev : UInt64)
  | refunding (want : UInt64)
  | returned (leased : UInt64)
deriving DecidableEq

namespace LeaseCall

/-- Amount a finished call handed out. -/
def leased : LeaseCall → Nat
  | .returned n => n.toNat
  | _ => 0

/-- Amount taken by a call that will succeed but has not returned yet. -/
def committed : LeaseCall → Nat
  | .subtracted want prev => if want ≤ prev then want.toNat else 0
  | _ => 0

/-- Amount a failing call has subtracted and not yet given back. -/
def owed : LeaseCall → Nat
  | .subtracted want prev => if want ≤ prev then 0 else want.toNat
  | .refunding want => want.toNat
  | _ => 0

/-- The call has returned to its caller. -/
def finished : LeaseCall → Bool
  | .returned _ => true
  | _ => false

end LeaseCall

/-- A pool shared by any number of calls. `added` and `credited` total what was put
back so far; they are counted here and not stored by the program. -/
structure PoolRun where
  pool : GasPool
  budget : UInt64
  calls : List LeaseCall
  added : Nat
  credited : Nat
deriving DecidableEq

/-- One atomic step of one thread. Calls are numbered in the order they were entered. -/
inductive PoolAction where
  | call (want : UInt64)
  | fetchSub (i : Nat)
  | compare (i : Nat)
  | fetchAdd (i : Nat)
  | add (delta : UInt64)
  | credit (consumed deadline : UInt64)
deriving DecidableEq

namespace PoolRun

/-- A fresh pool that nobody has called yet. -/
def start (budget lease : UInt64) : PoolRun := ⟨.create budget lease, budget, [], 0, 0⟩

/-- Everything the pool ever held. -/
def supplied (s : PoolRun) : Nat := s.budget.toNat + s.added + s.credited

/-- Total of the leases that have been returned to their callers. -/
def leased (s : PoolRun) : Nat := total LeaseCall.leased s.calls

/-- Total of the leases already decided but not yet returned. -/
def committed (s : PoolRun) : Nat := total LeaseCall.committed s.calls

/-- Total that failing calls still have to give back. -/
def owed (s : PoolRun) : Nat := total LeaseCall.owed s.calls

/-- Gas that is neither leased nor about to be. -/
def balance (s : PoolRun) : Nat := s.supplied - (s.leased + s.committed)

/-- No call is between its first and its last step. -/
def quiescent (s : PoolRun) : Bool := s.calls.all LeaseCall.finished

/-- Amount call `i` is about to subtract. -/
def wanted (s : PoolRun) (i : Nat) : Option UInt64 :=
  match s.calls[i]? with
  | some (.entered want) => some want
  | _ => none

/-- Execute one atomic step; steps that no call is ready for are refused. -/
def step (s : PoolRun) : PoolAction → Option PoolRun
  | .call want => some { s with calls := s.calls ++ [.entered want] }
  | .fetchSub i =>
    match s.calls[i]? with
    | some (.entered want) =>
      let (prev, pool) := s.pool.fetchSub want
      some { s with pool := pool, calls := s.calls.set i (.subtracted want prev) }
    | _ => none
  | .compare i =>
    match s.calls[i]? with
    | some (.subtracted want prev) =>
      let call := if want ≤ prev then .returned want else .refunding want
      some { s with calls := s.calls.set i call }
    | _ => none
  | .fetchAdd i =>
    match s.calls[i]? with
    | some (.refunding want) =>
      some { s with pool := (s.pool.fetchAdd want).2, calls := s.calls.set i (.returned 0) }
    | _ => none
  | .add delta => some { s with pool := s.pool.add delta, added := s.added + delta.toNat }
  | .credit consumed deadline =>
    let unused := GasPool.unusedGas consumed deadline
    some { s with
      pool := s.pool.creditUnused consumed deadline, credited := s.credited + unused.toNat }

/-- A lease subtracts only from a counter that pending refunds have not driven below
zero, or asks for no more than is left; refills keep the balance inside the word. -/
def Unwrapped (s : PoolRun) : PoolAction → Prop
  | .fetchSub i => ∀ want ∈ s.wanted i, s.owed ≤ s.balance ∨ want.toNat ≤ s.balance
  | .add delta => s.balance + delta.toNat < 2 ^ 64
  | .credit consumed deadline =>
    s.balance + (GasPool.unusedGas consumed deadline).toNat < 2 ^ 64
  | _ => True

/-- Whether a step meets the condition can be tested on the state. -/
instance (s : PoolRun) : ∀ a, Decidable (s.Unwrapped a)
  | .call _ | .compare _ | .fetchAdd _ => isTrue trivial
  | .fetchSub i => Option.decidableForallMem (s.wanted i)
  | .add _ => inferInstanceAs (Decidable (_ < _))
  | .credit _ _ => inferInstanceAs (Decidable (_ < _))

/-- The counter is the balance less what failing calls still owe, modulo the word. -/
structure Exact (s : PoolRun) : Prop where
  covered : s.leased + s.committed ≤ s.supplied
  bounded : s.balance < 2 ^ 64
  counter : (s.pool.remaining.toNat + s.owed) % 2 ^ 64 = s.balance

/-- The same in terms of what was supplied, leased and owed. -/
theorem exact_iff {s : PoolRun} : s.Exact ↔ s.leased + s.committed ≤ s.supplied ∧
    s.supplied - (s.leased + s.committed) < 2 ^ 64 ∧
    (s.pool.remaining.toNat + s.owed) % 2 ^ 64 = s.supplied - (s.leased + s.committed) :=
  ⟨fun h => ⟨h.covered, h.bounded, h.counter⟩, fun h => ⟨h.1, h.2.1, h.2.2⟩⟩

/-- A fresh pool is exact. -/
theorem exact_start (budget lease : UInt64) : (start budget lease).Exact := by
  have hb := budget.toNat_lt
  constructor
  · simp [start, leased, committed, supplied, total_nil]
  · simpa [start, balance, leased, committed, supplied, total_nil] using hb
  · simp [start, balance, leased, committed, owed, supplied, total_nil, GasPool.create]

/-- Entering a call changes no account. -/
theorem exact_call (s : PoolRun) (want : UInt64) (h : s.Exact) :
    Exact { s with calls := s.calls ++ [.entered want] } := by
  obtain ⟨hc, hb, hr⟩ := h
  constructor <;>
    simpa only [leased, committed, owed, balance, supplied, total_concat, LeaseCall.leased,
      LeaseCall.committed, LeaseCall.owed, add_zero]

/-- The accounts of a state in which call `i` has moved from `c` to `c'`. -/
theorem accounts_set (s : PoolRun) (i : Nat) (c c' : LeaseCall) (pool : GasPool)
    (hc : s.calls[i]? = some c) :
    let t : PoolRun := { s with pool := pool, calls := s.calls.set i c' }
    t.leased + c.leased = s.leased + c'.leased ∧
      t.committed + c.committed = s.committed + c'.committed ∧
      t.owed + c.owed = s.owed + c'.owed ∧ t.supplied = s.supplied :=
  ⟨total_set _ _ _ _ _ hc, total_set _ _ _ _ _ hc, total_set _ _ _ _ _ hc, rfl⟩

/-- Subtracting from an unwrapped counter keeps the accounts exact: a lease that will
succeed is covered by the balance, and one that will fail is recorded as owed. -/
theorem exact_fetchSub (s : PoolRun) (i : Nat) (want : UInt64) (h : s.Exact)
    (hi : s.calls[i]? = some (.entered want))
    (hok : s.owed ≤ s.balance ∨ want.toNat ≤ s.balance) :
    Exact { s with
      pool := (s.pool.fetchSub want).2,
      calls := s.calls.set i (.subtracted want s.pool.remaining) } := by
  rw [exact_iff] at h ⊢
  dsimp only
  obtain ⟨hl, hm, ho, hs⟩ :=
    accounts_set s i _ (.subtracted want s.pool.remaining) (s.pool.fetchSub want).2 hi
  have hw := want.toNat_lt
  have hp := s.pool.remaining.toNat_lt
  simp only [LeaseCall.leased, LeaseCall.committed, LeaseCall.owed, UInt64.le_iff_toNat_le]
    at hl hm ho
  unfold balance at hok
  by_cases hle : want.toNat ≤ s.pool.remaining.toNat
  · have hsub : (s.pool.fetchSub want).2.remaining.toNat = _ :=
      UInt64.toNat_sub_of_le _ _ (UInt64.le_iff_toNat_le.mpr hle)
    simp only [if_pos hle] at hm ho
    omega
  · have hsub : (s.pool.fetchSub want).2.remaining.toNat = _ :=
      (UInt64.toNat_sub _ _).trans (Nat.mod_eq_of_lt (by omega))
    simp only [if_neg hle] at hm ho
    omega

/-- The comparison moves no gas: it only names what the subtraction decided. -/
theorem exact_compare (s : PoolRun) (i : Nat) (want prev : UInt64) (h : s.Exact)
    (hi : s.calls[i]? = some (.subtracted want prev)) :
    Exact { s with
      calls := s.calls.set i (if want ≤ prev then .returned want else .refunding want) } := by
  rw [exact_iff] at h ⊢
  dsimp only
  by_cases hle : want ≤ prev
  · rw [if_pos hle]
    obtain ⟨hl, hm, ho, hs⟩ := accounts_set s i _ (.returned want) s.pool hi
    simp only [LeaseCall.leased, LeaseCall.committed, LeaseCall.owed, if_pos hle] at hl hm ho
    omega
  · rw [if_neg hle]
    obtain ⟨hl, hm, ho, hs⟩ := accounts_set s i _ (.refunding want) s.pool hi
    simp only [LeaseCall.leased, LeaseCall.committed, LeaseCall.owed, if_neg hle] at hl hm ho
    omega

/-- The compensating addition settles what the call owed. -/
theorem exact_fetchAdd (s : PoolRun) (i : Nat) (want : UInt64) (h : s.Exact)
    (hi : s.calls[i]? = some (.refunding want)) :
    Exact { s with pool := (s.pool.fetchAdd want).2, calls := s.calls.set i (.returned 0) } := by
  rw [exact_iff] at h ⊢
  dsimp only
  obtain ⟨hl, hm, ho, hs⟩ := accounts_set s i _ (.returned 0) (s.pool.fetchAdd want).2 hi
  have hadd : (s.pool.fetchAdd want).2.remaining.toNat =
      (s.pool.remaining.toNat + want.toNat) % 2 ^ 64 := UInt64.toNat_add _ _
  have hz : (0 : UInt64).toNat = 0 := rfl
  simp only [LeaseCall.leased, LeaseCall.committed, LeaseCall.owed, hz] at hl hm ho
  omega

/-- Refills of either kind raise balance and counter together. -/
theorem exact_refill (s t : PoolRun) (delta : UInt64) (h : s.Exact)
    (hfit : s.balance + delta.toNat < 2 ^ 64) (hcalls : t.calls = s.calls)
    (hpool : t.pool = (s.pool.fetchAdd delta).2)
    (hsup : t.supplied = s.supplied + delta.toNat) : t.Exact := by
  rw [exact_iff] at h ⊢
  have hadd : t.pool.remaining.toNat = (s.pool.remaining.toNat + delta.toNat) % 2 ^ 64 := by
    rw [hpool]
    exact UInt64.toNat_add _ _
  have hl : t.leased = s.leased := by rw [leased, leased, hcalls]
  have hm : t.committed = s.committed := by rw [committed, committed, hcalls]
  have ho : t.owed = s.owed := by rw [owed, owed, hcalls]
  unfold balance at hfit
  omega

/-- Every step on an unwrapped counter preserves the exact accounts. -/
theorem exact_step (s : PoolRun) (a : PoolAction) (s' : PoolRun) (h : s.Exact)
    (hok : s.Unwrapped a) (hs : s.step a = some s') : s'.Exact := by
  cases a with
  | call want =>
    cases hs
    exact exact_call s want h
  | fetchSub i =>
    simp only [step] at hs
    split at hs
    next want hi =>
      cases hs
      exact exact_fetchSub s i want h hi (hok want (by simp [wanted, hi]))
    · cases hs
  | compare i =>
    simp only [step] at hs
    split at hs
    next want prev hi =>
      cases hs
      exact exact_compare s i want prev h hi
    · cases hs
  | fetchAdd i =>
    simp only [step] at hs
    split at hs
    next want hi =>
      cases hs
      exact exact_fetchAdd s i want h hi
    · cases hs
  | add delta =>
    cases hs
    exact exact_refill s _ delta h hok rfl rfl (by simp only [supplied]; omega)
  | credit consumed deadline =>
    cases hs
    exact exact_refill s _ _ h hok rfl rfl (by simp only [supplied]; omega)

/-- When no call is in progress nothing is committed and nothing is owed. -/
theorem accounts_of_quiescent (s : PoolRun) (h : s.quiescent = true) :
    s.committed = 0 ∧ s.owed = 0 := by
  have hdone : ∀ c ∈ s.calls, ∃ n, c = .returned n := by
    intro c hc
    have hf := List.all_eq_true.mp h c hc
    cases c with
    | returned n => exact ⟨n, rfl⟩
    | entered want | subtracted want prev | refunding want => simp [LeaseCall.finished] at hf
  constructor <;>
  · apply total_eq_zero
    intro c hc
    obtain ⟨n, rfl⟩ := hdone c hc
    rfl

/-- Along every interleaving that never leases from a wrapped counter, the returned
leases stay within what was supplied, and a quiescent pool holds exactly the rest. -/
theorem leased_le_supplied (budget lease : UInt64) (acts : List PoolAction) (s : PoolRun)
    (hok : AllSteps step Unwrapped (start budget lease) acts)
    (hrun : runSteps step (start budget lease) acts = some s) :
    s.leased ≤ s.supplied ∧
      (s.quiescent = true → s.pool.remaining.toNat = s.supplied - s.leased) := by
  obtain ⟨hc, hb, hr⟩ := runSteps_invariant exact_step (exact_start budget lease) hok hrun
  refine ⟨by omega, ?_⟩
  intro hq
  obtain ⟨hm, ho⟩ := accounts_of_quiescent s hq
  have hp := s.pool.remaining.toNat_lt
  simp only [balance, hm, ho] at hr
  omega

/-- Two leases of ten on a pool of five: the first fails, is refunded and leaves; then a
refill and an eight-unit lease go through on the restored counter. -/
theorem leased_le_supplied_refill :
    runSteps step (start 5 10) [.call 10, .fetchSub 0, .compare 0, .fetchAdd 0, .add 4,
        .call 8, .fetchSub 1, .compare 1] =
      some ⟨⟨1, 10⟩, 5, [.returned 0, .returned 8], 4, 0⟩ ∧
    8 ≤ 9 ∧ (⟨⟨1, 10⟩, 5, [.returned 0, .returned 8], 4, 0⟩ : PoolRun).pool.remaining.toNat =
      9 - 8 := by
  refine (and_iff_left_of_imp fun hrun => ?_).mpr (by decide)
  have h := leased_le_supplied 5 10 _ _ (by decide) hrun
  exact ⟨h.1, h.2 (by decide)⟩

/-- Unrestricted interleavings overdraw: the second lease of ten subtracts from the
counter that the first, failing one has wrapped, and succeeds on a pool of five. -/
theorem wrapped_lease_overdraws :
    ¬ ∀ (budget lease : UInt64) (acts : List PoolAction) (s : PoolRun),
      runSteps step (start budget lease) acts = some s →
        s.leased ≤ s.supplied ∧
          (s.quiescent = true → s.pool.remaining.toNat = s.supplied - s.leased) := by
  intro h
  have hrun : runSteps step (start 5 10)
      [.call 10, .call 10, .fetchSub 0, .fetchSub 1, .compare 1, .compare 0, .fetchAdd 0] =
      some ⟨⟨18446744073709551611, 10⟩, 5, [.returned 0, .returned 10], 0, 0⟩ := by decide
  exact absurd (h 5 10 _ _ hrun).1 (by decide)

end PoolRun
end PsiServe.Gas
