import PsiServe.Gas.Pool

/-!
# Gas charges against a shared pool

Charge sites of `psizam/detail/execution_context.hpp:280–286`
whose handler is `pool_yield_handler` (`psizam/gas_pool.hpp:99–110`).
The handler extends the deadline by one lease and the charge is not compared again.
Instances are installed by `libraries/psizam/src/runtime.cpp:706–715`, with nothing
consumed and an initial deadline.
-/

namespace PsiServe.Gas

open Base

/-- Counters of one execution context; `psizam/gas.hpp:75–80`. -/
structure GasState where
  consumed : UInt64
  deadline : UInt64
deriving DecidableEq

/-- The two ways a charge traps, with the texts of their exceptions. -/
inductive GasError where
  | gasExhausted
  | poolExhausted
deriving DecidableEq

/-- Exception text; `execution_context.hpp:284` and `gas_pool.hpp:106`. -/
def GasError.text : GasError → String
  | .gasExhausted => "gas exhausted"
  | .poolExhausted => "gas_pool: exhausted"

/-- What a charge leaves behind; counters keep their new values when it traps. `lease`
is the amount its handler obtained from the pool. -/
structure ChargeResult where
  gas : GasState
  pool : GasPool
  lease : UInt64
  error : Option GasError
deriving DecidableEq

/-- A gas handler updates the context's counters and the pool behind `user_data`. -/
def GasHandler : Type := GasState → GasPool → ChargeResult

/-- Lease one more slice and extend the deadline by it; `gas_pool.hpp:99–110`. -/
def poolYieldHandler : GasHandler := fun gas pool =>
  let (lease, pool') := pool.tryLease pool.leaseSize
  if lease = 0 then ⟨gas, pool', lease, some .poolExhausted⟩
  else ⟨{ gas with deadline := gas.deadline + lease }, pool', lease, none⟩

/-- Charge `cost` and call the handler once the deadline is reached; a context without
a handler traps. `execution_context.hpp:280–286`. -/
def gasCharge (handler : Option GasHandler) (gas : GasState) (pool : GasPool)
    (cost : UInt64) : ChargeResult :=
  let gas := { gas with consumed := gas.consumed + cost }
  if gas.deadline ≤ gas.consumed then
    match handler with
    | some h => h gas pool
    | none => ⟨gas, pool, 0, some .gasExhausted⟩
  else ⟨gas, pool, 0, none⟩

/-- A context attached to the pool. `initial` is its first deadline and `leased` totals
the leases its handler obtained; both are counted here and not stored by the program. -/
structure Context where
  gas : GasState
  initial : Nat
  leased : Nat
deriving DecidableEq

/-- Contexts that share one pool. -/
structure Shared where
  pool : GasPool
  contexts : List Context
deriving DecidableEq

/-- One charge: the context making it and its cost. -/
structure Charge where
  context : Nat
  cost : UInt64
deriving DecidableEq

namespace Shared

/-- Contexts as instantiated, each with its own first deadline. -/
def start (pool : GasPool) (deadlines : List UInt64) : Shared :=
  ⟨pool, deadlines.map fun d => ⟨⟨0, d⟩, d.toNat, 0⟩⟩

/-- Gas consumed by all contexts together. -/
def consumed (s : Shared) : Nat := total (fun c => c.gas.consumed.toNat) s.contexts

/-- Initial deadlines and leases of all contexts together. -/
def granted (s : Shared) : Nat := total (fun c => c.initial + c.leased) s.contexts

/-- One charge through `pool_yield_handler`, with the error it trapped on, if any. -/
def charge (s : Shared) (c : Charge) : Option (Shared × Option GasError) :=
  match s.contexts[c.context]? with
  | none => none
  | some ctx =>
    let r := gasCharge (some poolYieldHandler) ctx.gas s.pool c.cost
    let ctx' := ⟨r.gas, ctx.initial, ctx.leased + r.lease.toNat⟩
    some (⟨r.pool, s.contexts.set c.context ctx'⟩, r.error)

/-- Charges as steps of the shared system; trapping charges keep their effects. -/
def step (s : Shared) (c : Charge) : Option Shared := (s.charge c).map Prod.fst

/-- Gas the pool can still add to a deadline in one handler call. -/
def available (pool : GasPool) : Nat :=
  if pool.leaseSize ≤ pool.remaining then pool.leaseSize.toNat else 0

/-- The cost fits in what is left of the deadline plus one lease the pool still holds. -/
def Affordable (s : Shared) (c : Charge) : Prop :=
  ∀ ctx ∈ s.contexts[c.context]?,
    ctx.gas.consumed.toNat + c.cost.toNat ≤ ctx.gas.deadline.toNat + available s.pool

instance (s : Shared) (c : Charge) : Decidable (s.Affordable c) :=
  inferInstanceAs (Decidable (∀ ctx ∈ s.contexts[c.context]?, _ ≤ _))

end Shared

/-- An uninterrupted lease either takes the amount or leaves the pool as it was. -/
theorem GasPool.tryLease_eq (pool : GasPool) (amount : UInt64) : pool.tryLease amount =
      if amount ≤ pool.remaining then (amount, (pool.fetchSub amount).2) else (0, pool) := by
  have hback : pool.remaining - amount + amount = pool.remaining := by simp
  simp only [tryLease, fetchSub, fetchAdd, hback]

/-- The handler obtains nothing or one lease the pool held, and extends the deadline by
exactly what it obtained. -/
theorem poolYieldHandler_spec (gas : GasState) (pool : GasPool) :
    (poolYieldHandler gas pool).gas.consumed = gas.consumed ∧
      (poolYieldHandler gas pool).gas.deadline =
        gas.deadline + (poolYieldHandler gas pool).lease ∧
      (poolYieldHandler gas pool).lease.toNat = Shared.available pool := by
  unfold poolYieldHandler Shared.available
  rw [GasPool.tryLease_eq]
  by_cases hle : pool.leaseSize ≤ pool.remaining
  · simp only [if_pos hle]
    by_cases hz : pool.leaseSize = 0
    · simp [hz]
    · simp [hz]
  · simp [if_neg hle]

/-- A charge that fits in the deadline and one lease leaves both counters within the
grant, enlarged by what the handler leased. -/
theorem gasCharge_within (gas : GasState) (pool : GasPool) (cost : UInt64) (grant : Nat)
    (hd : gas.deadline.toNat ≤ grant)
    (hfit : gas.consumed.toNat + cost.toNat ≤ gas.deadline.toNat + Shared.available pool) :
    let r := gasCharge (some poolYieldHandler) gas pool cost
    r.gas.consumed.toNat ≤ grant + r.lease.toNat ∧
      r.gas.deadline.toNat ≤ grant + r.lease.toNat := by
  have hadd : (gas.consumed + cost).toNat = (gas.consumed.toNat + cost.toNat) % 2 ^ 64 :=
    UInt64.toNat_add _ _
  intro r
  by_cases hle : gas.deadline ≤ gas.consumed + cost
  · obtain ⟨hc, hdl, hl⟩ := poolYieldHandler_spec { gas with consumed := gas.consumed + cost } pool
    have hr : r = poolYieldHandler { gas with consumed := gas.consumed + cost } pool := by
      simp only [r, gasCharge, if_pos hle]
    have hsum := UInt64.toNat_add gas.deadline r.lease
    rw [hr] at hsum ⊢
    rw [hc, hdl]
    simp only at hsum ⊢
    omega
  · have hr : r = ⟨{ gas with consumed := gas.consumed + cost }, pool, 0, none⟩ := by
      simp only [r, gasCharge, if_neg hle]
    rw [UInt64.le_iff_toNat_le] at hle
    rw [hr]
    simp only [UInt64.toNat_zero]
    omega

namespace Shared

/-- Each context's counters stay within its initial deadline and its leases. -/
def Within (s : Shared) : Prop :=
  ∀ ctx ∈ s.contexts, ctx.gas.consumed.toNat ≤ ctx.initial + ctx.leased ∧
    ctx.gas.deadline.toNat ≤ ctx.initial + ctx.leased

/-- Fresh contexts are within their initial deadlines. -/
theorem within_start (pool : GasPool) (deadlines : List UInt64) :
    (start pool deadlines).Within := by
  intro ctx hctx
  obtain ⟨d, -, rfl⟩ := List.mem_map.mp hctx
  simp

/-- Affordable charges keep every context within its grant. -/
theorem within_step (s : Shared) (c : Charge) (s' : Shared) (h : s.Within)
    (hok : s.Affordable c) (hs : s.step c = some s') : s'.Within := by
  unfold step charge at hs
  cases hctx : s.contexts[c.context]? with
  | none => simp [hctx] at hs
  | some ctx =>
    simp only [hctx, Option.map_some, Option.some.injEq] at hs
    subst hs
    have hmem : ctx ∈ s.contexts := List.mem_of_getElem? hctx
    intro other hother
    rcases List.mem_or_eq_of_mem_set hother with hold | rfl
    · exact h other hold
    · have hw := gasCharge_within ctx.gas s.pool c.cost (ctx.initial + ctx.leased)
        (h ctx hmem).2 (hok ctx (by simp [hctx]))
      simpa only [add_assoc] using hw

/-- In every sequence of affordable charges, a charge that returns normally leaves the
gas consumed by all contexts within their initial deadlines and leases. -/
theorem consumed_le_granted (pool : GasPool) (deadlines : List UInt64) (charges : List Charge)
    (c : Charge) (s s' : Shared)
    (hok : AllSteps step Affordable (start pool deadlines) (charges ++ [c]))
    (hrun : runSteps step (start pool deadlines) charges = some s)
    (hc : s.charge c = some (s', none)) : s'.consumed ≤ s'.granted := by
  have hlast : s.step c = some s' := by simp [step, hc]
  have hwithin : s'.Within := runSteps_invariant within_step (within_start pool deadlines) hok
    (runSteps_append_singleton hrun hlast)
  exact List.sum_le_sum fun ctx hctx => (hwithin ctx hctx).1

/-- Two contexts on a pool of 100 with leases of ten; the first charge needs a lease. -/
theorem consumed_le_granted_two :
    (Shared.mk ⟨90, 10⟩ [⟨⟨15, 20⟩, 10, 10⟩, ⟨⟨5, 10⟩, 10, 0⟩]).consumed ≤
      (Shared.mk ⟨90, 10⟩ [⟨⟨15, 20⟩, 10, 10⟩, ⟨⟨5, 10⟩, 10, 0⟩]).granted :=
  consumed_le_granted ⟨100, 10⟩ [10, 10] [⟨0, 15⟩] ⟨1, 5⟩
    ⟨⟨90, 10⟩, [⟨⟨15, 20⟩, 10, 10⟩, ⟨⟨0, 10⟩, 10, 0⟩]⟩ _ (by decide) (by decide) (by decide)

/-- A single charge of 100 against a deadline of ten leases ten and returns normally,
leaving the context eighty beyond everything it was granted. -/
theorem charge_exceeds_lease :
    ¬ ∀ (pool : GasPool) (deadlines : List UInt64) (charges : List Charge) (c : Charge)
      (s s' : Shared), runSteps step (start pool deadlines) charges = some s →
        s.charge c = some (s', none) → s'.consumed ≤ s'.granted := by
  intro h
  have hc : (start ⟨100, 10⟩ [10]).charge ⟨0, 100⟩ =
      some (⟨⟨90, 10⟩, [⟨⟨100, 20⟩, 10, 10⟩]⟩, none) := by decide
  exact absurd (h ⟨100, 10⟩ [10] [] ⟨0, 100⟩ _ _ rfl hc) (by decide)

end Shared
end PsiServe.Gas
