import PsiServe.Base.Run

/-!
# The address-space budget of a spawn tree

`arena_budget` (`psizam/arena_budget.hpp:39–79`). `try_reserve` loads the counter and exchanges it
for the sum, again with what a failed exchange has read; `release` is one `fetch_sub`. `alloc` and
`free` touch the counter through these two only.
-/

namespace PsiServe.Gas

open Base

/-- Where one `try_reserve` call stands between its atomic steps. -/
inductive ReserveCall where
  | entered (bytes : UInt64)
  | loaded (bytes old : UInt64)
  | returned (room : Bool)
deriving DecidableEq

/-- A budget shared by any number of calls. `outstanding` is what was reserved and not released so
far; it is counted here and not stored by the program. -/
structure ArenaBudget where
  reserved : UInt64
  limit : UInt64
  calls : List ReserveCall
  outstanding : Nat
deriving DecidableEq

/-- One atomic step of one thread. Calls are numbered in the order they were entered; a weak
exchange may fail on an equal value. -/
inductive ArenaAction where
  | tryReserve (bytes : UInt64)
  | load (i : Nat)
  | exchange (i : Nat) (spurious : Bool)
  | release (bytes : UInt64)

namespace ArenaBudget

def start (limit : UInt64) : ArenaBudget := ⟨0, limit, [], 0⟩

/-- Execute one atomic step; only what is outstanding is released. -/
def step (s : ArenaBudget) : ArenaAction → Option ArenaBudget
  | .tryReserve bytes => some { s with calls := s.calls ++ [.entered bytes] }
  | .load i =>
    match s.calls[i]? with
    | some (.entered bytes) => some { s with calls := s.calls.set i (.loaded bytes s.reserved) }
    | _ => none
  | .exchange i spurious =>
    match s.calls[i]? with
    | some (.loaded bytes old) =>
      if s.limit < old + bytes then some { s with calls := s.calls.set i (.returned false) }
      else if s.reserved = old ∧ spurious = false then
        some { s with
          reserved := old + bytes, outstanding := s.outstanding + bytes.toNat,
          calls := s.calls.set i (.returned true) }
      else some { s with calls := s.calls.set i (.loaded bytes s.reserved) }
    | _ => none
  | .release bytes =>
    if bytes.toNat ≤ s.outstanding then
      some { s with
        reserved := s.reserved - bytes, outstanding := s.outstanding - bytes.toNat }
    else none

/-- The sum that a step compares with the limit, before it wraps. -/
def demand (s : ArenaBudget) : ArenaAction → Nat
  | .exchange i _ =>
    match s.calls[i]? with
    | some (.loaded bytes old) => old.toNat + bytes.toNat
    | _ => 0
  | _ => 0

/-- The counter is what is outstanding, within the limit. -/
structure Exact (limit : UInt64) (s : ArenaBudget) : Prop where
  limit_eq : s.limit = limit
  within : s.outstanding ≤ limit.toNat
  counter : s.reserved.toNat = s.outstanding

/-- An exchange succeeds on the value that was checked, so a sum that did not wrap is within. -/
theorem exact_step {limit : UInt64} (s : ArenaBudget) (a : ArenaAction) (s' : ArenaBudget)
    (h : s.Exact limit) (hfit : s.demand a < 2 ^ 64) (hs : s.step a = some s') :
    s'.Exact limit := by
  obtain ⟨rfl, hwithin, hcounter⟩ := h
  cases a with
  | tryReserve bytes =>
    cases hs
    exact ⟨rfl, hwithin, hcounter⟩
  | load i =>
    simp only [step] at hs
    split at hs <;> cases hs
    exact ⟨rfl, hwithin, hcounter⟩
  | exchange i spurious =>
    simp only [step] at hs
    split at hs
    next bytes old hi =>
      simp only [demand, hi] at hfit
      have hsum : (old + bytes).toNat = old.toNat + bytes.toNat :=
        (UInt64.toNat_add old bytes).trans (Nat.mod_eq_of_lt hfit)
      split at hs
      · cases hs
        exact ⟨rfl, hwithin, hcounter⟩
      next hroom =>
        have hle := UInt64.le_iff_toNat_le.mp (UInt64.not_lt.mp hroom)
        split at hs <;> cases hs
        next heq =>
          obtain ⟨rfl, -⟩ := heq
          exact ⟨rfl, by dsimp only; omega, by dsimp only; omega⟩
        · exact ⟨rfl, hwithin, hcounter⟩
    · cases hs
  | release bytes =>
    simp only [step] at hs
    split at hs <;> cases hs
    next hle =>
      have hsub := UInt64.toNat_sub_of_le s.reserved bytes
        (UInt64.le_iff_toNat_le.mpr (hcounter ▸ hle))
      exact ⟨rfl, by dsimp only; omega, by dsimp only; omega⟩

/-- Along every interleaving in which no compared sum wraps, the reservations stay within the limit
and the counter is their sum, between any two steps. -/
theorem outstanding_le_limit (limit : UInt64) (acts : List ArenaAction) (s : ArenaBudget)
    (hfit : AllSteps step (fun s a => s.demand a < 2 ^ 64) (start limit) acts)
    (hrun : runSteps step (start limit) acts = some s) :
    s.outstanding ≤ limit.toNat ∧ s.reserved.toNat = s.outstanding := by
  have hexact := runSteps_invariant exact_step ⟨rfl, Nat.zero_le _, rfl⟩ hfit hrun
  exact ⟨hexact.within, hexact.counter⟩

/-- Two calls load the same value; the second is refused after its exchange has failed. -/
theorem outstanding_le_limit_contended :
    runSteps step (start 100) [.tryReserve 60, .tryReserve 50, .load 0, .load 1,
        .exchange 0 false, .exchange 1 false, .exchange 1 false, .release 20] =
      some ⟨40, 100, [.returned true, .returned false], 40⟩ ∧
    40 ≤ 100 ∧ (40 : UInt64).toNat = 40 := by
  refine (and_iff_left_of_imp fun hrun => ?_).mpr (by decide)
  exact outstanding_le_limit 100 _ _ (by decide) hrun

/-- A sum that wraps is below the limit: half of the budget is taken, and almost the whole address
space is reserved on top of it. -/
theorem wrapped_sum_overcommits :
    ¬ ∀ (limit : UInt64) (acts : List ArenaAction) (s : ArenaBudget),
      runSteps step (start limit) acts = some s → s.outstanding ≤ limit.toNat := by
  intro h
  have hrun : runSteps step (start 100) [.tryReserve 50, .load 0, .exchange 0 false,
      .tryReserve 0xFFFFFFFFFFFFFFF6, .load 1, .exchange 1 false] =
      some ⟨40, 100, [.returned true, .returned true], 50 + 0xFFFFFFFFFFFFFFF6⟩ := by decide
  exact absurd (h 100 _ _ hrun) (by decide)

end ArenaBudget

end PsiServe.Gas
