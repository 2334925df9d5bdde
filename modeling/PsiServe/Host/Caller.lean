import PsiServe.Base.Run
import Mathlib.Logic.Function.Basic

/-!
# The caller a dispatch shows

`IdentityHost`, `CallerGuard` and the guard that `wire_dispatch` puts around a call
(`libraries/psiserve/include/psiserve/runtime_host.hpp:74–122, 541–564`). Calls run on fibers, so
that those of one host may end in any order. The guard writes to the identity of the host that
dispatches; whose identity the callee can query is a parameter of the call.
-/

namespace PsiServe.Host

open Base Function List

/-- A call that is running, with what its guard will restore. -/
structure Call (H : Type) where
  host : H
  callee : H
  prevCaller : Nat

/-- The callers that the hosts show, and the running calls with the newest first. -/
structure State (H : Type) where
  callerId : H → Nat
  calls : List (Call H)

inductive Action (H : Type) where
  | enter (host callee : H)
  | leave (n : Nat)

variable {H : Type} [DecidableEq H] (selfId : H → Nat)

def step (s : State H) : Action H → Option (State H)
  | .enter host callee =>
    some ⟨update s.callerId host (selfId host), ⟨host, callee, s.callerId host⟩ :: s.calls⟩
  | .leave n =>
    match s.calls.drop n with
    | [] => none
    | k :: older => some ⟨update s.callerId k.host k.prevCaller, s.calls.take n ++ older⟩

def init : State H := ⟨fun _ => 0, []⟩

/-- Every callee sees the instance that called it, and without calls nobody has a caller. -/
def Identified (s : State H) : Prop :=
  (∀ k ∈ s.calls, s.callerId k.callee = selfId k.host) ∧ (s.calls = [] → ∀ h, s.callerId h = 0)

/-- Callees query the host that called them, whose calls end in the reverse order of their start. -/
def Orderly (s : State H) : Action H → Prop
  | .enter host callee => callee = host
  | .leave n => ∀ k ∈ (s.calls.drop n).head?, ∀ k' ∈ s.calls.take n, k'.host ≠ k.host

/-- The caller that a host shows while some calls are running. -/
def shown (calls : List (Call H)) (h : H) : Nat := if h ∈ calls.map Call.host then selfId h else 0

/-- Each guard has saved what the older calls make its host show. -/
def Saved : List (Call H) → Prop
  | [] => True
  | k :: older => k.prevCaller = shown selfId older k.host ∧ k.callee = k.host ∧ Saved older

structure Inv (s : State H) : Prop where
  caller : s.callerId = shown selfId s.calls
  saved : Saved selfId s.calls

variable {selfId} {s s' : State H} {newer older : List (Call H)} {k : Call H}

private theorem Saved.leave (h : Saved selfId (newer ++ k :: older))
    (hne : ∀ k' ∈ newer, k'.host ≠ k.host) :
    k.prevCaller = shown selfId (newer ++ older) k.host ∧ Saved selfId (newer ++ older) := by
  induction newer with
  | nil => exact ⟨h.1, h.2.2⟩
  | cons k' newer ih =>
    obtain ⟨hk', hnewer⟩ := forall_mem_cons.mp hne
    obtain ⟨hk, hrest⟩ := ih h.2.2 hnewer
    refine ⟨hk.trans ?_, ?_, h.2.1, hrest⟩
    · simp [shown, hk'.symm]
    · rw [h.1]
      simp [shown, hk']

private theorem inv_step (a : Action H) (hi : Inv selfId s) (hok : Orderly s a)
    (hstep : step selfId s a = some s') : Inv selfId s' := by
  cases a with
  | enter host callee =>
    cases hstep
    refine ⟨funext fun h => ?_, congrFun hi.caller host, hok, hi.saved⟩
    by_cases hh : h = host
    · simp [shown, hh]
    · simp [shown, hh, hi.caller]
  | leave n =>
    have hsplit := take_append_drop n s.calls
    simp only [step] at hstep
    simp only [Orderly] at hok
    split at hstep
    · cases hstep
    next k older hdrop =>
      cases hstep
      rw [hdrop] at hsplit hok
      generalize s.calls.take n = newer at hsplit hok ⊢
      obtain ⟨hcaller, hsaved⟩ := hi
      rw [← hsplit] at hcaller hsaved
      obtain ⟨hprev, hrest⟩ := hsaved.leave (hok k rfl)
      refine ⟨funext fun h => ?_, hrest⟩
      by_cases hh : h = k.host
      · simp [hh, hprev]
      · simp [hh, hcaller, shown]

private theorem Saved.callee_eq {calls : List (Call H)} (h : Saved selfId calls) :
    ∀ k ∈ calls, k.callee = k.host := by
  induction calls with
  | nil => simp
  | cons k older ih => exact forall_mem_cons.mpr ⟨h.2.1, ih h.2.2⟩

/-- Along runs in which callees query the host that called them and the calls of a host are nested,
every callee sees its caller. -/
theorem identified_of_orderly (as : List (Action H))
    (hrun : runSteps (step selfId) init as = some s)
    (hok : AllSteps (step selfId) Orderly init as) : Identified selfId s := by
  have hinit : Inv selfId init := ⟨rfl, trivial⟩
  have hi := runSteps_invariant (fun _ a _ => inv_step a) hinit hok hrun
  constructor
  · intro k hk
    rw [hi.caller, hi.saved.callee_eq k hk]
    exact if_pos (mem_map_of_mem hk)
  · intro hnil h
    rw [hi.caller, hnil]
    rfl

/-- A nested call of the host returns, and the outer one still sees its caller. -/
theorem identified_of_orderly_nested :
    Identified (fun _ : Bool => 7) ⟨update (fun _ => 0) true 7, [⟨true, true, 0⟩]⟩ := by
  refine identified_of_orderly [.enter true true, .enter true true, .leave 0] ?_ ?_
  · simp [runSteps, step, init]
  · simp [AllSteps, step, init, Orderly]

/-- Of two calls of one host the older one ends first: the other one sees no caller, and when it
has ended too the host shows itself. -/
theorem overlapping_calls :
    ∃ s s' : State Unit,
      runSteps (step fun _ => 7) init [.enter () (), .enter () (), .leave 1] = some s ∧
      s.calls.length = 1 ∧ s.callerId () = 0 ∧
      step (fun _ => 7) s (.leave 0) = some s' ∧ s'.calls = [] ∧ s'.callerId () = 7 :=
  ⟨_, _, rfl, rfl, rfl, rfl, rfl, rfl⟩

end PsiServe.Host
