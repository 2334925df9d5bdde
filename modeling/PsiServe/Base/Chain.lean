import Mathlib.Data.List.Basic

/-!
# Lists threaded through a successor function

A singly linked list kept in an array is a head and a successor
function on positions; the nodes it passes through are a list of positions.
-/

namespace PsiServe.Base

universe u

variable {α : Type u}

/-- Following `next` from `head` passes through exactly `nodes` and arrives at `stop`. -/
def Threads (next : α → α) : α → List α → α → Prop
  | head, [], stop => head = stop
  | head, n :: ns, stop => head = n ∧ Threads next (next n) ns stop

namespace Threads

variable {next : α → α} {head stop : α} {nodes : List α}

/-- The chain only reads the successors of its own nodes. -/
theorem congr {next' : α → α} (h : Threads next head nodes stop)
    (hnext : ∀ n ∈ nodes, next' n = next n) :
    Threads next' head nodes stop := by
  induction nodes generalizing head with
  | nil => exact h
  | cons n ns ih =>
    obtain ⟨hn, hrest⟩ := h
    refine ⟨hn, ?_⟩
    rw [hnext n List.mem_cons_self]
    exact ih hrest (List.forall_mem_cons.mp hnext).2

/-- A chain whose head is not its stop has the head as its first node. -/
theorem uncons (h : Threads next head nodes stop) (hne : head ≠ stop) :
    ∃ ns, nodes = head :: ns ∧ Threads next (next head) ns stop := by
  cases nodes with
  | nil => exact absurd h hne
  | cons n ns =>
    obtain ⟨rfl, hrest⟩ := h
    exact ⟨ns, rfl, hrest⟩

/-- Successors that count upwards thread an interval. -/
theorem range' {next : Nat → Nat} {start len : Nat}
    (hnext : ∀ i, start ≤ i → i < start + len → next i = i + 1) :
    Threads next start (List.range' start len) (start + len) := by
  induction len generalizing start with
  | zero => rfl
  | succ len ih =>
    refine ⟨rfl, ?_⟩
    rw [hnext start (by omega) (by omega), show start + (len + 1) = start + 1 + len by omega]
    exact ih fun i hi hlt => hnext i (by omega) (by omega)

end Threads

end PsiServe.Base
