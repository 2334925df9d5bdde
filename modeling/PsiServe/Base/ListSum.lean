import Mathlib.Algebra.Order.BigOperators.Group.List
import Mathlib.Algebra.Order.Ring.Nat

/-!
# Sums over indexed lists

Totals of a list of records, and how one replaced entry changes them.
-/

namespace PsiServe.Base

open List

universe u

variable {α : Type u}

/-- Total of `f` over the entries of a list. -/
def total (f : α → Nat) (l : List α) : Nat := (l.map f).sum

/-- The empty list has no total. -/
theorem total_nil (f : α → Nat) : total f [] = 0 := rfl

/-- Appending one entry adds its share. -/
theorem total_concat (f : α → Nat) (l : List α) (a : α) : total f (l ++ [a]) = total f l + f a := by
  simp [total]

/-- Replacing an entry exchanges its share of the total. -/
theorem total_set (f : α → Nat) (l : List α) (i : Nat) (a b : α) (h : l[i]? = some a) :
    total f (l.set i b) + f a = total f l + f b := by
  induction l generalizing i with
  | nil => simp at h
  | cons x xs ih =>
    cases i with
    | zero =>
      have hx : x = a := by simpa using h
      subst hx
      simp only [total, set_cons_zero, map_cons, sum_cons]
      omega
    | succ i =>
      have hi := ih i (by simpa using h)
      simp only [total, set_cons_succ, map_cons, sum_cons] at hi ⊢
      omega

/-- A list all of whose entries weigh nothing has total zero. -/
theorem total_eq_zero (f : α → Nat) (l : List α) (h : ∀ a ∈ l, f a = 0) : total f l = 0 :=
  sum_eq_zero (forall_mem_map.mpr h)

end PsiServe.Base
