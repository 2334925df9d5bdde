import Mathlib.Data.List.Nodup
import Mathlib.Logic.Function.Basic

/-!
# Updates of a function at one place, and of a list at its end
-/

namespace PsiServe.Base

variable {α β : Type} [DecidableEq α] {φ : α → β} {a x : α} {b y : β}

/-- What a function is after an update: the new value at its place, the old one elsewhere. -/
theorem update_eq_iff : Function.update φ a b x = y ↔ x = a ∧ b = y ∨ x ≠ a ∧ φ x = y := by
  by_cases hx : x = a
  · simp [hx]
  · simp [hx]

/-- A value other than the new one was there before. -/
theorem eq_of_update_eq (h : Function.update φ a b x = y) (hb : b ≠ y) : φ x = y := by
  rcases update_eq_iff.mp h with ⟨-, hby⟩ | ⟨-, hx⟩
  · exact absurd hby hb
  · exact hx

/-- A value other than the old one of the place stays. -/
theorem update_eq_of_ne (hx : φ x = y) (ha : φ a ≠ y) : Function.update φ a b x = y := by
  have hne : x ≠ a := fun h => ha (h ▸ hx)
  exact update_eq_iff.mpr (.inr ⟨hne, hx⟩)

omit [DecidableEq α] in
/-- A new entry keeps a list without duplicates. -/
theorem nodup_append_singleton {l : List α} (hl : l.Nodup) (ha : a ∉ l) : (l ++ [a]).Nodup := by
  rw [← List.concat_eq_append]
  exact hl.concat ha

omit [DecidableEq α] in
/-- The members of a list with one more entry. -/
theorem mem_append_singleton {l : List α} : x ∈ l ++ [a] ↔ x ∈ l ∨ x = a := by
  rw [List.mem_append, List.mem_singleton]

end PsiServe.Base
