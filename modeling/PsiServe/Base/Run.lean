import Mathlib.Algebra.GroupWithZero.Nat
import Mathlib.Data.List.Basic

/-!
# Runs of a partial step function

A system is a step function on an explicit state; a step is
labelled by the action taken and may be refused. Runs are finite label lists, and
side conditions are stated on the state each step starts from.
-/

namespace PsiServe.Base

-- A literal of `Fin 1` or `Fin 3` takes these, whatever else a module imports, so that definitions
-- with such indices (the ready queues) are the same term in every module.
instance neZeroOne : NeZero 1 := ⟨by decide⟩

instance neZeroThree : NeZero 3 := ⟨by decide⟩

universe u v

variable {σ : Type u} {α : Type v} {a : α} {P : σ → Prop}

/-- Run the labels in order; the first refused step refuses the whole run. -/
def runSteps (step : σ → α → Option σ) : σ → List α → Option σ
  | s, [] => some s
  | s, a :: as =>
    match step s a with
    | none => none
    | some s' => runSteps step s' as

/-- Every step of the run meets `ok` in the state it starts from. -/
def AllSteps (step : σ → α → Option σ) (ok : σ → α → Prop) : σ → List α → Prop
  | _, [] => True
  | s, a :: as => ok s a ∧
    match step s a with
    | none => True
    | some s' => AllSteps step ok s' as

/-- Side conditions of a run can be tested when those of its steps can. -/
instance decidableAllSteps (step : σ → α → Option σ) (ok : σ → α → Prop)
    [hok : ∀ s a, Decidable (ok s a)] : ∀ s as, Decidable (AllSteps step ok s as)
  | _, [] => isTrue trivial
  | s, a :: as =>
    have : Decidable (match step s a with
        | none => True
        | some s' => AllSteps step ok s' as) :=
      match step s a with
      | none => isTrue trivial
      | some s' => decidableAllSteps step ok s' as
    inferInstanceAs (Decidable (_ ∧ _))

/-- A nonempty run takes its first step and continues from there. -/
theorem runSteps_cons_iff (step : σ → α → Option σ) (s s' : σ) (a : α) (as : List α) :
    runSteps step s (a :: as) = some s' ↔
      ∃ m, step s a = some m ∧ runSteps step m as = some s' := by
  cases h : step s a with
  | none | some m => simp [runSteps, h]

variable {step : σ → α → Option σ} {s m s' : σ} {as : List α} {ok : σ → α → Prop}

/-- A run followed by one more step. -/
theorem runSteps_append_singleton (hrun : runSteps step s as = some m)
    (hstep : step m a = some s') :
    runSteps step s (as ++ [a]) = some s' := by
  induction as generalizing s with
  | nil =>
    obtain rfl := Option.some.inj hrun
    exact (runSteps_cons_iff step s s' a []).mpr ⟨s', hstep, rfl⟩
  | cons b bs ih =>
    obtain ⟨t, ht, hrest⟩ := (runSteps_cons_iff step s m b bs).mp hrun
    exact (runSteps_cons_iff step s s' b (bs ++ [a])).mpr ⟨t, ht, ih hrest⟩

/-- What every permitted step preserves holds at the end of every permitted run. -/
theorem runSteps_invariant (hstep : ∀ s a s', P s → ok s a → step s a = some s' → P s') (hs : P s)
    (hok : AllSteps step ok s as) (hrun : runSteps step s as = some s') : P s' := by
  induction as generalizing s with
  | nil =>
    exact Option.some.inj hrun ▸ hs
  | cons a as ih =>
    obtain ⟨m, hm, hrest⟩ := (runSteps_cons_iff step s s' a as).mp hrun
    obtain ⟨ha, htail⟩ := hok
    rw [hm] at htail
    exact ih (hstep s a m hs ha hm) htail hrest

/-- What every step preserves holds at the end of every run. -/
theorem runSteps_preserves (hstep : ∀ s a s', P s → step s a = some s' → P s') (hs : P s)
    (hrun : runSteps step s as = some s') : P s' := by
  induction as generalizing s with
  | nil =>
    exact Option.some.inj hrun ▸ hs
  | cons a as ih =>
    obtain ⟨m, hm, hrest⟩ := (runSteps_cons_iff step s s' a as).mp hrun
    exact ih (hstep s a m hs hm) hrest

/-- A run continues where its first part ends. -/
theorem runSteps_append (hrun : runSteps step s as = some m) (bs : List α) :
    runSteps step s (as ++ bs) = runSteps step m bs := by
  induction as generalizing s with
  | nil =>
    rw [Option.some.inj hrun, List.nil_append]
  | cons a as ih =>
    obtain ⟨t, ht, hrest⟩ := (runSteps_cons_iff step s m a as).mp hrun
    rw [List.cons_append, runSteps, ht]
    exact ih hrest

/-- The conditions of the two parts of a run. -/
theorem AllSteps.of_append {bs : List α} (hok : AllSteps step ok s (as ++ bs))
    (hrun : runSteps step s as = some m) : AllSteps step ok s as ∧ AllSteps step ok m bs := by
  induction as generalizing s with
  | nil =>
    cases hrun
    exact ⟨trivial, hok⟩
  | cons b as ih =>
    obtain ⟨t, ht, hrest⟩ := (runSteps_cons_iff step s m b as).mp hrun
    obtain ⟨hb, htail⟩ := hok
    rw [ht] at htail
    obtain ⟨has, hbs⟩ := ih htail hrest
    refine ⟨⟨hb, ?_⟩, hbs⟩
    rw [ht]
    exact has

/-- Weaker conditions hold along the same run. -/
theorem AllSteps.mono {ok' : σ → α → Prop} (h : ∀ s a, ok s a → ok' s a)
    (hok : AllSteps step ok s as) :
    AllSteps step ok' s as := by
  induction as generalizing s with
  | nil => trivial
  | cons a as ih =>
    obtain ⟨ha, hrest⟩ := hok
    refine ⟨h s a ha, ?_⟩
    split
    · trivial
    next heq =>
      rw [heq] at hrest
      exact ih hrest

end PsiServe.Base
