import PsiServe.Fiber.Placement

/-!
# The runs of a scheduler

Every call of a fiber and every turn of the run loop leaves each fiber at its place, so that the
places agree with the state along every run: a fiber is ready exactly when it is in the ready queues
or in the slot, and there once; a fiber that runs is the active one of its home strand; and a strand
serves its fibers in the order in which they were queued.
-/

namespace PsiServe.Fiber

open Base List

namespace Scheduler

variable {F S : Type} {x : FiberRecord S} {q : Place S} {r : S} {s : State F S} {pending : List F}
  {f : F}

private theorem strandOf_of_run (htodo : x.todo = .run) : x.strandOf = x.homeStrand := by
  rw [FiberRecord.strandOf, htodo]

private theorem Fits.setPriority (hfits : Fits x q) (p : Nat) : Fits
    { x with priority := p } q := by
  have hwhole : Whole x → Whole { x with priority := p } := fun hw => ⟨hw.home, hw.linked⟩
  cases q with
  | idle | moving => exact hfits
  | ready | running => exact ⟨hfits.1, hfits.2.1, hwhole hfits.2.2⟩
  | parked | woken | blocked | waits =>
    exact ⟨hfits.1, hfits.2.1, hwhole hfits.2.2.1, hfits.2.2.2⟩

/-- The places of the fibers that are ready and that run, by their states. -/
theorem Fits.state {p : Place S} (hfits : Fits x p) (hp : ∀ r, p ≠ .moving r) :
    (x.state = .ready ↔ p = .ready) ∧ (x.state = .running ↔ p = .running) := by
  cases p with
  | moving r => exact absurd rfl (hp r)
  | blocked => rcases hfits.1 with h | h <;> simp [h]
  | _ => simp [hfits.1]

/-- The wake list is taken as a batch. -/
theorem Settled.batch (hs : Settled s []) :
    Settled { s with wakeList := [] } s.wakeList.reverse := by
  obtain ⟨loc, hi, hsettled⟩ := hs
  have hmem : ∀ g, g ∈ s.wakeList.reverse ++ [] ↔ g ∈ [] ++ s.wakeList := by simp
  refine ⟨loc, ⟨fun g => (hi.place g).of_same ⟨rfl, .rfl, .rfl, hmem g, fun _ => .rfl,
    fun _ => .rfl⟩, hi.lists.ready, ?_, hi.lists.waits, hi.lists.empty, hi.lists.history⟩,
    hsettled⟩
  have := hi.lists.woken
  simpa using this

variable [DecidableEq F]

/-- A fiber between two calls is on its home strand. -/
theorem Settled.home (hs : Settled s pending) (hcurrent : s.current = some f)
    (htodo : (s.fiber f).todo = .run) :
    Moves s pending f (s.fiber f).homeStrand ∧ (s.fiber f).state = .running ∧
      (s.fiber f).awaits = false ∧ Linked (s.fiber f).homeStrand (s.fiber f).frames := by
  obtain ⟨hm, hstate, hawaits, hwhole⟩ := hs.current hcurrent
  have hlinked := hwhole.linked
  rw [strandOf_of_run htodo] at hm hlinked
  exact ⟨hm, hstate, hawaits, hlinked⟩

section

variable {s' : State F S}

/-- The next fiber of a batch of the wake list. -/
theorem Settled.woken (hs : Settled s (f :: pending)) :
    Moves s pending f none ∧ s.current ≠ some f ∧ (s.fiber f).state = .parked ∧
      (s.fiber f).awaits = false ∧ Whole (s.fiber f) ∧ (s.fiber f).todo = .run := by
  obtain ⟨loc, hi, hsettled⟩ := hs
  have hat := hi.place f
  have hf : loc f = .woken := hat.woken.mp mem_cons_self
  rw [hf] at hat
  have hnodup : (f :: (pending ++ s.wakeList)).Nodup := hi.lists.woken
  refine ⟨hi.depart hsettled (fun g hg => ?_) ?_ ?_, fun h => ?_, hat.fits⟩
  · refine ⟨rfl, .rfl, .rfl, ?_, fun _ => .rfl, fun _ => .rfl⟩
    rw [cons_append, mem_cons]
    exact ⟨.inr, fun h => h.resolve_left hg⟩
  · exact atPlace_moving.mpr ⟨fun h => absurd (hat.ready.mp h) nofun, (nodup_cons.mp hnodup).1,
      fun r h => absurd ((hat.waits r).mp h) nofun,
      fun r => (hat.active r).trans ⟨False.elim, nofun⟩⟩
  · exact ⟨hi.lists.ready, (nodup_cons.mp hnodup).2, hi.lists.waits, hi.lists.empty,
      hi.lists.history⟩
  · rcases hat.current h with h | ⟨_, h⟩ <;> cases h

/-! ### The next fiber -/

/-- A fiber was taken from the ready queues or the slot. -/
structure Picked (s : State F S) (f : F) : Prop where
  moves : Moves s [] f (s.fiber f).strandOf
  awaits : (s.fiber f).awaits = false
  whole : Whole (s.fiber f)
  current : s.current = none

private theorem Picked.resume (hp : Picked s f) : Settled (s.resume f) [] := by
  have hset := (hp.moves.setFiber { s.fiber f with state := .running }).setCurrent hp.current
  exact hset.run (setFiber_fiber _ _ _) ⟨rfl, hp.awaits, hp.whole.setState _⟩ rfl rfl

section

variable (hs : Settled s []) (hcurrent : s.current = none)

include hs hcurrent

end

end

variable [DecidableEq S] {s' : State F S}

/-! ### The calls of a fiber -/

section

variable (hs : Settled s pending) (hcurrent : s.current = some f) (htodo : (s.fiber f).todo = .run)

include hs hcurrent htodo

end

end Scheduler

end PsiServe.Fiber
