import PsiServe.Fiber.Tokens

/-!
# Calls of a fiber on a scheduler of a reactor

How a step ends, how a strand is released, and what a call of the fiber that runs does to the
tokens.
-/

namespace PsiServe.Fiber

open Base List Function

namespace Reactor

open Scheduler (Todo FiberRecord Strand Call Linked Whole)

variable {F S T : Type}

/-- The fibers have tokens. -/
def Good (s : State F S T) : Prop := ∃ tok loc, Inv s tok loc

section

variable {s₀ s : State F S T} {tok₀ tok : F → Tok S T} {loc₀ loc : S → StrandTok T} {t : T} {f : F}
  {k : Tok S T} {p : Pc F S}

/-- A fiber that waits is not finished, so that none is passed over. -/
theorem Core.dropWhile_finished (hc : Core s tok loc) (r : S) :
    (s.strand r).queue.dropWhile s.finished = (s.strand r).queue := by
  cases hqueue : (s.strand r).queue with
  | nil => rfl
  | cons next rest =>
    have htok := ((hc.at_tok next).waits r).mp (by rw [hqueue]; exact mem_cons_self)
    have hfits := (hc.at_tok next).fits
    rw [htok] at hfits
    have hfin : s.finished next = false := by
      rcases hfits.1 with (h | h | h) | h | h <;> simp [State.finished, h]
    rw [dropWhile_cons, hfin]
    rfl

/-- A step ends, and the scheduler stands at `p`. -/
theorem During.land [DecidableEq T] (hd : During s₀ tok₀ loc₀ t s tok loc) (hi : Inv s₀ tok₀ loc₀)
    (p : Pc F S)
    (hpc : PcOk (s.goto t p) tok loc t p) (hhands : ∀ f ∈ p.hands, s₀.Untouched t f)
    (hrising : ∀ f ∈ (s₀.sched t).pc.rising, Waits (s.fiber f).state → f ∈ p.rising) :
    Good (s.goto t p) :=
  ⟨tok, loc, (hd.goto p).inv hi (by rw [goto_pc]; exact hpc) (by rw [goto_pc]; exact hhands)
    (by rw [goto_pc]; exact hrising)⟩

/-- The same where the one fiber in its hands is the one of the step. -/
theorem During.land_one [DecidableEq F] [DecidableEq T]
    (hd : During s₀ tok₀ loc₀ t s (update tok f k) loc) (hi : Inv s₀ tok₀ loc₀)
    (hu : s₀.Untouched t f) (p : Pc F S) (hpc : PcOk (s.goto t p) (update tok f k) loc t p)
    (hhands : p.hands = [f])
    (hrising : ∀ g ∈ (s₀.sched t).pc.rising, Waits (s.fiber g).state → g ∈ p.rising) :
    Good (s.goto t p) := by
  refine hd.land hi p hpc (fun g hg => ?_) hrising
  rw [hhands, mem_singleton] at hg
  exact hg ▸ hu

/-- A scheduler that brings no fiber back. -/
theorem rising_of_quiet {q : Pc F S} (hpc : (s₀.sched t).pc = q) (hquiet : q.rising = []) :
    ∀ g ∈ (s₀.sched t).pc.rising, Waits (s.fiber g).state → g ∈ p.rising := by
  intro g hg
  rw [hpc, hquiet] at hg
  cases hg

/-- A step starts with the fiber's own token. -/
theorem Inv.start [DecidableEq F] (hi : Inv s tok loc) (t : T) (htok : tok f = k) :
    During s tok loc t s (update tok f k) loc := by
  rw [← htok, update_eq_self]
  exact hi.during t

variable [DecidableEq F] [DecidableEq S] [DecidableEq T]

/-- The active fiber of a strand, which is not on it any more, releases it, and the scheduler goes
on at `p`. -/
theorem During.release {r : S} (hd : During s₀ tok₀ loc₀ t s (update tok f k) loc)
    (hi : Inv s₀ tok₀ loc₀) (hu : s₀.Untouched t f) (hactive : (s.strand r).active = some f)
    (hwaits : ∀ q, k ≠ .waits q) (hoff : ∀ q, ¬ Holds (s.fiber f) k q)
    (hnext : ∀ g, (s.strand r).queue.head? = some g → s₀.Untouched t g) (hhands : p.hands = [f])
    (hpc : ∀ (s' : State F S T) tok', tok' f = k → PcOk s' tok' loc t p)
    (hquiet : (s₀.sched t).pc.rising = []) : Good (s.release t r p) := by
  have hfree := hd.vacate hu hactive hoff
  rw [State.release, Strand.release, hd.core.dropWhile_finished]
  cases hqueue : (s.strand r).queue with
  | nil =>
    have hstrand : ({ s.strand r with active := none, queue := [] } : Strand F) =
        { s.strand r with active := none } := by rw [← hqueue]
    rw [hstrand]
    exact hfree.land_one hi hu p (hpc _ _ (update_self _ _ _)) hhands
      (rising_of_quiet rfl hquiet)
  | cons g rest =>
    have hg : s₀.Untouched t g := hnext g (by rw [hqueue]; rfl)
    have htok := ((hd.core.at_tok g).waits r).mp (by rw [hqueue]; exact mem_cons_self)
    have hne : g ≠ f := by
      rintro rfl
      rw [update_self] at htok
      exact hwaits r htok
    have hturn := hfree.turn (g := g) ((s.strand r).served ++ [g]) hg
      (by rw [setStrand_strand]) (by rw [setStrand_strand]; exact hqueue)
    simp only [State.setStrand, update_idem, update_self] at hturn
    refine hturn.land hi (.promote g p) ⟨update_self _ _ _, ?_, hpc _ _ ?_⟩
      (fun f' hf' => ?_) (rising_of_quiet rfl hquiet)
    · rw [hhands, mem_singleton]
      exact hne
    · rw [update_of_ne hne.symm, update_self]
    · rw [Pc.hands, hhands, mem_cons, mem_singleton] at hf'
      rcases hf' with rfl | rfl
      · exact hg
      · exact hu

end

/-! ### Calls of the fiber that runs -/

section

variable {s s' : State F S T} {tok : F → Tok S T} {loc : S → StrandTok T} {t : T} {f : F}
  {x : Record S T} {k : Tok S T} {p : Pc F S}

/-- What the token of the fiber that runs on a scheduler says. -/
structure Runs (s : State F S T) (tok : F → Tok S T) (t : T) (f : F) : Prop where
  untouched : s.Untouched t f
  tok : tok f = .run t
  live : Live (s.fiber f).state
  sound : Sound (s.fiber f)
  sched : (s.fiber f).homeSched = some t
  active : ∀ r, (s.fiber f).strandOf = some r → (s.strand r).active = some f
  quiet : (s.sched t).pc.rising = []

private theorem Inv.runs (hi : Inv s tok loc) (hpc : (s.sched t).pc = .run f) : Runs s tok t f := by
  have htok : tok f = .run t := by
    have := hi.pcs t
    rwa [hpc] at this
  have hat := hi.at_tok htok
  obtain ⟨hlive, hsound, hsched⟩ := hat.fits
  exact ⟨hi.untouched (by rw [hpc]; exact mem_cons_self), htok, hlive, hsound, hsched,
    hat.active, by rw [hpc]; rfl⟩

/-- A live fiber does not wait. -/
theorem Live.not_waits {st : FiberState} (h : Live st) : ¬ Waits st := by
  rcases h with rfl | rfl | rfl <;> simp [Waits]

/-- On the program's level, the strand of a fiber is its home strand. -/
theorem strandOf_of_run (htodo : x.todo = .run) : x.strandOf = x.homeStrand := by
  rw [FiberRecord.strandOf, htodo]

section

variable [DecidableEq F] (hr : Runs s tok t f) (hi : Inv s tok loc)

include hr hi

/-- The record of the fiber that runs changes, and it stays in no list. -/
theorem Runs.setFiber (k : Tok S T) (x : Record S T) (hk : k.Listless) (hfits : Fits x k)
    (hholds : ∀ r, Holds x k r → (s.strand r).active = some f)
    (hasleep : Waits x.state → k = .blocked) :
    During s tok loc t (s.setFiber f x) (update tok f k) loc :=
  (hi.start t hr.tok).setFiber k x hr.untouched nofun trivial hk hfits hholds
    fun h => .inl (hasleep h)

/-- The fiber goes to the end of the ready queue. -/
theorem Runs.good_ready [DecidableEq T] : Good ((s.makeReady t f).goto t (.switch f)) := by
  have hd := hr.setFiber hi (.moving (s.fiber f).strandOf) (s.fiber f) trivial
    ⟨hr.sound.owner, hr.sound.awaits⟩ hr.active
    fun h => absurd h hr.live.not_waits
  have hself : s.setFiber f (s.fiber f) = s := by rw [State.setFiber, update_eq_self]
  rw [hself] at hd
  exact (hd.makeReady hr.untouched hr.sound fun r h => h).land_one hi hr.untouched (.switch f)
    (.inr (.inr (update_self _ _ _))) rfl (rising_of_quiet rfl hr.quiet)

/-- The fiber says that it waits, or is finished, and is off its strand. -/
theorem Runs.good_rest [DecidableEq T] (hk : k.Listless) (hfits : Fits x k)
    (hoff : ∀ q, ¬ Holds x k q) (hhands : p.hands = [f])
    (hpc : ∀ (s' : State F S T) tok', tok' f = k → PcOk s' tok' loc t p)
    (hasleep : Waits x.state → k = .blocked) : Good ((s.setFiber f x).goto t p) :=
  (hr.setFiber hi k x hk hfits (fun q h => absurd h (hoff q)) hasleep).land_one hi hr.untouched p
    (hpc _ _ (update_self _ _ _)) hhands (rising_of_quiet rfl hr.quiet)

variable [DecidableEq S] [DecidableEq T]

private theorem good_advance_call (hpc : (s.sched t).pc = .run f)
    (hstep : s.call t f .advance = some s') : Good s' := by
  rw [State.call] at hstep
  split at hstep
  · cases hstep
  next r htodo =>
    cases hstep
    have hnone : (s.fiber f).homeStrand = none := hr.sound.whole.home (by rw [htodo]; nofun)
    have hframes : (s.fiber f).frames = [] := by
      have hlinked := hr.sound.whole.linked
      rw [FiberRecord.strandOf, htodo] at hlinked
      cases hf : (s.fiber f).frames with
      | nil => rfl
      | cons frame rest =>
        rw [hf] at hlinked
        exact nomatch hlinked.1
    have hd := hr.setFiber hi (.moves t r) { s.fiber f with todo := .run } trivial
      ⟨hr.live, hr.sound.awaits, hr.sound.owner, hr.sched, hnone, rfl, by
        rw [hframes]
        trivial⟩ (fun _ h => h.elim) fun h => absurd h hr.live.not_waits
    exact hd.land_one hi hr.untouched (.enter f r false) (update_self _ _ _) rfl
      (rising_of_quiet rfl hr.quiet)
  next r htodo =>
    cases hstep
    have hstrand : (s.fiber f).strandOf = some r := by rw [FiberRecord.strandOf, htodo]
    have hlinked := hr.sound.whole.linked
    rw [hstrand] at hlinked
    have hd := hr.setFiber hi (.run t) { s.fiber f with homeStrand := some r, todo := .run } trivial
      ⟨hr.live, ⟨hr.sound.awaits, ⟨fun h => absurd rfl h, hlinked⟩, hr.sound.owner⟩, hr.sched⟩
      (fun q h => hr.active q (hstrand.trans h)) fun h => absurd h hr.live.not_waits
    refine ⟨_, _, hd.inv hi ?_ (fun g hg => ?_) (rising_of_quiet rfl hr.quiet)⟩
    · show PcOk _ _ _ t (s.sched t).pc
      rw [hpc]
      exact update_self _ _ _
    · exact hi.untouched hg

/-- The fiber leaves its strand, if it is on one, and goes to another one. -/
theorem Runs.good_leave {r : S} (hhome : (s.fiber f).strandOf = some r)
    (hnext : s.NextUntouched t r) (hk : k.Listless)
    (hwaits : ∀ q, k ≠ .waits q) (hfits : Fits x k) (hoff : ∀ q, ¬ Holds x k q)
    (hhands : p.hands = [f]) (hpc : ∀ (s' : State F S T) tok', tok' f = k → PcOk s' tok' loc t p)
    (hlive : Live x.state) : Good ((s.setFiber f x).release t r p) := by
  have hd := hr.setFiber hi k x hk hfits (fun q h => absurd h (hoff q))
    fun h => absurd h hlive.not_waits
  refine hd.release hi hr.untouched (hr.active r hhome) hwaits (fun q => ?_) hnext hhands hpc
    hr.quiet
  rw [setFiber_fiber]
  exact hoff q

end

variable [DecidableEq F] [DecidableEq S] [DecidableEq T]

private theorem call_todo {c : Call S} (hstep : s.call t f c = some s') (hc : c ≠ .advance) :
    (s.fiber f).todo = .run := by
  by_contra htodo
  cases c <;> simp [State.call, htodo] at hc hstep

/-- A call of the fiber that runs keeps the tokens in order. -/
theorem good_call {c : Call S} (hi : Inv s tok loc) (hpc : (s.sched t).pc = .run f)
    (hok : Orderly s (.call t c)) (hstep : s.call t f c = some s') : Good s' := by
  have hr := hi.runs hpc
  by_cases hadvance : c = .advance
  · rw [hadvance] at hstep
    exact good_advance_call hr hi hpc hstep
  · have htodo := call_todo hstep hadvance
    have hwhole := hr.sound.whole.linked
    have hlinked := hwhole
    rw [strandOf_of_run htodo] at hlinked
    cases c <;> simp only [State.call, if_pos htodo] at hstep
    case advance => exact absurd rfl hadvance
    case yield =>
      split at hstep
      next r hhome =>
        split at hstep
        · cases hstep
          rw [hhome] at hlinked
          refine hr.good_leave hi (k := .moves t r) ((strandOf_of_run htodo).trans hhome)
            (hok f r hpc hhome) trivial nofun ?_
            (fun _ h => h) rfl (fun _ _ h => h) hr.live
          exact ⟨hr.live, hr.sound.awaits, hr.sound.owner, hr.sched, rfl, htodo, hlinked⟩
        · cases hstep
          exact hr.good_ready hi
      · cases hstep
        exact hr.good_ready hi
    case park =>
      cases hstep
      exact hr.good_rest hi (k := .awaits t) trivial
        ⟨hr.live, hr.sched, ⟨hr.sound.whole.home, hwhole⟩, hr.sound.owner, htodo⟩ (fun _ h => h) rfl
        (fun _ _ h => .inl h) fun h => absurd h hr.live.not_waits
    case sleep | waitFd =>
      cases hstep
      exact hr.good_rest hi (k := .blocked) trivial ⟨by simp [Waits],
        ⟨hr.sound.awaits, ⟨hr.sound.whole.home, hwhole⟩, hr.sound.owner⟩, htodo⟩ (fun _ h => h) rfl
        (fun _ _ h => .inr (.inl (.inr (.inr (.inl h))))) fun _ => rfl
    case sync r =>
      split at hstep
      · cases hstep
      · have hfits : Fits { s.fiber f with
            homeStrand := none, frames := (r, (s.fiber f).homeStrand) :: (s.fiber f).frames }
            (.moves t r) :=
          ⟨hr.live, hr.sound.awaits, hr.sound.owner, hr.sched, rfl, htodo, rfl, hlinked⟩
        split at hstep
        next src hhome =>
          cases hstep
          exact hr.good_leave hi (k := .moves t r) ((strandOf_of_run htodo).trans hhome)
            (hok f src hpc hhome) trivial
            nofun hfits (fun _ h => h) rfl (fun _ _ h => h) hr.live
        · cases hstep
          exact hr.good_rest hi (k := .moves t r) trivial hfits (fun _ h => h) rfl (fun _ _ h => h)
            fun h => absurd h hr.live.not_waits
    case syncReturn =>
      split at hstep
      · cases hstep
      next r src frames hframes =>
        rw [hframes] at hlinked
        obtain ⟨hhome, hrest⟩ := hlinked
        have hstrand := (strandOf_of_run htodo).trans hhome
        split at hstep
        next src' =>
          cases hstep
          exact hr.good_leave hi (k := .moves t src') hstrand (hok f r hpc hhome) trivial
            nofun
            ⟨hr.live, hr.sound.awaits, hr.sound.owner, hr.sched, rfl, htodo, hrest⟩ (fun _ h => h)
            rfl (fun _ _ h => h) hr.live
        · cases hstep
          have hnone : FiberRecord.strandOf { (s.fiber f).toFiberRecord with
              homeStrand := none, frames := frames } = none := by
            rw [FiberRecord.strandOf, htodo]
          refine hr.good_leave hi (k := .run t) hstrand (hok f r hpc hhome) trivial
            (fun _ => by simp)
            ⟨hr.live, ⟨hr.sound.awaits, ⟨fun _ => rfl, ?_⟩, hr.sound.owner⟩, hr.sched⟩
            (fun q h => ?_) rfl (fun _ _ h => h) hr.live
          · rw [hnone]
            exact hrest
          · cases hnone.symm.trans h
    case finish =>
      split at hstep
      · cases hstep
        exact hr.good_rest hi (k := .done t) trivial ⟨rfl, hr.sound.awaits, hr.sound.owner⟩
          (fun _ h => h) rfl (fun _ _ h => .inr (.inl (.inr (.inr (.inr h)))))
          fun h => by simp [Waits] at h
      · cases hstep

end

end Reactor

end PsiServe.Fiber
