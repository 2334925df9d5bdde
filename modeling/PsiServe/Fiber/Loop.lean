import PsiServe.Fiber.Around

/-!
# The run loop of a scheduler of a reactor

Picking a fiber, draining the wake list, polling, pulling a strand and spawning keep the tokens in
order.
-/

namespace PsiServe.Fiber

open Base Function List

namespace Reactor

open Scheduler (Todo FiberRecord Strand Call Linked Whole)

variable {F S T : Type}

/-! ### The run loop -/

section

variable {s s' : State F S T} {tok : F → Tok S T} {loc : S → StrandTok T} {t : T} {f g : F} {r : S}

/-- No other scheduler can have a fiber with this token in its hands. -/
def Tok.OnlyOf (t : T) : Tok S T → Prop
  | .idle | .free _ => True
  | .ready t' | .woken t' | .awaits t' => t' = t
  | _ => False

private theorem PcOk.eq_of_onlyOf {p : Pc F S} {t' : T} (h : PcOk s tok loc t' p) (hf : f ∈ p.hands)
    (htok : (tok f).OnlyOf t) : t' = t := by
  induction p with
  | loop | pulled _ | take _ => cases hf
  | promote g k ih =>
    rcases mem_cons.mp hf with rfl | hk
    · rw [h.1] at htok
      exact htok.elim
    · exact ih h.2.2 hk
  | run g | enter g _ _ | resume g =>
    obtain rfl := mem_singleton.mp hf
    rw [show tok f = _ from h] at htok
    exact htok.elim
  | post g _ _ | push g _ _ =>
    obtain rfl := mem_singleton.mp hf
    rw [h.1] at htok
    exact htok.elim
  | settle g =>
    obtain rfl := mem_singleton.mp hf
    rcases h with ⟨r, h⟩ | ⟨r, h⟩ <;> rw [h] at htok <;> exact htok.elim
  | park g =>
    obtain rfl := mem_singleton.mp hf
    rcases h with h | h | ⟨r, h, -⟩ <;> rw [h] at htok <;> first | exact htok | exact htok.elim
  | release g _ =>
    obtain rfl := mem_singleton.mp hf
    rcases h.1 with h | h | h | h <;> rw [h] at htok <;> first | exact htok | exact htok.elim
  | switch g | check g | recycle g =>
    obtain rfl := mem_singleton.mp hf
    rcases h with (h | h | ⟨r, h, -⟩) | (h | h | h | h) | h <;> rw [h] at htok <;>
      first | exact htok | exact htok.elim

/-- A fiber in a list of a scheduler is not in the hands of another one. -/
theorem Inv.untouched_of_tok (hi : Inv s tok loc) (htok : (tok f).OnlyOf t) : s.Untouched t f :=
  fun t' hf => (hi.pcs t').eq_of_onlyOf hf htok

end

section

variable [DecidableEq F] [DecidableEq S] [DecidableEq T] {s s' : State F S T} {tok : F → Tok S T}
  {loc : S → StrandTok T} {t : T} {f g : F} {r : S}

section

variable (hi : Inv s tok loc)

include hi

section

variable (hloop : (s.sched t).pc = .loop)

include hloop

omit [DecidableEq F] [DecidableEq S] [DecidableEq T] in
/-- The end of a step of the run loop that leaves the scheduler there. -/
theorem During.stay {s₁ : State F S T} {tok₁ : F → Tok S T} {loc₁ : S → StrandTok T}
    (hd : During s tok loc t s₁ tok₁ loc₁) (hpc : (s₁.sched t).pc = .loop) : Good s₁ := by
  refine ⟨tok₁, loc₁, hd.inv hi (by rw [hpc]; trivial) (fun f hf => ?_)
    (rising_of_quiet hloop rfl)⟩
  rw [hpc] at hf
  cases hf

omit [DecidableEq S] in
/-- The next ready fiber is resumed. -/
theorem good_pick (hg : g ∈ (s.sched t).ready) :
    Good ((s.setFiber g { s.fiber g with state := .running, homeSched := some t }).setSched t
      { s.sched t with ready := (s.sched t).ready.erase g, pc := .run g }) := by
  have htok : tok g = .ready t := ((hi.core.at_tok g).ready t).mp hg
  have hat := hi.at_tok htok
  obtain ⟨hstate, hsound⟩ := hat.fits
  have hu : s.Untouched t g := hi.untouched_of_tok (by rw [htok]; rfl)
  have hstart := hi.start t htok
  have htaken := hstart.go
    (s.setSched t { s.sched t with ready := (s.sched t).ready.erase g, pc := .run g })
    (.moving (s.fiber g).strandOf) hu (by simp)
    (fun f hf => .setSched (mem_erase_of_ne hf) .rfl .rfl)
    (fun hat => hat.setSched (by simp [(hi.core.lists.ready t).not_mem_erase])
      ((hat.woken t).trans (by simp)) ((hat.free t).trans (by simp))
      (fun t' ht => by simp [Ne.symm ht]) (by simp)
      ⟨hsound.owner, hsound.awaits⟩ hat.active)
    (fun hl => hl.setSched ((hl.ready t).erase g) (hl.woken t) (hl.free t))
    (fun t' ht => setSched_pc ht) rfl fun h => by
      change Waits (s.fiber g).state at h
      simp [Waits, hstate] at h
  have hd := htaken.setFiber (.run t) { s.fiber g with state := .running, homeSched := some t } hu
    (by simp) trivial trivial
    ⟨.inr (.inl rfl), ⟨hsound.1, ⟨hsound.2.1, hsound.2.2⟩, hsound.3⟩, rfl⟩ hat.active
    fun h => by simp [Waits] at h
  refine ⟨_, _, hd.inv hi ?_ (fun f hf => ?_) (rising_of_quiet hloop rfl)⟩
  · show PcOk _ _ _ t ((s.setSched t _).sched t).pc
    rw [setSched_sched]
    exact update_self _ _ _
  · change f ∈ ((s.setSched t _).sched t).pc.hands at hf
    rw [setSched_sched] at hf
    rw [mem_singleton.mp hf]
    exact hu

/-- A fiber of the wake list becomes ready, or returns to its strand. -/
theorem good_drain {rest : List F} (hlist : (s.sched t).wakeList = g :: rest) :
    Good ((s.setSched t { s.sched t with wakeList := rest }).routeWokenFiber t g) := by
  have htok : tok g = .woken t :=
    ((hi.core.at_tok g).woken t).mp (by rw [hlist]; exact mem_cons_self)
  have hat := hi.at_tok htok
  obtain ⟨hlive, hsound, htodo⟩ := hat.fits
  have hu : s.Untouched t g := hi.untouched_of_tok (by rw [htok]; rfl)
  have hnodup := hi.core.lists.woken t
  rw [hlist, nodup_cons] at hnodup
  have hstart := hi.start t htok
  have hd := hstart.go (s.setSched t { s.sched t with wakeList := rest }) (.moving none) hu
    nofun
    (fun f hf => .setSched .rfl (by rw [hlist, mem_cons]; exact (or_iff_right hf).symm) .rfl)
    (fun hat => hat.setSched ((hat.ready t).trans (by simp)) (by simp [hnodup.1])
      ((hat.free t).trans (by simp)) (fun t' ht => by simp [Ne.symm ht]) (by simp)
      ⟨hsound.owner, hsound.awaits⟩ nofun)
    (fun hl => hl.setSched (hl.ready t) hnodup.2 (hl.free t))
    (fun t' ht => setSched_pc ht) rfl fun h => absurd h hlive.not_waits
  have hpc : ((s.setSched t { s.sched t with wakeList := rest }).sched t).pc = .loop := by
    rw [setSched_sched]
    exact hloop
  generalize hs : s.setSched t { s.sched t with wakeList := rest } = s₁ at hd hpc
  have hfiber : s₁.fiber = s.fiber := by rw [← hs]; rfl
  have hr : Returns s tok loc t s₁ tok g :=
    ⟨hi, hd, hu, by rw [hfiber]; exact .inl hlive, by rw [hfiber]; exact hsound⟩
  have hready : ∀ s₂ : State F S T, (s₂.sched t).pc = .loop →
      ((s₂.makeReady t g).sched t).pc = .loop := by
    intro s₂ h
    rw [State.makeReady, setSched_sched]
    exact h
  rw [State.routeWokenFiber]
  split
  · cases hhome : (s₁.fiber g).homeStrand with
    | none => exact (hr.ready hhome (by rw [hfiber]; exact htodo)).stay hi hloop (hready _ hpc)
    | some r =>
      dsimp only
      by_cases hfree : (s₁.strand r).active = none
      · rw [Strand.enter_of_free hfree]
        dsimp only
        split
        · exact (hr.hand hhome hfree).land_one hi hu (.post g r false)
            ⟨update_self _ _ _, hr.strandOf hhome⟩ rfl
            (rising_of_quiet hloop rfl)
        · exact (hr.ready_enter hhome hfree).stay hi hloop (hready _ hpc)
      · rw [Strand.enter_of_busy hfree]
        exact (hr.wait hhome).stay hi hloop hpc
  · refine (hd.retok .idle hu nofun trivial trivial ?_ (fun _ h => h.elim)
      hd.asleep_moving).stay hi hloop hpc
    rw [hfiber]
    exact ⟨hlive.not_waits, hsound.awaits⟩

omit [DecidableEq F] [DecidableEq S] in
/-- A fiber whose timer or file descriptor is due is resumed. -/
theorem good_poll (hu : s.Untouched t g) (hwaits : Waits (s.fiber g).state) :
    Good (s.goto t (.resume g)) := by
  -- nobody brings the fiber back: another scheduler would have it in its hands, and this one is
  -- idle
  have htok : tok g = .blocked := by
    refine (hi.asleep g hwaits).resolve_right fun ⟨t', h⟩ => ?_
    rw [hu t' (rising_subset_hands h), hloop] at h
    cases h
  refine (hi.during t).land hi (.resume g) htok (fun f hf => ?_)
    (rising_of_quiet hloop rfl)
  rw [mem_singleton.mp hf]
  exact hu

omit [DecidableEq F] in
/-- A strand is pulled from the reactor. -/
theorem good_pull {rest : List S} (hqueue : s.readyStrands = r :: rest) :
    Good ({ s with readyStrands := rest }.goto t (.pulled r)) := by
  have hloc : loc r = .queued :=
    (hi.core.posted.queue r).mp (by rw [hqueue]; exact mem_cons_self)
  have hnodup := hi.core.posted.nodup
  rw [hqueue, nodup_cons] at hnodup
  have hd := (hi.during t).setLoc (r := r) rest (.pulled t) (fun t' _ => by rw [hloc]; nofun)
    hnodup.2 (by simp [hnodup.1]) (fun q hq => by rw [hqueue]; simp [hq])
    fun _ => hi.core.posted.active r (by rw [hloc]; nofun)
  exact hd.land hi (.pulled r) (update_self _ _ _) nofun
    (rising_of_quiet hloop rfl)

end

omit [DecidableEq F] [DecidableEq S] [DecidableEq T] in
/-- A fiber without an owner does not exist yet. -/
theorem Inv.idle_of_owner (howner : (s.fiber g).owner = none) : tok g = .idle := by
  cases hk : tok g with
  | idle => rfl
  | free t' | done t' => exact absurd howner (hi.at_tok hk).fits.2.2
  | run t' | woken t' | blocked | posted q | waits q =>
    exact absurd howner (hi.at_tok hk).fits.2.1.owner
  | moves t' q => exact absurd howner (hi.at_tok hk).fits.2.2.1
  | ready t' | hand t' => exact absurd howner (hi.at_tok hk).fits.2.owner
  | awaits t' => exact absurd howner (hi.at_tok hk).fits.2.2.2.1
  | moving home => exact absurd howner (hi.at_tok hk).fits.1

omit [DecidableEq S] in
/-- A fiber that is not in use is taken, with a new record. -/
theorem Inv.fresh {x : Record S T} (htok : tok g = .free t ∨ tok g = .idle)
    (howner : x.owner ≠ none) (hawaits : x.awaits = false) (hstate : ¬ Waits x.state) :
    During s tok loc t
      ((s.setFiber g x).setSched t { s.sched t with free := (s.sched t).free.erase g })
      (update tok g (.moving none)) loc := by
  have hat := hi.core.at_tok g
  have hu : s.Untouched t g := hi.untouched_of_tok
    (by rcases htok with h | h <;> rw [h] <;> trivial)
  have hlists : Lists (s.setFiber g x) := hi.core.lists.setFiber
  refine (hi.during t).move hu (fun q h => ?_) (fun f hf => ?_) ?_
    (hlists.setSched (hlists.ready t) (hlists.woken t) ((hlists.free t).erase g))
    (fun t' ht => setSched_pc ht) rfl fun h => ?_
  · rcases htok with h' | h' <;> exact nomatch h'.symm.trans h
  · exact (Same.setFiber x hf).trans (.setSched .rfl .rfl (mem_erase_of_ne hf))
  · refine ⟨?_, ?_, ?_, ?_, fun q => (hat.waits q).trans ?_, nofun⟩
    · show ((s.setFiber g x).fiber g).owner ≠ none ∧ ((s.setFiber g x).fiber g).awaits = false
      rw [setFiber_fiber]
      exact ⟨howner, hawaits⟩
    · refine forall_setSched (P := fun t y => g ∈ y.ready ↔ Tok.moving none = .ready t) ?_
        fun t' _ => ?_
      all_goals
        refine (hat.ready _).trans ?_
        rcases htok with h | h <;> simp [h]
    · refine forall_setSched (P := fun t y => g ∈ y.wakeList ↔ Tok.moving none = .woken t) ?_
        fun t' _ => ?_
      all_goals
        refine (hat.woken _).trans ?_
        rcases htok with h | h <;> simp [h]
    · refine forall_setSched (P := fun t y => g ∈ y.free ↔ Tok.moving none = .free t) ?_
        fun t' ht => ?_
      · simp [(hi.core.lists.free t).not_mem_erase]
      · refine (hat.free t').trans ?_
        rcases htok with h | h <;> simp [h, Ne.symm ht]
    · rcases htok with h | h <;> simp [h]
  · change Waits ((s.setFiber g x).fiber g).state at h
    rw [setFiber_fiber] at h
    exact absurd h hstate

omit [DecidableEq S] in
/-- A fiber is spawned or posted. -/
theorem good_spawn {todo : Todo S} (hcan : s.CanSpawn t g) (htodo : ∀ q, todo ≠ .home q) :
    Good (s.spawn t g todo) := by
  have htok : tok g = .free t ∨ tok g = .idle :=
    hcan.2.imp ((hi.core.at_tok g).free t).mp hi.idle_of_owner
  have hu : s.Untouched t g := hi.untouched_of_tok
    (by rcases htok with h | h <;> rw [h] <;> trivial)
  let x : Record S T := ⟨⟨.ready, none, 1, todo, [], false⟩, some t,
    if g ∈ (s.sched t).free then (s.fiber g).owner else some t⟩
  have howner : x.owner ≠ none := by
    dsimp only [x]
    split
    next h => exact (hi.at_tok (((hi.core.at_tok g).free t).mp h)).fits.2.2
    · simp
  have hstrand : x.strandOf = none := by
    cases todo with
    | run | enter q => rfl
    | home q => exact absurd rfl (htodo q)
  have hfresh := hi.fresh (x := x) htok howner rfl (by simp [Waits, x])
  have hd := hfresh.makeReady hu ?_ ?_
  · have hspawn : s.spawn t g todo = State.makeReady ((s.setFiber g x).setSched t
        { s.sched t with free := (s.sched t).free.erase g }) t g := by
      simp [x, State.spawn, State.makeReady, State.setState, State.setFiber, State.setSched]
    rw [← hspawn] at hd
    have hpc : ((s.spawn t g todo).sched t).pc = (s.sched t).pc := by
      rw [State.spawn, setSched_sched]
    refine ⟨_, _, hd.inv hi ?_ (fun f hf => ?_) ?_⟩
    · rw [hpc]
      rcases hcan.1 with h | ⟨f, h⟩
      · rw [h]
        trivial
      · have hf : tok f = .run t := hi.pc h
        have hne : f ≠ g := by
          rintro rfl
          rcases htok with h' | h' <;> cases h'.symm.trans hf
        rw [h]
        exact (update_of_ne hne _ _).trans hf
    · rw [hpc] at hf
      exact hi.untouched hf
    · rcases hcan.1 with h | ⟨f, h⟩ <;> exact rising_of_quiet h rfl
  · show Sound ((s.setFiber g _).fiber g)
    rw [setFiber_fiber]
    exact ⟨rfl, ⟨fun _ => rfl, trivial⟩, howner⟩
  · show ∀ q, ((s.setFiber g _).fiber g).strandOf = some q → none = some q
    rw [setFiber_fiber]
    exact fun q h => hstrand.symm.trans h

end

end

end Reactor

end PsiServe.Fiber
