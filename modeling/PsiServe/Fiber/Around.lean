import PsiServe.Fiber.Calls

/-!
# The code of a scheduler around a fiber

What a scheduler of a reactor does in a call and after a fiber was suspended, up to the end of the
iteration of its run loop, keeps the tokens in order.
-/

namespace PsiServe.Fiber

open Base List Function Option

namespace Reactor

open Scheduler (Todo FiberRecord Strand Call Linked Whole)

variable {F S T : Type}

/-! ### The code around a fiber -/

section

variable {s s' : State F S T} {tok : F → Tok S T} {loc : S → StrandTok T} {t : T} {f : F} {r : S}
  {p : Pc F S}

/-- The tokens of the fibers in the hands of a scheduler. -/
theorem Inv.pc (hi : Inv s tok loc) (hpc : (s.sched t).pc = p) : PcOk s tok loc t p :=
  hpc ▸ hi.pcs t

private theorem Inv.untouched_of_pc (hi : Inv s tok loc) (hpc : (s.sched t).pc = p)
    (hf : f ∈ p.hands) : s.Untouched t f :=
  hi.untouched (hpc ▸ hf)

private theorem Rests.off (h : Rests tok t f) (x : Record S T) (q : S) : ¬ Holds x (tok f) q := by
  rcases h with h | h | h | h <;> rw [h] <;> exact fun h => h

private theorem Rests.ne_waits (h : Rests tok t f) (q : S) : tok f ≠ .waits q := by
  rcases h with h | h | h | h <;> rw [h] <;> nofun

/-- A fiber that comes back to the run loop finished has the token for it. -/
theorem Inv.done_of_recyclable (hi : Inv s tok loc)
    (h : Parks s tok t f ∨ Rests tok t f ∨ tok f = .ready t)
    (hstate : (s.fiber f).state = .recyclable) : tok f = .done t := by
  have hlive : ¬ Live (s.fiber f).state := by simp [Live, hstate]
  have hwaits : ¬ Waits (s.fiber f).state := by simp [Waits, hstate]
  rcases h with (h | h | ⟨r, h, -⟩) | (h | h | h | h) | h
  · exact absurd (hi.at_tok h).fits.1 hlive
  · exact absurd (hi.at_tok h).fits.1 hlive
  · exact (hi.at_tok h).fits.1.elim (absurd · hlive) (absurd · hwaits)
  · exact absurd (hi.at_tok h).fits.1 hlive
  · exact absurd (hi.at_tok h).fits.1 hlive
  · exact absurd (hi.at_tok h).fits.1 hwaits
  · exact h
  · cases hstate.symm.trans (hi.at_tok h).fits.1

end

section

variable [DecidableEq F] [DecidableEq S] [DecidableEq T] {s s' : State F S T} {tok : F → Tok S T}
  {loc : S → StrandTok T} {t : T} {f g : F} {r : S} {blocked : Bool}

omit [DecidableEq S] in
/-- The end of `strand::enqueue`. -/
theorem good_posted {s₁ : State F S T} {loc₁ : S → StrandTok T}
    (hd : During s tok loc t s₁ (update tok g (.posted r)) loc₁) (hi : Inv s tok loc)
    (hu : s.Untouched t g) (hrising : ∀ f ∈ (s.sched t).pc.rising, f = g ∧ blocked = true) :
    Good (s₁.posted t g blocked) := by
  cases blocked with
  | false =>
    refine hd.land hi .loop trivial nofun fun f hf => ?_
    exact nomatch (hrising f hf).2
  | true =>
    refine hd.land_one hi hu (.settle g) (.inl ⟨r, update_self _ _ _⟩) rfl fun f hf _ => ?_
    rw [(hrising f hf).1]
    exact mem_cons_self

omit [DecidableEq F] [DecidableEq S] in
private theorem rising_post
    (h : f ∈ (Pc.post g r blocked).rising ∨ f ∈ (Pc.push g r blocked).rising) :
    f = g ∧ blocked = true := by
  cases blocked with
  | false => exact h.elim nofun nofun
  | true => exact ⟨mem_singleton.mp (h.elim id id), rfl⟩

/-- A fiber comes back to a scheduler, off its strand if it has one. -/
structure Returns (s₀ : State F S T) (tok₀ : F → Tok S T) (loc₀ : S → StrandTok T) (t : T)
    (s : State F S T) (tok : F → Tok S T) (g : F) : Prop where
  inv : Inv s₀ tok₀ loc₀
  during : During s₀ tok₀ loc₀ t s (update tok g (.moving none)) loc₀
  untouched : s₀.Untouched t g
  alive : Alive (s.fiber g).state
  sound : Sound (s.fiber g)

variable {s₀ : State F S T} {tok₀ : F → Tok S T} {loc₀ : S → StrandTok T}

section

variable (hr : Returns s₀ tok₀ loc₀ t s tok g)

include hr

omit [DecidableEq S] in
/-- It goes to the ready queue, without a strand. -/
theorem Returns.ready (hhome : (s.fiber g).homeStrand = none) (htodo : (s.fiber g).todo = .run) :
    During s₀ tok₀ loc₀ t (s.makeReady t g) (update tok g (.ready t)) loc₀ :=
  hr.during.makeReady hr.untouched hr.sound fun r h => by
    rw [strandOf_of_run htodo, hhome] at h
    cases h

section

variable (hhome : (s.fiber g).homeStrand = some r)

include hhome

omit [DecidableEq T] in
/-- A fiber that returns to a strand belongs to it. -/
theorem Returns.strandOf : (s.fiber g).strandOf = some r := by
  have htodo : (s.fiber g).todo = .run := by
    by_contra h
    exact nomatch (hr.sound.whole.home h).symm.trans hhome
  rw [strandOf_of_run htodo]
  exact hhome

/-- It is the active fiber of its strand, and goes to the ready queue. -/
theorem Returns.ready_enter (hfree : (s.strand r).active = none) :
    During s₀ tok₀ loc₀ t ((s.setStrand r { s.strand r with active := some g }).makeReady t g)
      (update tok g (.ready t)) loc₀ :=
  (hr.during.enter hr.untouched hfree).makeReady hr.untouched hr.sound fun _ h =>
    (hr.strandOf hhome).symm.trans h

omit [DecidableEq T] in
/-- It is the active fiber of its strand, before that is posted. -/
theorem Returns.hand (hfree : (s.strand r).active = none) :
    During s₀ tok₀ loc₀ t (s.setStrand r { s.strand r with active := some g })
      (update tok g (.hand t)) loc₀ := by
  have hd := hr.during.enter (r := r) hr.untouched hfree
  refine hd.retok (.hand t) hr.untouched nofun trivial trivial ⟨hr.alive, hr.sound⟩
    (fun q h => ?_) hd.asleep_moving
  rw [← some.inj ((hr.strandOf hhome).symm.trans h), setStrand_strand]

omit [DecidableEq T] in
/-- It waits for its strand. -/
theorem Returns.wait : During s₀ tok₀ loc₀ t (s.setStrand r { s.strand r with
        queue := (s.strand r).queue ++ [g], queued := (s.strand r).queued ++ [g] })
      (update tok g (.waits r)) loc₀ :=
  hr.during.wait hr.untouched ⟨hr.alive, hr.sound, hr.strandOf hhome⟩

end

end

section

variable (hi : Inv s tok loc)

include hi

omit [DecidableEq F] [DecidableEq S] in
/-- The scheduler goes on, and nothing else changes. -/
theorem Inv.good_goto (p : Pc F S) (hpc : PcOk (s.goto t p) tok loc t p)
    (hhands : ∀ f ∈ p.hands, f ∈ (s.sched t).pc.hands)
    (hrising : ∀ f ∈ (s.sched t).pc.rising, Waits (s.fiber f).state → f ∈ p.rising) :
    Good (s.goto t p) :=
  (hi.during t).land hi p hpc (fun f hf => hi.untouched (hhands f hf)) hrising

omit [DecidableEq S] in
private theorem good_promote {k : Pc F S} (hpc : (s.sched t).pc = .promote g k) :
    Good (((s.setFiber g { s.fiber g with homeSched := some t }).makeReady t g).goto t k) := by
  obtain ⟨htok, hnot, hk⟩ := hi.pc hpc
  have hu := hi.untouched_of_pc (f := g) hpc mem_cons_self
  have hat := hi.at_tok htok
  obtain ⟨-, hsound⟩ := hat.fits
  have hd := (hi.start t htok).setFiber (.moving (s.fiber g).strandOf)
    { s.fiber g with homeSched := some t } hu nofun trivial trivial ⟨hsound.owner, hsound.awaits⟩
    hat.active fun h => .inr ((hi.asleep g h).resolve_left (by rw [htok]; nofun))
  have hready := hd.makeReady hu (by rw [setFiber_fiber]; exact ⟨hsound.1, hsound.2, hsound.3⟩)
    (by rw [setFiber_fiber]; exact fun _ h => h)
  refine hready.land hi k (hk.kept (fun f hf => ?_) fun _ h => h) (fun f hf => ?_)
    (rising_of_quiet hpc rfl)
  · have hne : f ≠ g := fun h => hnot (h ▸ hf)
    exact ⟨update_of_ne hne _ _,
      (update_of_ne hne _ _).trans (update_of_ne hne _ _), fun _ h => h⟩
  · exact hi.untouched_of_pc hpc (mem_cons_of_mem _ hf)

private theorem good_enter {yields : Bool} (hpc : (s.sched t).pc = .enter f r yields)
    (hstep : s.advance t = some s') : Good s' := by
  have htok : tok f = .moves t r := hi.pc hpc
  have hu := hi.untouched_of_pc (f := f) hpc mem_cons_self
  have hat := hi.at_tok htok
  obtain ⟨hlive, hawaits, howner, hsched, hhome, htodo, hlinked⟩ := hat.fits
  have hstart := hi.start t htok
  simp only [State.advance, hpc] at hstep
  by_cases hfree : (s.strand r).active = none
  · rw [Strand.enter_of_free hfree] at hstep
    have hmoving := (hstart.retok (.moving none) hu (by simp) trivial trivial ⟨howner, hawaits⟩
      (by simp [Holds]) fun h => absurd h hlive.not_waits).enter (r := r) hu hfree
    have hsound : Sound { s.fiber f with homeStrand := some r } := by
      refine ⟨hawaits, ⟨fun h => absurd htodo h, ?_⟩, howner⟩
      rw [FiberRecord.strandOf, htodo]
      exact hlinked
    have hstrand : FiberRecord.strandOf { (s.fiber f).toFiberRecord with homeStrand := some r } =
        some r := by rw [FiberRecord.strandOf, htodo]
    have hhold : ∀ q, some r = some q →
        ((s.setStrand r { s.strand r with active := some f }).strand q).active = some f := by
      intro q h
      rw [← some.inj h, setStrand_strand]
    dsimp only at hstep
    split at hstep
    · cases hstep
      have hd := hmoving.setFiber (.moving (some r)) { s.fiber f with homeStrand := some r } hu
        (by simp) trivial trivial ⟨howner, hawaits⟩ hhold fun h => absurd h hlive.not_waits
      refine (hd.makeReady hu (by rw [setFiber_fiber]; exact hsound) fun q h => ?_).land_one hi hu
        (.switch f) (.inr (.inr (update_self _ _ _))) rfl (rising_of_quiet hpc rfl)
      rw [setFiber_fiber] at h
      exact hstrand.symm.trans h
    · cases hstep
      refine (hmoving.setFiber (.run t) { s.fiber f with homeStrand := some r } hu
        (by simp) trivial trivial ⟨hlive, hsound, hsched⟩ (fun q h => ?_) fun h =>
        absurd h hlive.not_waits).land_one hi hu (.run f) (update_self _ _ _) rfl
        (rising_of_quiet hpc rfl)
      exact hhold q (hstrand.symm.trans h)
  · rw [Strand.enter_of_busy hfree] at hstep
    cases hstep
    have hd := hstart.setFiber (.moving none) { s.fiber f with todo := .home r } hu
      (by simp) trivial trivial ⟨howner, hawaits⟩ (by simp [Holds])
      fun h => absurd h hlive.not_waits
    refine (hd.wait (r := r) hu ?_).land_one hi hu (.park f)
      (.inr (.inr ⟨r, update_self _ _ _, ?_⟩)) rfl (rising_of_quiet hpc rfl)
    · rw [setFiber_fiber]
      exact ⟨.inl hlive, ⟨hawaits, ⟨fun _ => hhome, hlinked⟩, howner⟩, rfl⟩
    · show ((s.setFiber f { s.fiber f with todo := .home r }).fiber f).homeStrand = none
      rw [setFiber_fiber]
      exact hhome

omit [DecidableEq S] in
private theorem good_park (hpc : (s.sched t).pc = .park f) :
    Good ((s.setState f .parked).goto t (.switch f)) := by
  have hparks : Parks s tok t f := hi.pc hpc
  have hfits := (hi.core.at_tok f).fits
  have hd := (hi.during t).setRecord (f := f) { s.fiber f with state := .parked }
    (hi.untouched_of_pc hpc mem_cons_self) ?_ ?_ fun h => by simp [Waits] at h
  · refine hd.land hi (.switch f) (.inl ?_) (fun g hg => hi.untouched_of_pc hpc hg)
      (rising_of_quiet hpc rfl)
    rcases hparks with h | h | ⟨r, h, hhome⟩
    · exact .inl h
    · exact .inr (.inl h)
    · refine .inr (.inr ⟨r, h, ?_⟩)
      show ((s.setFiber f { s.fiber f with state := .parked }).fiber f).homeStrand = none
      rw [setFiber_fiber]
      exact hhome
  · rcases hparks with h | h | ⟨r, h, -⟩
    · rw [h] at hfits ⊢
      exact ⟨.inr (.inr rfl), hfits.2.1, ⟨hfits.2.2.1.1, hfits.2.2.1.2⟩, hfits.2.2.2⟩
    · rw [h] at hfits ⊢
      exact ⟨.inr (.inr rfl), ⟨hfits.2.1.1, ⟨hfits.2.1.2.1, hfits.2.1.2.2⟩, hfits.2.1.3⟩, hfits.2.2⟩
    · rw [h] at hfits ⊢
      exact ⟨.inl (.inr (.inr rfl)), ⟨hfits.2.1.1, ⟨hfits.2.1.2.1, hfits.2.1.2.2⟩, hfits.2.1.3⟩,
        hfits.2.2⟩
  · rcases hparks with h | h | ⟨r, h, -⟩ <;> rw [h] <;> exact fun _ h => h

omit [DecidableEq S] in
private theorem good_settle (hpc : (s.sched t).pc = .settle g) :
    Good ((s.setState g .parked).goto t .loop) := by
  have htok : (∃ r, tok g = .posted r) ∨ ∃ r, tok g = .waits r := hi.pc hpc
  have hfits := (hi.core.at_tok g).fits
  have hd := (hi.during t).setRecord (f := g) { s.fiber g with state := .parked }
    (hi.untouched_of_pc hpc mem_cons_self) ?_ ?_ fun h => by simp [Waits] at h
  · refine hd.land hi .loop trivial (by simp [Pc.hands]) fun f hf hwaits => ?_
    rw [hpc, Pc.rising, mem_singleton] at hf
    subst hf
    simp [Waits] at hwaits
  · rcases htok with ⟨r, h⟩ | ⟨r, h⟩ <;> rw [h] at hfits ⊢ <;>
      exact ⟨.inl (.inr (.inr rfl)), ⟨hfits.2.1.1, ⟨hfits.2.1.2.1, hfits.2.1.2.2⟩, hfits.2.1.3⟩,
        hfits.2.2⟩
  · rcases htok with ⟨r, h⟩ | ⟨r, h⟩ <;> rw [h] <;> exact fun _ h => h

omit [DecidableEq S] in
private theorem good_recycle (hpc : (s.sched t).pc = .recycle f)
    (hstate : (s.fiber f).state = .recyclable) :
    Good (s.setSched t { s.sched t with free := (s.sched t).free ++ [f], pc := .loop }) := by
  have htok := hi.done_of_recyclable (hi.pc hpc) hstate
  have hu := hi.untouched_of_pc (f := f) hpc mem_cons_self
  have hat := hi.at_tok htok
  have hstart := hi.start t htok
  have hd := hstart.go
    (s.setSched t { s.sched t with free := (s.sched t).free ++ [f], pc := .loop })
    (.free t) hu nofun
    (fun g hg => .setSched .rfl .rfl (mem_append_singleton_of_ne hg))
    (fun hat => hat.setSched ((hat.ready t).trans (by simp)) ((hat.woken t).trans (by simp))
      (by simp) (fun t' ht => by simp [Ne.symm ht]) (by simp) hat.fits fun _ h => h.elim)
    (fun hl => hl.setSched (hl.ready t) (hl.woken t)
      (nodup_append_singleton (hl.free t) fun h => nomatch (hat.free t).mp h))
    (fun t' ht => setSched_pc ht) rfl fun h => by
      change Waits (s.fiber f).state at h
      simp [Waits, hstate] at h
  refine ⟨_, _, hd.inv hi ?_ (fun g hg => ?_) (rising_of_quiet hpc rfl)⟩
  · rw [setSched_sched]
    trivial
  · rw [setSched_sched] at hg
    cases hg

omit [DecidableEq S] [DecidableEq T] in
/-- The fiber in front of `maybe_post` counts as posted. -/
theorem Inv.toPosted (hu : s.Untouched t g) (htok : tok g = .hand t)
    (hstrand : (s.fiber g).strandOf = some r) :
    During s tok loc t s (update tok g (.posted r)) loc := by
  have hat := hi.at_tok htok
  have hstart := hi.start t htok
  exact hstart.retok (.posted r) hu nofun trivial trivial
    ⟨hat.fits.1, hat.fits.2, hstrand⟩ hat.active
    fun h => .inr ((hi.asleep g h).resolve_left (by rw [htok]; nofun))

private theorem good_post (hpc : (s.sched t).pc = .post g r blocked)
    (hstep : s.advance t = some s') : Good s' := by
  obtain ⟨htok, hstrand⟩ := hi.pc hpc
  have hu := hi.untouched_of_pc (f := g) hpc mem_cons_self
  have hrising : ∀ f ∈ (s.sched t).pc.rising, f = g ∧ blocked = true := by
    rw [hpc]
    exact fun f hf => rising_post (.inl hf)
  simp only [State.advance, hpc] at hstep
  split at hstep
  · cases hstep
    exact good_posted (hi.toPosted hu htok hstrand) hi hu hrising
  · cases hstep
    have hd := (hi.during t).setQueued (update s.queued r true)
    refine hd.land hi (.push g r blocked) ⟨htok, hstrand⟩ (fun f hf => ?_) fun f hf _ => ?_
    · exact hi.untouched_of_pc hpc hf
    · obtain ⟨rfl, rfl⟩ := hrising f hf
      exact mem_cons_self

private theorem good_push (hpc : (s.sched t).pc = .push g r blocked) :
    Good ({ s with readyStrands := r :: s.readyStrands }.posted t g blocked) := by
  obtain ⟨htok, hstrand⟩ := hi.pc hpc
  have hu := hi.untouched_of_pc (f := g) hpc mem_cons_self
  have hat := hi.at_tok htok
  have hactive := hat.active r hstrand
  -- a strand that is already in the queue would have another active fiber
  have hidle : loc r = .idle := by
    by_contra hloc
    obtain ⟨f, hf, hposted⟩ := hi.core.posted.active r hloc
    rw [hactive] at hf
    rw [← some.inj hf, htok] at hposted
    cases hposted
  have hnot : r ∉ s.readyStrands := by
    rw [hi.core.posted.queue, hidle]
    nofun
  have hd := (hi.toPosted hu htok hstrand).setLoc (r := r) (r :: s.readyStrands) .queued
    (fun t' _ => by rw [hidle]; nofun) (nodup_cons.mpr ⟨hnot, hi.core.posted.nodup⟩)
    (by simp) (fun q hq => by simp [hq]) fun _ => ⟨g, hactive, update_self _ _ _⟩
  refine good_posted hd hi hu ?_
  rw [hpc]
  exact fun f hf => rising_post (.inr hf)

private theorem good_take (hpc : (s.sched t).pc = .take r)
    (hok : ∀ g, (s.strand r).active = some g → s.Untouched t g) (hstep : s.advance t = some s') :
    Good s' := by
  have hloc : loc r = .pulled t := hi.pc hpc
  obtain ⟨g, hactive, htok⟩ := hi.core.posted.active r (by rw [hloc]; nofun)
  have hu := hok g hactive
  have hat := hi.at_tok htok
  obtain ⟨-, hsound, hstrand⟩ := hat.fits
  simp only [State.advance, hpc, hactive] at hstep
  cases hstep
  have hnot : r ∉ s.readyStrands := by
    rw [hi.core.posted.queue, hloc]
    nofun
  have hpulled := (hi.during t).setLoc (r := r) s.readyStrands .idle
    (fun t' ht h => ht (StrandTok.pulled.inj (hloc.symm.trans h)).symm) hi.core.posted.nodup
    (by simp [hnot]) (fun q _ => .rfl) fun h => absurd rfl h
  have hposted : During s tok loc t s (update tok g (.posted r))
      (update loc r .idle) := by
    rw [← htok, update_eq_self]
    exact hpulled
  have hd := hposted.setFiber (.moving (some r)) { s.fiber g with homeSched := some t } hu
    (fun q h => .inr (by rw [← Tok.posted.inj h, update_self])) trivial trivial
    ⟨hsound.owner, hsound.awaits⟩ (fun q h => some.inj h ▸ hactive)
    fun h => .inr ((hi.asleep g h).resolve_left (by rw [htok]; nofun))
  refine (hd.makeReady hu ?_ ?_).land hi .loop trivial nofun
    (rising_of_quiet hpc rfl)
  · rw [setFiber_fiber]
    exact ⟨hsound.1, hsound.2, hsound.3⟩
  · rw [setFiber_fiber]
    exact fun q h => hstrand.symm.trans h

private theorem good_resume (hpc : (s.sched t).pc = .resume g) : Good
    (s.resumeBlockedFiber t g) := by
  have htok : tok g = .blocked := hi.pc hpc
  have hu := hi.untouched_of_pc (f := g) hpc mem_cons_self
  have hat := hi.at_tok htok
  obtain ⟨hwaits, hsound, htodo⟩ := hat.fits
  have hrise : g ∈ (s.sched t).pc.rising := by rw [hpc]; exact mem_cons_self
  have honly : ∀ f ∈ (s.sched t).pc.rising, f = g := by
    rw [hpc]
    exact fun f hf => mem_singleton.mp hf
  have hstart := hi.start t htok
  have hr : Returns s tok loc t s tok g :=
    ⟨hi, hstart.retok (.moving none) hu (by simp) trivial trivial
      ⟨hsound.owner, hsound.awaits⟩ (by simp [Holds]) fun _ => .inr ⟨t, hrise⟩, hu, .inr hwaits,
      hsound⟩
  -- in a ready queue the fiber is not asleep any more
  have hawake : ∀ s₁ : State F S T, ∀ f ∈ (s.sched t).pc.rising,
      Waits ((s₁.makeReady t g).fiber f).state → f ∈ (Pc.loop : Pc F S).rising := by
    intro s₁ f hf h
    rw [honly f hf] at h
    change Waits ((s₁.setFiber g { s₁.fiber g with state := .ready }).fiber g).state at h
    simp [Waits] at h
  rw [State.resumeBlockedFiber]
  cases hhome : (s.fiber g).homeStrand with
  | none => exact (hr.ready hhome htodo).land hi .loop trivial (by simp [Pc.hands]) (hawake s)
  | some r =>
    dsimp only
    by_cases hfree : (s.strand r).active = none
    · rw [Strand.enter_of_free hfree]
      dsimp only
      split
      · refine (hr.hand hhome hfree).land_one hi hu (.post g r true)
          ⟨update_self _ _ _, hr.strandOf hhome⟩ rfl fun f hf _ => ?_
        rw [honly f hf]
        exact mem_cons_self
      · exact (hr.ready_enter hhome hfree).land hi .loop trivial (by simp [Pc.hands]) (hawake _)
    · rw [Strand.enter_of_busy hfree]
      refine (hr.wait hhome).land_one hi hu (.settle g) (.inr ⟨r, update_self _ _ _⟩) rfl
        fun f hf _ => ?_
      rw [honly f hf]
      exact mem_cons_self

/-- The next step of a scheduler keeps the tokens in order. -/
theorem good_advance (hok : Orderly s (.advance t)) (hstep : s.advance t = some s') : Good s' := by
  cases hpc : (s.sched t).pc with
  | loop | run f =>
    rw [State.advance, hpc] at hstep
    cases hstep
  | promote g k =>
    rw [State.advance, hpc] at hstep
    exact some.inj hstep ▸ good_promote hi hpc
  | enter f r yields => exact good_enter hi hpc hstep
  | park f =>
    rw [State.advance, hpc] at hstep
    exact some.inj hstep ▸ good_park hi hpc
  | switch f =>
    rw [State.advance, hpc] at hstep
    refine some.inj hstep ▸ hi.good_goto (.check f) (hi.pc hpc) (fun g hg => ?_)
      (rising_of_quiet hpc rfl)
    rw [hpc]
    exact hg
  | check f =>
    have hrecycle : Good (s.goto t (.recycle f)) :=
      hi.good_goto (.recycle f) (hi.pc hpc) (fun g hg => by rw [hpc]; exact hg)
        (rising_of_quiet hpc rfl)
    simp only [State.advance, hpc] at hstep
    split at hstep
    next r hhome =>
      split at hstep
      next h =>
        -- in a state that gives its strand up it is off its strand
        have hrests : Rests tok t f := by
          rcases hi.pc hpc with (h | h | ⟨q, -, h⟩) | hrests | hready
          · exact .inl h
          · exact .inr (.inl h)
          · exact nomatch h.symm.trans hhome
          · exact hrests
          · rw [(hi.at_tok hready).fits.1] at h
            simp at h
        refine some.inj hstep ▸ hi.good_goto (.release f r) ⟨hrests, h.1⟩ (fun g hg => ?_)
          (rising_of_quiet hpc rfl)
        rw [hpc]
        exact hg
      · exact some.inj hstep ▸ hrecycle
    · exact some.inj hstep ▸ hrecycle
  | release f r =>
    obtain ⟨hrests, hactive⟩ : Rests tok t f ∧ (s.strand r).active = some f := hi.pc hpc
    rw [State.advance, hpc] at hstep
    refine some.inj hstep ▸ (hi.start t rfl).release hi
      (hi.untouched_of_pc hpc mem_cons_self) hactive hrests.ne_waits (hrests.off (s.fiber f))
      (hok.1 f r hpc) rfl (fun _ tok' h => .inr (.inl ?_)) (by rw [hpc]; rfl)
    rw [Rests, h]
    exact hrests
  | recycle f =>
    simp only [State.advance, hpc] at hstep
    split at hstep
    next hstate => exact some.inj hstep ▸ good_recycle hi hpc hstate
    · exact some.inj hstep ▸ hi.good_goto .loop trivial (by simp [Pc.hands])
        (rising_of_quiet hpc rfl)
  | resume f =>
    rw [State.advance, hpc] at hstep
    exact some.inj hstep ▸ good_resume hi hpc
  | post f r blocked => exact good_post hi hpc hstep
  | push f r blocked =>
    rw [State.advance, hpc] at hstep
    exact some.inj hstep ▸ good_push hi hpc
  | settle f =>
    rw [State.advance, hpc] at hstep
    exact some.inj hstep ▸ good_settle hi hpc
  | pulled r =>
    rw [State.advance, hpc] at hstep
    refine some.inj hstep ▸ ((hi.during t).setQueued _).land hi (.take r) ?_
      (by simp [Pc.hands]) (rising_of_quiet hpc rfl)
    exact hi.pc hpc
  | take r => exact good_take hi hpc (fun g hg => hok.2 r g hpc hg) hstep

end

end

end Reactor

end PsiServe.Fiber
