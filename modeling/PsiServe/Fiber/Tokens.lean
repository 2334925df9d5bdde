import PsiServe.Fiber.Placement
import PsiServe.Fiber.Reactor

/-!
# Whose turn it is to deal with a fiber

In a run in which no scheduler takes a fiber that another one still deals with, every fiber has one
token: it is in a list of one scheduler, in the queue of a strand, on a strand that was posted, or
in the hands of a scheduler. Where a scheduler stands in its code says which tokens the fibers in
its hands can have, and only its own steps, and a wake, change them.
-/

namespace PsiServe.Fiber

open Base List Function

namespace Reactor

open Scheduler (Todo FiberRecord Strand Call Linked Whole)

variable {F S T : Type} {f g : F} {p : Pc F S} {s s' s'' s₀ : State F S T} {t : T} {r : S}

/-! ### Tokens -/

/-- Where a fiber is. -/
inductive Tok (S T : Type) where
  /-- It does not exist yet, or its wake was dropped. -/
  | idle
  | free (t : T)
  /-- Its entry has returned. -/
  | done (t : T)
  | run (t : T)
  /-- Between two strands, on the way to one. -/
  | moves (t : T) (r : S)
  | ready (t : T)
  /-- The active fiber of a strand, before it is scheduled. -/
  | hand (t : T)
  /-- The active fiber of a strand that was posted. -/
  | posted (r : S)
  /-- Its program has said that it parks, and nobody has called `wake`. -/
  | awaits (t : T)
  | woken (t : T)
  | blocked
  | waits (r : S)
  /-- In the middle of a step, on a strand or not. -/
  | moving (home : Option S)

/-- Where a strand is on its way through the reactor's queue. -/
inductive StrandTok (T : Type) where
  | idle
  | queued
  | pulled (t : T)

def Live (st : FiberState) : Prop := st = .ready ∨ st = .running ∨ st = .parked

def Waits (st : FiberState) : Prop := st = .sleeping ∨ st = .blocked

/-- Not finished. A fiber that was blocked keeps its state until it is in its strand again. -/
def Alive (st : FiberState) : Prop := Live st ∨ Waits st

/-- A fiber between two calls, that nobody has to wake. -/
structure Sound (x : Record S T) : Prop where
  awaits : x.awaits = false
  whole : Whole x.toFiberRecord
  owner : x.owner ≠ none

/-- The record of a fiber fits its token. -/
def Fits (x : Record S T) : Tok S T → Prop
  | .idle => ¬ Waits x.state ∧ x.awaits = false
  | .free _ | .done _ => x.state = .recyclable ∧ x.awaits = false ∧ x.owner ≠ none
  | .run t => Live x.state ∧ Sound x ∧ x.homeSched = some t
  | .moves t r => Live x.state ∧ x.awaits = false ∧ x.owner ≠ none ∧ x.homeSched = some t ∧
    x.homeStrand = none ∧ x.todo = .run ∧ Linked (some r) x.frames
  | .ready _ => x.state = .ready ∧ Sound x
  | .woken _ => Live x.state ∧ Sound x ∧ x.todo = .run
  | .hand _ => Alive x.state ∧ Sound x
  | .posted r | .waits r => Alive x.state ∧ Sound x ∧ x.strandOf = some r
  | .awaits t => Live x.state ∧ x.homeSched = some t ∧ Whole x.toFiberRecord ∧ x.owner ≠ none ∧
    x.todo = .run
  | .blocked => Waits x.state ∧ Sound x ∧ x.todo = .run
  | .moving _ => x.owner ≠ none ∧ x.awaits = false

/-- A fiber with a token is the active one of a strand. -/
def Holds (x : Record S T) : Tok S T → S → Prop
  | .run _, r | .ready _, r | .hand _, r | .posted _, r => x.strandOf = some r
  | .moving home, r => home = some r
  | _, _ => False

structure AtTok (s : State F S T) (f : F) (k : Tok S T) : Prop where
  fits : Fits (s.fiber f) k
  ready : ∀ t, f ∈ (s.sched t).ready ↔ k = .ready t
  woken : ∀ t, f ∈ (s.sched t).wakeList ↔ k = .woken t
  free : ∀ t, f ∈ (s.sched t).free ↔ k = .free t
  waits : ∀ r, f ∈ (s.strand r).queue ↔ k = .waits r
  active : ∀ r, Holds (s.fiber f) k r → (s.strand r).active = some f

/-- No fiber is twice in a list. -/
structure Lists (s : State F S T) : Prop where
  ready : ∀ t, (s.sched t).ready.Nodup
  woken : ∀ t, (s.sched t).wakeList.Nodup
  free : ∀ t, (s.sched t).free.Nodup
  waits : ∀ r, (s.strand r).queue.Nodup

/-- A strand in the reactor's queue, or pulled from it, has an active fiber that was posted. -/
structure Posted (s : State F S T) (tok : F → Tok S T) (loc : S → StrandTok T) : Prop where
  queue : ∀ r, r ∈ s.readyStrands ↔ loc r = .queued
  nodup : s.readyStrands.Nodup
  active : ∀ r, loc r ≠ .idle → ∃ g, (s.strand r).active = some g ∧ tok g = .posted r

structure Core (s : State F S T) (tok : F → Tok S T) (loc : S → StrandTok T) : Prop where
  at_tok : ∀ f, AtTok s f (tok f)
  lists : Lists s
  posted : Posted s tok loc

/-! ### Where a scheduler stands -/

/-- The tokens of a fiber that parks. -/
def Parks (s : State F S T) (tok : F → Tok S T) (t : T) (f : F) : Prop :=
  tok f = .awaits t ∨ tok f = .woken t ∨ ∃ r, tok f = .waits r ∧ (s.fiber f).homeStrand = none

/-- The tokens of a fiber that is off its strand. -/
def Rests (tok : F → Tok S T) (t : T) (f : F) : Prop :=
  tok f = .awaits t ∨ tok f = .woken t ∨ tok f = .blocked ∨ tok f = .done t

/-- The tokens of the fibers in the hands of a scheduler. -/
def PcOk (s : State F S T) (tok : F → Tok S T) (loc : S → StrandTok T) (t : T) : Pc F S → Prop
  | .loop => True
  | .run f => tok f = .run t
  | .promote g k => tok g = .hand t ∧ g ∉ k.hands ∧ PcOk s tok loc t k
  | .enter f r _ => tok f = .moves t r
  | .park f => Parks s tok t f
  | .switch f | .check f | .recycle f => Parks s tok t f ∨ Rests tok t f ∨ tok f = .ready t
  | .release f r => Rests tok t f ∧ (s.strand r).active = some f
  | .resume g => tok g = .blocked
  | .post g r _ | .push g r _ => tok g = .hand t ∧ (s.fiber g).strandOf = some r
  | .settle g => (∃ r, tok g = .posted r) ∨ ∃ r, tok g = .waits r
  | .pulled r | .take r => loc r = .pulled t

/-- The fiber that a scheduler brings back from a timer or a file descriptor. -/
def Pc.rising : Pc F S → List F
  | .resume f | .post f _ true | .push f _ true | .settle f => [f]
  | _ => []

variable {tok tok' tok₀ : F → Tok S T} {loc loc₀ : S → StrandTok T} {k : Tok S T}

/-- A fiber that is brought back is in the hands of its scheduler. -/
theorem rising_subset_hands (hf : f ∈ p.rising) : f ∈ p.hands := by
  cases p with
  | resume g | settle g => exact hf
  | post g r blocked | push g r blocked =>
    cases blocked with
    | false => cases hf
    | true => exact hf
  | loop | run _ | promote _ _ | enter _ _ _ | park _ | switch _ | check _ | release _ _ | recycle _
  | pulled _ | take _ => cases hf

structure Inv (s : State F S T) (tok : F → Tok S T) (loc : S → StrandTok T) : Prop where
  core : Core s tok loc
  pcs : ∀ t, PcOk s tok loc t (s.sched t).pc
  asleep : ∀ f, Waits (s.fiber f).state → tok f = .blocked ∨ ∃ t, f ∈ (s.sched t).pc.rising
  apart : ∀ t t' f, f ∈ (s.sched t).pc.hands → f ∈ (s.sched t').pc.hands → t = t'

/-- The invariant holds at the start. -/
theorem inv_init (pooled : S → Bool) :
    Inv (init pooled : State F S T) (fun _ => .idle) (fun _ => .idle) := by
  refine ⟨⟨fun f => ?_, ?_, ?_⟩, fun t => trivial, fun f hf => ?_, nofun⟩
  · constructor <;> simp [init, Fits, Waits, Holds]
  · constructor <;> simp [init]
  · constructor <;> simp [init]
  · simp [init, Waits] at hf

/-- A fiber is where its token says. -/
theorem Inv.at_tok (hi : Inv s tok loc) (htok : tok f = k) : AtTok s f k :=
  htok ▸ hi.core.at_tok f

/-! ### What a step leaves as it is -/

/-- What the others see of a fiber. -/
structure Kept (s : State F S T) (tok : F → Tok S T) (s' : State F S T) (tok' : F → Tok S T)
    (f : F) : Prop where
  tok : tok' f = tok f
  fiber : s'.fiber f = s.fiber f
  active : ∀ r, (s.strand r).active = some f → (s'.strand r).active = some f

private theorem Kept.trans {tok'' : F → Tok S T} (h : Kept s tok s' tok' f)
    (h' : Kept s' tok' s'' tok'' f) : Kept s tok s'' tok'' f :=
  ⟨h'.tok.trans h.tok, h'.fiber.trans h.fiber, fun r hr => h'.active r (h.active r hr)⟩

private theorem Parks.kept (h : Parks s tok t f) (hk : Kept s tok s' tok' f) :
    Parks s' tok' t f := by
  rw [Parks, hk.tok, hk.fiber]
  exact h

private theorem Rests.kept (h : Rests tok t f) (hk : Kept s tok s' tok' f) : Rests tok' t f := by
  rw [Rests, hk.tok]
  exact h

/-- A scheduler whose fibers are left alone goes on as before. -/
theorem PcOk.kept {loc' : S → StrandTok T} (h : PcOk s tok loc t p)
    (hk : ∀ f ∈ p.hands, Kept s tok s' tok' f) (hloc : ∀ r, loc r = .pulled t → loc' r = .pulled t)
    : PcOk s' tok' loc' t p := by
  induction p with
  | loop => trivial
  | run f => exact (hk f mem_cons_self).tok.trans h
  | promote g k ih =>
    exact ⟨(hk g mem_cons_self).tok.trans h.1, h.2.1,
      ih h.2.2 (forall_mem_cons.mp hk).2⟩
  | enter f r yields => exact (hk f mem_cons_self).tok.trans h
  | resume g => exact (hk g mem_cons_self).tok.trans h
  | park f => exact Parks.kept h (hk f mem_cons_self)
  | switch f | check f | recycle f =>
    have hf := hk f mem_cons_self
    rcases h with h | h | h
    · exact .inl (h.kept hf)
    · exact .inr (.inl (h.kept hf))
    · exact .inr (.inr (hf.tok.trans h))
  | release f r =>
    have hf := hk f mem_cons_self
    exact ⟨h.1.kept hf, hf.active r h.2⟩
  | post g r blocked | push g r blocked =>
    have hg := hk g mem_cons_self
    exact ⟨hg.tok.trans h.1, by rw [hg.fiber]; exact h.2⟩
  | settle g =>
    show (∃ r, tok' g = .posted r) ∨ ∃ r, tok' g = .waits r
    rw [(hk g mem_cons_self).tok]
    exact h
  | pulled r | take r => exact hloc r h

/-- In the middle of a step of a scheduler: `s₀` is the state before. -/
structure During (s₀ : State F S T) (tok₀ : F → Tok S T) (loc₀ : S → StrandTok T) (t : T)
    (s : State F S T) (tok : F → Tok S T) (loc : S → StrandTok T) : Prop where
  core : Core s tok loc
  pc : ∀ t', t' ≠ t → (s.sched t').pc = (s₀.sched t').pc
  kept : ∀ f, ¬ s₀.Untouched t f → Kept s₀ tok₀ s tok f
  loc : ∀ t' r, t' ≠ t → loc₀ r = .pulled t' → loc r = .pulled t'
  asleep : ∀ f, Waits (s.fiber f).state → tok f = .blocked ∨ ∃ t', f ∈ (s₀.sched t').pc.rising

/-- Before a step nothing has changed. -/
theorem Inv.during (hi : Inv s tok loc) (t : T) : During s tok loc t s tok loc :=
  ⟨hi.core, fun _ _ => rfl, fun _ _ => ⟨rfl, rfl, fun _ h => h⟩, fun _ _ _ h => h, hi.asleep⟩

/-- The end of a step. -/
theorem During.inv (hd : During s₀ tok₀ loc₀ t s tok loc) (hi : Inv s₀ tok₀ loc₀)
    (hpc : PcOk s tok loc t (s.sched t).pc) (hhands : ∀ f ∈ (s.sched t).pc.hands, s₀.Untouched t f)
    (hrising : ∀ f ∈ (s₀.sched t).pc.rising, Waits (s.fiber f).state → f ∈ (s.sched t).pc.rising) :
    Inv s tok loc := by
  have hother : ∀ t' f, t' ≠ t → f ∈ (s.sched t').pc.hands → ¬ s₀.Untouched t f := by
    intro t' f ht hf hu
    rw [hd.pc t' ht] at hf
    exact ht (hu t' hf)
  refine ⟨hd.core, fun t' => ?_, fun f hf => ?_, fun t₁ t₂ f h₁ h₂ => ?_⟩
  · by_cases ht : t' = t
    · rw [ht]
      exact hpc
    · have hold := hi.pcs t'
      rw [← hd.pc t' ht] at hold
      exact hold.kept (fun f hf => hd.kept f (hother t' f ht hf)) fun r hr => hd.loc t' r ht hr
  · rcases hd.asleep f hf with h | ⟨t', h⟩
    · exact .inl h
    · by_cases ht : t' = t
      · rw [ht] at h
        exact .inr ⟨t, hrising f h hf⟩
      · rw [← hd.pc t' ht] at h
        exact .inr ⟨t', h⟩
  · by_cases ht₁ : t₁ = t
    · by_cases ht₂ : t₂ = t
      · rw [ht₁, ht₂]
      · rw [ht₁] at h₁
        exact absurd (hhands f h₁) (hother t₂ f ht₂ h₂)
    · by_cases ht₂ : t₂ = t
      · rw [ht₂] at h₂
        exact absurd (hhands f h₂) (hother t₁ f ht₁ h₁)
      · rw [hd.pc t₁ ht₁] at h₁
        rw [hd.pc t₂ ht₂] at h₂
        exact hi.apart t₁ t₂ f h₁ h₂

/-- The fibers in the hands of a scheduler are not in those of another one. -/
theorem Inv.untouched (hi : Inv s tok loc) (hf : f ∈ (s.sched t).pc.hands) : s.Untouched t f :=
  fun t' hf' => hi.apart t' t f hf' hf

/-! ### One fiber moves -/

/-- What the step of another fiber leaves as it is. -/
structure Same (s s' : State F S T) (g : F) : Prop where
  fiber : s'.fiber g = s.fiber g
  ready : ∀ t, g ∈ (s'.sched t).ready ↔ g ∈ (s.sched t).ready
  woken : ∀ t, g ∈ (s'.sched t).wakeList ↔ g ∈ (s.sched t).wakeList
  free : ∀ t, g ∈ (s'.sched t).free ↔ g ∈ (s.sched t).free
  waits : ∀ r, g ∈ (s'.strand r).queue ↔ g ∈ (s.strand r).queue
  active : ∀ r, (s.strand r).active = some g → (s'.strand r).active = some g

/-- Nothing changed of a fiber in two steps. -/
theorem Same.trans (h : Same s s' g) (h' : Same s' s'' g) : Same s s'' g :=
  ⟨h'.fiber.trans h.fiber, fun t => (h'.ready t).trans (h.ready t),
    fun t => (h'.woken t).trans (h.woken t), fun t => (h'.free t).trans (h.free t),
    fun r => (h'.waits r).trans (h.waits r), fun r hr => h'.active r (h.active r hr)⟩

private theorem AtTok.of_same (hat : AtTok s g k) (h : Same s s' g) : AtTok s' g k := by
  refine ⟨?_, fun t => (h.ready t).trans (hat.ready t), fun t => (h.woken t).trans (hat.woken t),
    fun t => (h.free t).trans (hat.free t), fun r => (h.waits r).trans (hat.waits r),
    fun r hr => h.active r (hat.active r ?_)⟩
  · rw [h.fiber]
    exact hat.fits
  · rw [h.fiber] at hr
    exact hr

section

variable [DecidableEq F] {k : Tok S T}

/-- A part of a step that is about one fiber; on a strand that is in the reactor's queue, it stays
posted. -/
theorem During.move (hd : During s₀ tok₀ loc₀ t s tok loc) (hu : s₀.Untouched t f)
    (hposted : ∀ r, tok f = .posted r → k = .posted r ∨ loc r = .idle)
    (hsame : ∀ g, g ≠ f → Same s s' g) (hat : AtTok s' f k) (hlists : Lists s')
    (hpc : ∀ t', t' ≠ t → (s'.sched t').pc = (s.sched t').pc)
    (hqueue : s'.readyStrands = s.readyStrands)
    (hasleep : Waits (s'.fiber f).state → k = .blocked ∨ ∃ t', f ∈ (s₀.sched t').pc.rising) :
    During s₀ tok₀ loc₀ t s' (update tok f k) loc := by
  have hkept : ∀ g, g ≠ f → Kept s tok s' (update tok f k) g := fun g hg =>
    ⟨update_of_ne hg _ _, (hsame g hg).fiber, (hsame g hg).active⟩
  refine ⟨⟨(forall_update_iff tok _).mpr ⟨hat, fun g hg => ?_⟩, hlists, ?_⟩,
    fun t' ht => (hpc t' ht).trans (hd.pc t' ht), fun g hg => ?_, hd.loc, fun g hg => ?_⟩
  · exact (hd.core.at_tok g).of_same (hsame g hg)
  · refine ⟨by rw [hqueue]; exact hd.core.posted.queue, by rw [hqueue]; exact hd.core.posted.nodup,
      fun r hr => ?_⟩
    obtain ⟨g, hactive, hg⟩ := hd.core.posted.active r hr
    by_cases hne : g = f
    · subst hne
      have hk : k = .posted r := (hposted r hg).resolve_right hr
      subst hk
      exact ⟨g, hat.active r hat.fits.2.2, update_self _ _ _⟩
    · exact ⟨g, (hkept g hne).active r hactive, (hkept g hne).tok.trans hg⟩
  · exact (hd.kept g hg).trans (hkept g fun h => hg (h ▸ hu))
  · by_cases hne : g = f
    · rw [hne] at hg ⊢
      rw [update_self]
      exact hasleep hg
    · rw [(hsame g hne).fiber] at hg
      rw [update_of_ne hne]
      exact hd.asleep g hg

/-- A part of a step after which the fiber has another token. -/
theorem During.go (s' : State F S T) (k' : Tok S T)
    (hd : During s₀ tok₀ loc₀ t s (update tok f k) loc) (hu : s₀.Untouched t f)
    (hposted : ∀ r, k = .posted r → k' = .posted r ∨ loc r = .idle)
    (hsame : ∀ g, g ≠ f → Same s s' g) (hat : AtTok s f k → AtTok s' f k')
    (hlists : Lists s → Lists s') (hpc : ∀ t', t' ≠ t → (s'.sched t').pc = (s.sched t').pc)
    (hqueue : s'.readyStrands = s.readyStrands)
    (hasleep : Waits (s'.fiber f).state → k' = .blocked ∨ ∃ t', f ∈ (s₀.sched t').pc.rising) :
    During s₀ tok₀ loc₀ t s' (update tok f k') loc := by
  have hat₀ := hd.core.at_tok f
  rw [update_self] at hat₀
  have hmove := hd.move hu (by rw [update_self]; exact hposted) hsame (hat hat₀)
    (hlists hd.core.lists) hpc hqueue hasleep
  rwa [update_idem] at hmove

/-- A fiber in the middle of a step is asleep only if somebody brings it back. -/
theorem During.asleep_moving {home : Option S}
    (hd : During s₀ tok₀ loc₀ t s (update tok f (.moving home)) loc)
    (hf : Waits (s.fiber f).state) : k = .blocked ∨ ∃ t', f ∈ (s₀.sched t').pc.rising := by
  have h := hd.asleep f hf
  rw [update_self] at h
  exact .inr (h.resolve_left nofun)

end

/-- Tokens of fibers that are in no list. -/
def Tok.Listless : Tok S T → Prop
  | .ready _ | .woken _ | .free _ | .waits _ => False
  | _ => True

/-- From one token to another, both in no list. -/
theorem AtTok.change {k' : Tok S T} (hat : AtTok s f k) (hk : k.Listless)
    (hk' : k'.Listless)
    (hfits : Fits (s'.fiber f) k') (hsched : s'.sched = s.sched) (hstrand : s'.strand = s.strand)
    (hholds : ∀ r, Holds (s'.fiber f) k' r → (s.strand r).active = some f) : AtTok s' f k' := by
  have hno : ∀ c : Tok S T, ¬ c.Listless → (k = c ↔ k' = c) := fun c hc =>
    iff_of_false (fun h => hc (h ▸ hk)) fun h => hc (h ▸ hk')
  refine ⟨hfits, fun t => ?_, fun t => ?_, fun t => ?_, fun r => ?_, fun r hr => ?_⟩
  · rw [hsched, hat.ready, hno _ id]
  · rw [hsched, hat.woken, hno _ id]
  · rw [hsched, hat.free, hno _ id]
  · rw [hstrand, hat.waits, hno _ id]
  · rw [hstrand]
    exact hholds r hr

section

variable [DecidableEq F] {f : F} {k : Tok S T}

/-- The record that was set. -/
@[simp]
theorem setFiber_fiber (s : State F S T) (f : F) (x : Record S T) : (s.setFiber f x).fiber f = x :=
  update_self _ _ _

/-- Another fiber's record changes. -/
theorem Same.setFiber (x : Record S T) (hg : g ≠ f) : Same s (s.setFiber f x) g :=
  ⟨update_of_ne hg _ _, fun _ => .rfl, fun _ => .rfl, fun _ => .rfl,
    fun _ => .rfl, fun _ h => h⟩

/-- Records are no part of the lists. -/
theorem Lists.setFiber {x : Record S T} (hl : Lists s) : Lists (s.setFiber f x) :=
  { hl with }

/-- The record and the token of a fiber change, and it is in no list. -/
theorem During.setFiber (k' : Tok S T) (x : Record S T)
    (hd : During s₀ tok₀ loc₀ t s (update tok f k) loc) (hu : s₀.Untouched t f)
    (hposted : ∀ r, k = .posted r → k' = .posted r ∨ loc r = .idle) (hk : k.Listless)
    (hk' : k'.Listless) (hfits : Fits x k')
    (hholds : ∀ r, Holds x k' r → (s.strand r).active = some f)
    (hasleep : Waits x.state → k' = .blocked ∨ ∃ t', f ∈ (s₀.sched t').pc.rising) :
    During s₀ tok₀ loc₀ t (s.setFiber f x) (update tok f k') loc := by
  refine hd.go _ k' hu hposted (fun g hg => .setFiber x hg) (fun hat => ?_) Lists.setFiber
    (fun _ _ => rfl) rfl (by rw [setFiber_fiber]; exact hasleep)
  refine hat.change hk hk' ?_ rfl rfl fun r hr => hholds r ?_
  · rw [setFiber_fiber]
    exact hfits
  · rw [setFiber_fiber] at hr
    exact hr

/-- Only the token of a fiber changes. -/
theorem During.retok (k' : Tok S T) (hd : During s₀ tok₀ loc₀ t s (update tok f k) loc)
    (hu : s₀.Untouched t f) (hposted : ∀ r, k = .posted r → k' = .posted r ∨ loc r = .idle)
    (hk : k.Listless) (hk' : k'.Listless) (hfits : Fits (s.fiber f) k')
    (hholds : ∀ r, Holds (s.fiber f) k' r → (s.strand r).active = some f)
    (hasleep : Waits (s.fiber f).state → k' = .blocked ∨ ∃ t', f ∈ (s₀.sched t').pc.rising) :
    During s₀ tok₀ loc₀ t s (update tok f k') loc :=
  hd.go s k' hu hposted
    (fun _ _ => ⟨rfl, fun _ => .rfl, fun _ => .rfl, fun _ => .rfl, fun _ => .rfl, fun _ h => h⟩)
    (fun hat => hat.change hk hk' hfits rfl rfl hholds) (fun hl => hl) (fun _ _ => rfl) rfl hasleep

/-- Only the record of a fiber changes. -/
theorem During.setRecord (x : Record S T) (hd : During s₀ tok₀ loc₀ t s tok loc)
    (hu : s₀.Untouched t f) (hfits : Fits x (tok f))
    (hholds : ∀ r, Holds x (tok f) r → Holds (s.fiber f) (tok f) r)
    (hasleep : Waits x.state → tok f = .blocked ∨ ∃ t', f ∈ (s₀.sched t').pc.rising) :
    During s₀ tok₀ loc₀ t (s.setFiber f x) tok loc := by
  have hat := hd.core.at_tok f
  have hmove := hd.move (k := tok f) hu (fun _ h => .inl h)
    (fun g hg => .setFiber x hg)
    ⟨by rw [setFiber_fiber]; exact hfits, hat.ready, hat.woken, hat.free, hat.waits, fun r hr => by
      rw [setFiber_fiber] at hr
      exact hat.active r (hholds r hr)⟩ hd.core.lists.setFiber (fun _ _ => rfl) rfl
    (by rw [setFiber_fiber]; exact hasleep)
  rwa [update_eq_self] at hmove

end

/-! ### The queue of the reactor -/

/-- A strand goes on in the reactor's queue. -/
theorem During.setLoc [DecidableEq S] (l : List S) (place : StrandTok T)
    (hd : During s₀ tok₀ loc₀ t s tok loc) (hnot : ∀ t', t' ≠ t → loc r ≠ .pulled t')
    (hnodup : l.Nodup) (hmem : r ∈ l ↔ place = .queued)
    (hother : ∀ q, q ≠ r → (q ∈ l ↔ q ∈ s.readyStrands))
    (hactive : place ≠ .idle → ∃ g, (s.strand r).active = some g ∧ tok g = .posted r) :
    During s₀ tok₀ loc₀ t { s with readyStrands := l } tok (update loc r place) := by
  refine ⟨⟨fun g => ?_, ⟨hd.core.lists.1, hd.core.lists.2, hd.core.lists.3, hd.core.lists.4⟩, ?_⟩,
    hd.pc, fun g hg => ⟨(hd.kept g hg).1, (hd.kept g hg).2, (hd.kept g hg).3⟩, fun t' q ht hq => ?_,
    hd.asleep⟩
  · have hat := hd.core.at_tok g
    exact ⟨hat.1, hat.2, hat.3, hat.4, hat.5, hat.6⟩
  · refine ⟨(forall_update_iff loc fun q k => q ∈ l ↔ k = .queued).mpr
      ⟨hmem, fun q hq => (hother q hq).trans (hd.core.posted.queue q)⟩, hnodup, fun q hq => ?_⟩
    by_cases h : q = r
    · rw [h, update_self] at hq
      exact h ▸ hactive hq
    · rw [update_of_ne h] at hq
      exact hd.core.posted.active q hq
  · have hloc := hd.loc t' q ht hq
    have hne : q ≠ r := by
      rintro rfl
      exact hnot t' ht hloc
    rw [update_of_ne hne]
    exact hloc

/-- The tokens do not depend on the flag of a strand. -/
theorem During.setQueued (queued : S → Bool) (hd : During s₀ tok₀ loc₀ t s tok loc) :
    During s₀ tok₀ loc₀ t { s with queued := queued } tok loc := by
  refine ⟨⟨fun f => ?_, ⟨hd.core.lists.1, hd.core.lists.2, hd.core.lists.3, hd.core.lists.4⟩,
      ⟨hd.core.posted.1, hd.core.posted.2, hd.core.posted.3⟩⟩, hd.pc,
    fun f hf => ⟨(hd.kept f hf).1, (hd.kept f hf).2, (hd.kept f hf).3⟩, hd.loc, hd.asleep⟩
  have hat := hd.core.at_tok f
  exact ⟨hat.1, hat.2, hat.3, hat.4, hat.5, hat.6⟩

/-! ### Lists of a scheduler -/

section

variable [DecidableEq T] {x : Sched F S}

/-- What holds of a scheduler that was set, and of the others. -/
theorem forall_setSched {P : T → Sched F S → Prop} (ht : P t x)
    (hother : ∀ t', t' ≠ t → P t' (s.sched t')) (t' : T) : P t' ((s.setSched t x).sched t') :=
  (forall_update_iff s.sched P).mpr ⟨ht, hother⟩ t'

/-- The scheduler that was set. -/
@[simp]
theorem setSched_sched (s : State F S T) (t : T) (x : Sched F S) : (s.setSched t x).sched t = x :=
  update_self _ _ _

/-- Other schedulers stay where they are. -/
theorem setSched_pc {t' : T} (h : t' ≠ t) : ((s.setSched t x).sched t').pc = (s.sched t').pc := by
  show (update s.sched t x t').pc = _
  rw [update_of_ne h]

/-- The lists of a scheduler change, but not for this fiber. -/
theorem Same.setSched (hready : g ∈ x.ready ↔ g ∈ (s.sched t).ready)
    (hwoken : g ∈ x.wakeList ↔ g ∈ (s.sched t).wakeList) (hfree : g ∈ x.free ↔ g ∈ (s.sched t).free)
    : Same s (s.setSched t x) g :=
  ⟨rfl, forall_setSched (P := fun t y => g ∈ y.ready ↔ g ∈ (s.sched t).ready) hready
      fun _ _ => .rfl,
    forall_setSched (P := fun t y => g ∈ y.wakeList ↔ g ∈ (s.sched t).wakeList) hwoken
      fun _ _ => .rfl,
    forall_setSched (P := fun t y => g ∈ y.free ↔ g ∈ (s.sched t).free) hfree fun _ _ => .rfl,
    fun _ => .rfl, fun _ h => h⟩

/-- The lists of a scheduler are replaced. -/
theorem Lists.setSched (hl : Lists s) (hready : x.ready.Nodup) (hwoken : x.wakeList.Nodup)
    (hfree : x.free.Nodup) : Lists (s.setSched t x) :=
  ⟨forall_setSched (P := fun _ y => y.ready.Nodup) hready fun t' _ => hl.ready t',
    forall_setSched (P := fun _ y => y.wakeList.Nodup) hwoken fun t' _ => hl.woken t',
    forall_setSched (P := fun _ y => y.free.Nodup) hfree fun t' _ => hl.free t', hl.waits⟩

/-- The scheduler goes on in its code. -/
theorem During.goto (hd : During s₀ tok₀ loc₀ t s tok loc) (p : Pc F S) :
    During s₀ tok₀ loc₀ t (s.goto t p) tok loc := by
  have hsame : ∀ g, Same s (s.goto t p) g := fun g => .setSched .rfl .rfl .rfl
  exact ⟨⟨fun g => (hd.core.at_tok g).of_same (hsame g),
      hd.core.lists.setSched (hd.core.lists.ready t) (hd.core.lists.woken t) (hd.core.lists.free t),
      ⟨hd.core.posted.queue, hd.core.posted.nodup, hd.core.posted.active⟩⟩,
    fun t' ht => (setSched_pc ht).trans (hd.pc t' ht), fun g hg => ⟨(hd.kept g hg).tok,
      (hd.kept g hg).fiber, (hd.kept g hg).active⟩, hd.loc, hd.asleep⟩

/-- Where a scheduler was sent. -/
@[simp]
theorem goto_pc (s : State F S T) (t : T) (p : Pc F S) : ((s.goto t p).sched t).pc = p := by
  rw [State.goto, setSched_sched]

/-- A fiber comes into a list of one scheduler, or leaves one. -/
theorem AtTok.setSched {k' : Tok S T} (hat : AtTok s f k) (hready : f ∈ x.ready ↔ k' = .ready t)
    (hwoken : f ∈ x.wakeList ↔ k' = .woken t) (hfree : f ∈ x.free ↔ k' = .free t)
    (hother : ∀ t', t' ≠ t → (k = .ready t' ↔ k' = .ready t') ∧ (k = .woken t' ↔ k' = .woken t') ∧
      (k = .free t' ↔ k' = .free t')) (hwaits : ∀ r, k = .waits r ↔ k' = .waits r)
    (hfits : Fits (s.fiber f) k')
    (hholds : ∀ r, Holds (s.fiber f) k' r → (s.strand r).active = some f) :
    AtTok (s.setSched t x) f k' :=
  ⟨hfits,
    forall_setSched (P := fun t y => f ∈ y.ready ↔ k' = .ready t) hready
      fun t' ht => (hat.ready t').trans (hother t' ht).1,
    forall_setSched (P := fun t y => f ∈ y.wakeList ↔ k' = .woken t) hwoken
      fun t' ht => (hat.woken t').trans (hother t' ht).2.1,
    forall_setSched (P := fun t y => f ∈ y.free ↔ k' = .free t) hfree
      fun t' ht => (hat.free t').trans (hother t' ht).2.2,
    fun r => (hat.waits r).trans (hwaits r), hholds⟩

end

/-- Another fiber is added to a list. -/
theorem mem_append_singleton_of_ne {l : List F} (hg : g ≠ f) : g ∈ l ++ [f] ↔ g ∈ l := by
  rw [mem_append_singleton]
  exact or_iff_left hg

section

variable [DecidableEq F] [DecidableEq T] {home : Option S}

/-- A fiber in the middle of a step goes to the ready queue of the scheduler. -/
theorem During.makeReady (hd : During s₀ tok₀ loc₀ t s (update tok f (.moving home)) loc)
    (hu : s₀.Untouched t f) (hsound : Sound (s.fiber f))
    (hhome : ∀ r, (s.fiber f).strandOf = some r → home = some r) :
    During s₀ tok₀ loc₀ t (s.makeReady t f) (update tok f (.ready t)) loc := by
  have hat₀ := hd.core.at_tok f
  rw [update_self] at hat₀
  have hstate := hd.setFiber (.moving home) { s.fiber f with state := .ready } hu
    nofun trivial trivial ⟨hsound.owner, hsound.awaits⟩ hat₀.active (fun h => by simp [Waits] at h)
  refine hstate.go (s.makeReady t f) (.ready t) hu nofun (fun g hg => ?_) (fun hat => ?_)
    (fun hl => ?_) (fun t' ht => setSched_pc ht) rfl hstate.asleep_moving
  · exact .setSched (mem_append_singleton_of_ne hg) .rfl .rfl
  · refine hat.setSched (by simp) ?_ ?_ (fun t' ht => ?_) (by simp) ?_ fun r hr => ?_
    · exact (hat.woken t).trans (by simp)
    · exact (hat.free t).trans (by simp)
    · simp [Ne.symm ht]
    · rw [setFiber_fiber]
      exact ⟨rfl, hsound.awaits, ⟨hsound.whole.home, hsound.whole.linked⟩, hsound.owner⟩
    · rw [setFiber_fiber] at hr
      exact hat₀.active r (hhome r hr)
  · have hnot : f ∉ (s.sched t).ready := fun h => nomatch (hat₀.ready t).mp h
    exact hl.setSched (nodup_append_singleton (hl.ready t) hnot) (hl.woken t) (hl.free t)

end

/-! ### Strands -/

section

variable [DecidableEq S] {x : Strand F}

private theorem forall_setStrand {P : S → Strand F → Prop} (hr : P r x)
    (hother : ∀ q, q ≠ r → P q (s.strand q)) (q : S) : P q ((s.setStrand r x).strand q) :=
  (forall_update_iff s.strand P).mpr ⟨hr, hother⟩ q

/-- The strand that was set. -/
@[simp]
theorem setStrand_strand (s : State F S T) (r : S) (x : Strand F) :
    (s.setStrand r x).strand r = x :=
  update_self _ _ _

private theorem Same.setStrand (hqueue : g ∈ x.queue ↔ g ∈ (s.strand r).queue)
    (hactive : (s.strand r).active = some g → x.active = some g) : Same s (s.setStrand r x) g :=
  ⟨rfl, fun _ => .rfl, fun _ => .rfl, fun _ => .rfl,
    forall_setStrand (P := fun q y => g ∈ y.queue ↔ g ∈ (s.strand q).queue) hqueue
      fun _ _ => .rfl,
    forall_setStrand (P := fun q y => (s.strand q).active = some g → y.active = some g) hactive
      fun _ _ h => h⟩

private theorem Lists.setStrand (hl : Lists s) (hnodup : x.queue.Nodup) : Lists (s.setStrand r x) :=
  ⟨hl.ready, hl.woken, hl.free,
    forall_setStrand (P := fun _ y => y.queue.Nodup) hnodup fun q _ => hl.waits q⟩

/-- A fiber comes to a strand, or leaves it. -/
theorem AtTok.setStrand {k' : Tok S T} (hat : AtTok s f k)
    (hlist : ∀ t, (k = .ready t ↔ k' = .ready t) ∧ (k = .woken t ↔ k' = .woken t) ∧
      (k = .free t ↔ k' = .free t)) (hqueue : f ∈ x.queue ↔ k' = .waits r)
    (hother : ∀ q, q ≠ r → (k = .waits q ↔ k' = .waits q)) (hfits : Fits (s.fiber f) k')
    (hactive : Holds (s.fiber f) k' r → x.active = some f)
    (hholds : ∀ q, q ≠ r → Holds (s.fiber f) k' q → (s.strand q).active = some f) :
    AtTok (s.setStrand r x) f k' :=
  ⟨hfits, fun t => (hat.ready t).trans (hlist t).1, fun t => (hat.woken t).trans (hlist t).2.1,
    fun t => (hat.free t).trans (hlist t).2.2,
    forall_setStrand (P := fun q y => f ∈ y.queue ↔ k' = .waits q) hqueue
      fun q hq => (hat.waits q).trans (hother q hq),
    forall_setStrand (P := fun q y => Holds (s.fiber f) k' q → y.active = some f) hactive hholds⟩

end

section

variable [DecidableEq F] [DecidableEq S] {home : Option S}

/-- A fiber becomes the active one of a strand. -/
theorem During.enter (hd : During s₀ tok₀ loc₀ t s (update tok f (.moving home)) loc)
    (hu : s₀.Untouched t f) (hfree : (s.strand r).active = none) :
    During s₀ tok₀ loc₀ t (s.setStrand r { s.strand r with active := some f })
      (update tok f (.moving (some r))) loc := by
  refine hd.go _ (.moving (some r)) hu nofun (fun g _ => ?_) (fun hat => ?_)
    (fun hl => hl.setStrand (hl.waits r)) (fun _ _ => rfl) rfl hd.asleep_moving
  · exact .setStrand .rfl fun h => by rw [hfree] at h; cases h
  · refine hat.setStrand (by simp) ?_ (by simp) hat.fits (fun _ => rfl) fun q hq h => ?_
    · exact (hat.waits r).trans (by simp)
    · exact absurd (Option.some.inj h).symm hq

/-- A fiber goes to the end of the queue of a strand. -/
theorem During.wait (hd : During s₀ tok₀ loc₀ t s (update tok f (.moving home)) loc)
    (hu : s₀.Untouched t f) (hfits : Fits (s.fiber f) (.waits r : Tok S T)) :
    During s₀ tok₀ loc₀ t (s.setStrand r { s.strand r with
        queue := (s.strand r).queue ++ [f], queued := (s.strand r).queued ++ [f] })
      (update tok f (.waits r)) loc := by
  have hat₀ := hd.core.at_tok f
  rw [update_self] at hat₀
  refine hd.go _ (.waits r) hu nofun (fun g hg => ?_) (fun hat => ?_) (fun hl => ?_)
    (fun _ _ => rfl) rfl hd.asleep_moving
  · exact .setStrand (mem_append_singleton_of_ne hg) fun h => h
  · refine hat.setStrand (by simp) (by simp) (fun q hq => ?_) hfits (fun h => h.elim)
      fun _ _ h => h.elim
    simp [Ne.symm hq]
  · exact hl.setStrand (nodup_append_singleton (hl.waits r) fun h => nomatch (hat₀.waits r).mp h)

/-- The active fiber of a strand, which is not on it any more, lets go of it. -/
theorem During.vacate (hd : During s₀ tok₀ loc₀ t s (update tok f k) loc)
    (hu : s₀.Untouched t f) (hactive : (s.strand r).active = some f)
    (hoff : ∀ q, ¬ Holds (s.fiber f) k q) :
    During s₀ tok₀ loc₀ t (s.setStrand r { s.strand r with active := none })
      (update tok f k) loc := by
  refine hd.go _ k hu (fun _ h => .inl h) (fun g hg => ?_) (fun hat => ?_)
    (fun hl => hl.setStrand (hl.waits r)) (fun _ _ => rfl) rfl (fun hf => ?_)
  · refine .setStrand .rfl fun h => ?_
    rw [hactive] at h
    exact absurd (Option.some.inj h).symm hg
  · exact hat.setStrand (fun _ => ⟨.rfl, .rfl, .rfl⟩) (hat.waits r) (fun _ _ => .rfl)
      hat.fits (fun h => absurd h (hoff r)) fun q _ h => absurd h (hoff q)
  · have h := hd.asleep f hf
    rwa [update_self] at h

/-- The first fiber of the queue becomes the active one. -/
theorem During.turn {rest : List F} (served : List F) (hd : During s₀ tok₀ loc₀ t s tok loc)
    (hu : s₀.Untouched t g) (hfree : (s.strand r).active = none)
    (hqueue : (s.strand r).queue = g :: rest) :
    During s₀ tok₀ loc₀ t
      (s.setStrand r { s.strand r with active := some g, queue := rest, served := served })
      (update tok g (.hand t)) loc := by
  have htok : tok g = .waits r :=
    ((hd.core.at_tok g).waits r).mp (by rw [hqueue]; exact mem_cons_self)
  have hnodup := hd.core.lists.waits r
  rw [hqueue, nodup_cons] at hnodup
  have hat := hd.core.at_tok g
  rw [htok] at hat
  refine hd.move hu (fun q h => by rw [htok] at h; exact nomatch h) (fun g' hg => ?_) ?_
    (hd.core.lists.setStrand hnodup.2) (fun _ _ => rfl) rfl fun hf => ?_
  · refine .setStrand ?_ fun h => by rw [hfree] at h; cases h
    rw [hqueue, mem_cons]
    exact (or_iff_right hg).symm
  · obtain ⟨hlive, hsound, hstrand⟩ := hat.fits
    refine hat.setStrand (by simp) (by simp [hnodup.1]) (fun q hq => by simp [Ne.symm hq])
      ⟨hlive, hsound⟩ (fun _ => rfl) fun q hq h => ?_
    exact absurd (Option.mem_unique h hstrand) hq
  · have h := hd.asleep g hf
    rw [htok] at h
    exact .inr (h.resolve_left nofun)

end

end Reactor

end PsiServe.Fiber
