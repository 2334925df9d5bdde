import PsiServe.Base.Update
import PsiServe.Fiber.Scheduler

/-!
# Where the fibers of a scheduler are

Every fiber is at one place: in the ready queues, on the processor, in the queue of a strand,
parked, and so on. The places agree with the states of the fibers, with the queues and with the
strands; a call takes a fiber from its place, moves it through a strand or two and puts it down at
another one.
-/

namespace PsiServe.Fiber

open Base List Function Option

namespace Scheduler

variable {F S : Type} {s s' : State F S} {pending pending' : List F} {g f : F} {r : S}
  {home : Option S}

/-! ### Places -/

/-- Where a fiber is. -/
inductive Place (S : Type) where
  | idle
  | ready
  | running
  /-- Parked by its program, before a wake. -/
  | parked
  /-- In the wake list. -/
  | woken
  /-- Waits for a timer or a file descriptor. -/
  | blocked
  /-- In the queue of a strand. -/
  | waits (strand : S)
  /-- On the way from one place to another, on a strand or not. -/
  | moving (strand : Option S)

/-- The strand that a fiber is on when it runs. -/
def FiberRecord.strandOf (x : FiberRecord S) : Option S :=
  match x.todo with
  | .run => x.homeStrand
  | .enter _ => none
  | .home r => some r

/-- Each call of `strand::sync` goes back to the strand of the call around it. -/
def Linked : Option S → List (S × Option S) → Prop
  | _, [] => True
  | home, (r, src) :: frames => home = some r ∧ Linked src frames

/-- A fiber between two calls. -/
structure Whole (x : FiberRecord S) : Prop where
  home : x.todo ≠ .run → x.homeStrand = none
  linked : Linked x.strandOf x.frames

/-- The record of a fiber fits its place. -/
def Fits (x : FiberRecord S) : Place S → Prop
  | .idle => x.state = .recyclable ∧ x.awaits = false
  | .ready => x.state = .ready ∧ x.awaits = false ∧ Whole x
  | .running => x.state = .running ∧ x.awaits = false ∧ Whole x
  | .parked => x.state = .parked ∧ x.awaits = true ∧ Whole x ∧ x.todo = .run
  | .woken => x.state = .parked ∧ x.awaits = false ∧ Whole x ∧ x.todo = .run
  | .blocked => (x.state = .sleeping ∨ x.state = .blocked) ∧ x.awaits = false ∧ Whole x ∧
    x.todo = .run
  | .waits r => x.state = .parked ∧ x.awaits = false ∧ Whole x ∧ x.strandOf = some r
  | .moving _ => True

/-- A fiber at a place is the active one of a strand. -/
def Occupies (x : FiberRecord S) : Place S → S → Prop
  | .ready, r | .running, r => x.strandOf = some r
  | .moving home, r => home = some r
  | _, _ => False

/-- The fibers that the run loop can pick. -/
def State.scheduled (s : State F S) : List F :=
  s.readyQueues 0 ++ s.readyQueues 1 ++ s.readyQueues 2 ++ s.lifoSlot.toList

/-- A fiber is at a place. `pending` is what is left of a batch of the wake list. -/
structure AtPlace (s : State F S) (pending : List F) (g : F) (p : Place S) : Prop where
  fits : Fits (s.fiber g) p
  ready : g ∈ s.scheduled ↔ p = .ready
  running : p = .running → s.current = some g
  current : s.current = some g → p = .running ∨ ∃ r, p = .moving r
  woken : g ∈ pending ++ s.wakeList ↔ p = .woken
  waits : ∀ r, g ∈ (s.strand r).queue ↔ p = .waits r
  active : ∀ r, (s.strand r).active = some g ↔ Occupies (s.fiber g) p r

/-- No fiber is twice in a list, a strand with a queue has an active fiber, and the fibers of a
queue are those that were put there and did not become active, in this order. -/
structure Lists (s : State F S) (pending : List F) : Prop where
  ready : s.scheduled.Nodup
  woken : (pending ++ s.wakeList).Nodup
  waits : ∀ r, (s.strand r).queue.Nodup
  empty : ∀ r, (s.strand r).active = none → (s.strand r).queue = []
  history : ∀ r, (s.strand r).queued = (s.strand r).served ++ (s.strand r).queue

structure Inv (s : State F S) (pending : List F) (loc : F → Place S) : Prop where
  place : ∀ g, AtPlace s pending g (loc g)
  lists : Lists s pending

/-- Every fiber is at its place. -/
def Settled (s : State F S) (pending : List F) : Prop :=
  ∃ loc, Inv s pending loc ∧ ∀ g r, loc g ≠ .moving r

/-- One fiber is on its way. -/
def Moves (s : State F S) (pending : List F) (f : F) (home : Option S) : Prop :=
  ∃ loc, Inv s pending loc ∧ loc f = .moving home ∧ ∀ g r, loc g = .moving r → g = f

variable {p : Place S} {loc : F → Place S}

/-- What a step of another fiber leaves as it is. -/
structure Same (s : State F S) (pending : List F) (s' : State F S) (pending' : List F) (g : F) :
    Prop where
  fiber : s'.fiber g = s.fiber g
  ready : g ∈ s'.scheduled ↔ g ∈ s.scheduled
  current : s'.current = some g ↔ s.current = some g
  woken : g ∈ pending' ++ s'.wakeList ↔ g ∈ pending ++ s.wakeList
  waits : ∀ r, g ∈ (s'.strand r).queue ↔ g ∈ (s.strand r).queue
  active : ∀ r, (s'.strand r).active = some g ↔ (s.strand r).active = some g

/-- A fiber of which nothing changed stays at its place. -/
theorem AtPlace.of_same (hat : AtPlace s pending g p) (hsame : Same s pending s' pending' g) :
    AtPlace s' pending' g p := by
  refine ⟨?_, hsame.ready.trans hat.ready, fun hp => hsame.current.mpr (hat.running hp),
    fun hc => hat.current (hsame.current.mp hc), hsame.woken.trans hat.woken,
    fun r => (hsame.waits r).trans (hat.waits r), fun r => (hsame.active r).trans ?_⟩
  · rw [hsame.fiber]
    exact hat.fits
  · rw [hsame.fiber]
    exact hat.active r

/-- Nothing changed. -/
theorem Same.refl (s : State F S) (pending : List F) (g : F) : Same s pending s pending g :=
  ⟨rfl, .rfl, .rfl, .rfl, fun _ => .rfl, fun _ => .rfl⟩

/-- A fiber that waits is not finished, so that none is passed over. -/
theorem dropWhile_finished (hi : Inv s pending loc) :
    (s.strand r).queue.dropWhile s.finished = (s.strand r).queue := by
  cases hqueue : (s.strand r).queue with
  | nil => rfl
  | cons next rest =>
    have hplace := ((hi.place next).waits r).mp (by rw [hqueue]; exact mem_cons_self)
    have hfits := (hi.place next).fits
    rw [hplace] at hfits
    have hfin : s.finished next = false := by simp [State.finished, hfits.1]
    rw [dropWhile_cons, hfin]
    rfl

/-- Two states that differ in the ready queues alone. -/
structure Requeued (s s' : State F S) : Prop where
  fiber : s'.fiber = s.fiber
  strand : s'.strand = s.strand
  wakeList : s'.wakeList = s.wakeList
  current : s'.current = s.current

private theorem Requeued.same (hq : Requeued s s') (hready : g ∈ s'.scheduled ↔ g ∈ s.scheduled) :
    Same s pending s' pending g :=
  ⟨by rw [hq.fiber], hready, by rw [hq.current], by rw [hq.wakeList], by simp [hq.strand],
    by simp [hq.strand]⟩

private theorem Requeued.lists (hq : Requeued s s') (hl : Lists s pending)
    (hready : s'.scheduled.Nodup) : Lists s' pending := by
  obtain ⟨-, hwoken, hwaits, hempty, hhistory⟩ := hl
  rw [← hq.wakeList] at hwoken
  rw [← hq.strand] at hwaits hempty hhistory
  exact ⟨hready, hwoken, hwaits, hempty, hhistory⟩

/-- A fiber on its way is in no list. -/
theorem atPlace_moving :
    AtPlace s pending f (.moving home) ↔ f ∉ s.scheduled ∧ f ∉ pending ++ s.wakeList ∧
      (∀ r, f ∉ (s.strand r).queue) ∧ ∀ r, (s.strand r).active = some f ↔ home = some r := by
  constructor
  · intro hat
    exact ⟨fun h => absurd (hat.ready.mp h) nofun, fun h => absurd (hat.woken.mp h) nofun,
      fun r h => absurd ((hat.waits r).mp h) nofun, hat.active⟩
  · rintro ⟨hready, hwoken, hwaits, hactive⟩
    exact ⟨trivial, ⟨fun h => absurd h hready, nofun⟩, nofun, fun _ => .inr ⟨_, rfl⟩,
      ⟨fun h => absurd h hwoken, nofun⟩, fun r => ⟨fun h => absurd h (hwaits r), nofun⟩, hactive⟩

/-- The fiber on its way is the active one of its strand. -/
theorem Moves.active (hm : Moves s pending f (some r)) : (s.strand r).active = some f := by
  obtain ⟨loc, hi, hf, -⟩ := hm
  refine ((hi.place f).active r).mpr ?_
  rw [hf]
  rfl

/-- A fiber that is in no list goes on its way. -/
theorem AtPlace.toMoving (hat : AtPlace s pending f p)
    (hp : p ≠ .ready ∧ p ≠ .woken ∧ ∀ r, p ≠ .waits r)
    (hocc : ∀ r, Occupies (s.fiber f) p r ↔ home = some r) :
    AtPlace s pending f (.moving home) :=
  atPlace_moving.mpr ⟨fun h => hp.1 (hat.ready.mp h), fun h => hp.2.1 (hat.woken.mp h),
    fun r h => hp.2.2 r ((hat.waits r).mp h), fun r => (hat.active r).trans (hocc r)⟩

/-- The record that was set. -/
@[simp]
theorem setFiber_fiber [DecidableEq F] (s : State F S) (f : F) (x : FiberRecord S) :
    (s.setFiber f x).fiber f = x := update_self _ _ _

/-- A fiber on its way with another record. -/
theorem AtPlace.setFiber [DecidableEq F] {x : FiberRecord S}
    (hat : AtPlace s pending f (.moving home)) :
    AtPlace (s.setFiber f x) pending f (.moving home) :=
  { hat with fits := trivial }

/-- Another fiber's record changes. -/
theorem Same.setFiber [DecidableEq F] {x : FiberRecord S} (hg : g ≠ f) :
    Same s pending (s.setFiber f x) pending g :=
  ⟨update_of_ne hg _ _, .rfl, .rfl, .rfl, fun _ => .rfl, fun _ => .rfl⟩

/-- Records are no part of the lists. -/
theorem Lists.setFiber [DecidableEq F] {x : FiberRecord S} (hl : Lists s pending) :
    Lists (s.setFiber f x) pending :=
  { hl with }

section

variable [DecidableEq S] {x : Strand F}

private theorem forall_setStrand {P : S → Strand F → Prop} (hr : P r x)
    (hother : ∀ t, t ≠ r → P t (s.strand t)) (t : S) : P t ((s.setStrand r x).strand t) :=
  (forall_update_iff s.strand P).mpr ⟨hr, hother⟩ t

private theorem Lists.setStrand (hl : Lists s pending) (hnodup : x.queue.Nodup)
    (hempty : x.active = none → x.queue = []) (hhistory : x.queued = x.served ++ x.queue) :
    Lists (s.setStrand r x) pending :=
  ⟨hl.ready, hl.woken,
    forall_setStrand (P := fun _ y => y.queue.Nodup) hnodup fun t _ => hl.waits t,
    forall_setStrand (P := fun _ y => y.active = none → y.queue = []) hempty fun t _ => hl.empty t,
    forall_setStrand (P := fun _ y => y.queued = y.served ++ y.queue) hhistory
      fun t _ => hl.history t⟩

private theorem Same.setStrand (hqueue : g ∈ x.queue ↔ g ∈ (s.strand r).queue)
    (hactive : x.active = some g ↔ (s.strand r).active = some g) :
    Same s pending (s.setStrand r x) pending g :=
  ⟨rfl, .rfl, .rfl, .rfl,
    forall_setStrand (P := fun t y => g ∈ y.queue ↔ g ∈ (s.strand t).queue) hqueue
      fun _ _ => .rfl,
    forall_setStrand (P := fun t y => y.active = some g ↔ (s.strand t).active = some g) hactive
      fun _ _ => .rfl⟩

/-- A fiber on its way enters or leaves a strand. -/
theorem AtPlace.setStrand {home' : Option S} (hat : AtPlace s pending f (.moving home))
    (hqueue : f ∉ x.queue) (hactive : x.active = some f ↔ home' = some r)
    (hother : ∀ t, t ≠ r → (home = some t ↔ home' = some t)) :
    AtPlace (s.setStrand r x) pending f (.moving home') := by
  obtain ⟨hready, hwoken, hwaits, hact⟩ := atPlace_moving.mp hat
  refine atPlace_moving.mpr ⟨hready, hwoken, ?_, ?_⟩
  · exact forall_setStrand (P := fun _ y => f ∉ y.queue) hqueue fun t _ => hwaits t
  · exact forall_setStrand (P := fun t y => y.active = some f ↔ home' = some t) hactive
      fun t ht => (hact t).trans (hother t ht)

end

section

variable [DecidableEq F] {q : Place S}

/-- A step that is about one fiber. -/
theorem Inv.move (hi : Inv s pending loc) (hsame : ∀ g, g ≠ f → Same s pending s' pending' g)
    (hat : AtPlace s' pending' f q) (hlists : Lists s' pending') :
    Inv s' pending' (update loc f q) :=
  ⟨(forall_update_iff loc _).mpr ⟨hat, fun g hg => (hi.place g).of_same (hsame g hg)⟩, hlists⟩

/-- A fiber leaves its place. -/
theorem Inv.depart (hi : Inv s pending loc) (hsettled : ∀ g r, loc g ≠ .moving r)
    (hsame : ∀ g, g ≠ f → Same s pending s' pending' g)
    (hat : AtPlace s' pending' f (.moving home)) (hlists : Lists s' pending') :
    Moves s' pending' f home := by
  refine ⟨_, hi.move hsame hat hlists, update_self _ _ _, fun g r hg => ?_⟩
  rcases update_eq_iff.mp hg with ⟨h, -⟩ | ⟨-, h⟩
  · exact h
  · exact absurd h (hsettled g r)

/-- The fiber that runs. -/
theorem Settled.current (hs : Settled s pending) (hcurrent : s.current = some f) :
    Moves s pending f (s.fiber f).strandOf ∧ (s.fiber f).state = .running ∧
      (s.fiber f).awaits = false ∧ Whole (s.fiber f) := by
  obtain ⟨loc, hi, hsettled⟩ := hs
  have hat := hi.place f
  have hf : loc f = .running := by
    rcases hat.current hcurrent with h | ⟨r, h⟩
    · exact h
    · exact absurd h (hsettled f r)
  rw [hf] at hat
  refine ⟨hi.depart hsettled (fun g _ => .refl s pending g) ?_ hi.lists, hat.fits⟩
  exact hat.toMoving ⟨nofun, nofun, nofun⟩
    fun _ => .rfl

variable {x : FiberRecord S}

/-! ### The ready queues -/

/-- A fiber is added to the scheduled ones. -/
theorem scheduled_addToReadyQueue (s : State F S) (f : F) :
    (s.addToReadyQueue f).scheduled.Perm (f :: s.scheduled) := by
  rw [perm_iff_count]
  intro g
  simp only [State.addToReadyQueue, State.scheduled]
  generalize State.level (s.fiber f).priority = p
  obtain h | h | h : p = 0 ∨ p = 1 ∨ p = 2 := by omega
  all_goals
    subst h
    simp [count_append, count_cons]
    omega

/-- A fiber on its way is put into the ready queues, or into the slot. -/
theorem Inv.toReady (hi : Inv s pending loc) (hf : loc f = .moving home)
    (hfits : Fits (s.fiber f) .ready) (hhome : (s.fiber f).strandOf = home)
    (hcurrent : s.current ≠ some f) (hscheduled : s'.scheduled.Perm (f :: s.scheduled))
    (hq : Requeued s s') : Inv s' pending (update loc f .ready) := by
  have hat := hi.place f
  rw [hf] at hat
  obtain ⟨hready, hwoken, hwaits, hactive⟩ := atPlace_moving.mp hat
  refine hi.move (fun g hg => hq.same ?_) ?_ (hq.lists hi.lists ?_)
  · exact hscheduled.mem_iff.trans (mem_cons.trans (or_iff_right hg))
  · refine ⟨by rw [hq.fiber]; exact hfits, ⟨fun _ => rfl, fun _ => ?_⟩, nofun, ?_, ?_, fun r => ?_,
      fun r => ?_⟩
    · exact hscheduled.mem_iff.mpr mem_cons_self
    · rw [hq.current]
      exact fun h => absurd h hcurrent
    · rw [hq.wakeList]
      exact ⟨fun h => absurd h hwoken, nofun⟩
    · rw [hq.strand]
      exact ⟨fun h => absurd h (hwaits r), nofun⟩
    · rw [hq.strand, hq.fiber]
      refine (hactive r).trans ?_
      rw [← hhome]
      rfl
  · exact hscheduled.nodup_iff.mpr (nodup_cons.mpr ⟨hready, hi.lists.ready⟩)

/-- The state of a fiber is no part of its frames. -/
theorem Whole.setState (hw : Whole x) (st : FiberState) :
    Whole { x with state := st } := ⟨hw.home, hw.linked⟩

section

variable (hm : Moves s pending f home)

include hm

/-- A fiber goes on its way. -/
theorem Moves.go {home' : Option S} (hsame : ∀ g, g ≠ f → Same s pending s' pending' g)
    (hat : AtPlace s pending f (.moving home) → AtPlace s' pending' f (.moving home'))
    (hlists : Lists s pending → Lists s' pending') : Moves s' pending' f home' := by
  obtain ⟨loc, hi, hf, honly⟩ := hm
  refine ⟨_, hi.move hsame (hat (hf ▸ hi.place f)) (hlists hi.lists), update_self _ _ _,
    fun g r hg => ?_⟩
  rcases update_eq_iff.mp hg with ⟨h, -⟩ | ⟨-, h⟩
  · exact h
  · exact honly g r h

/-- A fiber comes to a place. -/
theorem Moves.arrive (hq : ∀ r, q ≠ .moving r)
    (hsame : ∀ g, g ≠ f → Same s pending s' pending' g)
    (hat : AtPlace s pending f (.moving home) → AtPlace s' pending' f q)
    (hlists : Lists s pending → Lists s' pending') : Settled s' pending' := by
  obtain ⟨loc, hi, hf, honly⟩ := hm
  refine ⟨_, hi.move hsame (hat (hf ▸ hi.place f)) (hlists hi.lists), fun g r hg => ?_⟩
  rcases update_eq_iff.mp hg with ⟨-, h⟩ | ⟨hgf, h⟩
  · exact hq r h
  · exact hgf (honly g r h)

/-- The record of the fiber changes. -/
theorem Moves.setFiber (x : FiberRecord S) : Moves (s.setFiber f x) pending f home :=
  hm.go (fun _ hg => .setFiber hg) AtPlace.setFiber Lists.setFiber

/-- The run loop is back. -/
theorem Moves.clearCurrent (hcurrent : s.current = some f) :
    Moves { s with current := none } pending f home := by
  refine hm.go (fun g hg => ⟨rfl, .rfl, ?_, .rfl, fun _ => .rfl, fun _ => .rfl⟩)
    (fun hat => atPlace_moving.mpr (atPlace_moving (s := s).mp hat))
    fun hl => ⟨hl.1, hl.2, hl.3, hl.4, hl.5⟩
  rw [hcurrent]
  exact ⟨nofun, fun h => absurd (some.inj h).symm hg⟩

/-- The run loop takes up a fiber. -/
theorem Moves.setCurrent (hcurrent : s.current = none) :
    Moves { s with current := some f } pending f home := by
  refine hm.go (fun g hg => ⟨rfl, .rfl, ?_, .rfl, fun _ => .rfl, fun _ => .rfl⟩)
    (fun hat => atPlace_moving.mpr (atPlace_moving (s := s).mp hat))
    fun hl => ⟨hl.1, hl.2, hl.3, hl.4, hl.5⟩
  rw [hcurrent]
  exact ⟨fun h => absurd (some.inj h).symm hg, nofun⟩

omit hm in
/-- A fiber rests outside of all lists. -/
theorem Moves.rest (hm : Moves s pending f none) (hx : s.fiber f = x) (hfits : Fits x q)
    (hq : q = .idle ∨ q = .parked ∨ q = .blocked) (hcurrent : s.current ≠ some f) :
    Settled s pending := by
  subst hx
  refine hm.arrive (q := q) ?_ (fun g _ => .refl s pending g) (fun hat => ?_) id
  · rintro r rfl
    rcases hq with h | h | h <;> cases h
  · refine ⟨hfits, hat.ready.trans ⟨nofun, ?_⟩, ?_, fun h => absurd h hcurrent,
      hat.woken.trans ⟨nofun, ?_⟩, fun r => (hat.waits r).trans ⟨nofun, ?_⟩,
      fun r => (hat.active r).trans ?_⟩ <;>
      rcases hq with rfl | rfl | rfl
    all_goals first
      | exact fun h => nomatch h
      | exact ⟨nofun, nofun⟩

/-- A fiber goes on running. -/
theorem Moves.run (hx : s.fiber f = x) (hfits : Fits x .running) (hhome : x.strandOf = home)
    (hcurrent : s.current = some f) : Settled s pending := by
  subst hx
  refine hm.arrive (q := .running) nofun (fun g _ => .refl s pending g) (fun hat => ?_) id
  obtain ⟨hready, hwoken, hwaits, hactive⟩ := atPlace_moving.mp hat
  refine ⟨hfits, ⟨fun h => absurd h hready, nofun⟩, fun _ => hcurrent, fun _ => .inl rfl,
    ⟨fun h => absurd h hwoken, nofun⟩, fun r => ⟨fun h => absurd h (hwaits r), nofun⟩,
    fun r => (hactive r).trans ?_⟩
  rw [← hhome]
  rfl

/-- A fiber on its way becomes ready. -/
theorem Moves.toReady (hx : s.fiber f = x) (hfits : Fits x .ready) (hhome : x.strandOf = home)
    (hcurrent : s.current ≠ some f) (hscheduled : s'.scheduled.Perm (f :: s.scheduled))
    (hq : Requeued s s') :
    Settled s' pending := by
  subst hx
  obtain ⟨loc, hi, hf, honly⟩ := hm
  refine ⟨_, hi.toReady hf hfits hhome hcurrent hscheduled hq, fun g r hg => ?_⟩
  rcases update_eq_iff.mp hg with ⟨-, h⟩ | ⟨hgf, h⟩
  · cases h
  · exact hgf (honly g r h)

omit hm in
private theorem Inv.makeReady (hi : Inv s pending loc) (hf : loc f = .moving home)
    (hawaits : (s.fiber f).awaits = false) (hwhole : Whole (s.fiber f))
    (hhome : (s.fiber f).strandOf = home) (hcurrent : s.current ≠ some f) :
    Inv (s.makeReady f) pending (update loc f .ready) := by
  have hat := hi.place f
  rw [hf] at hat
  have hself : (s.setState f .ready).fiber f = { s.fiber f with state := .ready } :=
    setFiber_fiber _ _ _
  have hset : Inv (s.setState f .ready) pending (update loc f (.moving home)) :=
    hi.move (fun _ hg => .setFiber hg) hat.setFiber hi.lists.setFiber
  have hready := hset.toReady (update_self _ _ _)
    (by rw [hself]; exact ⟨rfl, hawaits, hwhole.setState _⟩) (by rw [hself]; exact hhome) hcurrent
    (scheduled_addToReadyQueue _ f) ⟨rfl, rfl, rfl, rfl⟩
  rwa [update_idem] at hready

/-- A fiber on its way is made ready. -/
theorem Moves.makeReady (hx : s.fiber f = x) (hawaits : x.awaits = false) (hwhole : Whole x)
    (hhome : x.strandOf = home) (hcurrent : s.current ≠ some f) :
    Settled (s.makeReady f) pending := by
  subst hx
  obtain ⟨loc, hi, hf, honly⟩ := hm
  refine ⟨_, hi.makeReady hf hawaits hwhole hhome hcurrent, fun g r hg => ?_⟩
  rcases update_eq_iff.mp hg with ⟨-, h⟩ | ⟨hgf, h⟩
  · cases h
  · exact hgf (honly g r h)

end

/-! ### Through a strand -/

section

variable [DecidableEq S]

/-- The strand is free, and the fiber becomes its active one. -/
theorem Moves.enter (hm : Moves s pending f none) (hfree : (s.strand r).active = none) :
    Moves (s.setStrand r { s.strand r with active := some f }) pending f (some r) := by
  refine hm.go (fun g hg => .setStrand .rfl ?_) (fun hat => hat.setStrand ?_ ?_ ?_)
    fun hl => hl.setStrand (hl.waits r) nofun (hl.history r)
  · rw [hfree]
    exact ⟨fun h => absurd (some.inj h).symm hg, nofun⟩
  · exact (atPlace_moving.mp hat).2.2.1 r
  · exact ⟨fun _ => rfl, fun _ => rfl⟩
  · exact fun t ht => ⟨nofun, fun h => absurd (some.inj h).symm ht⟩

/-- No fiber waits for the strand, and it becomes free. -/
theorem Moves.vacate (hm : Moves s pending f (some r)) (hempty : (s.strand r).queue = []) :
    Moves (s.setStrand r { s.strand r with active := none, queue := [] }) pending f none := by
  have hactive := hm.active
  refine hm.go (fun g hg => .setStrand (by rw [hempty]) ?_)
    (fun hat => hat.setStrand not_mem_nil ⟨nofun, nofun⟩ ?_)
    fun hl => hl.setStrand nodup_nil (fun _ => rfl) (hempty ▸ hl.history r)
  · rw [hactive]
    exact ⟨nofun, fun h => absurd (some.inj h).symm hg⟩
  · exact fun t ht => ⟨fun h => absurd (some.inj h).symm ht, nofun⟩

/-- The strand has an active fiber, and the fiber joins the queue. -/
theorem Moves.wait (hm : Moves s pending f none) (hbusy : (s.strand r).active ≠ none)
    (hx : s.fiber f = x) (hfits : Fits x (.waits r)) (hcurrent : s.current ≠ some f) :
    Settled (s.setStrand r { s.strand r with
      queue := (s.strand r).queue ++ [f], queued := (s.strand r).queued ++ [f] }) pending := by
  have hnot : f ∉ (s.strand r).queue := by
    obtain ⟨loc, hi, hf, -⟩ := hm
    exact (atPlace_moving.mp (hf ▸ hi.place f)).2.2.1 r
  refine hm.arrive (q := .waits r) nofun (fun g hg => .setStrand ?_ .rfl)
    (fun hat => ?_) fun hl => hl.setStrand ?_ (fun h => absurd h hbusy) ?_
  · exact mem_append_singleton.trans (or_iff_left hg)
  · obtain ⟨hready, hwoken, hwaits, hactive⟩ := atPlace_moving.mp hat
    subst hx
    refine ⟨hfits, ⟨fun h => absurd h hready, nofun⟩, nofun, fun h => absurd h hcurrent,
      ⟨fun h => absurd h hwoken, nofun⟩, ?_, ?_⟩
    · refine forall_setStrand (P := fun t y => f ∈ y.queue ↔ Place.waits r = .waits t) ?_
        fun t ht => ⟨fun h => absurd h (hwaits t), fun h => ?_⟩
      · exact ⟨fun _ => rfl, fun _ => mem_append_singleton.mpr (.inr rfl)⟩
      · cases h
        exact absurd rfl ht
    · exact forall_setStrand (P := fun _ y => y.active = some f ↔ False)
        ((hactive r).trans ⟨nofun, False.elim⟩) fun t _ => (hactive t).trans ⟨nofun, False.elim⟩
  · exact nodup_append_singleton (hl.waits r) hnot
  · rw [hl.history r, append_assoc]

/-- The first fiber of the queue becomes the active one instead of the one on its way. -/
theorem Inv.handOver {next : F} {rest : List F} (hi : Inv s pending loc)
    (hf : loc f = .moving (some r)) (hqueue : (s.strand r).queue = next :: rest) :
    loc next = .waits r ∧
      Inv (s.setStrand r ⟨some next, rest, (s.strand r).queued, (s.strand r).served ++ [next]⟩)
        pending (update (update loc f (.moving none)) next (.moving (some r))) := by
  have hn : loc next = .waits r := ((hi.place next).waits r).mp (by
    rw [hqueue]; exact mem_cons_self)
  have hnf : next ≠ f := by
    rintro rfl
    rw [hf] at hn
    cases hn
  have hatf := hi.place f
  have hatn := hi.place next
  rw [hf] at hatf
  rw [hn] at hatn
  have hactive : (s.strand r).active = some f := (hatf.active r).mpr rfl
  have hnodup : (next :: rest).Nodup := hqueue ▸ hi.lists.waits r
  refine ⟨hn, fun g => ?_, hi.lists.setStrand hnodup.of_cons nofun ?_⟩
  · by_cases hgn : g = next
    · rw [hgn, update_self]
      refine atPlace_moving.mpr ⟨fun h => absurd (hatn.ready.mp h) nofun,
        fun h => absurd (hatn.woken.mp h) nofun, ?_, ?_⟩
      · refine forall_setStrand (P := fun t y => next ∉ y.queue) (nodup_cons.mp hnodup).1
          fun t ht h => ?_
        cases (hatn.waits t).mp h
        exact ht rfl
      · refine forall_setStrand (P := fun t y => y.active = some next ↔ some r = some t)
          ⟨fun _ => rfl, fun _ => rfl⟩ fun t ht => ?_
        exact (hatn.active t).trans ⟨nofun, fun h => absurd (some.inj h).symm ht⟩
    · rw [update_of_ne hgn]
      by_cases hgf : g = f
      · rw [hgf, update_self]
        refine hatf.setStrand (fun h => ?_) ?_ fun t ht => ?_
        · exact nomatch (hatf.waits r).mp (by rw [hqueue]; exact mem_cons_of_mem _ h)
        · exact ⟨fun h => absurd (some.inj h) hnf, nofun⟩
        · exact ⟨fun h => absurd (some.inj h).symm ht, nofun⟩
      · rw [update_of_ne hgf]
        refine (hi.place g).of_same (.setStrand ?_ ?_)
        · rw [hqueue, mem_cons]
          exact ⟨.inr, fun h => h.resolve_left hgn⟩
        · rw [hactive]
          exact ⟨fun h => absurd (some.inj h).symm hgn,
            fun h => absurd (some.inj h).symm hgf⟩
  · rw [hi.lists.history r, hqueue]
    exact append_cons _ _ _

/-- The fiber leaves its strand to the next one of the queue. -/
theorem Moves.release (hm : Moves s pending f (some r)) :
    Moves (s.releaseStrand r) pending f none ∧ (s.releaseStrand r).fiber f = s.fiber f ∧
      (s.releaseStrand r).current = s.current := by
  have hm' := hm
  obtain ⟨loc, hi, hf, honly⟩ := hm
  rw [State.releaseStrand, Strand.release, dropWhile_finished hi]
  split
  next x heq =>
    split at heq
    next hqueue =>
      cases heq
      exact ⟨hm'.vacate hqueue, rfl, rfl⟩
    next => cases heq
  next n x heq =>
    split at heq
    next => cases heq
    next next rest hqueue =>
      cases heq
      obtain ⟨hn, hover⟩ := hi.handOver hf hqueue
      have hatn := hi.place n
      rw [hn] at hatn
      have hfn : f ≠ n := by
        rintro rfl
        rw [hf] at hn
        cases hn
      have hready := hover.makeReady (update_self _ _ _) hatn.fits.2.1 hatn.fits.2.2.1
        hatn.fits.2.2.2 fun h => by rcases hatn.current h with h | ⟨_, h⟩ <;> cases h
      refine ⟨⟨_, hready, ?_, fun g t hg => ?_⟩, update_of_ne hfn _ _, rfl⟩
      · rw [update_of_ne hfn, update_of_ne hfn, update_self]
      · rcases update_eq_iff.mp hg with ⟨-, h⟩ | ⟨hgn, h⟩
        · cases h
        · rw [update_of_ne hgn] at h
          rcases update_eq_iff.mp h with ⟨h, -⟩ | ⟨-, h⟩
          · exact h
          · exact honly g t h

/-! ### Back in the run loop -/

/-- To settle a fiber without a home strand is to clear the current fiber. -/
theorem settle_of_home_none (hhome : (s.fiber f).homeStrand = none) :
    s.settle f = { s with current := none } := by
  simp only [State.settle, hhome]

/-- A fiber that is suspended leaves its strand. -/
theorem Moves.settle (hm : Moves s pending f home) (hcurrent : s.current = some f)
    (hhome : (s.fiber f).homeStrand = home)
    (hstate : (s.fiber f).state ∈ [FiberState.parked, .recyclable, .blocked, .sleeping]) :
    Moves (s.settle f) pending f none ∧ (s.settle f).fiber f = s.fiber f ∧
      (s.settle f).current = none := by
  have hclear := hm.clearCurrent hcurrent
  cases home with
  | none =>
    rw [settle_of_home_none hhome]
    exact ⟨hclear, rfl, rfl⟩
  | some r =>
    have hsettle : s.settle f = { s with current := none }.releaseStrand r := by
      simp only [State.settle, hhome]
      rw [if_pos ⟨hm.active, hstate⟩]
    rw [hsettle]
    exact hclear.release

end

end

end Scheduler

end PsiServe.Fiber
