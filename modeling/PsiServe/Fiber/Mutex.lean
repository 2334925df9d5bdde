import PsiServe.Base.Run
import PsiServe.Base.Update

/-!
# The fiber mutex

`fiber_mutex` (`fiber_mutex.cpp:12–75`): an atomic owner, and a wait queue under a spin lock. The
state holds what the fibers share and, for each of them, where it stands in the code of the mutex.
Every access to `_owner` and to the queue is a step of its own, as are the operations of the spin
lock; a step of one fiber can come between any two steps of another. A fiber that waits is parked
as soon as it has let go of the spin lock: a wake that comes before it is suspended stays in the
wake list of its scheduler until it is.
-/

namespace PsiServe.Fiber

open Base Function List

namespace Mutex

/-- Where a fiber stands in the code of the mutex. -/
inductive Pc (F : Type) where
  /-- Outside of it. -/
  | out
  /-- In `lock`, before `_queue_lock.lock()`. -/
  | lockSlow
  /-- In `lock`, before the second test of the owner. -/
  | lockCheck
  /-- In `lock`, before it joins the queue. -/
  | lockAppend
  /-- In `lock`, before `_queue_lock.unlock()`, with or without the mutex. -/
  | lockRelease (granted : Bool)
  /-- In `parkCurrentFiber`. -/
  | parked
  /-- In `parkCurrentFiber`, after a wake. -/
  | woken
  /-- In `unlock`, before `_queue_lock.lock()`. -/
  | unlockSlow
  /-- In `unlock`, before it looks at the queue. -/
  | unlockPop
  /-- In `unlock`, before it stores the next owner. -/
  | unlockStore (next : Option F)
  /-- In `unlock`, before `_queue_lock.unlock()`. -/
  | unlockRelease (next : Option F)
  /-- In `unlock`, before `Scheduler::wake`. -/
  | unlockWake (next : F)
deriving DecidableEq

/-- A mutex and the fibers that use it. `entered` and `acquired` are histories: the fibers in the
order in which they joined the queue, and those that came out of it with the mutex. -/
structure State (F : Type) where
  owner : Option F
  queue : List F
  queueLock : Option F
  pc : F → Pc F
  holds : F → Bool
  entered : List F
  acquired : List F

/-- What can happen next: a fiber calls a function of the mutex, or takes its next step in one. -/
inductive Action (F : Type) where
  | lock (f : F)
  | tryLock (f : F)
  | unlock (f : F)
  | advance (f : F)

variable {F : Type} {s s' : State F} {f g : F}

def init : State F where
  owner := none
  queue := []
  queueLock := none
  pc _ := .out
  holds _ := false
  entered := []
  acquired := []

section

variable [DecidableEq F]

namespace State

def goto (s : State F) (f : F) (p : Pc F) : State F := { s with pc := update s.pc f p }

def setHolds (s : State F) (f : F) (b : Bool) : State F :=
  { s with holds := update s.holds f b }

end State

/-- The next step of a fiber in the code of the mutex. -/
def advance (s : State F) (f : F) : Option (State F) :=
  match s.pc f with
  | .out | .parked => none
  | .lockSlow =>
    if s.queueLock = none then some ({ s with queueLock := some f }.goto f .lockCheck) else none
  | .lockCheck =>
    if s.owner = none then some ({ s with owner := some f }.goto f (.lockRelease true))
    else some (s.goto f .lockAppend)
  | .lockAppend =>
    some ({ s with queue := s.queue ++ [f], entered := s.entered ++ [f] }.goto f
      (.lockRelease false))
  | .lockRelease true => some (({ s with queueLock := none }.goto f .out).setHolds f true)
  | .lockRelease false => some ({ s with queueLock := none }.goto f .parked)
  | .woken => some (({ s with acquired := s.acquired ++ [f] }.goto f .out).setHolds f true)
  | .unlockSlow =>
    if s.queueLock = none then some ({ s with queueLock := some f }.goto f .unlockPop) else none
  | .unlockPop =>
    match s.queue with
    | [] => some (s.goto f (.unlockStore none))
    | next :: rest => some ({ s with queue := rest }.goto f (.unlockStore (some next)))
  | .unlockStore next =>
    some (({ s with owner := next }.goto f (.unlockRelease next)).setHolds f false)
  | .unlockRelease none => some ({ s with queueLock := none }.goto f .out)
  | .unlockRelease (some next) => some ({ s with queueLock := none }.goto f (.unlockWake next))
  | .unlockWake next => some ((s.goto next .woken).goto f .out)

/-- One step. Only a fiber that holds the mutex unlocks it; a fiber that holds it may lock it
again, and waits for itself. -/
def step (s : State F) : Action F → Option (State F)
  | .lock f =>
    if s.pc f = .out then
      if s.owner = none then some ({ s with owner := some f }.setHolds f true)
      else some (s.goto f .lockSlow)
    else none
  | .tryLock f =>
    if s.pc f = .out then
      if s.owner = none then some ({ s with owner := some f }.setHolds f true) else some s
    else none
  | .unlock f => if s.pc f = .out ∧ s.holds f = true then some (s.goto f .unlockSlow) else none
  | .advance f => advance s f

end

/-! ### What a fiber can rely on -/

/-- A fiber that was taken from the queue and has not come out of `lock` yet, and the fiber in
`unlock` that has not woken it. -/
abbrev Hand (F : Type) := Option (F × Option F)

/-- The fiber that is handed the mutex. -/
def Hand.toList (h : Hand F) : List F := (h.map Prod.fst).toList

/-- What holds when a fiber stands at a place of the code. -/
def At (s : State F) (h : Hand F) (f : F) : Pc F → Prop
  | .out | .lockSlow | .parked => True
  | .lockCheck | .lockRelease false | .unlockRelease none => s.queueLock = some f
  | .lockAppend => s.queueLock = some f ∧ s.owner ≠ none
  | .lockRelease true => s.queueLock = some f ∧ s.owner = some f
  | .woken => h = some (f, none) ∧ s.owner = some f
  | .unlockSlow => s.holds f = true
  | .unlockPop => s.queueLock = some f ∧ s.holds f = true
  | .unlockStore none => s.queueLock = some f ∧ s.holds f = true ∧ s.queue = []
  | .unlockStore (some n) => s.queueLock = some f ∧ s.holds f = true ∧ h = some (n, some f)
  | .unlockRelease (some n) => s.queueLock = some f ∧ h = some (n, some f) ∧ s.owner = some n
  | .unlockWake n => h = some (n, some f) ∧ s.owner = some n

/-- What the steps of other fibers leave to a fiber: the queue while it has the spin lock, the
mutex while it has that, and its part in handing the mutex over. -/
structure Rely (f : F) (s : State F) (h : Hand F) (s' : State F) (h' : Hand F) : Prop where
  lock : s.queueLock = some f → s'.queueLock = some f ∧ s'.queue = s.queue ∧
    (s.owner ≠ none → s'.owner ≠ none)
  holds : s'.holds f = s.holds f
  owner : s.owner = some f → s'.owner = some f
  hand : ∀ n c, h = some (n, c) → c = some f ∨ c = none ∧ n = f →
    h' = h ∧ (s.owner = some n → s'.owner = some n)

variable {h h' : Hand F} {p q : Pc F}

private theorem At.of_rely (hr : Rely f s h s' h') (hat : At s h f p) : At s' h' f p := by
  cases p with
  | out | lockSlow | parked => trivial
  | lockCheck => exact (hr.lock hat).1
  | lockAppend => exact ⟨(hr.lock hat.1).1, (hr.lock hat.1).2.2 hat.2⟩
  | lockRelease granted =>
    cases granted with
    | true => exact ⟨(hr.lock hat.1).1, hr.owner hat.2⟩
    | false => exact (hr.lock hat).1
  | woken =>
    obtain ⟨hh, howner⟩ := hr.hand f none hat.1 (.inr ⟨rfl, rfl⟩)
    exact ⟨hh.trans hat.1, howner hat.2⟩
  | unlockSlow => exact hr.holds.trans hat
  | unlockPop => exact ⟨(hr.lock hat.1).1, hr.holds.trans hat.2⟩
  | unlockStore next =>
    cases next with
    | none => exact ⟨(hr.lock hat.1).1, hr.holds.trans hat.2.1, (hr.lock hat.1).2.1.trans hat.2.2⟩
    | some n =>
      obtain ⟨hh, -⟩ := hr.hand n (some f) hat.2.2 (.inl rfl)
      exact ⟨(hr.lock hat.1).1, hr.holds.trans hat.2.1, hh.trans hat.2.2⟩
  | unlockRelease next =>
    cases next with
    | none => exact (hr.lock hat).1
    | some n =>
      obtain ⟨hh, howner⟩ := hr.hand n (some f) hat.2.1 (.inl rfl)
      exact ⟨(hr.lock hat.1).1, hh.trans hat.2.1, howner hat.2.2⟩
  | unlockWake n =>
    obtain ⟨hh, howner⟩ := hr.hand n (some f) hat.1 (.inl rfl)
    exact ⟨hh.trans hat.1, howner hat.2⟩

/-! ### The invariant -/

/-- In the queue, or just taken from it. -/
def Pc.waits : Pc F → Bool
  | .lockRelease false | .parked => true
  | _ => false

/-- In `unlock`, with the fiber that is handed the mutex. -/
def Pc.carries : Pc F → Option F
  | .unlockStore next | .unlockRelease next => next
  | .unlockWake next => some next
  | _ => none

/-- What the fibers share. -/
structure Shared (s : State F) (h : Hand F) : Prop where
  holder : ∀ f, s.holds f = true → s.owner = some f
  empty : s.owner = none → s.queue = []
  carried : ∀ n g, h = some (n, some g) → s.pc n = .parked ∧ (s.pc g).carries = some n
  woken : ∀ n, h = some (n, none) → s.pc n = .woken
  waiting : ∀ f ∈ s.queue, (s.pc f).waits = true
  nodup : (h.toList ++ s.queue).Nodup
  order : s.entered = s.acquired ++ h.toList ++ s.queue

structure Inv (s : State F) (h : Hand F) : Prop where
  shared : Shared s h
  places : ∀ f, At s h f (s.pc f)

private theorem inv_init : Inv (init : State F) none := by
  refine ⟨?_, fun _ => trivial⟩
  constructor <;> simp [init, Hand.toList]

private theorem Inv.at_pc (hi : Inv s h) (hpc : s.pc f = p) : At s h f p := hpc ▸ hi.places f

/-- A fiber that does not wait is not in the queue. -/
theorem Shared.ne_of_mem (hs : Shared s h) (hpc : s.pc f = p) (hwaits : p.waits = false)
    (hg : g ∈ s.queue) : g ≠ f := by
  rintro rfl
  have hwait := hs.waiting g hg
  rw [hpc, hwaits] at hwait
  cases hwait

/-- A fiber that neither waits nor was woken is not handed the mutex. -/
theorem Inv.ne_of_hand {n : F} {c : Option F} (hi : Inv s h) (hh : h = some (n, c))
    (hpc : s.pc f = p) (hwaits : p.waits = false) (hwoken : p ≠ .woken) : n ≠ f := by
  rintro rfl
  cases c with
  | none => exact hwoken (hpc.symm.trans (hi.shared.woken n hh))
  | some g =>
    cases hpc.symm.trans (hi.shared.carried n g hh).1
    cases hwaits

/-- While a fiber is about to take the next one from the queue, nobody is handed the mutex. -/
theorem Inv.hand_eq_none (hi : Inv s h) (hpc : s.pc f = .unlockPop) : h = none := by
  have hat := hi.at_pc hpc
  have howner := hi.shared.holder f hat.2
  cases h with
  | none => rfl
  | some hand =>
    obtain ⟨n, c⟩ := hand
    have hnf : s.owner ≠ some n := fun hown =>
      hi.ne_of_hand rfl hpc rfl nofun (Option.mem_unique hown howner)
    cases c with
    | none => exact absurd (hi.at_pc (hi.shared.woken n rfl)).2 hnf
    | some g =>
      obtain ⟨-, hg⟩ := hi.shared.carried n g rfl
      have hatg := hi.places g
      have hgf : s.queueLock = some g → False := by
        intro hlock
        have heq : f = g := Option.mem_unique hat.1 hlock
        rw [← heq, hpc] at hg
        cases hg
      generalize s.pc g = p at hg hatg
      cases p with
      | unlockStore next =>
        cases hg
        exact absurd hatg.1 hgf
      | unlockRelease next =>
        cases hg
        exact absurd hatg.1 hgf
      | unlockWake next =>
        cases hg
        exact absurd hatg.2 hnf
      | _ => cases hg

private theorem Shared.queueLock (hs : Shared s h) (l : Option F) : Shared
    { s with queueLock := l } h :=
  { hs with }

private theorem some_ne_of_ne {l : Option F} (hl : l = some f) (hg : g ≠ f) : l ≠ some g := by
  rw [hl]
  exact fun heq => hg (Option.some.inj heq).symm

/-- A fiber that is about to join the queue is not in it, and is not handed the mutex. -/
theorem Inv.not_mem_waiting (hi : Inv s h) (hpc : s.pc f = .lockAppend) :
    f ∉ h.toList ++ s.queue := by
  intro hmem
  rcases mem_append.mp hmem with hhand | hqueue
  · cases h with
    | none => cases hhand
    | some hand => exact hi.ne_of_hand rfl hpc rfl nofun (mem_singleton.mp hhand).symm
  · exact hi.shared.ne_of_mem hpc rfl hqueue rfl

variable [DecidableEq F]

/-- A step of one fiber, from what it does and where it leads. -/
theorem Inv.of_step (hi : Inv s h) (hrely : ∀ g, g ≠ f → Rely g s h s' h')
    (hpc : s'.pc = update s.pc f q) (hat : At s' h' f q) (hshared : Shared s' h') : Inv s' h' := by
  refine ⟨hshared, fun g => ?_⟩
  rw [hpc]
  by_cases hg : g = f
  · rw [hg, update_self]
    exact hat
  · rw [update_of_ne hg]
    exact (hi.places g).of_rely (hrely g hg)

private theorem goto_pc_of_ne (hg : g ≠ f) (p : Pc F) : (s.goto f p).pc g = s.pc g :=
  update_of_ne hg _ _

private theorem goto_pc (p : Pc F) : (s.goto f p).pc f = p := update_self _ _ _

/-- The places of the fibers that wait stay, and so does what is carried. -/
theorem Shared.places (hs : Shared s h) (hpc : s.pc f = p) (hwaits : p.waits = false)
    (hwoken : p ≠ .woken) (hcarries : q.carries = p.carries) :
    (∀ n g, h = some (n, some g) →
      (s.goto f q).pc n = .parked ∧ ((s.goto f q).pc g).carries = some n) ∧
      (∀ n, h = some (n, none) → (s.goto f q).pc n = .woken) ∧
        ∀ g ∈ s.queue, ((s.goto f q).pc g).waits = true := by
  refine ⟨fun n g hh => ?_, fun n hh => ?_, fun g hg => ?_⟩
  · obtain ⟨hn, hg⟩ := hs.carried n g hh
    have hnf : n ≠ f := by
      rintro rfl
      cases hpc.symm.trans hn
      cases hwaits
    refine ⟨by rwa [goto_pc_of_ne hnf], ?_⟩
    by_cases hgf : g = f
    · rw [hgf, hpc] at hg
      rw [hgf, goto_pc, hcarries, hg]
    · rwa [goto_pc_of_ne hgf]
  · have hn := hs.woken n hh
    have hnf : n ≠ f := fun heq => hwoken (hpc.symm.trans (heq ▸ hn))
    rwa [goto_pc_of_ne hnf]
  · rw [goto_pc_of_ne (hs.ne_of_mem hpc hwaits hg)]
    exact hs.waiting g hg

/-! ### The steps -/

section

variable {n : F}

/-- The next step is only about where the fiber stands. -/
theorem Rely.goto (p : Pc F) : Rely g s h (s.goto f p) h :=
  ⟨fun hlock => ⟨hlock, rfl, id⟩, rfl, id, fun _ _ _ _ => ⟨rfl, id⟩⟩

/-- The spin lock is taken or let go by a fiber that is the only one to do it. -/
theorem Rely.queueLock (hfree : s.queueLock ≠ some g) (l : Option F) (p : Pc F) :
    Rely g s h ({ s with queueLock := l }.goto f p) h :=
  ⟨fun hlock => absurd hlock hfree, rfl, id, fun _ _ _ _ => ⟨rfl, id⟩⟩

private theorem Shared.goto (hs : Shared s h) (hpc : s.pc f = p) (hwaits : p.waits = false)
    (hwoken : p ≠ .woken) (hcarries : q.carries = p.carries) : Shared (s.goto f q) h := by
  obtain ⟨hcarried, hwoke, hwaiting⟩ := hs.places hpc hwaits hwoken hcarries
  exact ⟨hs.holder, hs.empty, hcarried, hwoke, hwaiting, hs.nodup, hs.order⟩

section

variable (hi : Inv s h)

include hi

/-- A step that leads to another place and nowhere else. -/
theorem inv_goto (hpc : s.pc f = p) (hwaits : p.waits = false) (hwoken : p ≠ .woken)
    (hcarries : q.carries = p.carries) (hat : At s h f q) :
    Inv (s.goto f q) h := by
  exact hi.of_step (fun _ _ => .goto q) rfl (hat.of_rely (.goto q))
    (hi.shared.goto hpc hwaits hwoken hcarries)

/-- The spin lock is taken or let go. -/
theorem inv_queueLock {l : Option F} (hlock : ∀ g, g ≠ f → s.queueLock ≠ some g)
    (hpc : s.pc f = p)
    (hwaits : p.waits = false) (hwoken : p ≠ .woken) (hcarries : q.carries = p.carries)
    (hat : At { s with queueLock := l } h f q) :
    Inv ({ s with queueLock := l }.goto f q) h := by
  exact hi.of_step (fun g hg => .queueLock (hlock g hg) l q) rfl (hat.of_rely (.goto q))
    ((hi.shared.queueLock l).goto hpc hwaits hwoken hcarries)

/-- A fiber finds the mutex free and takes it. -/
theorem inv_acquire (hpc : s.pc f = .out) (howner : s.owner = none) :
    Inv ({ s with owner := some f }.setHolds f true) h := by
  have hs := hi.shared
  have hnone : ∀ {g}, s.owner ≠ some g := by simp [howner]
  refine hi.of_step (fun g hg => ?_) (update_eq_self f s.pc).symm ?_ ?_
  · refine ⟨fun hlock => ⟨hlock, rfl, fun _ => Option.some_ne_none f⟩, ?_,
      fun hown => absurd hown hnone, fun n c _ _ => ⟨rfl, fun hown => absurd hown hnone⟩⟩
    exact update_of_ne hg _ _
  · rw [hpc]
    trivial
  · refine { hs with holder := ?_, empty := nofun }
    intro g hg
    rcases update_eq_iff.mp hg with ⟨rfl, -⟩ | ⟨-, hg⟩
    · rfl
    · exact absurd (hs.holder g hg) hnone

/-- A fiber finds the mutex free at its second look. -/
theorem inv_lockCheck (hpc : s.pc f = .lockCheck) (howner : s.owner = none) :
    Inv ({ s with owner := some f }.goto f (.lockRelease true)) h := by
  have hs := hi.shared
  have hnone : ∀ {g}, s.owner ≠ some g := by simp [howner]
  have hat := hi.at_pc hpc
  refine hi.of_step (fun g hg => ?_) rfl ?_ ?_
  · exact ⟨fun hlock => ⟨hlock, rfl, fun _ => Option.some_ne_none f⟩, rfl,
      fun hown => absurd hown hnone, fun n c _ _ => ⟨rfl, fun hown => absurd hown hnone⟩⟩
  · exact ⟨hat, rfl⟩
  · have hshared : Shared { s with owner := some f } h :=
      ⟨fun g hg => absurd (hs.holder g hg) hnone, nofun, hs.carried, hs.woken,
        hs.waiting, hs.nodup, hs.order⟩
    exact hshared.goto hpc rfl nofun rfl

/-- A fiber joins the queue. -/
theorem inv_lockAppend (hpc : s.pc f = .lockAppend) :
    Inv ({ s with queue := s.queue ++ [f], entered := s.entered ++ [f] }.goto f
      (.lockRelease false)) h := by
  have hs := hi.shared
  have hat := hi.at_pc hpc
  have hgoto : Shared (s.goto f (.lockRelease false)) h := hs.goto hpc rfl nofun rfl
  refine hi.of_step (fun g hg => ?_) rfl ?_ ?_
  · exact ⟨fun hlock => absurd hlock (some_ne_of_ne hat.1 hg), rfl, id, fun _ _ _ _ => ⟨rfl, id⟩⟩
  · exact hat.1
  · refine ⟨hs.holder, fun hown => absurd hown hat.2, hgoto.carried, hgoto.woken, ?_, ?_, ?_⟩
    · intro g hg
      rcases mem_append.mp hg with hg | hg
      · exact hgoto.waiting g hg
      · rw [mem_singleton.mp hg, goto_pc]
        rfl
    · rw [State.goto, ← append_assoc]
      exact nodup_append_singleton hs.nodup (hi.not_mem_waiting hpc)
    · simp only [State.goto]
      rw [hs.order, append_assoc]

/-- A fiber comes out of `lock` with the mutex it found free at its second look. -/
theorem inv_lockRelease (hpc : s.pc f = .lockRelease true) :
    Inv (({ s with queueLock := none }.goto f .out).setHolds f true) h := by
  have hs := hi.shared
  have hat := hi.at_pc hpc
  have hgoto : Shared ({ s with queueLock := none }.goto f .out) h :=
    (hs.queueLock none).goto hpc rfl nofun rfl
  refine hi.of_step (fun g hg => ?_) rfl ?_ ?_
  · exact ⟨fun hlock => absurd hlock (some_ne_of_ne hat.1 hg), update_of_ne hg _ _, id,
      fun _ _ _ _ => ⟨rfl, id⟩⟩
  · trivial
  · refine { hgoto with holder := ?_ }
    intro g hg
    rcases update_eq_iff.mp hg with ⟨rfl, -⟩ | ⟨-, hg⟩
    · exact hat.2
    · exact hs.holder g hg

/-- A fiber in the queue lets go of the spin lock. -/
theorem inv_park (hpc : s.pc f = .lockRelease false) :
    Inv ({ s with queueLock := none }.goto f .parked) h := by
  have hs := hi.shared
  have hat := hi.at_pc hpc
  refine hi.of_step (fun g hg => .queueLock (some_ne_of_ne hat hg) _ _) rfl trivial ?_
  · refine ⟨hs.holder, hs.empty, ?_, ?_, ?_, hs.nodup, hs.order⟩
    · intro n g hh
      obtain ⟨hn, hg⟩ := hs.carried n g hh
      have hgf : g ≠ f := by
        rintro rfl
        rw [hpc] at hg
        cases hg
      refine ⟨?_, by rwa [goto_pc_of_ne hgf]⟩
      by_cases hnf : n = f
      · rw [hnf, goto_pc]
      · rwa [goto_pc_of_ne hnf]
    · intro n hh
      have hn := hs.woken n hh
      have hnf : n ≠ f := by
        rintro rfl
        rw [hpc] at hn
        cases hn
      rwa [goto_pc_of_ne hnf]
    · intro g hg
      by_cases hgf : g = f
      · rw [hgf, goto_pc]
        rfl
      · rw [goto_pc_of_ne hgf]
        exact hs.waiting g hg

/-- A fiber that was handed the mutex comes out of `lock`. -/
theorem inv_resume (hpc : s.pc f = .woken) :
    Inv (({ s with acquired := s.acquired ++ [f] }.goto f .out).setHolds f true) none := by
  have hs := hi.shared
  have hat := hi.at_pc hpc
  obtain ⟨rfl, howner⟩ := hat
  refine hi.of_step (fun g hg => ?_) rfl ?_ ?_
  · refine ⟨fun hlock => ⟨hlock, rfl, id⟩, update_of_ne hg _ _, id, ?_⟩
    rintro n c heq (rfl | ⟨rfl, rfl⟩)
    · cases heq
    · cases heq
      exact absurd rfl hg
  · trivial
  · refine ⟨?_, hs.empty, nofun, nofun, ?_, ?_, ?_⟩
    · intro g hg
      rcases update_eq_iff.mp hg with ⟨rfl, -⟩ | ⟨-, hg⟩
      · exact howner
      · exact hs.holder g hg
    · intro g hg
      simp only [State.setHolds, goto_pc_of_ne (hs.ne_of_mem hpc rfl hg)]
      exact hs.waiting g hg
    · exact (nodup_cons.mp hs.nodup).2
    · change s.entered = s.acquired ++ [f] ++ [] ++ s.queue
      rw [append_nil]
      exact hs.order

/-- The next fiber is taken from the queue. -/
theorem inv_unlockPop {rest : List F} (hpc : s.pc f = .unlockPop)
    (hqueue : s.queue = n :: rest) :
    Inv ({ s with queue := rest }.goto f (.unlockStore (some n))) (some (n, some f)) := by
  have hs := hi.shared
  obtain rfl := hi.hand_eq_none hpc
  have hat := hi.at_pc hpc
  have hmem : ∀ {g}, g ∈ rest → g ∈ s.queue := fun {g} hg => by
    rw [hqueue]
    exact mem_cons_of_mem n hg
  have hne : ∀ {g}, g ∈ s.queue → g ≠ f := hs.ne_of_mem hpc rfl
  have hnq : n ∈ s.queue := by
    rw [hqueue]
    exact mem_cons_self
  -- the spin lock is taken, so the next fiber has let go of it
  have hparked : s.pc n = .parked := by
    have hwait := hs.waiting n hnq
    have hatn := hi.places n
    generalize s.pc n = p at hwait hatn
    cases p with
    | parked => rfl
    | lockRelease granted =>
      cases granted with
      | true => cases hwait
      | false => exact absurd (Option.mem_unique hatn hat.1) (hne hnq)
    | _ => cases hwait
  refine hi.of_step (fun g hg => ?_) rfl ?_ ?_
  · exact ⟨fun hlock => absurd hlock (some_ne_of_ne hat.1 hg), rfl, id, nofun⟩
  · exact ⟨hat.1, hat.2, rfl⟩
  · refine ⟨hs.holder, ?_, ?_, nofun, ?_, ?_, ?_⟩
    · intro hown
      rw [hs.holder f hat.2] at hown
      cases hown
    · intro m g heq
      cases heq
      rw [goto_pc_of_ne (hne hnq), goto_pc]
      exact ⟨hparked, rfl⟩
    · intro g hg
      rw [goto_pc_of_ne (hne (hmem hg))]
      exact hs.waiting g (hmem hg)
    · have hnodup := hs.nodup
      rw [hqueue] at hnodup
      exact hnodup
    · have horder := hs.order
      rw [hqueue] at horder
      rw [State.goto]
      simpa [Hand.toList] using horder

/-- The owner is stored, and the fiber does not hold the mutex any more. -/
theorem inv_unlockStore {next : Option F} (hpc : s.pc f = .unlockStore next) :
    Inv (({ s with owner := next }.goto f (.unlockRelease next)).setHolds f false) h := by
  have hs := hi.shared
  have hat := hi.at_pc hpc
  have hplaces := hs.places (q := .unlockRelease next) hpc rfl nofun rfl
  have hlock : s.queueLock = some f := by cases next <;> exact hat.1
  have howner : s.owner = some f := hs.holder f (by cases next <;> exact hat.2.1)
  refine hi.of_step (fun g hg => ?_) rfl ?_ ?_
  · refine ⟨fun hl => absurd hl (some_ne_of_ne hlock hg), update_of_ne hg _ _,
      fun hown => absurd hown (some_ne_of_ne howner hg), fun n c hh _ => ⟨rfl, fun hown => ?_⟩⟩
    exact absurd hown (some_ne_of_ne howner (hi.ne_of_hand hh hpc rfl nofun))
  · cases next with
    | none => exact hlock
    | some n => exact ⟨hlock, hat.2.2, rfl⟩
  · refine ⟨?_, ?_, hplaces.1, hplaces.2.1, hplaces.2.2, hs.nodup, hs.order⟩
    · intro g hg
      by_cases hgf : g = f
      · simp [State.setHolds, hgf] at hg
      · simp only [State.setHolds, update_of_ne hgf] at hg
        exact absurd (hs.holder g hg) (some_ne_of_ne howner hgf)
    · intro hnext
      have hnext : next = none := hnext
      rw [hnext] at hat
      exact hat.2.2

/-- The next owner is woken. -/
theorem inv_unlockWake (hpc : s.pc f = .unlockWake n) :
    Inv ((s.goto n .woken).goto f .out) (some (n, none)) := by
  have hs := hi.shared
  obtain ⟨rfl, howner⟩ := hi.at_pc hpc
  have hnf : n ≠ f := hi.ne_of_hand rfl hpc rfl nofun
  obtain ⟨hnq, hnodup⟩ := nodup_cons.mp hs.nodup
  have hwoke : ((s.goto n .woken).goto f .out).pc n = .woken := by
    rw [goto_pc_of_ne hnf, goto_pc]
  refine ⟨⟨hs.holder, hs.empty, nofun, ?_, ?_, hs.nodup, hs.order⟩, ?_⟩
  · intro m heq
    cases heq
    exact hwoke
  · intro g hg
    have hgn : g ≠ n := fun heq => hnq (heq ▸ hg)
    rw [goto_pc_of_ne (hs.ne_of_mem hpc rfl hg), goto_pc_of_ne hgn]
    exact hs.waiting g hg
  · intro g
    by_cases hgf : g = f
    · rw [hgf, goto_pc]
      trivial
    · by_cases hgn : g = n
      · rw [hgn, hwoke]
        exact ⟨rfl, howner⟩
      · rw [goto_pc_of_ne hgf, goto_pc_of_ne hgn]
        refine (hi.places g).of_rely ⟨fun hlock => ⟨hlock, rfl, id⟩, rfl, id, ?_⟩
        rintro m c heq (rfl | ⟨rfl, rfl⟩)
        · cases heq
          exact absurd rfl hgf
        · cases heq

private theorem inv_advance (hstep : advance s f = some s') : ∃ h', Inv s' h' := by
  have hat := hi.places f
  rw [advance] at hstep
  cases hpc : s.pc f with
  | out | parked => simp [hpc] at hstep
  | lockSlow =>
    rw [hpc] at hstep
    dsimp only at hstep
    split at hstep
    next hlock =>
      cases hstep
      exact ⟨h, inv_queueLock hi (by simp [hlock]) hpc rfl nofun rfl rfl⟩
    · cases hstep
  | lockCheck =>
    rw [hpc] at hstep hat
    dsimp only at hstep
    split at hstep
    next howner =>
      cases hstep
      exact ⟨h, inv_lockCheck hi hpc howner⟩
    next howner =>
      cases hstep
      exact ⟨h, inv_goto hi hpc rfl nofun rfl ⟨hat, howner⟩⟩
  | lockAppend =>
    rw [hpc] at hstep
    cases hstep
    exact ⟨h, inv_lockAppend hi hpc⟩
  | lockRelease granted =>
    rw [hpc] at hstep
    cases granted with
    | true =>
      cases hstep
      exact ⟨h, inv_lockRelease hi hpc⟩
    | false =>
      cases hstep
      exact ⟨h, inv_park hi hpc⟩
  | woken =>
    rw [hpc] at hstep
    cases hstep
    exact ⟨none, inv_resume hi hpc⟩
  | unlockSlow =>
    rw [hpc] at hstep hat
    dsimp only at hstep
    split at hstep
    next hlock =>
      cases hstep
      exact ⟨h, inv_queueLock hi (by simp [hlock]) hpc rfl nofun rfl ⟨rfl, hat⟩⟩
    · cases hstep
  | unlockPop =>
    rw [hpc] at hstep hat
    dsimp only at hstep
    split at hstep
    next hqueue =>
      cases hstep
      exact ⟨h, inv_goto hi hpc rfl nofun rfl ⟨hat.1, hat.2, hqueue⟩⟩
    next n rest hqueue =>
      cases hstep
      exact ⟨some (n, some f), inv_unlockPop hi hpc hqueue⟩
  | unlockStore next =>
    rw [hpc] at hstep
    cases hstep
    exact ⟨h, inv_unlockStore hi hpc⟩
  | unlockRelease next =>
    rw [hpc] at hstep hat
    cases next with
    | none =>
      cases hstep
      exact ⟨h, inv_queueLock hi (fun g hg => some_ne_of_ne hat hg) hpc rfl nofun rfl trivial⟩
    | some n =>
      cases hstep
      exact ⟨h, inv_queueLock hi (fun g hg => some_ne_of_ne hat.1 hg) hpc rfl nofun rfl hat.2⟩
  | unlockWake n =>
    rw [hpc] at hstep
    cases hstep
    exact ⟨some (n, none), inv_unlockWake hi hpc⟩

private theorem inv_step {a : Action F} (hstep : step s a = some s') : ∃ h', Inv s' h' := by
  cases a <;> simp only [step] at hstep
  case lock f =>
    split at hstep
    next hpc =>
      split at hstep
      next howner =>
        cases hstep
        exact ⟨h, inv_acquire hi hpc howner⟩
      · cases hstep
        exact ⟨h, inv_goto hi hpc rfl nofun rfl trivial⟩
    · cases hstep
  case tryLock f =>
    split at hstep
    next hpc =>
      split at hstep
      next howner =>
        cases hstep
        exact ⟨h, inv_acquire hi hpc howner⟩
      · cases hstep
        exact ⟨h, hi⟩
    · cases hstep
  case unlock f =>
    split at hstep
    next hpc =>
      cases hstep
      exact ⟨h, inv_goto hi hpc.1 rfl nofun rfl hpc.2⟩
    · cases hstep
  case advance f => exact inv_advance hi hstep

end

end

/-- One fiber hands the mutex to another, which was woken, while a third one waits. -/
def handover : List (Action Nat) :=
  [.lock 0, .lock 1, .advance 1, .advance 1, .advance 1, .advance 1, .lock 2, .advance 2,
    .advance 2, .advance 2, .advance 2, .unlock 0, .advance 0, .advance 0, .advance 0, .advance 0,
    .advance 0]

end Mutex

end PsiServe.Fiber
