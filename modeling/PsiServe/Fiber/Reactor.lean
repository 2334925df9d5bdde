import PsiServe.Fiber.Scheduler

/-!
# Strands on the schedulers of a reactor

Several schedulers, each on a thread of its own, share the strands of a reactor
(`scheduler.cpp:105–199, 288–306, 360–413, 436–643, 798–880`, `scheduler.hpp:402–481`,
`strand.cpp:140–256`, `strand.hpp:171–315`, `reactor.cpp:43–61`). Where a scheduler stands in its
code says what it does next, and a step of one can come between any two steps of another. A step is
a section of a strand's spin lock, an access to `_queued` or to the reactor's queue, or a read of
`active()`; the accesses to the one fiber that the scheduler deals with, and to its own queues,
belong to the step next to them. The ready queues and the slot of a scheduler are one list, from
which it picks any fiber, and which timers and descriptors a poll finds is left open. Nobody stops
the reactor.
-/

namespace PsiServe.Fiber

open Base Function

namespace Reactor

open Scheduler (Todo FiberRecord Strand Call)

/-- A fiber, with the scheduler that it last ran on and the one that keeps it in `_fibers`. -/
structure Record (S T : Type) extends FiberRecord S where
  homeSched : Option T
  owner : Option T

/-- Where a scheduler stands. -/
inductive Pc (F S : Type) where
  /-- In the run loop, between two fibers. -/
  | loop
  /-- A fiber runs its program. -/
  | run (f : F)
  /-- Before it schedules a fiber that `strand::release` returned. -/
  | promote (g : F) (k : Pc F S)
  /-- Before `strand::enter`, in a yield or not. -/
  | enter (f : F) (r : S) (yields : Bool)
  /-- In `parkCurrentFiber`. -/
  | park (f : F)
  /-- Before the fiber is suspended. -/
  | switch (f : F)
  /-- In the run loop, before it looks at the fiber it came back from. -/
  | check (f : F)
  | release (f : F) (r : S)
  | recycle (f : F)
  /-- In `resumeBlockedFiber`, with a fiber that a poll found. -/
  | resume (f : F)
  /-- In `strand::enqueue`, before `maybe_post`, for a fiber that was woken or blocked. -/
  | post (f : F) (r : S) (blocked : Bool)
  /-- In `maybe_post`, before `post_strand`. -/
  | push (f : F) (r : S) (blocked : Bool)
  /-- In `resumeBlockedFiber`, after `strand::enqueue`. -/
  | settle (f : F)
  /-- In `try_pop_strand`, before it clears `_queued`. -/
  | pulled (r : S)
  /-- Before it takes the active fiber of a strand that it pulled. -/
  | take (r : S)
deriving DecidableEq

/-- A scheduler. The wake list stands in the order in which it is drained. -/
structure Sched (F S : Type) where
  ready : List F
  wakeList : List F
  free : List F
  pc : Pc F S

structure State (F S T : Type) where
  fiber : F → Record S T
  strand : S → Strand F
  pooled : S → Bool
  queued : S → Bool
  readyStrands : List S
  sched : T → Sched F S

variable {F S T : Type}

/-- A reactor with its strands; `pooled` are those that were bound to it. -/
def init (pooled : S → Bool) : State F S T where
  fiber _ := ⟨⟨.recyclable, none, 1, .run, [], false⟩, none, none⟩
  strand _ := ⟨none, [], [], []⟩
  pooled := pooled
  queued _ := false
  readyStrands := []
  sched _ := ⟨[], [], [], .loop⟩

section

variable [DecidableEq F] [DecidableEq S] [DecidableEq T]

namespace State

def setFiber (s : State F S T) (f : F) (x : Record S T) : State F S T :=
  { s with fiber := update s.fiber f x }

def setStrand (s : State F S T) (r : S) (x : Strand F) : State F S T :=
  { s with strand := update s.strand r x }

def setSched (s : State F S T) (t : T) (x : Sched F S) : State F S T :=
  { s with sched := update s.sched t x }

def goto (s : State F S T) (t : T) (p : Pc F S) : State F S T :=
  s.setSched t { s.sched t with pc := p }

def setState (s : State F S T) (f : F) (st : FiberState) : State F S T :=
  s.setFiber f { s.fiber f with state := st }

/-- The fiber goes to the ready queue of a scheduler. -/
def makeReady (s : State F S T) (t : T) (f : F) : State F S T :=
  (s.setState f .ready).setSched t { s.sched t with ready := (s.sched t).ready ++ [f] }

def finished (s : State F S T) (f : F) : Bool :=
  (s.fiber f).state = .recyclable ∨ (s.fiber f).state = .done

/-- The section of `strand::release`. -/
def release (s : State F S T) (t : T) (r : S) (k : Pc F S) : State F S T :=
  match (s.strand r).release s.finished with
  | (none, x) => (s.setStrand r x).goto t k
  | (some g, x) => (s.setStrand r x).goto t (.promote g k)

/-- After `strand::enqueue` has posted the strand. -/
def posted (s : State F S T) (t : T) (f : F) (blocked : Bool) : State F S T :=
  s.goto t (if blocked then .settle f else .loop)

/-- A call of the fiber that runs on a scheduler. -/
def call (s : State F S T) (t : T) (f : F) : Call S → Option (State F S T)
  | .advance =>
    match (s.fiber f).todo with
    | .run => none
    | .enter r => some ((s.setFiber f { s.fiber f with todo := .run }).goto t (.enter f r false))
    | .home r => some (s.setFiber f { s.fiber f with homeStrand := some r, todo := .run })
  | c =>
    if (s.fiber f).todo = .run then
      match c with
      | .advance => none
      | .yield =>
        match (s.fiber f).homeStrand with
        | some r =>
          if (s.strand r).active = some f then
            some ((s.setFiber f { s.fiber f with homeStrand := none }).release t r
              (.enter f r true))
          else some ((s.makeReady t f).goto t (.switch f))
        | none => some ((s.makeReady t f).goto t (.switch f))
      | .park => some ((s.setFiber f { s.fiber f with awaits := true }).goto t (.park f))
      | .sleep => some ((s.setState f .sleeping).goto t (.switch f))
      | .waitFd => some ((s.setState f .blocked).goto t (.switch f))
      | .sync r =>
        if (s.strand r).active = some f then none
        else
          let src := (s.fiber f).homeStrand
          let s := s.setFiber f { s.fiber f with
            homeStrand := none, frames := (r, src) :: (s.fiber f).frames }
          match src with
          | some src => some (s.release t src (.enter f r false))
          | none => some (s.goto t (.enter f r false))
      | .syncReturn =>
        match (s.fiber f).frames with
        | [] => none
        | (r, src) :: frames =>
          let s := s.setFiber f { s.fiber f with homeStrand := none, frames := frames }
          match src with
          | some src => some (s.release t r (.enter f src false))
          | none => some (s.release t r (.run f))
      | .finish =>
        if (s.fiber f).frames = [] then some ((s.setState f .recyclable).goto t (.switch f))
        else none
    else none

/-- `resumeBlockedFiber`, up to the end of the section of `strand::enqueue`. -/
def resumeBlockedFiber (s : State F S T) (t : T) (g : F) : State F S T :=
  match (s.fiber g).homeStrand with
  | some r =>
    match (s.strand r).enter g with
    | (true, x) =>
      if s.pooled r then (s.setStrand r x).goto t (.post g r true)
      else ((s.setStrand r x).makeReady t g).goto t .loop
    | (false, x) => (s.setStrand r x).goto t (.settle g)
  | none => (s.makeReady t g).goto t .loop

/-- The next step of a scheduler in a call, or in the part of the run loop after a fiber. -/
def advance (s : State F S T) (t : T) : Option (State F S T) :=
  match (s.sched t).pc with
  | .loop | .run _ => none
  | .promote g k =>
    some (((s.setFiber g { s.fiber g with homeSched := some t }).makeReady t g).goto t k)
  | .enter f r yields =>
    match (s.strand r).enter f with
    | (true, x) =>
      let s := (s.setStrand r x).setFiber f { s.fiber f with homeStrand := some r }
      if yields then some ((s.makeReady t f).goto t (.switch f)) else some (s.goto t (.run f))
    | (false, x) =>
      some (((s.setStrand r x).setFiber f { s.fiber f with todo := .home r }).goto t (.park f))
  | .park f => some ((s.setState f .parked).goto t (.switch f))
  | .switch f => some (s.goto t (.check f))
  | .check f =>
    match (s.fiber f).homeStrand with
    | some r =>
      if (s.strand r).active = some f ∧ (s.fiber f).state ∈
          [FiberState.parked, .recyclable, .blocked, .sleeping] then some (s.goto t (.release f r))
      else some (s.goto t (.recycle f))
    | none => some (s.goto t (.recycle f))
  | .release f r => some (s.release t r (.recycle f))
  | .recycle f =>
    if (s.fiber f).state = .recyclable then
      some (s.setSched t { s.sched t with free := (s.sched t).free ++ [f], pc := .loop })
    else some (s.goto t .loop)
  | .resume f => some (s.resumeBlockedFiber t f)
  | .post f r blocked =>
    if s.queued r then some (s.posted t f blocked)
    else some ({ s with queued := update s.queued r true }.goto t (.push f r blocked))
  | .push f r blocked => some ({ s with readyStrands := r :: s.readyStrands }.posted t f blocked)
  | .settle f => some ((s.setState f .parked).goto t .loop)
  | .pulled r => some ({ s with queued := update s.queued r false }.goto t (.take r))
  | .take r =>
    match (s.strand r).active with
    | some g => some (((s.setFiber g { s.fiber g with homeSched := some t }).makeReady t g).goto t
        .loop)
    | none => some (s.goto t .loop)

/-- A fiber of the wake list. -/
def routeWokenFiber (s : State F S T) (t : T) (g : F) : State F S T :=
  if (s.fiber g).state = .parked then
    match (s.fiber g).homeStrand with
    | some r =>
      match (s.strand r).enter g with
      | (true, x) =>
        if s.pooled r then (s.setStrand r x).goto t (.post g r false)
        else (s.setStrand r x).makeReady t g
      | (false, x) => s.setStrand r x
    | none => s.makeReady t g
  else s

def spawn (s : State F S T) (t : T) (g : F) (todo : Todo S) : State F S T :=
  let owner := if g ∈ (s.sched t).free then (s.fiber g).owner else some t
  (s.setFiber g ⟨⟨.ready, none, 1, todo, [], false⟩, some t, owner⟩).setSched t { s.sched t with
    ready := (s.sched t).ready ++ [g], free := (s.sched t).free.erase g }

/-- A fiber that a scheduler can spawn, in a program or between two fibers: one of its free list, or
a new one. -/
def CanSpawn (s : State F S T) (t : T) (g : F) : Prop :=
  ((s.sched t).pc = .loop ∨ ∃ f, (s.sched t).pc = .run f) ∧
    (g ∈ (s.sched t).free ∨ (s.fiber g).owner = none)

instance (s : State F S T) (t : T) (g : F) : Decidable (s.CanSpawn t g) :=
  have : Decidable (∃ f, (s.sched t).pc = .run f) :=
    match (s.sched t).pc with
    | .run f => isTrue ⟨f, rfl⟩
    | .loop | .promote .. | .enter .. | .park _ | .switch _ | .check _ | .release .. | .recycle _
    | .resume _ | .post .. | .push .. | .settle _ | .pulled _ | .take _ =>
      isFalse fun ⟨_, h⟩ => nomatch h
  inferInstanceAs (Decidable ((_ ∨ _) ∧ (_ ∨ _)))

end State

end

/-- What can happen next, on a scheduler or by a program anywhere. -/
inductive Action (F S T : Type) where
  | call (t : T) (c : Call S)
  | advance (t : T)
  | drain (t : T)
  | pick (t : T) (g : F)
  | poll (t : T) (g : F)
  | pull (t : T)
  | spawn (t : T) (g : F)
  | post (t : T) (g : F) (strand : S)
  | wake (g : F)

section

variable [DecidableEq F] [DecidableEq S] [DecidableEq T]

/-- One step. A program wakes a fiber at most once for each time it parks. -/
def step (s : State F S T) : Action F S T → Option (State F S T)
  | .call t c =>
    match (s.sched t).pc with
    | .run f => s.call t f c
    | _ => none
  | .advance t => s.advance t
  | .drain t =>
    match (s.sched t).pc, (s.sched t).wakeList with
    | .loop, g :: rest =>
      some ((s.setSched t { s.sched t with wakeList := rest }).routeWokenFiber t g)
    | _, _ => none
  | .pick t g =>
    if (s.sched t).pc = .loop ∧ g ∈ (s.sched t).ready then
      some ((s.setFiber g { s.fiber g with state := .running, homeSched := some t }).setSched t
        { s.sched t with ready := (s.sched t).ready.erase g, pc := .run g })
    else none
  | .poll t g =>
    if (s.sched t).pc = .loop ∧ (s.fiber g).owner = some t ∧
        ((s.fiber g).state = .sleeping ∨ (s.fiber g).state = .blocked) then
      some (s.goto t (.resume g))
    else none
  | .pull t =>
    match (s.sched t).pc, s.readyStrands with
    | .loop, r :: rest => some ({ s with readyStrands := rest }.goto t (.pulled r))
    | _, _ => none
  | .spawn t g =>
    if s.CanSpawn t g then some (s.spawn t g .run) else none
  | .post t g r =>
    if s.CanSpawn t g then some (s.spawn t g (.enter r)) else none
  | .wake g =>
    match (s.fiber g).awaits, (s.fiber g).homeSched with
    | true, some t =>
      some ((s.setFiber g { s.fiber g with awaits := false }).setSched t
        { s.sched t with wakeList := (s.sched t).wakeList ++ [g] })
    | _, _ => none

end

/-- The fiber that executes on a scheduler. -/
def Pc.executing : Pc F S → Option F
  | .run f | .enter f _ _ | .park f | .switch f => some f
  | .promote _ k => k.executing
  | _ => none

/-- A fiber executes on one scheduler, waits for its turn on one, at one place of its queue, and not
on two different ones. -/
structure Apart (s : State F S T) : Prop where
  running : ∀ t t' f, (s.sched t).pc.executing = some f → (s.sched t').pc.executing = some f →
    t = t'
  ready : ∀ t t' f, f ∈ (s.sched t).ready → (s.sched t').pc.executing = some f → t = t'
  once : ∀ t t' f, f ∈ (s.sched t).ready → f ∈ (s.sched t').ready → t = t'
  nodup : ∀ t, (s.sched t).ready.Nodup

/-! ### Fibers in the hands of a scheduler -/

/-- The fibers that a scheduler deals with. -/
def Pc.hands : Pc F S → List F
  | .loop | .pulled _ | .take _ => []
  | .promote g k => g :: k.hands
  | .run f | .enter f _ _ | .park f | .switch f | .check f | .release f _ | .recycle f | .resume f
  | .post f _ _ | .push f _ _ | .settle f => [f]

/-- No other scheduler has the fiber in its hands. -/
def State.Untouched (s : State F S T) (t : T) (g : F) : Prop :=
  ∀ t', g ∈ (s.sched t').pc.hands → t' = t

/-- The fiber whose turn is next in a strand is not in the hands of another scheduler. -/
def State.NextUntouched (s : State F S T) (t : T) (r : S) : Prop :=
  ∀ g, (s.strand r).queue.head? = some g → s.Untouched t g

/-- A fiber is taken from a strand's queue, from the reactor or by a poll only when no other
scheduler still has it in its hands. -/
def Orderly (s : State F S T) : Action F S T → Prop
  | .call t .yield | .call t (.sync _) | .call t .syncReturn =>
    ∀ f r, (s.sched t).pc = .run f → (s.fiber f).homeStrand = some r → s.NextUntouched t r
  | .advance t =>
    (∀ f r, (s.sched t).pc = .release f r → s.NextUntouched t r) ∧
      ∀ r g, (s.sched t).pc = .take r → (s.strand r).active = some g → s.Untouched t g
  | .poll t g => s.Untouched t g
  | _ => True

/-- A fiber is queued in a strand and about to park on one scheduler, when another one releases the
strand and takes the fiber up. -/
def race : List (Action Nat Nat Nat) :=
  [.post 0 1 0, .post 1 2 0, .pick 0 1, .call 0 .advance, .advance 0, .pick 1 2, .call 1 .advance,
    .advance 1, .call 0 .finish, .advance 0, .advance 0, .advance 0, .advance 0]

/-- After the race a fiber is ready on one scheduler and executes on another. -/
theorem not_apart_race :
    ∃ s, runSteps step (init fun _ => true) race = some s ∧ 2 ∈ (s.sched 0).ready ∧
      (s.sched 1).pc.executing = some 2 ∧ ¬ Apart s :=
  ⟨_, rfl, by decide, rfl, fun h => absurd (h.ready 0 1 2 (by decide) rfl) (by decide)⟩

/-- A fiber of the first scheduler moves to the second one in a `strand::sync`, and sleeps there.
The first one finds it before it is suspended. -/
def migration : List (Action Nat Nat Nat) :=
  [.spawn 0 1, .post 1 2 0, .pick 1 2, .call 1 .advance, .advance 1, .pick 0 1, .call 0 (.sync 0),
    .advance 0, .advance 0, .advance 0, .advance 0, .advance 0, .call 1 .finish, .advance 1,
    .advance 1, .advance 1, .advance 1, .advance 1, .pick 1 1, .call 1 .advance,
    .call 1 .syncReturn, .call 1 .sleep, .poll 0 1, .advance 0]

example :
    ∃ s, runSteps step (init fun _ => true) migration = some s ∧ 1 ∈ (s.sched 0).ready ∧
      (s.sched 1).pc.executing = some 1 :=
  ⟨_, rfl, by decide, rfl⟩

end Reactor

end PsiServe.Fiber
