import Mathlib.Logic.Function.Basic
import PsiServe.Base.Run

/-!
# The scheduler and its strands

`basic_scheduler` on its own (`scheduler.cpp:105–199, 436–643, 798–905`, `scheduler.hpp:404–481`)
and `strand` without a reactor (`strand.cpp:140–239`, `strand.hpp:171–315`). Fibers run one at a
time, so that what a fiber does between two calls of the scheduler does not matter here: an action
is a call, and a call that suspends the fiber goes on to the end of the iteration of the run loop.
What a fiber does after it is resumed inside of a call, before its program goes on, is a step of its
own. No fiber is a daemon and nobody interrupts the scheduler: the run loop ends when all fibers
have finished.

The history of a strand is kept with it: the fibers that were put into its queue, and those that
became active from there.
-/

namespace PsiServe.Fiber

open Function

/-- Lifecycle state of a fiber. A fiber that does not exist yet counts as one that can be reused. -/
inductive FiberState where
  | ready
  | running
  | blocked
  | sleeping
  | parked
  | recyclable
  | done
deriving DecidableEq

namespace Scheduler

/-- What a fiber does when it is resumed, before its program goes on. -/
inductive Todo (S : Type) where
  | run
  /-- The fiber of a `strand::post` enters the strand. -/
  | enter (strand : S)
  /-- The fiber was queued in a call, and takes the strand as its home. -/
  | home (strand : S)
deriving DecidableEq

/-- A fiber, with the calls of `strand::sync` that it is in: the strand of each call and the one to
go back to. `awaits`: the program parked it and has not called `wake` yet. -/
structure FiberRecord (S : Type) where
  state : FiberState
  homeStrand : Option S
  priority : Nat
  todo : Todo S
  frames : List (S × Option S)
  awaits : Bool

structure Strand (F : Type) where
  active : Option F
  queue : List F
  queued : List F
  served : List F

structure State (F S : Type) where
  fiber : F → FiberRecord S
  strand : S → Strand F
  readyQueues : Fin 3 → List F
  lifoSlot : Option F
  lifoConsecutive : Nat
  wakeList : List F
  current : Option F

variable {F S : Type}

def init : State F S where
  fiber _ := ⟨.recyclable, none, 1, .run, [], false⟩
  strand _ := ⟨none, [], [], []⟩
  readyQueues _ := []
  lifoSlot := none
  lifoConsecutive := 0
  wakeList := []
  current := none

/-! ### Strands -/

namespace Strand

/-- The section of `enter` and `enqueue`: whether the fiber is active now. -/
def enter (x : Strand F) (f : F) : Bool × Strand F :=
  match x.active with
  | none => (true, { x with active := some f })
  | some _ => (false, { x with queue := x.queue ++ [f], queued := x.queued ++ [f] })

variable {x : Strand F}

/-- A free strand is entered. -/
theorem enter_of_free (hfree : x.active = none) (f : F) :
    x.enter f = (true, { x with active := some f }) := by
  rw [enter, hfree]

/-- A fiber waits for a busy strand. -/
theorem enter_of_busy (hbusy : x.active ≠ none) (f : F) :
    x.enter f = (false, { x with queue := x.queue ++ [f], queued := x.queued ++ [f] }) := by
  cases hactive : x.active with
  | none => exact absurd hactive hbusy
  | some g => simp only [enter, hactive]

/-- The next fiber of the queue that is not finished becomes active. -/
def release (x : Strand F) (finished : F → Bool) : Option F × Strand F :=
  match x.queue.dropWhile finished with
  | [] => (none, { x with active := none, queue := [] })
  | next :: rest =>
    (some next, { x with active := some next, queue := rest, served := x.served ++ [next] })

end Strand

section

variable [DecidableEq F] [DecidableEq S]

namespace State

def setFiber (s : State F S) (f : F) (x : FiberRecord S) : State F S :=
  { s with fiber := update s.fiber f x }

def setStrand (s : State F S) (r : S) (x : Strand F) : State F S :=
  { s with strand := update s.strand r x }

def setState (s : State F S) (f : F) (st : FiberState) : State F S :=
  s.setFiber f { s.fiber f with state := st }

def setHome (s : State F S) (f : F) (r : Option S) : State F S :=
  s.setFiber f { s.fiber f with homeStrand := r }

/-- The queue of a priority. -/
def level (priority : Nat) : Fin 3 :=
  match priority with
  | 0 => 0
  | 1 => 1
  | _ => 2

def addToReadyQueue (s : State F S) (f : F) : State F S :=
  let p := level (s.fiber f).priority
  { s with readyQueues := update s.readyQueues p (s.readyQueues p ++ [f]) }

/-- Also `promoteStrandWaiter`. -/
def makeReady (s : State F S) (f : F) : State F S := (s.setState f .ready).addToReadyQueue f

def popQueue (s : State F S) (p : Fin 3) : Option (F × State F S) :=
  match s.readyQueues p with
  | [] => none
  | f :: rest => some (f, { s with readyQueues := update s.readyQueues p rest })

def popFromReadyQueues (s : State F S) : Option (F × State F S) :=
  s.popQueue 0 <|> s.popQueue 1 <|> s.popQueue 2

def finished (s : State F S) (f : F) : Bool :=
  (s.fiber f).state = .recyclable ∨ (s.fiber f).state = .done

/-- `strand::release`, and the next fiber goes to the ready queue. -/
def releaseStrand (s : State F S) (r : S) : State F S :=
  match (s.strand r).release s.finished with
  | (none, x) => s.setStrand r x
  | (some next, x) => (s.setStrand r x).makeReady next

/-- Back from a fiber: one that is suspended lets go of its strand. -/
def settle (s : State F S) (f : F) : State F S :=
  let s := { s with current := none }
  match (s.fiber f).homeStrand with
  | none => s
  | some r =>
    if (s.strand r).active = some f ∧ (s.fiber f).state ∈
        [FiberState.parked, .recyclable, .blocked, .sleeping] then s.releaseStrand r
    else s

/-! ### The run loop -/

def resumeBlockedFiber (s : State F S) (f : F) : State F S :=
  match (s.fiber f).homeStrand with
  | some r =>
    match (s.strand r).enter f with
    | (true, x) => (s.setStrand r x).makeReady f
    | (false, x) => (s.setStrand r x).setState f .parked
  | none => s.makeReady f

def routeWokenFiber (s : State F S) (f : F) : State F S :=
  if (s.fiber f).state = .parked then
    match (s.fiber f).homeStrand with
    | some r =>
      match (s.strand r).enter f with
      | (true, x) => (s.setStrand r x).makeReady f
      | (false, x) => s.setStrand r x
    | none => s.makeReady f
  else s

/-- The wake list is a stack; a single fiber without a strand goes to the slot. -/
def drainWakeList (s : State F S) : State F S :=
  let batch := s.wakeList.reverse
  let s := { s with wakeList := [] }
  match batch with
  | [f] =>
    if s.lifoSlot = none ∧ (s.fiber f).homeStrand = none then
      if (s.fiber f).state = .parked then { s.setState f .ready with lifoSlot := some f } else s
    else s.routeWokenFiber f
  | batch => batch.foldl routeWokenFiber s

/-- The timers and file descriptors that are due, in the order in which they are found. -/
def pollAndUnblock (s : State F S) (due : List F) : State F S :=
  due.foldl (fun s f =>
    if (s.fiber f).state = .sleeping ∨ (s.fiber f).state = .blocked then s.resumeBlockedFiber f
    else s) s

def lifoCap : Nat := 3

def pickReady (s : State F S) : Option F × State F S :=
  match s.popFromReadyQueues with
  | some (f, s) => (some f, s)
  | none => (none, s)

def emptySlot (s : State F S) : State F S :=
  match s.lifoSlot with
  | some f => { s with lifoSlot := none }.addToReadyQueue f
  | none => s

/-- The slot first, unless it had its turn too often. -/
def pick (s : State F S) : Option F × State F S :=
  match s.lifoSlot with
  | some f =>
    if s.lifoConsecutive < lifoCap then
      (some f, { s with lifoSlot := none, lifoConsecutive := s.lifoConsecutive + 1 })
    else { s with lifoConsecutive := 0 }.emptySlot.pickReady
  | none => { s with lifoConsecutive := 0 }.emptySlot.pickReady

/-- After a poll the slot is not limited. -/
def pickAgain (s : State F S) : Option F × State F S :=
  match s.lifoSlot with
  | some f => (some f, { s with lifoSlot := none, lifoConsecutive := 1 })
  | none => s.pickReady

def resume (s : State F S) (f : F) : State F S :=
  { s.setState f .running with current := some f }

/-- An iteration of the run loop, up to the fiber that it resumes; without one, it polls twice. -/
def turn (s : State F S) (due due' : List F) : State F S :=
  match s.drainWakeList.pick with
  | (some f, s) => s.resume f
  | (none, s) =>
    match ((s.pollAndUnblock due).drainWakeList).pickAgain with
    | (some f, s) => s.resume f
    | (none, s) => s.pollAndUnblock due'

/-! ### The calls of a fiber -/

/-- `strand::enter`, and the fiber parks when it is queued; when it goes on, the strand is its
home. -/
def enterStrand (s : State F S) (f : F) (r : S) : State F S :=
  match (s.strand r).enter f with
  | (true, x) =>
    let s := s.setStrand r x
    s.setFiber f { s.fiber f with homeStrand := some r, todo := .run }
  | (false, x) =>
    let s := s.setStrand r x
    (s.setFiber f { s.fiber f with state := .parked, todo := .home r }).settle f

/-- A fiber that yields enters the strand that it has released, behind all others. -/
def reenterStrand (s : State F S) (f : F) (r : S) : State F S :=
  match (s.strand r).enter f with
  | (true, x) => (((s.setStrand r x).setHome f (some r)).makeReady f).settle f
  | (false, x) =>
    let s := s.setStrand r x
    (s.setFiber f { s.fiber f with state := .parked, todo := .home r }).settle f

def yieldCurrentFiber (s : State F S) (f : F) : State F S :=
  match (s.fiber f).homeStrand with
  | some r =>
    if (s.strand r).active = some f then
      ((s.setHome f none).releaseStrand r).reenterStrand f r
    else (s.makeReady f).settle f
  | none => (s.makeReady f).settle f

def spawn (s : State F S) (g : F) (todo : Todo S) : State F S :=
  (s.setFiber g ⟨.ready, none, 1, todo, [], false⟩).addToReadyQueue g

/-- `strand::sync`, up to the call of the function. -/
def sync (s : State F S) (f : F) (r : S) : State F S :=
  let src := (s.fiber f).homeStrand
  let s := s.setFiber f { s.fiber f with
    homeStrand := none, frames := (r, src) :: (s.fiber f).frames }
  let s := match src with
    | some src => s.releaseStrand src
    | none => s
  s.enterStrand f r

/-- The rest of `strand::sync`. -/
def syncReturn (s : State F S) (f : F) (r : S) (src : Option S)
    (frames : List (S × Option S)) : State F S :=
  let s := (s.setFiber f { s.fiber f with homeStrand := none, frames := frames }).releaseStrand r
  match src with
  | some src => s.enterStrand f src
  | none => s

end State

end

/-- A call of the fiber that runs. -/
inductive Call (S : Type) where
  /-- The fiber does what is left of the call it was resumed in. -/
  | advance
  | yield
  | park
  | sleep
  | waitFd
  | sync (strand : S)
  /-- The function of the last `sync` returns, or throws. -/
  | syncReturn
  | finish

/-- What can happen next: the run loop takes a turn, the fiber that runs makes a call, or a fiber is
spawned or woken, by the fiber that runs or from outside of the run loop. -/
inductive Action (F S : Type) where
  | turn (due due' : List F)
  | call (c : Call S)
  | spawn (g : F)
  | post (g : F) (strand : S)
  | wake (g : F)
  | setPriority (g : F) (priority : Nat)

section

variable [DecidableEq F] [DecidableEq S]

/-- A call of a fiber. `sync` is called on another strand than the one the fiber is on. -/
def State.call (s : State F S) (f : F) : Call S → Option (State F S)
  | .advance =>
    match (s.fiber f).todo with
    | .run => none
    | .enter r => some (s.enterStrand f r)
    | .home r => some (s.setFiber f { s.fiber f with homeStrand := some r, todo := .run })
  | c =>
    if (s.fiber f).todo = .run then
      match c with
      | .advance => none
      | .yield => some (s.yieldCurrentFiber f)
      | .park => some ((s.setFiber f { s.fiber f with state := .parked, awaits := true }).settle f)
      | .sleep => some ((s.setState f .sleeping).settle f)
      | .waitFd => some ((s.setState f .blocked).settle f)
      | .sync r => if (s.strand r).active = some f then none else some (s.sync f r)
      | .syncReturn =>
        match (s.fiber f).frames with
        | [] => none
        | (r, src) :: frames => some (s.syncReturn f r src frames)
      | .finish =>
        if (s.fiber f).frames = [] then some ((s.setState f .recyclable).settle f) else none
    else none

/-- One step. A program wakes a fiber at most once for each time it parks. -/
def step (s : State F S) : Action F S → Option (State F S)
  | .turn due due' => if s.current = none then some (s.turn due due') else none
  | .call c =>
    match s.current with
    | none => none
    | some f => s.call f c
  | .spawn g => if (s.fiber g).state = .recyclable then some (s.spawn g .run) else none
  | .post g r => if (s.fiber g).state = .recyclable then some (s.spawn g (.enter r)) else none
  | .wake g =>
    if (s.fiber g).awaits then
      some ({ s with wakeList := g :: s.wakeList }.setFiber g { s.fiber g with awaits := false })
    else none
  | .setPriority g p => some (s.setFiber g { s.fiber g with priority := p })

end

end Scheduler

end PsiServe.Fiber
