import Mathlib.Logic.Relation
import PsiServe.Base.Run
import PsiServe.Base.Update

/-!
# The wound-wait transaction mutex

`fiber_tx_mutex` (`fiber_mutex.cpp:79–163`): an owner with its timestamp and a first-come wait
queue, under a spin lock. Any number of transactions use any number of mutexes; every transaction is
a fiber that passes its own timestamp to each call. A section of a spin lock is one step. The flag
`wounded` of a fiber is shared by all mutexes. The timestamp that a fiber stores in itself
(`Fiber::tx_timestamp`) is read when it is handed a mutex, and is not written by this code.
-/

namespace PsiServe.Fiber

open Base Function

namespace TxMutex

/-- The timestamp that each transaction passes, and the one that is stored in its fiber. -/
structure Stamps (F : Type) where
  passed : F → Nat
  stored : F → Nat

structure Mutex (F : Type) where
  owner : Option F
  ownerTimestamp : Nat
  queue : List F

/-- Where a fiber stands in the code of the mutexes. -/
inductive Pc (F M : Type) where
  /-- Outside of it. -/
  | out
  /-- In `lock`, parked; and after a wake. -/
  | parked (m : M)
  | woken (m : M)
  /-- In `lock`, before the `unlock` of a fiber that found itself wounded. -/
  | aborting (m : M)
  /-- In `unlock`, before it wakes the next owner. -/
  | waking (m : M) (next : F)
deriving DecidableEq

structure State (F M : Type) where
  mutex : M → Mutex F
  pc : F → Pc F M
  wounded : F → Bool

/-- What can happen next: a fiber calls a function of a mutex, takes its next step in one, or starts
again after it was wounded, with a flag that it has cleared itself. -/
inductive Action (F M : Type) where
  | lock (f : F) (m : M)
  | unlock (f : F) (m : M)
  | tryLock (f : F) (m : M)
  | advance (f : F)
  | restart (f : F)

variable {F M : Type} {s' : State F M} {m : M} {f : F}

def init : State F M where
  mutex _ := ⟨none, 0, []⟩
  pc _ := .out
  wounded _ := false

section

variable [DecidableEq F] [DecidableEq M]

namespace State

def setMutex (s : State F M) (m : M) (x : Mutex F) : State F M :=
  { s with mutex := update s.mutex m x }

def goto (s : State F M) (f : F) (p : Pc F M) : State F M :=
  { s with pc := update s.pc f p }

def setWounded (s : State F M) (f : F) (b : Bool) : State F M :=
  { s with wounded := update s.wounded f b }

end State

/-- The section of `unlock`. -/
def release (st : Stamps F) (s : State F M) (f : F) (m : M) : State F M :=
  match (s.mutex m).queue with
  | next :: rest =>
    (s.setMutex m ⟨some next, st.stored next, rest⟩).goto f (.waking m next)
  | [] => (s.setMutex m ⟨none, 0, []⟩).goto f .out

/-- The section of `lock`. -/
def request (st : Stamps F) (s : State F M) (f : F) (m : M) : State F M :=
  match (s.mutex m).owner with
  | none =>
    (s.setMutex m { s.mutex m with owner := some f, ownerTimestamp := st.passed f }).setWounded
      f false
  | some owner =>
    let queued := (s.setMutex m { s.mutex m with queue := (s.mutex m).queue ++ [f] }).goto f
      (.parked m)
    if st.passed f < (s.mutex m).ownerTimestamp then queued.setWounded owner true else queued

/-- The next step of a fiber in the code of the mutexes. -/
def advance (st : Stamps F) (s : State F M) (f : F) : Option (State F M) :=
  match s.pc f with
  | .out | .parked _ => none
  | .woken m => some (s.goto f (if s.wounded f then .aborting m else .out))
  | .aborting m => some (release st s f m)
  | .waking m next => some ((s.goto next (.woken m)).goto f .out)

/-- One step. Only the owner of a mutex unlocks it. -/
def step (st : Stamps F) (s : State F M) : Action F M → Option (State F M)
  | .lock f m => if s.pc f = .out then some (request st s f m) else none
  | .unlock f m =>
    if s.pc f = .out ∧ (s.mutex m).owner = some f then some (release st s f m) else none
  | .tryLock f m =>
    if s.pc f = .out then
      match (s.mutex m).owner with
      | none =>
        some (s.setMutex m { s.mutex m with owner := some f, ownerTimestamp := st.passed f })
      | some _ => some s
    else none
  | .advance f => advance st s f
  | .restart f => if s.pc f = .out then some (s.setWounded f false) else none

end

/-! ### The order of the waiting -/

/-- A fiber waits for a mutex of another one. -/
def WaitsFor (s : State F M) (f g : F) : Prop :=
  ∃ m, f ∈ (s.mutex m).queue ∧ (s.mutex m).owner = some g

/-- Whoever waits is younger than the holder, or the holder is wounded. -/
def WoundWait (st : Stamps F) (s : State F M) : Prop :=
  ∀ f g, WaitsFor s f g → st.passed g < st.passed f ∨ s.wounded g = true

/-- The next owner of the queue has its timestamp stored, and is older than all the others of the
queue or already wounded. -/
def OldestFirst (st : Stamps F) (s : State F M) (m : M) : Prop :=
  ∀ next ∈ (s.mutex m).queue.head?, st.stored next = st.passed next ∧
    ((∀ g ∈ (s.mutex m).queue.tail, st.passed next < st.passed g) ∨ s.wounded next = true)

/-- A fiber loses its flag only while it owns nothing. -/
def KeepsFlag (s : State F M) (f : F) : Prop :=
  s.wounded f = true → ∀ m, (s.mutex m).owner ≠ some f

/-- A step that is in the order of the timestamps. -/
def Orderly (st : Stamps F) (s : State F M) : Action F M → Prop
  | .lock f m =>
    ((s.mutex m).owner = none → KeepsFlag s f) ∧
      ∀ g ∈ (s.mutex m).owner, st.passed f ≠ st.passed g
  | .unlock _ m => OldestFirst st s m
  | .tryLock _ _ => True
  | .advance f => ∀ m, s.pc f = .aborting m → OldestFirst st s m
  | .restart f => KeepsFlag s f

structure Inv (st : Stamps F) (s : State F M) : Prop where
  empty : ∀ m, (s.mutex m).owner = none → (s.mutex m).queue = []
  stamp : ∀ m g, (s.mutex m).owner = some g → (s.mutex m).ownerTimestamp = st.passed g
  order : ∀ m f g, f ∈ (s.mutex m).queue → (s.mutex m).owner = some g →
    st.passed g < st.passed f ∨ s.wounded g = true

variable {st : Stamps F} {s : State F M}

private theorem inv_init : Inv st (init : State F M) := by
  constructor <;> simp [init]

private theorem Inv.of_eq (hi : Inv st s) (hmutex : s'.mutex = s.mutex)
    (hwounded : s'.wounded = s.wounded) : Inv st s' := by
  refine ⟨?_, ?_, ?_⟩
  · rw [hmutex]
    exact hi.empty
  · rw [hmutex]
    exact hi.stamp
  · rw [hmutex, hwounded]
    exact hi.order

/-- A fiber waits only for older ones that are not wounded, so that no such wait leads back. -/
theorem not_cycle (hw : WoundWait st s) (f : F) :
    ¬ Relation.TransGen (fun f g => WaitsFor s f g ∧ s.wounded g = false) f f := by
  have hlt : ∀ g, Relation.TransGen (fun f g => WaitsFor s f g ∧ s.wounded g = false) f g →
      st.passed g < st.passed f := by
    intro g hg
    induction hg with
    | single hfg =>
      obtain ⟨hwait, hunwounded⟩ := hfg
      rcases hw f _ hwait with hlt | hwounded
      · exact hlt
      · rw [hunwounded] at hwounded
        cases hwounded
    | tail _ hgh ih =>
      obtain ⟨hwait, hunwounded⟩ := hgh
      rcases hw _ _ hwait with hlt | hwounded
      · exact Nat.lt_trans hlt ih
      · rw [hunwounded] at hwounded
        cases hwounded
  exact fun hcycle => Nat.lt_irrefl _ (hlt f hcycle)

/-- A mutex changes: what is to be shown of it. -/
theorem Inv.setMutex [DecidableEq M] (hi : Inv st s) (x : Mutex F)
    (hempty : x.owner = none → x.queue = [])
    (hstamp : ∀ g, x.owner = some g → x.ownerTimestamp = st.passed g)
    (horder : ∀ f g, f ∈ x.queue → x.owner = some g →
      st.passed g < st.passed f ∨ s.wounded g = true) : Inv st (s.setMutex m x) := by
  have hcases : ∀ n, (s.setMutex m x).mutex n = x ∨ (s.setMutex m x).mutex n = s.mutex n := by
    intro n
    by_cases hn : n = m
    · rw [hn]
      exact .inl (update_self _ _ _)
    · exact .inr (update_of_ne hn _ _)
  refine ⟨fun n hn => ?_, fun n g hg => ?_, fun n f g hf hg => ?_⟩
  · rcases hcases n with h | h
    · rw [h] at hn ⊢
      exact hempty hn
    · rw [h] at hn ⊢
      exact hi.empty n hn
  · rcases hcases n with h | h
    · rw [h] at hg ⊢
      exact hstamp g hg
    · rw [h] at hg ⊢
      exact hi.stamp n g hg
  · rcases hcases n with h | h
    · rw [h] at hf hg
      exact horder f g hf hg
    · rw [h] at hf hg
      exact hi.order n f g hf hg

private theorem Inv.wound [DecidableEq F] (hi : Inv st s) : Inv st (s.setWounded f true) := by
  refine ⟨hi.empty, hi.stamp, fun n g h hg hh => ?_⟩
  rcases hi.order n g h hg hh with hlt | hwounded
  · exact .inl hlt
  · refine .inr (update_eq_iff.mpr ?_)
    by_cases hhf : h = f
    · exact .inl ⟨hhf, rfl⟩
    · exact .inr ⟨hhf, hwounded⟩

private theorem Inv.heal [DecidableEq F] (hi : Inv st s) (hkeeps : KeepsFlag s f) :
    Inv st (s.setWounded f false) := by
  refine ⟨hi.empty, hi.stamp, fun n g h hg hh => ?_⟩
  rcases hi.order n g h hg hh with hlt | hwounded
  · exact .inl hlt
  · refine .inr (update_eq_iff.mpr (.inr ⟨?_, hwounded⟩))
    rintro rfl
    exact hkeeps hwounded n hh

variable [DecidableEq F] [DecidableEq M]

private theorem inv_release (hi : Inv st s) (hold : OldestFirst st s m) : Inv st
    (release st s f m) := by
  rw [release]
  split
  next next rest hqueue =>
    obtain ⟨hstored, hrest⟩ := hold next (by rw [hqueue]; rfl)
    rw [hqueue] at hrest
    refine Inv.of_eq (hi.setMutex ⟨some next, st.stored next, rest⟩ nofun ?_ ?_)
      rfl rfl
    · rintro g ⟨⟩
      exact hstored
    · rintro g h hg ⟨⟩
      exact hrest.imp_left fun h => h g hg
  next =>
    refine Inv.of_eq (hi.setMutex ⟨none, 0, []⟩ (fun _ => rfl) ?_ ?_) rfl rfl
    · rintro g ⟨⟩
    · rintro g h hg ⟨⟩

private theorem inv_request (hi : Inv st s) (hok : Orderly st s (.lock f m)) :
    Inv st (request st s f m) := by
  obtain ⟨hflag, hstamps⟩ := hok
  rw [request]
  split
  next howner =>
    have hempty := hi.empty m howner
    refine (hi.heal (hflag howner)).setMutex
      { s.mutex m with owner := some f, ownerTimestamp := st.passed f }
      nofun ?_ ?_
    · rintro g ⟨⟩
      rfl
    · intro g h hg
      rw [hempty] at hg
      cases hg
  next owner howner =>
    have hne := hstamps owner howner
    have hstamp := hi.stamp m owner howner
    split
    next hlt =>
      -- the holder is wounded, whatever the others of the queue are
      refine Inv.of_eq (hi.wound.setMutex { s.mutex m with queue := (s.mutex m).queue ++ [f] }
        (fun h => ?_) (hi.stamp m) ?_) rfl rfl
      · rw [howner] at h
        cases h
      · intro g h hg hh
        cases howner.symm.trans hh
        exact .inr (update_self _ _ _)
    next hlt =>
      refine Inv.of_eq (hi.setMutex { s.mutex m with queue := (s.mutex m).queue ++ [f] }
        (fun h => ?_) (hi.stamp m) ?_) rfl rfl
      · rw [howner] at h
        cases h
      · intro g h hg hh
        rcases List.mem_append.mp hg with hg | hg
        · exact hi.order m g h hg hh
        · cases howner.symm.trans hh
          rw [List.mem_singleton.mp hg]
          omega

private theorem inv_step {a : Action F M} (hi : Inv st s) (hok : Orderly st s a)
    (hstep : step st s a = some s') : Inv st s' := by
  cases a with
  | lock f m =>
    simp only [step] at hstep
    split at hstep
    next =>
      cases hstep
      exact inv_request hi hok
    next => cases hstep
  | unlock f m =>
    simp only [step] at hstep
    split at hstep
    next =>
      cases hstep
      exact inv_release hi hok
    next => cases hstep
  | tryLock f m =>
    simp only [step] at hstep
    split at hstep
    next =>
      split at hstep
      next howner =>
        cases hstep
        refine hi.setMutex _ nofun ?_ ?_
        · rintro g ⟨⟩
          rfl
        · intro g h hg
          rw [hi.empty m howner] at hg
          cases hg
      next =>
        cases hstep
        exact hi
    next => cases hstep
  | advance f =>
    simp only [step, advance] at hstep
    split at hstep
    next => cases hstep
    next => cases hstep
    next =>
      cases hstep
      exact hi.of_eq rfl rfl
    next m hpc =>
      cases hstep
      exact inv_release hi (hok m hpc)
    next =>
      cases hstep
      exact hi.of_eq rfl rfl
  | restart f =>
    simp only [step] at hstep
    split at hstep
    next =>
      cases hstep
      exact hi.heal hok
    next => cases hstep

/-- Along every run of orderly steps whoever waits is younger than the holder or the holder is
wounded, and no transactions wait for one another in a cycle without a wounded one. -/
theorem woundWait_of_orderly {as : List (Action F M)} {s : State F M}
    (hok : AllSteps (step st) (Orderly st) init as) (hrun : runSteps (step st) init as = some s) :
    WoundWait st s ∧
      ∀ f, ¬ Relation.TransGen (fun f g => WaitsFor s f g ∧ s.wounded g = false) f f := by
  have hi := runSteps_invariant (fun _ _ _ hi hok hstep => inv_step hi hok hstep) inv_init hok hrun
  have hw : WoundWait st s := fun f g ⟨m, hf, hg⟩ => hi.order m f g hf hg
  exact ⟨hw, not_cycle hw⟩

/-- The fibers in the order of their age. -/
def byAge : Stamps (Fin 3) := ⟨Fin.val, Fin.val⟩

/-- A mutex goes from the oldest transaction to the next, and comes back by a wound. -/
def contest : List (Action (Fin 3) (Fin 1)) :=
  [.lock 0 0, .lock 1 0, .lock 2 0, .unlock 0 0, .advance 0, .advance 1, .lock 0 0]

instance (st : Stamps F) (s : State F M) (m : M) : Decidable (OldestFirst st s m) :=
  inferInstanceAs (Decidable (∀ next ∈ _, _))

instance (st : Stamps F) (s : State F (Fin 1)) (a : Action F (Fin 1)) :
    Decidable (Orderly st s a) :=
  match a with
  | .lock _ _ => inferInstanceAs (Decidable ((_ → _ → _) ∧ _))
  | .unlock _ m => inferInstanceAs (Decidable (OldestFirst st s m))
  | .tryLock _ _ => inferInstanceAs (Decidable True)
  | .advance f => inferInstanceAs (Decidable (∀ m, s.pc f = .aborting m → OldestFirst st s m))
  | .restart _ => inferInstanceAs (Decidable (_ → _))

/-- In the run the owner is wounded by the oldest fiber, and a younger one waits for it, too. -/
theorem woundWait_contest :
    ∃ s, runSteps (step byAge) init contest = some s ∧ WaitsFor s 0 1 ∧ WaitsFor s 2 1 ∧
      s.wounded 1 = true ∧ WoundWait byAge s := by
  have hrun : ∃ s, runSteps (step byAge) init contest = some s ∧
      (s.mutex 0).owner = some 1 ∧ (s.mutex 0).queue = [2, 0] ∧ s.wounded 1 = true :=
    ⟨_, rfl, rfl, rfl, rfl⟩
  obtain ⟨s, hs, howner, hqueue, hwounded⟩ := hrun
  exact ⟨s, hs, ⟨0, by rw [hqueue]; decide, howner⟩, ⟨0, by rw [hqueue]; decide, howner⟩, hwounded,
    (woundWait_of_orderly (by decide) hs).1⟩

/-- An owner hands the mutex to the first of its queue, with an older one behind it. The two then
wait for each other, and neither is wounded. -/
def deadlock : List (Action Nat Nat) :=
  [.lock 15 1, .lock 10 0, .lock 20 0, .lock 15 0, .unlock 10 0, .advance 10, .advance 20,
    .lock 20 1]

/-- In the run two fibers wait for each other, and none is wounded. -/
theorem not_woundWait_deadlock : ∃ s, runSteps (step ⟨id, id⟩) init deadlock = some s ∧
      ((s.mutex 0).owner = some 20 ∧ (s.mutex 0).queue = [15]) ∧
      ((s.mutex 1).owner = some 15 ∧ (s.mutex 1).queue = [20]) ∧
      s.wounded 15 = false ∧ s.wounded 20 = false :=
  ⟨_, rfl, ⟨rfl, rfl⟩, ⟨rfl, rfl⟩, rfl, rfl⟩

end TxMutex

end PsiServe.Fiber
