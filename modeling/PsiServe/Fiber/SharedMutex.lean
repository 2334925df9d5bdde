import PsiServe.Base.Run
import PsiServe.Base.Update

/-!
# The shared fiber mutex

`fiber_shared_mutex` (`fiber_mutex.cpp:167–323`): a counter of readers and a flag of a writer, both
atomic, and two wait queues under a spin lock. A section of the spin lock is one step, and so is
every access to the counter or the flag outside of a section; a step of one fiber can come between
any two steps of another. In `lock` a fiber that has to wait joins the queue in a step of its own,
since the counter that it looked at changes outside of the sections as well. A fiber may call any
function while it holds the mutex, as often as it likes; it unlocks only what it holds.
-/

namespace PsiServe.Fiber

open Base List Function

namespace SharedMutex

/-- Where a fiber stands in the code of the mutex. -/
inductive Pc (F : Type) where
  /-- Outside of it. -/
  | out
  /-- In `lock_shared`, before it looks at the queue of the writers. -/
  | sharedQueue
  /-- In `lock_shared`, before it counts itself. -/
  | sharedAdd
  /-- In `lock_shared`, before it looks at the flag once more. -/
  | sharedCheck
  /-- In `lock_shared`, before it takes its count back. -/
  | sharedUndo
  /-- In `lock_shared`, before the section. -/
  | sharedSlow
  /-- In `try_lock_shared`, before it counts itself. -/
  | tryAdd
  /-- In `try_lock_shared`, before it looks at the flag once more. -/
  | tryCheck
  /-- In `try_lock_shared`, before it takes its count back. -/
  | tryUndo
  /-- In `unlock_shared`, before the section: it was the last reader. -/
  | sharedLast
  /-- In `lock_shared`, parked; and after a wake. -/
  | readerParked
  | readerWoken
  /-- In `lock`, with the spin lock, before it joins the queue. -/
  | lockWait
  /-- In `lock`, parked; and after a wake. -/
  | writerParked
  | writerWoken
  /-- In `unlock`, before it counts the first of the readers that it wakes. -/
  | waking (rest : List F)
  /-- In `unlock`, before it wakes a reader that it has counted. -/
  | wakingOne (reader : F) (rest : List F)
  /-- In `unlock` or `unlock_shared`, before it wakes the next writer. -/
  | wakeWriter (next : F)
deriving DecidableEq

/-- A mutex and the fibers that use it, with what each of them holds; `spin` is the fiber that has
the spin lock from one step to the next. -/
structure State (F : Type) where
  readers : Nat
  writer : Bool
  spin : Option F
  writerQueue : List F
  readerQueue : List F
  pc : F → Pc F
  shared : F → Nat
  exclusive : F → Bool

/-- What can happen next: a fiber calls a function of the mutex, or takes its next step in one. -/
inductive Action (F : Type) where
  | lock (f : F)
  | unlock (f : F)
  | lockShared (f : F)
  | unlockShared (f : F)
  | tryLock (f : F)
  | tryLockShared (f : F)
  | advance (f : F)

variable {F : Type} {s s' : State F}

def init : State F where
  readers := 0
  writer := false
  spin := none
  writerQueue := []
  readerQueue := []
  pc _ := .out
  shared _ := 0
  exclusive _ := false

/-- `fetch_add(1)` -/
def fetchAdd (n : Nat) : Nat := (n + 1) % 2 ^ 32

/-- `fetch_sub(1)` -/
def fetchSub (n : Nat) : Nat := if n = 0 then 2 ^ 32 - 1 else n - 1

section

variable [DecidableEq F]

namespace State

def goto (s : State F) (f : F) (p : Pc F) : State F := { s with pc := update s.pc f p }

def setShared (s : State F) (f : F) (n : Nat) : State F :=
  { s with shared := update s.shared f n }

def setExclusive (s : State F) (f : F) (b : Bool) : State F :=
  { s with exclusive := update s.exclusive f b }

/-- A reader comes out of a function with the mutex. -/
def enterShared (s : State F) (f : F) : State F := (s.goto f .out).setShared f (s.shared f + 1)

end State

/-- The next step of a fiber in the code of the mutex. -/
def advance (s : State F) (f : F) : Option (State F) :=
  match s.pc f with
  | .out | .readerParked | .writerParked | .waking [] => none
  | .sharedQueue => some (s.goto f (if s.writerQueue = [] then .sharedAdd else .sharedSlow))
  | .sharedAdd => some ({ s with readers := fetchAdd s.readers }.goto f .sharedCheck)
  | .sharedCheck => some (if s.writer then s.goto f .sharedUndo else s.enterShared f)
  | .sharedUndo => some ({ s with readers := fetchSub s.readers }.goto f .sharedSlow)
  | .sharedSlow =>
    if s.spin ≠ none then none
    else if !s.writer ∧ s.writerQueue = [] then
      some ({ s with readers := fetchAdd s.readers }.enterShared f)
    else some ({ s with readerQueue := s.readerQueue ++ [f] }.goto f .readerParked)
  | .tryAdd => some ({ s with readers := fetchAdd s.readers }.goto f .tryCheck)
  | .tryCheck => some (if s.writer then s.goto f .tryUndo else s.enterShared f)
  | .tryUndo => some ({ s with readers := fetchSub s.readers }.goto f .out)
  | .sharedLast =>
    if s.spin ≠ none then none
    else if s.readers = 0 then
      match s.writerQueue with
      | [] => some (s.goto f .out)
      | next :: rest =>
        some ({ s with writerQueue := rest, writer := true }.goto f (.wakeWriter next))
    else some (s.goto f .out)
  | .lockWait =>
    some ({ s with spin := none, writerQueue := s.writerQueue ++ [f] }.goto f .writerParked)
  | .readerWoken => some (s.enterShared f)
  | .writerWoken => some ((s.goto f .out).setExclusive f true)
  | .waking (reader :: rest) =>
    some ({ s with readers := fetchAdd s.readers }.goto f (.wakingOne reader rest))
  | .wakingOne reader [] => some ((s.goto reader .readerWoken).goto f .out)
  | .wakingOne reader rest => some ((s.goto reader .readerWoken).goto f (.waking rest))
  | .wakeWriter next => some ((s.goto next .writerWoken).goto f .out)

/-- One step. -/
def step (s : State F) : Action F → Option (State F)
  | .lock f =>
    if s.pc f = .out ∧ s.spin = none then
      if !s.writer ∧ s.readers = 0 ∧ s.writerQueue = [] then
        some ({ s with writer := true }.setExclusive f true)
      else some ({ s with spin := some f }.goto f .lockWait)
    else none
  | .unlock f =>
    if (s.pc f = .out ∧ s.spin = none) ∧ s.exclusive f = true then
      match s.readerQueue with
      | reader :: rest =>
        some (({ s with writer := false, readerQueue := [] }.goto f
          (.waking (reader :: rest))).setExclusive f false)
      | [] =>
        match s.writerQueue with
        | next :: rest =>
          some (({ s with writer := true, writerQueue := rest }.goto f
            (.wakeWriter next)).setExclusive f false)
        | [] => some ({ s with writer := false }.setExclusive f false)
    else none
  | .lockShared f =>
    if s.pc f = .out then some (s.goto f (if s.writer then .sharedSlow else .sharedQueue)) else none
  | .unlockShared f =>
    if s.pc f = .out ∧ 0 < s.shared f then
      some (({ s with readers := fetchSub s.readers }.goto f
        (if s.readers = 1 then .sharedLast else .out)).setShared f (s.shared f - 1))
    else none
  | .tryLock f =>
    if s.pc f = .out ∧ s.spin = none then
      if !s.writer ∧ s.readers = 0 then some ({ s with writer := true }.setExclusive f true)
      else some s
    else none
  | .tryLockShared f =>
    if s.pc f = .out then some (if s.writer then s else s.goto f .tryAdd) else none
  | .advance f => advance s f

end

/-! ### Orderly steps -/

/-- The readers that a fiber in `unlock` has taken from the queue and not counted yet. -/
def Pc.uncounted : Pc F → List F
  | .waking rest | .wakingOne _ rest => rest
  | _ => []

/-- The next step of the fiber counts a reader. -/
def Pc.counts : Pc F → Bool
  | .sharedAdd | .sharedSlow | .tryAdd | .waking _ => true
  | _ => false

/-- A step that is no writer's way past the readers: the flag is only set while it is clear and
every reader taken from the queue is counted, and the counter does not overflow. -/
def Orderly (s : State F) : Action F → Prop
  | .lock _ | .tryLock _ => s.writer = false ∧ s.readers = 0 → ∀ g, (s.pc g).uncounted = []
  | .advance f =>
    (s.pc f = .sharedLast → s.readers = 0 → s.writerQueue ≠ [] →
      s.writer = false ∧ ∀ g, (s.pc g).uncounted = []) ∧
    ((s.pc f).counts = true → s.readers + 1 < 2 ^ 32)
  | _ => True

/-! ### The invariant -/

/-- Who has the right to the mutex as a writer. -/
inductive Grant (F : Type) where
  | free
  /-- A writer that runs, or was woken. -/
  | to (writer : F)
  /-- A writer that is parked, and the fiber that is about to wake it. -/
  | via (writer giver : F)

/-- The readers that a fiber in `unlock` has taken from the queue: one that it has counted and is
about to wake, and those that it has not counted yet. -/
structure Chain (F : Type) where
  giver : F
  reader : Option F
  rest : List F

def Chain.toList (c : Option (Chain F)) : List F := c.elim [] fun c => c.reader.toList ++ c.rest

def Chain.counted (c : Option (Chain F)) : Option F := c.bind Chain.reader

/-- In the way of a writer. -/
def Pc.writes : Pc F → Bool
  | .writerParked | .writerWoken | .wakeWriter _ => true
  | _ => false

/-- In the way of a reader that waits. -/
def Pc.reads : Pc F → Bool
  | .readerParked | .waking _ | .wakingOne _ _ => true
  | _ => false

/-- The queue of the writers and the one of them that is handed the mutex. -/
structure Writers (s : State F) (grant : Grant F) : Prop where
  woken : ∀ f, s.pc f = .writerWoken → grant = .to f
  giver : ∀ f n, s.pc f = .wakeWriter n → grant = .via n f
  handed : ∀ n g, grant = .via n g → s.pc n = .writerParked ∧ n ∉ s.writerQueue
  parked : ∀ f ∈ s.writerQueue, s.pc f = .writerParked
  nodup : s.writerQueue.Nodup

/-- The queue of the readers and those of them that are woken. -/
structure Readers (s : State F) (chain : Option (Chain F)) : Prop where
  next : ∀ f rest, s.pc f = .waking rest → rest ≠ [] ∧ chain = some ⟨f, none, rest⟩
  one : ∀ f reader rest, s.pc f = .wakingOne reader rest → chain = some ⟨f, some reader, rest⟩
  parked : ∀ f ∈ Chain.toList chain ++ s.readerQueue, s.pc f = .readerParked
  nodup : (Chain.toList chain ++ s.readerQueue).Nodup
  giver : ∀ c, chain = some c → s.pc c.giver =
    c.reader.elim (.waking c.rest) fun reader => .wakingOne reader c.rest

/-- Who has the mutex, and who is on the way to it. -/
structure Rights (s : State F) (grant : Grant F) (chain : Option (Chain F)) : Prop where
  free : s.writer = false ↔ grant = .free
  exclusive : ∀ f, s.exclusive f = true → grant = .to f
  shared : ∀ f, s.shared f ≠ 0 → s.writer = false
  woken : ∀ f, s.pc f = .readerWoken → s.writer = false
  chain : chain ≠ none → s.writer = false

/-- A fiber on its way is counted. -/
def Pc.units : Pc F → Nat
  | .sharedCheck | .sharedUndo | .tryCheck | .tryUndo | .readerWoken => 1
  | _ => 0

section

variable [DecidableEq F]

/-- What the counter counts for a fiber. -/
def units (s : State F) (chain : Option (Chain F)) (f : F) : Nat :=
  s.shared f + (s.pc f).units + if Chain.counted chain = some f then 1 else 0

/-- The counter is the number of all that it counts. -/
structure Counts (s : State F) (chain : Option (Chain F)) : Prop where
  bound : s.readers < 2 ^ 32
  total : ∃ l : List F, s.readers = l.length ∧ ∀ f, l.count f = units s chain f

structure Inv (s : State F) (grant : Grant F) (chain : Option (Chain F)) : Prop where
  writers : Writers s grant
  readers : Readers s chain
  rights : Rights s grant chain
  counts : Counts s chain

end

variable {grant : Grant F} {chain : Option (Chain F)}

/-- Who moved was and is at no place that counts. -/
theorem pc_same {P : Pc F → Bool}
    (hpc : ∀ g, s'.pc g = s.pc g ∨ P (s.pc g) = false ∧ P (s'.pc g) = false) (g : F)
    (hg : P (s.pc g) = true ∨ P (s'.pc g) = true) : s'.pc g = s.pc g := by
  rcases hpc g with heq | ⟨hs, hs'⟩
  · exact heq
  · simp [hs, hs'] at hg

private theorem writers_frame (hw : Writers s grant)
    (hpc : ∀ g, s'.pc g = s.pc g ∨ (s.pc g).writes = false ∧ (s'.pc g).writes = false)
    (hqueue : s'.writerQueue = s.writerQueue) : Writers s' grant := by
  have hpc' := pc_same hpc
  refine ⟨fun f hf => ?_, fun f n hf => ?_, fun n g hn => ?_, fun f hf => ?_, ?_⟩
  · exact hw.woken f (by rw [← hpc' f (.inr (by rw [hf]; rfl)), hf])
  · exact hw.giver f n (by rw [← hpc' f (.inr (by rw [hf]; rfl)), hf])
  · obtain ⟨hparked, hnot⟩ := hw.handed n g hn
    exact ⟨by rw [hpc' n (.inl (by rw [hparked]; rfl)), hparked], by rwa [hqueue]⟩
  · rw [hqueue] at hf
    rw [hpc' f (.inl (by rw [hw.parked f hf]; rfl)), hw.parked f hf]
  · rw [hqueue]
    exact hw.nodup

private theorem readers_frame (hr : Readers s chain)
    (hpc : ∀ g, s'.pc g = s.pc g ∨ (s.pc g).reads = false ∧ (s'.pc g).reads = false)
    (hqueue : s'.readerQueue = s.readerQueue) : Readers s' chain := by
  have hpc' := pc_same hpc
  refine ⟨fun f rest hf => ?_, fun f reader rest hf => ?_, fun f hf => ?_, ?_, fun c hc => ?_⟩
  · exact hr.next f rest (by rw [← hpc' f (.inr (by rw [hf]; rfl)), hf])
  · exact hr.one f reader rest (by rw [← hpc' f (.inr (by rw [hf]; rfl)), hf])
  · rw [hqueue] at hf
    rw [hpc' f (.inl (by rw [hr.parked f hf]; rfl)), hr.parked f hf]
  · rw [hqueue]
    exact hr.nodup
  · have hg := hr.giver c hc
    rw [← hg]
    refine hpc' _ (.inl ?_)
    rw [hg]
    cases c.reader <;> rfl

variable [DecidableEq F]

/-- The invariant holds at the start. -/
theorem inv_init : Inv (init : State F) .free none := by
  refine ⟨?_, ?_, ?_, by simp [init], [], rfl, ?_⟩
  · constructor <;> simp [init]
  · constructor <;> simp [init, Chain.toList]
  · constructor <;> simp [init]
  · simp [init, units, Chain.counted, Pc.units]

section

variable {f : F} {chain' : Option (Chain F)} {p q : Pc F} {rest : List F} {n r : F}

/-! ### The steps -/

private theorem State.enterShared_shared : (s.enterShared f).shared f = s.shared f + 1 :=
  update_self _ _ _

private theorem units_of_ne {g : F} (hpc : s'.pc = update s.pc f q)
    (hshared : g ≠ f → s'.shared g = s.shared g) (hg : g ≠ f) :
    units s' chain g = units s chain g := by
  rw [units, units, hpc, update_of_ne hg, hshared hg]

private theorem units_self (hpc : s'.pc = update s.pc f q) :
    units s' chain f = s'.shared f + q.units + if Chain.counted chain = some f then 1 else 0 := by
  rw [units, hpc, update_self]

/-- Where the fibers stand after one of them moved. -/
theorem pc_move (P : Pc F → Prop) (hpc : s.pc f = p) (hpc' : s'.pc = update s.pc f q)
    (hp : P p) (hq : P q) (g : F) : s'.pc g = s.pc g ∨ P (s.pc g) ∧ P (s'.pc g) := by
  rw [hpc']
  by_cases hg : g = f
  · rw [hg, update_self, hpc]
    exact .inr ⟨hp, hq⟩
  · exact .inl (update_of_ne hg _ _)

private theorem writers_move (hw : Writers s grant) (hpc : s.pc f = p)
    (hpc' : s'.pc = update s.pc f q)
    (hqueue : s'.writerQueue = s.writerQueue) (hp : p.writes = false) (hq : q.writes = false) :
    Writers s' grant :=
  writers_frame hw (pc_move (·.writes = false) hpc hpc' hp hq) hqueue

private theorem readers_move (hr : Readers s chain) (hpc : s.pc f = p)
    (hpc' : s'.pc = update s.pc f q)
    (hqueue : s'.readerQueue = s.readerQueue) (hp : p.reads = false) (hq : q.reads = false) :
    Readers s' chain :=
  readers_frame hr (pc_move (·.reads = false) hpc hpc' hp hq) hqueue

private theorem rights_move (hr : Rights s grant chain) (hpc : s'.pc = update s.pc f q)
    (hwoken : q ≠ .readerWoken) (hwriter : s'.writer = s.writer)
    (hexclusive : s'.exclusive = s.exclusive) (hshared : ∀ g, g ≠ f → s'.shared g = s.shared g)
    (hright : s'.shared f ≠ 0 → s.writer = false) : Rights s' grant chain := by
  refine ⟨by rw [hwriter]; exact hr.free, by rw [hexclusive]; exact hr.exclusive,
    fun g hg => ?_, fun g hg => ?_, fun hc => hwriter.trans (hr.chain hc)⟩
  · rw [hwriter]
    by_cases hgf : g = f
    · exact hright (hgf ▸ hg)
    · exact hr.shared g (hshared g hgf ▸ hg)
  · rw [hwriter]
    by_cases hgf : g = f
    · rw [hgf, hpc, update_self] at hg
      exact absurd hg hwoken
    · rw [hpc, update_of_ne hgf] at hg
      exact hr.woken g hg

section

variable (hc : Counts s chain)

include hc

private theorem counts_same (hreaders : s'.readers = s.readers)
    (hunits : ∀ g, units s' chain' g = units s chain g) :
    Counts s' chain' := by
  obtain ⟨hbound, l, hlen, hcount⟩ := hc
  exact ⟨hreaders ▸ hbound, l, hreaders.trans hlen, fun g => (hcount g).trans (hunits g).symm⟩

private theorem counts_add (hroom : s.readers + 1 < 2 ^ 32)
    (hreaders : s'.readers = fetchAdd s.readers)
    (hunits : ∀ g, g ≠ f → units s' chain' g = units s chain g)
    (hunit : units s' chain' f = units s chain f + 1) : Counts s' chain' := by
  obtain ⟨hbound, l, hlen, hcount⟩ := hc
  have hadd : s'.readers = s.readers + 1 := hreaders.trans (Nat.mod_eq_of_lt hroom)
  refine ⟨by omega, f :: l, by rw [hadd, hlen, length_cons], fun g => ?_⟩
  by_cases hg : g = f
  · rw [hg, count_cons_self, hunit, hcount f]
  · rw [count_cons_of_ne (Ne.symm hg), hunits g hg, hcount g]

private theorem counts_sub (hreaders : s'.readers = fetchSub s.readers)
    (hunits : ∀ g, g ≠ f → units s' chain' g = units s chain g)
    (hunit : units s' chain' f + 1 = units s chain f) : Counts s' chain' := by
  obtain ⟨hbound, l, hlen, hcount⟩ := hc
  have hmem : f ∈ l := by
    rw [← count_pos_iff, hcount f, ← hunit]
    exact Nat.succ_pos _
  have hpos : 0 < l.length := length_pos_of_mem hmem
  have hsub : s'.readers = s.readers - 1 := by
    rw [hreaders, fetchSub, if_neg (by omega)]
  refine ⟨by omega, l.erase f, by rw [hsub, hlen, length_erase_of_mem hmem], fun g => ?_⟩
  by_cases hg : g = f
  · rw [hg, count_erase_self, hcount f, ← hunit, Nat.add_sub_cancel]
  · rw [count_erase_of_ne hg, hunits g hg, hcount g]

/-- Nobody is counted when the counter is zero. -/
theorem units_eq_zero (hzero : s.readers = 0) (g : F) : units s chain g = 0 := by
  obtain ⟨-, l, hlen, hcount⟩ := hc
  rw [← hcount g, length_eq_zero_iff.mp (hlen.symm.trans hzero), count_nil]

/-- A move that does not change who is counted. -/
theorem counts_move (hpc : s.pc f = p) (hpc' : s'.pc = update s.pc f q)
    (hreaders : s'.readers = s.readers) (hshared : s'.shared = s.shared)
    (hcounted : Chain.counted chain' = Chain.counted chain) (hunits : q.units = p.units) :
    Counts s' chain' := by
  refine counts_same hc hreaders fun g => ?_
  rw [units, units, hshared, hcounted, hpc']
  by_cases hg : g = f
  · rw [hg, update_self, hunits, hpc]
  · rw [update_of_ne hg]

end

/-- Neither waits nor wakes. -/
def Pc.plain (p : Pc F) : Bool := !p.writes && !p.reads

/-- Neither waits nor wakes, nor was it woken as a reader. -/
def Pc.passes : Pc F → Bool
  | .readerWoken => false
  | p => p.plain

/-- The next writer of the queue is handed the mutex, by the fiber that had it or while nobody
has it. -/
theorem writers_hand (hw : Writers s grant) (hgrant : grant = .free ∨ grant = .to f)
    (hpc : s.pc f = p) (hp : p.writes = false) (hpc' : s'.pc = update s.pc f (.wakeWriter n))
    (hqueue : s.writerQueue = n :: rest) (hqueue' : s'.writerQueue = rest) :
    Writers s' (.via n f) := by
  have hf : s.pc f ≠ .writerParked := by
    rintro h
    cases hpc.symm.trans h
    cases hp
  have hnodup : (n :: rest).Nodup := hqueue ▸ hw.nodup
  have hparked : ∀ g ∈ n :: rest, s'.pc g = .writerParked := by
    intro g hg
    rw [hpc']
    exact update_eq_of_ne (hw.parked g (hqueue ▸ hg)) hf
  refine ⟨?_, ?_, ?_, ?_, by rw [hqueue']; exact hnodup.of_cons⟩
  · intro g hg
    rw [hpc'] at hg
    rcases update_eq_iff.mp hg with ⟨-, h⟩ | ⟨hgf, h⟩
    · cases h
    · have := hw.woken g h
      rcases hgrant with rfl | rfl
      · cases this
      · cases this
        exact absurd rfl hgf
  · intro g m hg
    rw [hpc'] at hg
    rcases update_eq_iff.mp hg with ⟨hgf, h⟩ | ⟨-, h⟩
    · cases h
      rw [hgf]
    · have := hw.giver g m h
      rcases hgrant with rfl | rfl <;> cases this
  · rintro m g ⟨⟩
    rw [hqueue']
    exact ⟨hparked n mem_cons_self, (nodup_cons.mp hnodup).1⟩
  · intro g hg
    rw [hqueue'] at hg
    exact hparked g (mem_cons_of_mem n hg)

/-- What holds of the rights while a writer that is parked is handed the mutex. -/
theorem rights_hand (hpc : s'.pc = update s.pc f (.wakeWriter n))
    (hwriter : s'.writer = true) (hexclusive : ∀ g, s'.exclusive g ≠ true)
    (hshared : s'.shared = s.shared) (hno : ∀ g, s.shared g = 0 ∧ s.pc g ≠ .readerWoken) :
    Rights s' (.via n f) none := by
  refine ⟨⟨fun h => ?_, nofun⟩, fun g hg => absurd hg (hexclusive g), fun g hg => ?_,
    fun g hg => ?_, fun h => absurd rfl h⟩
  · rw [hwriter] at h
    cases h
  · rw [hshared] at hg
    exact absurd (hno g).1 hg
  · rw [hpc] at hg
    exact absurd (eq_of_update_eq hg nofun) (hno g).2

private theorem setExclusive_eq_true (hex : ∀ g, g ≠ f → s.exclusive g = false) (g : F) :
    (s.setExclusive f false).exclusive g ≠ true := by
  intro hg
  rcases update_eq_iff.mp hg with ⟨-, h⟩ | ⟨hgf, h⟩
  · cases h
  · rw [hex g hgf] at h
    cases h

/-- The mutex is free of the writer that had it. -/
theorem writers_release (hw : Writers s (.to f)) (hpc : s.pc f = .out)
    (hpc' : s'.pc = update s.pc f q) (hq : q.writes = false)
    (hqueue : s'.writerQueue = s.writerQueue) : Writers s' .free := by
  have hw' := writers_move hw hpc hpc' hqueue rfl hq
  refine ⟨?_, ?_, ?_, hw'.parked, hw'.nodup⟩
  · intro g hg
    cases hw'.woken g hg
    rw [hpc', update_self] at hg
    rw [hg] at hq
    cases hq
  · intro g n hg
    cases hw'.giver g n hg
  · rintro n g ⟨⟩

omit [DecidableEq F] in
private theorem rights_release {s' : State F} {chain' : Option (Chain F)}
    (hwriter : s'.writer = false)
    (hexclusive : ∀ g, s'.exclusive g ≠ true) : Rights s' .free chain' :=
  ⟨⟨fun _ => rfl, fun _ => hwriter⟩, fun g hg => absurd hg (hexclusive g), fun _ _ => hwriter,
    fun _ _ => hwriter, fun _ => hwriter⟩

section

variable (hi : Inv s grant chain)

include hi

/-- The readers that were taken from the queue are counted before a writer comes. -/
theorem Inv.chain_eq_none (hzero : s.readers = 0) (hcounted : ∀ g, (s.pc g).uncounted = []) :
    chain = none := by
  cases chain with
  | none => rfl
  | some c =>
    have hgiver := hi.readers.giver c rfl
    obtain ⟨giver, reader, rest⟩ := c
    cases reader with
    | none =>
      have hrest : rest = [] := by
        have := hcounted giver
        rwa [hgiver] at this
      exact absurd hrest (hi.readers.next giver rest hgiver).1
    | some reader =>
      have hunits := units_eq_zero hi.counts hzero reader
      rw [units, Chain.counted, Option.bind_some, if_pos rfl] at hunits
      exact absurd hunits (Nat.succ_ne_zero _)

/-- No fiber has the mutex, or is on the way to it as a reader, when the counter is zero. -/
theorem Inv.no_reader (hzero : s.readers = 0) (g : F) : s.shared g = 0 ∧
    s.pc g ≠ .readerWoken := by
  have hunits := units_eq_zero hi.counts hzero g
  rw [units] at hunits
  refine ⟨by omega, fun hpc => ?_⟩
  rw [hpc, Pc.units] at hunits
  omega

/-- A step of a fiber that neither waits nor wakes, on its way in or out as a reader. -/
theorem inv_move (hpc : s.pc f = p) (hp : p.plain = true) (hpc' : s'.pc = update s.pc f q)
    (hq : q.passes = true) (hwriter : s'.writer = s.writer)
    (hexclusive : s'.exclusive = s.exclusive)
    (hwq : s'.writerQueue = s.writerQueue) (hrq : s'.readerQueue = s.readerQueue)
    (hshared : ∀ g, g ≠ f → s'.shared g = s.shared g) (hright : s'.shared f ≠ 0 → s.writer = false)
    (hcounts : Counts s' chain) : Inv s' grant chain := by
  have hwoken : q ≠ .readerWoken := by
    rintro rfl
    cases hq
  rw [Pc.passes.eq_2 q hwoken] at hq
  simp only [Pc.plain, Bool.and_eq_true, Bool.not_eq_true'] at hp hq
  exact ⟨writers_move hi.writers hpc hpc' hwq hp.1 hq.1,
    readers_move hi.readers hpc hpc' hrq hp.2 hq.2,
    rights_move hi.rights hpc' hwoken hwriter hexclusive hshared hright, hcounts⟩

/-- A step to another place. -/
theorem inv_goto (hpc : s.pc f = p) (hp : p.plain = true) (hq : q.passes = true)
    (hunits : q.units = p.units) : Inv (s.goto f q) grant chain := by
  exact inv_move hi hpc hp rfl hq rfl rfl rfl rfl (fun _ _ => rfl) (hi.rights.shared f)
    (counts_move hi.counts hpc rfl rfl rfl rfl hunits)

/-- A fiber counts itself. -/
theorem inv_add (hroom : s.readers + 1 < 2 ^ 32) (hpc : s.pc f = p) (hp : p.plain = true)
    (hq : q.passes = true) (hunits : q.units = p.units + 1) :
    Inv ({ s with readers := fetchAdd s.readers }.goto f q) grant chain := by
  refine inv_move hi hpc hp rfl hq rfl rfl rfl rfl (fun _ _ => rfl) (hi.rights.shared f) ?_
  refine counts_add hi.counts hroom rfl (fun g hg => units_of_ne rfl (fun _ => rfl) hg) ?_
  rw [units_self rfl, hunits, units, hpc]
  exact Nat.add_right_comm _ 1 _

/-- A fiber takes its count back. -/
theorem inv_undo (hpc : s.pc f = p) (hp : p.plain = true) (hq : q.passes = true)
    (hunits : p.units = q.units + 1) :
    Inv ({ s with readers := fetchSub s.readers }.goto f q) grant chain := by
  refine inv_move hi hpc hp rfl hq rfl rfl rfl rfl (fun _ _ => rfl) (hi.rights.shared f) ?_
  refine counts_sub hi.counts rfl (fun g hg => units_of_ne rfl (fun _ => rfl) hg) ?_
  rw [units_self rfl, units, hpc, hunits]
  exact Nat.add_right_comm _ _ 1

/-- A fiber that is counted comes out with the mutex. -/
theorem inv_enterShared (hpc : s.pc f = p) (hp : p.plain = true) (hunits : p.units = 1)
    (hwriter : s.writer = false) :
    Inv (s.enterShared f) grant chain := by
  have hoff := fun g (hg : g ≠ f) => update_of_ne hg (s.shared f + 1) s.shared
  refine inv_move hi hpc hp rfl rfl rfl rfl rfl rfl hoff (fun _ => hwriter) ?_
  refine counts_same hi.counts rfl fun g => ?_
  by_cases hg : g = f
  · rw [hg, units_self rfl, units, hpc, hunits, State.enterShared_shared]
    rfl
  · exact units_of_ne rfl (hoff g) hg

/-- A fiber counts itself in the section, and comes out with the mutex. -/
theorem inv_slowShared (hroom : s.readers + 1 < 2 ^ 32) (hpc : s.pc f = .sharedSlow)
    (hwriter : s.writer = false) :
    Inv ({ s with readers := fetchAdd s.readers }.enterShared f) grant chain := by
  have hoff := fun g (hg : g ≠ f) => update_of_ne hg (s.shared f + 1) s.shared
  refine inv_move hi hpc rfl rfl rfl rfl rfl rfl rfl hoff (fun _ => hwriter) ?_
  refine counts_add hi.counts hroom rfl (fun g hg => units_of_ne rfl (hoff g) hg) ?_
  rw [units_self rfl, units, hpc, State.enterShared_shared]
  exact Nat.add_right_comm _ 1 _

/-- A reader lets go of the mutex. -/
theorem inv_unlockShared (hpc : s.pc f = .out) (hheld : 0 < s.shared f) (hq : q.passes = true)
    (hunits : q.units = 0) :
    Inv (({ s with readers := fetchSub s.readers }.goto f q).setShared f (s.shared f - 1))
      grant chain := by
  have hoff := fun g (hg : g ≠ f) => update_of_ne hg (s.shared f - 1) s.shared
  refine inv_move hi hpc rfl rfl hq rfl rfl rfl rfl hoff
    (fun _ => hi.rights.shared f (Nat.ne_of_gt hheld)) ?_
  refine counts_sub hi.counts rfl (fun g hg => units_of_ne rfl (hoff g) hg) ?_
  rw [units_self rfl, units, hpc, hunits]
  simp only [State.setShared, update_self]
  show s.shared f - 1 + 0 + _ + 1 = s.shared f + 0 + _
  omega

/-- Only a writer has the flag. -/
theorem Inv.grant_eq_free (hwriter : s.writer = false) : grant = .free :=
  hi.rights.free.mp hwriter

/-- A writer finds the mutex free and takes it. -/
theorem inv_acquire (hwriter : s.writer = false) (hzero : s.readers = 0) (hchain : chain = none) :
    Inv ({ s with writer := true }.setExclusive f true) (.to f) none := by
  have hgrant := hi.grant_eq_free hwriter
  have hno := hi.no_reader hzero
  subst hgrant hchain
  obtain ⟨hw, hr, hrights, hc⟩ := hi
  refine ⟨⟨?_, ?_, nofun, hw.parked, hw.nodup⟩, { hr with },
    ⟨⟨nofun, nofun⟩, ?_, fun g hg => absurd (hno g).1 hg, fun g hg => absurd hg (hno g).2,
      fun h => absurd rfl h⟩, counts_same hc rfl fun _ => rfl⟩
  · intro g hg
    cases hw.woken g hg
  · intro g n hg
    cases hw.giver g n hg
  · intro g hg
    rcases update_eq_iff.mp hg with ⟨h, -⟩ | ⟨-, h⟩
    · rw [h]
    · cases hrights.exclusive g h

/-- A writer joins the queue. -/
theorem inv_enqueueWriter (hpc : s.pc f = .lockWait) :
    Inv ({ s with spin := none, writerQueue := s.writerQueue ++ [f] }.goto f .writerParked) grant
      chain := by
  obtain ⟨hw, hr, hrights, hc⟩ := hi
  have hf : s.pc f ≠ .writerParked := by rw [hpc]; nofun
  refine ⟨⟨?_, ?_, ?_, ?_, nodup_append_singleton hw.nodup fun h => hf (hw.parked f h)⟩,
    readers_move hr hpc rfl rfl rfl rfl,
    rights_move hrights rfl nofun rfl rfl (fun _ _ => rfl) (hrights.shared f),
    counts_move hc hpc rfl rfl rfl rfl rfl⟩
  · intro g hg
    exact hw.woken g (eq_of_update_eq hg nofun)
  · intro g n hg
    exact hw.giver g n (eq_of_update_eq hg nofun)
  · intro n g hn
    obtain ⟨hparked, hnot⟩ := hw.handed n g hn
    refine ⟨update_eq_of_ne hparked hf, fun hmem => ?_⟩
    rcases mem_append_singleton.mp hmem with hmem | rfl
    · exact hnot hmem
    · exact hf hparked
  · intro g hg
    rcases mem_append_singleton.mp hg with hg | rfl
    · exact update_eq_of_ne (hw.parked g hg) hf
    · exact update_self _ _ _

/-- A reader joins the queue. -/
theorem inv_enqueueReader (hpc : s.pc f = .sharedSlow) :
    Inv ({ s with readerQueue := s.readerQueue ++ [f] }.goto f .readerParked) grant chain := by
  obtain ⟨hw, hr, hrights, hc⟩ := hi
  have hf : s.pc f ≠ .readerParked := by rw [hpc]; nofun
  refine ⟨writers_move hw hpc rfl rfl rfl rfl, ⟨?_, ?_, ?_, ?_, ?_⟩,
    rights_move hrights rfl nofun rfl rfl (fun _ _ => rfl) (hrights.shared f),
    counts_move hc hpc rfl rfl rfl rfl rfl⟩
  · intro g rest hg
    exact hr.next g rest (eq_of_update_eq hg nofun)
  · intro g reader rest hg
    exact hr.one g reader rest (eq_of_update_eq hg nofun)
  · intro g hg
    rw [State.goto, ← append_assoc] at hg
    rcases mem_append_singleton.mp hg with hg | rfl
    · exact update_eq_of_ne (hr.parked g hg) hf
    · exact update_self _ _ _
  · rw [State.goto, ← append_assoc]
    exact nodup_append_singleton hr.nodup fun h => hf (hr.parked f h)
  · intro c hchain
    refine update_eq_of_ne (hr.giver c hchain) ?_
    rw [hpc]
    cases c.reader <;> nofun

/-- The last reader hands the mutex to a writer. -/
theorem inv_sharedLast (hpc : s.pc f = .sharedLast) (hzero : s.readers = 0)
    (hwriter : s.writer = false) (hchain : chain = none) (hqueue : s.writerQueue = n :: rest) :
    Inv ({ s with writerQueue := rest, writer := true }.goto f (.wakeWriter n))
      (.via n f) none := by
  have hgrant := hi.grant_eq_free hwriter
  have hno := hi.no_reader hzero
  subst hgrant hchain
  obtain ⟨hw, hr, hrights, hc⟩ := hi
  refine ⟨writers_hand hw (.inl rfl) hpc rfl rfl hqueue rfl,
    readers_move hr hpc rfl rfl rfl rfl, rights_hand rfl rfl (fun g hg => ?_) rfl hno,
    counts_move hc hpc rfl rfl rfl rfl rfl⟩
  cases hrights.exclusive g hg

/-- What is known of a writer that has the mutex. -/
theorem Inv.of_exclusive (hex : s.exclusive f = true) :
    grant = .to f ∧ s.writer = true ∧ chain = none ∧
      ∀ g, s.shared g = 0 ∧ s.pc g ≠ .readerWoken ∧ (g ≠ f → s.exclusive g = false) := by
  have hgrant := hi.rights.exclusive f hex
  subst hgrant
  have hwriter : s.writer ≠ false := fun h => nomatch hi.rights.free.mp h
  refine ⟨rfl, Bool.of_not_eq_false hwriter, ?_, fun g => ⟨?_, ?_, ?_⟩⟩
  · by_contra hchain
    exact hwriter (hi.rights.chain hchain)
  · by_contra hshared
    exact hwriter (hi.rights.shared g hshared)
  · exact fun hg => hwriter (hi.rights.woken g hg)
  · intro hg
    by_contra hexg
    cases hi.rights.exclusive g (Bool.of_not_eq_false hexg)
    exact hg rfl

section

variable (hpc : s.pc f = .out) (hex : s.exclusive f = true)

include hpc hex

/-- A writer hands the mutex to the next one. -/
theorem inv_unlockWriter (hqueue : s.writerQueue = n :: rest) :
    Inv (({ s with writer := true, writerQueue := rest }.goto f (.wakeWriter n)).setExclusive
      f false) (.via n f) none := by
  obtain ⟨hgrant, -, hchain, hno⟩ := hi.of_exclusive hex
  subst hgrant hchain
  obtain ⟨hw, hr, -, hc⟩ := hi
  exact ⟨writers_hand hw (.inr rfl) hpc rfl rfl hqueue rfl,
    readers_move hr hpc rfl rfl rfl rfl,
    rights_hand rfl rfl (setExclusive_eq_true fun g => (hno g).2.2) rfl
      fun g => ⟨(hno g).1, (hno g).2.1⟩,
    counts_move hc hpc rfl rfl rfl rfl rfl⟩

/-- A writer lets go of the mutex while no one waits. -/
theorem inv_unlockFree : Inv ({ s with writer := false }.setExclusive f false) .free none := by
  obtain ⟨hgrant, -, hchain, hno⟩ := hi.of_exclusive hex
  subst hgrant hchain
  obtain ⟨hw, hr, -, hc⟩ := hi
  have hself : s.pc = update s.pc f .out := by
    rw [← hpc, update_eq_self]
  exact ⟨writers_release hw hpc hself rfl rfl, { hr with },
    rights_release rfl (setExclusive_eq_true fun g => (hno g).2.2), counts_same hc rfl fun _ => rfl⟩

/-- A writer takes the readers from the queue. -/
theorem inv_unlockReaders (hqueue : s.readerQueue = r :: rest) :
    Inv (({ s with writer := false, readerQueue := [] }.goto f (.waking (r :: rest))).setExclusive
      f false) .free (some ⟨f, none, r :: rest⟩) := by
  obtain ⟨hgrant, -, hchain, hno⟩ := hi.of_exclusive hex
  subst hgrant hchain
  obtain ⟨hw, hr, -, hc⟩ := hi
  have hlist : Chain.toList none ++ s.readerQueue =
      Chain.toList (some ⟨f, none, r :: rest⟩) ++ [] := by
    rw [hqueue, append_nil]
    rfl
  refine ⟨writers_release hw hpc rfl rfl rfl, ⟨?_, ?_, ?_, hlist ▸ hr.nodup, ?_⟩,
    rights_release rfl (setExclusive_eq_true fun g => (hno g).2.2),
    counts_move hc hpc rfl rfl rfl rfl rfl⟩
  · intro g rest' hg
    rcases update_eq_iff.mp hg with ⟨hgf, h⟩ | ⟨-, h⟩
    · cases h
      exact ⟨cons_ne_nil _ _, by rw [hgf]⟩
    · cases (hr.next g rest' h).2
  · intro g reader rest' hg
    cases hr.one g reader rest' (eq_of_update_eq hg nofun)
  · intro g hg
    exact update_eq_of_ne (hr.parked g (hlist ▸ hg)) (by rw [hpc]; nofun)
  · rintro c ⟨⟩
    exact update_self _ _ _

end

/-- A reader that was taken from the queue is counted. -/
theorem inv_waking (hpc : s.pc f = .waking (r :: rest)) (hroom : s.readers + 1 < 2 ^ 32) :
    Inv ({ s with readers := fetchAdd s.readers }.goto f (.wakingOne r rest)) grant
      (some ⟨f, some r, rest⟩) := by
  have hchain := (hi.readers.next f _ hpc).2
  subst hchain
  obtain ⟨hw, hr, hrights, hc⟩ := hi
  have hmoved : Rights ({ s with readers := fetchAdd s.readers }.goto f (.wakingOne r rest)) grant
      (some ⟨f, none, r :: rest⟩) :=
    rights_move hrights rfl nofun rfl rfl (fun _ _ => rfl) (hrights.shared f)
  refine ⟨writers_move hw hpc rfl rfl rfl rfl, ⟨?_, ?_, ?_, hr.nodup, ?_⟩,
    { hmoved with chain := fun _ => hmoved.chain (Option.some_ne_none _) }, ?_⟩
  · intro g rest' hg
    rcases update_eq_iff.mp hg with ⟨-, h⟩ | ⟨hgf, h⟩
    · cases h
    · cases (hr.next g rest' h).2
      exact absurd rfl hgf
  · intro g reader rest' hg
    rcases update_eq_iff.mp hg with ⟨hgf, h⟩ | ⟨-, h⟩
    · cases h
      rw [hgf]
    · cases hr.one g reader rest' h
  · intro g hg
    exact update_eq_of_ne (hr.parked g hg) (by rw [hpc]; nofun)
  · rintro c ⟨⟩
    exact update_self _ _ _
  · have hunits : ∀ g, units ({ s with readers := fetchAdd s.readers }.goto f (.wakingOne r rest))
        (some ⟨f, some r, rest⟩) g =
        s.shared g + (s.pc g).units + if some r = some g then 1 else 0 := by
      intro g
      by_cases hg : g = f
      · rw [hg, units_self rfl, hpc]
        rfl
      · exact units_of_ne rfl (fun _ => rfl) hg
    refine counts_add (f := r) hc hroom rfl (fun g hg => ?_) ?_
    · rw [hunits g, if_neg fun h => hg (Option.some.inj h).symm]
      rfl
    · rw [hunits r, if_pos rfl]
      rfl

/-- A reader that was counted is woken. -/
theorem inv_wakingOne (hpc : s.pc f = .wakingOne r rest)
    (hq : rest = [] ∧ q = .out ∧ chain' = none ∨
      rest ≠ [] ∧ q = .waking rest ∧ chain' = some ⟨f, none, rest⟩) :
    Inv ((s.goto r .readerWoken).goto f q) grant chain' := by
  have hchain := hi.readers.one f r rest hpc
  subst hchain
  obtain ⟨hw, hr, hrights, hc⟩ := hi
  have hwriter := hrights.chain (Option.some_ne_none _)
  have hparked : s.pc r = .readerParked := hr.parked r (mem_append_left _ mem_cons_self)
  have hrf : r ≠ f := by
    rintro rfl
    rw [hpc] at hparked
    cases hparked
  obtain ⟨hlist, hwrites, hcounted, hunits⟩ : Chain.toList chain' = rest ∧ q.writes = false ∧
      Chain.counted chain' = none ∧ q.units = 0 := by
    rcases hq with ⟨rfl, rfl, rfl⟩ | ⟨-, rfl, rfl⟩ <;> exact ⟨rfl, rfl, rfl, rfl⟩
  have hnodup : (r :: (rest ++ s.readerQueue)).Nodup := hr.nodup
  have hwoken : Writers (s.goto r .readerWoken) grant :=
    writers_move hw hparked rfl rfl rfl rfl
  have hpcf : (s.goto r .readerWoken).pc f = .wakingOne r rest :=
    (update_of_ne (Ne.symm hrf) _ _).trans hpc
  refine ⟨writers_move hwoken hpcf rfl rfl rfl hwrites, ⟨?_, ?_, ?_, ?_, ?_⟩,
    { hrights with woken := fun _ _ => hwriter, chain := fun _ => hwriter }, ?_⟩
  · intro g rest' hg
    rcases update_eq_iff.mp hg with ⟨hgf, h⟩ | ⟨-, h⟩
    · rcases hq with ⟨rfl, rfl, rfl⟩ | ⟨hrest, rfl, rfl⟩
      · cases h
      · cases h
        exact ⟨hrest, by rw [hgf]⟩
    · cases (hr.next g rest' (eq_of_update_eq h nofun)).2
  · intro g reader rest' hg
    rcases update_eq_iff.mp hg with ⟨-, h⟩ | ⟨hgf, h⟩
    · rcases hq with ⟨rfl, rfl, rfl⟩ | ⟨-, rfl, rfl⟩ <;> cases h
    · cases hr.one g reader rest' (eq_of_update_eq h nofun)
      exact absurd rfl hgf
  · intro g hg
    rw [hlist] at hg
    have hgr : g ≠ r := fun h => (nodup_cons.mp hnodup).1 (h ▸ hg)
    have hold : (s.goto r .readerWoken).pc g = .readerParked :=
      (update_of_ne hgr _ _).trans (hr.parked g (mem_cons_of_mem r hg))
    exact update_eq_of_ne hold (by rw [hpcf]; nofun)
  · rw [hlist]
    exact hnodup.of_cons
  · intro c hc
    rcases hq with ⟨rfl, rfl, rfl⟩ | ⟨-, rfl, rfl⟩
    · cases hc
    · cases hc
      exact update_self _ _ _
  · refine counts_same hc rfl fun g => ?_
    rw [units, units, hcounted, if_neg nofun]
    show s.shared g + ((update (update s.pc r .readerWoken) f q) g).units + 0 =
      s.shared g + (s.pc g).units + if some r = some g then 1 else 0
    by_cases hgf : g = f
    · rw [hgf, update_self, hunits, hpc, if_neg fun h => hrf (Option.some.inj h)]
      rfl
    · rw [update_of_ne hgf]
      by_cases hgr : g = r
      · rw [hgr, update_self, hparked, if_pos rfl]
        rfl
      · rw [update_of_ne hgr, if_neg fun h => hgr (Option.some.inj h).symm]

/-- The writer that is handed the mutex is woken. -/
theorem inv_wakeWriter (hpc : s.pc f = .wakeWriter n) :
    Inv ((s.goto n .writerWoken).goto f .out) (.to n) chain := by
  have hgrant := hi.writers.giver f n hpc
  subst hgrant
  obtain ⟨hw, hr, hrights, hc⟩ := hi
  obtain ⟨hparked, hnot⟩ := hw.handed n f rfl
  have hnf : n ≠ f := by
    rintro rfl
    rw [hpc] at hparked
    cases hparked
  have hpcf : (s.goto n .writerWoken).pc f = .wakeWriter n :=
    (update_of_ne (Ne.symm hnf) _ _).trans hpc
  have hwoken : Readers (s.goto n .writerWoken) chain :=
    readers_move hr hparked rfl rfl rfl rfl
  have hwokenRights : Rights (s.goto n .writerWoken) (.via n f) chain :=
    rights_move hrights rfl nofun rfl rfl (fun _ _ => rfl) (hrights.shared n)
  have hmoved : Rights ((s.goto n .writerWoken).goto f .out) (.via n f) chain :=
    rights_move hwokenRights rfl nofun rfl rfl (fun _ _ => rfl) (hrights.shared f)
  have hwokenCounts : Counts (s.goto n .writerWoken) chain :=
    counts_move hc hparked rfl rfl rfl rfl rfl
  refine ⟨⟨?_, ?_, nofun, ?_, hw.nodup⟩, readers_move hwoken hpcf rfl rfl rfl rfl,
    ⟨hrights.free.trans ⟨nofun, nofun⟩, ?_, hmoved.shared, hmoved.woken, hmoved.chain⟩,
    counts_move hwokenCounts hpcf rfl rfl rfl rfl rfl⟩
  · intro g hg
    rcases update_eq_iff.mp (eq_of_update_eq hg nofun) with ⟨h, -⟩ | ⟨-, h⟩
    · rw [h]
    · cases hw.woken g h
  · intro g m hg
    rcases update_eq_iff.mp hg with ⟨-, h⟩ | ⟨hgf, h⟩
    · cases h
    · cases hw.giver g m (eq_of_update_eq h nofun)
      exact absurd rfl hgf
  · intro g hg
    have hgn : g ≠ n := fun h => hnot (h ▸ hg)
    have hold : (s.goto n .writerWoken).pc g = .writerParked :=
      (update_of_ne hgn _ _).trans (hw.parked g hg)
    exact update_eq_of_ne hold (by rw [hpcf]; nofun)
  · intro g hg
    cases hrights.exclusive g hg

/-- A writer that was handed the mutex comes out with it. -/
theorem inv_writerWoken (hpc : s.pc f = .writerWoken) :
    Inv ((s.goto f .out).setExclusive f true) grant chain := by
  have hgrant := hi.writers.woken f hpc
  subst hgrant
  obtain ⟨hw, hr, hrights, hc⟩ := hi
  have hmoved : Rights (s.goto f .out) (.to f) chain :=
    rights_move hrights rfl nofun rfl rfl (fun _ _ => rfl) (hrights.shared f)
  refine ⟨⟨?_, ?_, nofun, ?_, hw.nodup⟩, readers_move hr hpc rfl rfl rfl rfl,
    ⟨hrights.free, ?_, hrights.shared, hmoved.woken, hrights.chain⟩,
    counts_move hc hpc rfl rfl rfl rfl rfl⟩
  · intro g hg
    exact hw.woken g (eq_of_update_eq hg nofun)
  · intro g m hg
    cases hw.giver g m (eq_of_update_eq hg nofun)
  · intro g hg
    exact update_eq_of_ne (hw.parked g hg) (by rw [hpc]; nofun)
  · intro g hg
    rcases update_eq_iff.mp hg with ⟨h, -⟩ | ⟨-, h⟩
    · rw [h]
    · exact hrights.exclusive g h

/-- A fiber that is counted finds the flag clear, or takes its count back. -/
theorem inv_check (hpc : s.pc f = p) (hp : p.plain = true) (hunits : p.units = 1)
    (hq : q.passes = true) (hqunits : q.units = 1) :
    Inv (if s.writer then s.goto f q else s.enterShared f) grant chain := by
  split
  next => exact inv_goto hi hpc hp hq (hqunits.trans hunits.symm)
  next hwriter => exact inv_enterShared hi hpc hp hunits (Bool.of_not_eq_true hwriter)

end

end

end SharedMutex

end PsiServe.Fiber
