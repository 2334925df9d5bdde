import PsiServe.Fiber.SharedMutex

/-!
# Runs of the shared fiber mutex

What holds along the runs of `fiber_shared_mutex` (`fiber_mutex.cpp:167–323`): a writer has it for
itself, and a fiber in a queue waits for one that comes back, which has the mutex, is about to get
it or is counted as a reader. Both fail. A reader that finds the flag set takes its count back
without a look at the queues (`fiber_mutex.cpp:246–250,317–321`), so a writer that parks because of
that count sleeps on, whether it is in the queue already or about to join it.
-/

namespace PsiServe.Fiber

open Base List Function

namespace SharedMutex

variable {F : Type} {s s' : State F}

/-- The fiber looks at the queue of the writers next, or wakes readers that will. -/
def Pc.serves : Pc F → Bool
  | .sharedLast | .waking _ | .wakingOne _ _ => true
  | _ => false

/-- The fiber joins the queue of the writers next. -/
def Pc.joins : Pc F → Bool
  | .lockWait => true
  | _ => false

/-- The fiber was handed the mutex as a writer, or hands it on. -/
def Pc.owns : Pc F → Bool
  | .writerWoken | .wakeWriter _ => true
  | _ => false

/-- A writer is in the queue, or about to join it. -/
def State.Awaited (s : State F) : Prop := s.writerQueue ≠ [] ∨ s.spin ≠ none

/-- A step that does not take back the last count while only that count keeps a writer waiting. -/
def Attentive (s : State F) : Action F → Prop
  | .advance f =>
    s.pc f = .sharedUndo ∨ s.pc f = .tryUndo → s.Awaited → s.readers = 1 → s.writer = true
  | _ => True

/-- Nobody has the mutex, and every fiber is outside of its code or parked in it. -/
def Quiet (s : State F) : Prop :=
  ∀ f, s.exclusive f = false ∧ s.shared f = 0 ∧
    (s.pc f = .out ∨ s.pc f = .readerParked ∨ s.pc f = .writerParked)

/-- The writer that has the flag comes back, and a fiber that waits for no writer with the flag
waits for the readers that are counted, or for a fiber that serves. -/
structure Served (s : State F) : Prop where
  flag : s.writer = true → ∃ f, s.exclusive f = true ∨ (s.pc f).owns = true
  writers : s.Awaited → s.writer = true ∨ s.readers ≠ 0 ∨ ∃ f, (s.pc f).serves = true
  readers : s.readerQueue ≠ [] → s.writer = true ∨ s.writerQueue ≠ []
  spin : ∀ f, (s.pc f).joins = true → s.spin = some f

private theorem served_of_writer (hwriter : s.writer = true)
    (h : ∃ f, s.exclusive f = true ∨ (s.pc f).owns = true)
    (hspin : ∀ f, (s.pc f).joins = true → s.spin = some f) : Served s :=
  ⟨fun _ => h, fun _ => .inl hwriter, fun _ => .inl hwriter, hspin⟩

variable [DecidableEq F] {grant : Grant F} {chain : Option (Chain F)} {f : F} {p q : Pc F}

private theorem State.goto_self : (s.goto f q).pc f = q := update_self _ _ _

/-- A fiber moves; who is at another place stays there. -/
theorem State.goto_place {P : Pc F → Bool} {g : F} (hpc : s.pc f = p) (hp : P p = false)
    (hg : P (s.pc g) = true) : P ((s.goto f q).pc g) = true := by
  have hgf : g ≠ f := by
    rintro rfl
    rw [hpc, hp] at hg
    cases hg
  exact (congrArg P (update_of_ne hgf q s.pc)).trans hg

/-- A fiber moves to a place where it does not join the queue. -/
theorem Served.spin_goto (h : Served s) (hq : q.joins = false) (g : F)
    (hg : ((s.goto f q).pc g).joins = true) : s.spin = some g := by
  by_cases hgf : g = f
  · rw [hgf, State.goto_self, hq] at hg
    cases hg
  · have hold : (s.goto f q).pc g = s.pc g := update_of_ne hgf _ _
    exact h.spin g (hold ▸ hg)

section

variable (h : Served s) (hpc : s.pc f = p) (howns : p.owns = false) (hjoins : q.joins = false)

include h hpc howns hjoins

/-- One fiber moves, and may count. -/
theorem served_goto {n : Nat} (hcount : s.Awaited → p.serves = true ∨ s.readers ≠ 0 →
      s.writer = true ∨ n ≠ 0 ∨ q.serves = true) :
    Served ({ s with readers := n }.goto f q) := by
  have hspin := h.spin_goto (f := f) hjoins
  obtain ⟨hflag, hwriters, hreaders, -⟩ := h
  refine ⟨fun hw => ?_, fun hw => ?_, hreaders, hspin⟩
  · obtain ⟨g, hg⟩ := hflag hw
    exact ⟨g, hg.imp_right (s.goto_place hpc howns)⟩
  · have hself : q.serves = true → ∃ g, (({ s with readers := n }.goto f q).pc g).serves = true :=
      fun hq => ⟨f, by rwa [State.goto_self]⟩
    rcases hwriters hw with hflag | hr | ⟨g, hg⟩
    · exact .inl hflag
    · exact (hcount hw (.inr hr)).imp_right (.imp_right hself)
    · by_cases hserves : p.serves = true
      · exact (hcount hw (.inl hserves)).imp_right (.imp_right hself)
      · exact .inr (.inr ⟨g, s.goto_place hpc (by simpa using hserves) hg⟩)

/-- A fiber that serves nobody moves. -/
theorem served_pass (hserves : p.serves = false) : Served (s.goto f q) :=
  served_goto h hpc howns hjoins fun _ hr => .inr (.inl (hr.resolve_left (by simp [hserves])))

private theorem served_add (hroom : s.readers + 1 < 2 ^ 32) :
    Served ({ s with readers := fetchAdd s.readers }.goto f q) := by
  refine served_goto h hpc howns hjoins fun _ _ => .inr (.inl ?_)
  rw [fetchAdd, Nat.mod_eq_of_lt hroom]
  exact Nat.succ_ne_zero _

/-- A count is taken back. -/
theorem served_sub
    (hone : s.Awaited → s.readers = 1 → s.writer = true ∨ q.serves = true) :
    Served ({ s with readers := fetchSub s.readers }.goto f q) := by
  refine served_goto h hpc howns hjoins fun hqueue _ => ?_
  by_cases h1 : s.readers = 1
  · exact (hone hqueue h1).imp_right .inr
  · refine .inr (.inl ?_)
    unfold fetchSub
    split <;> omega

end

private theorem Inv.writer_eq_true (hi : Inv s grant chain) (hgrant : grant ≠ .free) :
    s.writer = true :=
  Bool.of_not_eq_false fun hw => hgrant (hi.rights.free.mp hw)

/-- A reader that was counted is woken. -/
theorem served_wake {r : F} {rest : List F} (hi : Inv s grant chain) (h : Served s)
    (hpc : s.pc f = .wakingOne r rest) (hjoins : q.joins = false) :
    Served ((s.goto r .readerWoken).goto f q) := by
  have hchain := hi.readers.one f r rest hpc
  subst hchain
  have hparked := hi.readers.parked r (mem_append_left _ mem_cons_self)
  have hfr : f ≠ r := by
    rintro rfl
    cases hpc.symm.trans hparked
  have hreaders : s.readers ≠ 0 := by
    intro hzero
    have hunits := units_eq_zero hi.counts hzero r
    rw [units, Chain.counted, Option.bind_some, if_pos rfl] at hunits
    exact absurd hunits (Nat.succ_ne_zero _)
  exact served_goto (served_pass h hparked rfl rfl rfl) ((update_of_ne hfr _ _).trans hpc) rfl
    hjoins fun _ _ => .inr (.inl hreaders)

/-- A writer decides to wait, and takes the spin lock to join the queue. -/
theorem served_lockWait (h : Served s) (hpc : s.pc f = .out) (hspin : s.spin = none)
    (hbusy : ¬((!s.writer) = true ∧ s.readers = 0 ∧ s.writerQueue = [])) :
    Served ({ s with spin := some f }.goto f .lockWait) := by
  have hwait : s.writer = true ∨ s.readers ≠ 0 ∨ ∃ g, (s.pc g).serves = true := by
    by_cases hqueue : s.writerQueue = []
    · by_cases hwriter : s.writer = true
      · exact .inl hwriter
      · exact .inr (.inl fun hzero => hbusy ⟨by simpa using hwriter, hzero, hqueue⟩)
    · exact h.writers (.inl hqueue)
  refine ⟨fun hw => ?_, fun _ => ?_, h.readers, fun g hg => ?_⟩
  · obtain ⟨g, hg⟩ := h.flag hw
    exact ⟨g, hg.imp_right (s.goto_place hpc rfl)⟩
  · exact hwait.imp_right (.imp_right fun ⟨g, hg⟩ => ⟨g, s.goto_place hpc rfl hg⟩)
  · by_cases hgf : g = f
    · exact congrArg some hgf.symm
    · have hold : (s.goto f .lockWait).pc g = s.pc g := update_of_ne hgf _ _
      cases hspin.symm.trans (h.spin g (hold ▸ hg))

/-- The writer joins the queue, and releases the spin lock. -/
theorem served_enqueueWriter (h : Served s) (hpc : s.pc f = .lockWait) :
    Served ({ s with writerQueue := s.writerQueue ++ [f], spin := none }.goto f .writerParked) := by
  have hspin : s.spin = some f := h.spin f (by rw [hpc]; rfl)
  have hwait := h.writers (.inr (hspin ▸ Option.some_ne_none f))
  have h' : Served { s with writerQueue := s.writerQueue ++ [f] } :=
    ⟨h.flag, fun _ => hwait, fun _ => .inr (by simp), h.spin⟩
  have hqueued : Served ({ s with writerQueue := s.writerQueue ++ [f] }.goto f .writerParked) :=
    served_pass h' hpc rfl rfl rfl
  refine ⟨hqueued.flag, fun _ => hqueued.writers (.inl (by simp [State.goto])), hqueued.readers,
    fun g hg => ?_⟩
  -- the fiber was the only one with the spin lock
  have hgf := Option.some.inj (hspin.symm.trans (hqueued.spin g hg))
  rw [← hgf, State.goto_self] at hg
  cases hg

/-- What a step in the code of the mutex keeps. -/
theorem advance_keeps (hi : Inv s grant chain) (hok : Orderly s (.advance f))
    (hstep : advance s f = some s') : (∃ grant' chain', Inv s' grant' chain') ∧
      (Attentive s (.advance f) → Served s → Served s') := by
  obtain ⟨hlast, hroom⟩ := hok
  unfold advance at hstep
  split at hstep
  next => cases hstep
  next => cases hstep
  next => cases hstep
  next => cases hstep
  next hpc =>
    cases hstep
    refine ⟨⟨grant, chain, inv_goto hi hpc rfl ?_ ?_⟩, fun _ h => served_pass h hpc rfl ?_ rfl⟩ <;>
      split <;> rfl
  next hpc =>
    cases hstep
    have hroom := hroom (by rw [hpc]; rfl)
    exact ⟨⟨grant, chain, inv_add hi hroom hpc rfl rfl rfl⟩,
      fun _ h => served_add h hpc rfl rfl hroom⟩
  next hpc =>
    cases hstep
    refine ⟨⟨grant, chain, inv_check hi hpc rfl rfl rfl rfl⟩, fun _ h => ?_⟩
    split
    · exact served_pass h hpc rfl rfl rfl
    · exact { served_pass h hpc rfl rfl rfl with }
  next hpc =>
    cases hstep
    exact ⟨⟨grant, chain, inv_undo hi hpc rfl rfl rfl⟩, fun hundo h =>
      served_sub h hpc rfl rfl fun hwait hone => .inl (hundo (.inl hpc) hwait hone)⟩
  next hpc =>
    split at hstep
    · cases hstep
    split at hstep
    next hfree =>
      cases hstep
      have hroom := hroom (by rw [hpc]; rfl)
      exact ⟨⟨grant, chain, inv_slowShared hi hroom hpc (by simpa using hfree.1)⟩,
        fun _ h => { served_add h hpc rfl (q := .out) rfl hroom with }⟩
    next hbusy =>
      cases hstep
      have hbusy : s.writer = true ∨ s.writerQueue ≠ [] := by
        simpa [or_iff_not_imp_left] using hbusy
      refine ⟨⟨grant, chain, inv_enqueueReader hi hpc⟩, fun _ h => ?_⟩
      have h' : Served { s with readerQueue := s.readerQueue ++ [f] } :=
        ⟨h.flag, h.writers, fun _ => hbusy, h.spin⟩
      exact served_pass h' hpc rfl rfl rfl
  next hpc =>
    cases hstep
    have hroom := hroom (by rw [hpc]; rfl)
    exact ⟨⟨grant, chain, inv_add hi hroom hpc rfl rfl rfl⟩,
      fun _ h => served_add h hpc rfl rfl hroom⟩
  next hpc =>
    cases hstep
    refine ⟨⟨grant, chain, inv_check hi hpc rfl rfl rfl rfl⟩, fun _ h => ?_⟩
    split
    · exact served_pass h hpc rfl rfl rfl
    · exact { served_pass h hpc rfl rfl rfl with }
  next hpc =>
    cases hstep
    exact ⟨⟨grant, chain, inv_undo hi hpc rfl rfl rfl⟩, fun hundo h =>
      served_sub h hpc rfl rfl fun hwait hone => .inl (hundo (.inr hpc) hwait hone)⟩
  next hpc =>
    have hout : Inv (s.goto f .out) grant chain := inv_goto hi hpc rfl rfl rfl
    split at hstep
    · cases hstep
    next hspin =>
    split at hstep
    next hzero =>
      split at hstep
      next hnil =>
        cases hstep
        exact ⟨⟨grant, chain, hout⟩, fun _ h => served_goto h hpc rfl rfl fun hwait =>
          absurd hwait (not_or.mpr ⟨not_not.mpr hnil, hspin⟩)⟩
      next n rest hqueue =>
        cases hstep
        obtain ⟨hwriter, hcounted⟩ := hlast hpc hzero (by rw [hqueue]; exact cons_ne_nil _ _)
        exact ⟨⟨_, _, inv_sharedLast hi hpc hzero hwriter (hi.chain_eq_none hzero hcounted) hqueue⟩,
          fun _ h => served_of_writer rfl ⟨f, .inr (congrArg Pc.owns State.goto_self)⟩
            (h.spin_goto rfl)⟩
    next hreaders =>
      cases hstep
      exact ⟨⟨grant, chain, hout⟩, fun _ h =>
        served_goto h hpc rfl rfl fun _ _ => .inr (.inl hreaders)⟩
  next hpc =>
    cases hstep
    exact ⟨⟨grant, chain, inv_enqueueWriter hi hpc⟩, fun _ h => served_enqueueWriter h hpc⟩
  next hpc =>
    cases hstep
    exact ⟨⟨grant, chain, inv_enterShared hi hpc rfl rfl (hi.rights.woken f hpc)⟩,
      fun _ h => { served_pass h hpc rfl (q := .out) rfl rfl with }⟩
  next hpc =>
    cases hstep
    have hgrant := hi.writers.woken f hpc
    exact ⟨⟨grant, chain, inv_writerWoken hi hpc⟩, fun _ h =>
      served_of_writer (hi.writer_eq_true (by simp [hgrant])) ⟨f, .inl (update_self _ _ _)⟩
        (h.spin_goto (q := .out) rfl)⟩
  next r rest hpc =>
    cases hstep
    have hroom := hroom (by rw [hpc]; rfl)
    exact ⟨⟨_, _, inv_waking hi hpc hroom⟩, fun _ h => served_add h hpc rfl rfl hroom⟩
  next r hpc =>
    cases hstep
    exact ⟨⟨_, _, inv_wakingOne hi hpc (.inl ⟨rfl, rfl, rfl⟩)⟩, fun _ h => served_wake hi h hpc rfl⟩
  next r rest hrest hpc =>
    cases hstep
    exact ⟨⟨_, _, inv_wakingOne hi hpc (.inr ⟨hrest, rfl, rfl⟩)⟩,
      fun _ h => served_wake hi h hpc rfl⟩
  next n hpc =>
    cases hstep
    have hgrant := hi.writers.giver f n hpc
    have hparked := (hi.writers.handed n f hgrant).1
    have hnf : n ≠ f := by
      rintro rfl
      cases hpc.symm.trans hparked
    have hpcn : ((s.goto n .writerWoken).goto f .out).pc n = .writerWoken :=
      (update_of_ne hnf _ _).trans State.goto_self
    exact ⟨⟨_, _, inv_wakeWriter hi hpc⟩, fun _ h =>
      served_of_writer (hi.writer_eq_true (by simp [hgrant])) ⟨n, .inr (by rw [hpcn]; rfl)⟩
        ((served_pass h hparked rfl rfl rfl).spin_goto rfl)⟩

/-- What a step keeps. -/
theorem step_keeps {a : Action F} (hi : Inv s grant chain) (hok : Orderly s a)
    (hstep : step s a = some s') : (∃ grant' chain', Inv s' grant' chain') ∧
      (Attentive s a → Served s → Served s') := by
  cases a <;> simp only [step] at hstep
  case lock f =>
    split at hstep
    next hpc =>
      split at hstep
      next hfree =>
        cases hstep
        have hwriter : s.writer = false := by simpa using hfree.1
        exact ⟨⟨_, _, inv_acquire hi hwriter hfree.2.1
          (hi.chain_eq_none hfree.2.1 (hok ⟨hwriter, hfree.2.1⟩))⟩,
          fun _ h => served_of_writer rfl ⟨f, .inl (update_self _ _ _)⟩ h.spin⟩
      next hbusy =>
        cases hstep
        obtain ⟨hpc, hspin⟩ := hpc
        exact ⟨⟨grant, chain, inv_move hi hpc rfl rfl rfl rfl rfl rfl rfl (fun _ _ => rfl)
          (hi.rights.shared f) (counts_move hi.counts hpc rfl rfl rfl rfl rfl)⟩,
          fun _ h => served_lockWait h hpc hspin hbusy⟩
    next => cases hstep
  case unlock f =>
    split at hstep
    next hheld =>
      obtain ⟨⟨hpc, hspin⟩, hex⟩ := hheld
      split at hstep
      next r rest hqueue =>
        cases hstep
        exact ⟨⟨_, _, inv_unlockReaders hi hpc hex hqueue⟩, fun _ h =>
          ⟨(fun h => by cases h), fun _ => .inr (.inr ⟨f, congrArg Pc.serves State.goto_self⟩),
            fun hne => absurd rfl hne, h.spin_goto rfl⟩⟩
      next hnil =>
        split at hstep
        next n rest hqueue =>
          cases hstep
          exact ⟨⟨_, _, inv_unlockWriter hi hpc hex hqueue⟩, fun _ h =>
            served_of_writer rfl ⟨f, .inr (congrArg Pc.owns State.goto_self)⟩ (h.spin_goto rfl)⟩
        next hqueue =>
          cases hstep
          exact ⟨⟨_, _, inv_unlockFree hi hpc hex⟩, fun _ h =>
            ⟨(fun h => by cases h), fun hwait => absurd hwait
              (not_or.mpr ⟨not_not.mpr hqueue, not_not.mpr hspin⟩), fun hne => absurd hnil hne,
              h.spin⟩⟩
    next => cases hstep
  case lockShared f =>
    split at hstep
    next hpc =>
      cases hstep
      refine ⟨⟨grant, chain, inv_goto hi hpc rfl ?_ ?_⟩,
        fun _ h => served_pass h hpc rfl ?_ rfl⟩ <;>
        split <;> rfl
    next => cases hstep
  case unlockShared f =>
    split at hstep
    next hheld =>
      cases hstep
      refine ⟨⟨grant, chain, inv_unlockShared hi hheld.1 hheld.2 ?_ ?_⟩, fun _ h =>
        { served_sub h hheld.1 rfl ?_ fun _ hone => .inr (by rw [if_pos hone]; rfl) with }⟩ <;>
        split <;> rfl
    next => cases hstep
  case tryLock f =>
    split at hstep
    next hpc =>
      split at hstep
      next hfree =>
        cases hstep
        have hwriter : s.writer = false := by simpa using hfree.1
        exact ⟨⟨_, _, inv_acquire hi hwriter hfree.2
          (hi.chain_eq_none hfree.2 (hok ⟨hwriter, hfree.2⟩))⟩,
          fun _ h => served_of_writer rfl ⟨f, .inl (update_self _ _ _)⟩ h.spin⟩
      next =>
        cases hstep
        exact ⟨⟨grant, chain, hi⟩, fun _ h => h⟩
    next => cases hstep
  case tryLockShared f =>
    split at hstep
    next hpc =>
      cases hstep
      split
      next => exact ⟨⟨grant, chain, hi⟩, fun _ h => h⟩
      next =>
        exact ⟨⟨grant, chain, inv_goto hi hpc rfl rfl rfl⟩,
          fun _ h => served_pass h hpc rfl rfl rfl⟩
    next => cases hstep
  case advance f => exact advance_keeps hi hok hstep

/-- No fiber holds the mutex exclusively while another one holds it. -/
def Exclusion (s : State F) : Prop :=
  ∀ f g, f ≠ g → s.exclusive f = true → s.exclusive g = false ∧ s.shared g = 0

/-- Along every run of orderly steps a writer has the mutex for itself. -/
theorem exclusion_of_orderly {as : List (Action F)} {s : State F}
    (hok : AllSteps step Orderly init as) (hrun : runSteps step init as = some s) :
    Exclusion s := by
  obtain ⟨grant, chain, hi⟩ := runSteps_invariant (P := fun s => ∃ grant chain, Inv s grant chain)
    (fun s a s' ⟨_, _, hi⟩ hok hstep => (step_keeps hi hok hstep).1) ⟨_, _, inv_init⟩ hok hrun
  intro f g hfg hex
  obtain ⟨-, -, -, hno⟩ := hi.of_exclusive hex
  exact ⟨(hno g).2.2 (Ne.symm hfg), (hno g).1⟩

/-- A reader waits for a writer, and another writer for the reader. -/
def turns : List (Action (Fin 3)) :=
  [.lock 0, .lockShared 1, .advance 1, .unlock 0, .advance 0, .advance 0, .advance 1, .lock 2,
    .advance 2, .unlockShared 1, .advance 1, .advance 1, .advance 2]

instance (s : State (Fin 3)) (a : Action (Fin 3)) : Decidable (Orderly s a) :=
  match a with
  | .lock _ => inferInstanceAs (Decidable (_ → _))
  | .unlock _ => inferInstanceAs (Decidable True)
  | .lockShared _ => inferInstanceAs (Decidable True)
  | .unlockShared _ => inferInstanceAs (Decidable True)
  | .tryLock _ => inferInstanceAs (Decidable (_ → _))
  | .tryLockShared _ => inferInstanceAs (Decidable True)
  | .advance _ => inferInstanceAs (Decidable (_ ∧ _))

/-- In the run the second writer has the mutex for itself. -/
theorem exclusion_turns :
    ∃ s, runSteps step init turns = some s ∧ s.exclusive 2 = true ∧ Exclusion s := by
  have hrun : ∃ s, runSteps step init turns = some s ∧ s.exclusive 2 = true := ⟨_, rfl, rfl⟩
  obtain ⟨s, hs, hex⟩ := hrun
  exact ⟨s, hs, hex, exclusion_of_orderly (by decide) hs⟩

/-- A writer that comes while the readers of the queue are still being counted gets the mutex, and
so do they. -/
def overtaken : List (Action Nat) :=
  [.lock 0, .lockShared 1, .advance 1, .unlock 0, .lock 2, .advance 0, .advance 0, .advance 1]

/-- In the run a writer and a reader have the mutex. -/
theorem not_exclusion_overtaken :
    ∃ s, runSteps step init overtaken = some s ∧ s.exclusive 2 = true ∧ s.shared 1 = 1 :=
  ⟨_, rfl, rfl, rfl⟩

/-- A writer that comes between the last reader's count and its section has the mutex together with
the writer of the queue. -/
example : ∃ s, runSteps step (init : State Nat)
    [.lockShared 0, .advance 0, .advance 0, .advance 0, .lock 1, .advance 1, .unlockShared 0,
      .tryLock 2, .advance 0, .advance 0, .advance 1] = some s ∧
      s.exclusive 1 = true ∧ s.exclusive 2 = true :=
  ⟨_, rfl, rfl, rfl⟩

/-- In a quiet state nobody is counted. -/
theorem Quiet.readers_eq_zero (hq : Quiet s) (hi : Inv s grant chain) : s.readers = 0 := by
  obtain ⟨-, l, hlen, hcount⟩ := hi.counts
  have hchain : chain = none := by
    cases chain with
    | none => rfl
    | some c =>
      have hgiver := hi.readers.giver c rfl
      rcases (hq c.giver).2.2 with hpc | hpc | hpc <;> rw [hpc] at hgiver <;>
        cases hc : c.reader <;> rw [hc] at hgiver <;> cases hgiver
  have hl : l = [] := by
    refine eq_nil_iff_forall_not_mem.mpr fun f hf => ?_
    rw [← count_pos_iff, hcount f, units, hchain, (hq f).2.1] at hf
    rcases (hq f).2.2 with hpc | hpc | hpc <;> rw [hpc] at hf <;> cases hf
  rw [hlen, hl, length_nil]

/-- In every quiet state that orderly and attentive steps lead to, both queues are empty. -/
theorem queues_empty {as : List (Action F)} {s : State F}
    (hok : AllSteps step (fun s a => Orderly s a ∧ Attentive s a) init as)
    (hrun : runSteps step init as = some s) (hq : Quiet s) :
    s.writerQueue = [] ∧ s.readerQueue = [] := by
  obtain ⟨⟨grant, chain, hi⟩, hflag, hwriters, hreaders, -⟩ := runSteps_invariant
    (P := fun s => (∃ grant chain, Inv s grant chain) ∧ Served s)
    (fun s a s' ⟨⟨_, _, hi⟩, h⟩ hok hstep =>
      (step_keeps hi hok.1 hstep).imp_right fun keeps => keeps hok.2 h)
    ⟨⟨_, _, inv_init⟩, nofun, fun h => absurd h (by simp [State.Awaited, init]),
      fun h => absurd rfl h, nofun⟩ hok hrun
  have hpc : ∀ f, (s.pc f).owns = false ∧ (s.pc f).serves = false := by
    intro f
    rcases (hq f).2.2 with hpc | hpc | hpc <;> exact ⟨by rw [hpc]; rfl, by rw [hpc]; rfl⟩
  have hwriter : s.writer ≠ true := by
    intro hw
    obtain ⟨f, hf | hf⟩ := hflag hw
    · simp [(hq f).1] at hf
    · simp [(hpc f).1] at hf
  have hqueue : s.writerQueue = [] := by
    by_contra hne
    rcases hwriters (.inl hne) with hw | hr | ⟨f, hf⟩
    · exact hwriter hw
    · exact hr (hq.readers_eq_zero hi)
    · simp [(hpc f).2] at hf
  refine ⟨hqueue, ?_⟩
  by_contra hne
  exact (hreaders hne).elim hwriter (absurd hqueue)

instance (s : State (Fin 3)) : Decidable s.Awaited := inferInstanceAs (Decidable (_ ∨ _))

instance (s : State (Fin 3)) (a : Action (Fin 3)) : Decidable (Attentive s a) :=
  match a with
  | .advance _ => inferInstanceAs (Decidable (_ → _))
  | .lock _ | .unlock _ | .lockShared _ | .unlockShared _ | .tryLock _ | .tryLockShared _ =>
    inferInstanceAs (Decidable True)

instance (s : State (Fin 3)) : Decidable (Quiet s) := inferInstanceAs (Decidable (∀ _, _))

/-- When the second writer has left, nobody waits. -/
theorem queues_empty_turns : ∃ s, runSteps step init (turns ++ [.unlock 2]) = some s ∧ Quiet s ∧
      s.writerQueue = [] ∧ s.readerQueue = [] := by
  have hrun : ∃ s, runSteps step init (turns ++ [.unlock 2]) = some s ∧ Quiet s :=
    ⟨_, rfl, by decide⟩
  obtain ⟨s, hs, hq⟩ := hrun
  exact ⟨s, hs, hq, queues_empty (by decide) hs hq⟩

/-- A reader that tries finds the flag of a writer; until it takes its count back, that writer
leaves and another one parks because of the count. -/
def forgotten : List (Action (Fin 3)) :=
  [.tryLockShared 1, .lock 0, .advance 1, .advance 1, .unlock 0, .lock 2, .advance 2, .advance 1]

/-- In the run nobody has the mutex, and a writer waits. -/
theorem writer_forgotten :
    ∃ s, runSteps step init forgotten = some s ∧ Quiet s ∧ s.writerQueue = [2] :=
  ⟨_, rfl, by decide, rfl⟩

end SharedMutex

end PsiServe.Fiber
