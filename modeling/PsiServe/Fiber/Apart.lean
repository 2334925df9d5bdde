import PsiServe.Fiber.Loop

/-!
# A fiber is on one scheduler at a time

Each step of a scheduler keeps the tokens in order, as long as it does not take a fiber that another
scheduler still has in its hands. So no fiber runs on two schedulers, or is in the ready queue of
one while another one runs it, or in two ready queues.
-/

namespace PsiServe.Fiber

open Base Function

namespace Reactor

open Scheduler (Todo FiberRecord Strand Call Linked Whole)

variable {F S T : Type}

/-! ### A wake -/

section

variable [DecidableEq F] [DecidableEq S] [DecidableEq T] {s s' : State F S T} {tok : F → Tok S T}
  {loc : S → StrandTok T} {t : T} {f g : F} {r : S}

omit [DecidableEq S] [DecidableEq T] in
/-- A fiber is woken while a scheduler has it in its hands. -/
theorem PcOk.woken {p : Pc F S} (h : PcOk s tok loc t p) (htok : tok g = .awaits t)
    (hfiber : ∀ f, f ≠ g → s'.fiber f = s.fiber f) (hstrand : s'.strand = s.strand) :
    PcOk s' (update tok g (.woken t)) loc t p := by
  have hother : ∀ f k, tok f = k → k ≠ .awaits t → update tok g (.woken t) f = k ∧ f ≠ g := by
    intro f k hf hk
    have hne : f ≠ g := fun h => hk (hf.symm.trans (h ▸ htok))
    exact ⟨(update_of_ne hne _ _).trans hf, hne⟩
  have hwoken : ∀ f, tok f = .awaits t → update tok g (.woken t) f = .awaits t ∨
      update tok g (.woken t) f = .woken t := by
    intro f hf
    by_cases hne : f = g
    · rw [hne, update_self]
      exact .inr rfl
    · rw [update_of_ne hne]
      exact .inl hf
  have hparks : ∀ f, Parks s tok t f → Parks s' (update tok g (.woken t)) t f := by
    rintro f (hf | hf | ⟨r, hf, hhome⟩)
    · exact (hwoken f hf).imp_right .inl
    · exact .inr (.inl (hother f _ hf nofun).1)
    · obtain ⟨hf', hne⟩ := hother f _ hf nofun
      exact .inr (.inr ⟨r, hf', by rw [hfiber f hne]; exact hhome⟩)
  have hrests : ∀ f, Rests tok t f → Rests (update tok g (.woken t)) t f := by
    rintro f (hf | hf | hf | hf)
    · exact (hwoken f hf).imp_right .inl
    · exact .inr (.inl (hother f _ hf nofun).1)
    · exact .inr (.inr (.inl (hother f _ hf nofun).1))
    · exact .inr (.inr (.inr (hother f _ hf nofun).1))
  induction p with
  | loop => trivial
  | run f | enter f _ _ | resume f => exact (hother f _ h nofun).1
  | promote f k ih => exact ⟨(hother f _ h.1 nofun).1, h.2.1, ih h.2.2⟩
  | park f => exact hparks f h
  | switch f | check f | recycle f =>
    rcases h with h | h | h
    · exact .inl (hparks f h)
    · exact .inr (.inl (hrests f h))
    · exact .inr (.inr (hother f _ h nofun).1)
  | release f r => exact ⟨hrests f h.1, by rw [hstrand]; exact h.2⟩
  | post f r blocked | push f r blocked =>
    obtain ⟨hf, hne⟩ := hother f _ h.1 nofun
    exact ⟨hf, by rw [hfiber f hne]; exact h.2⟩
  | settle f =>
    rcases h with ⟨r, h⟩ | ⟨r, h⟩
    · exact .inl ⟨r, (hother f _ h nofun).1⟩
    · exact .inr ⟨r, (hother f _ h nofun).1⟩
  | pulled r | take r => exact h

omit [DecidableEq F] [DecidableEq S] [DecidableEq T] in
private theorem Inv.awaits_of_flag (hi : Inv s tok loc) (hawaits : (s.fiber g).awaits = true)
    (hsched : (s.fiber g).homeSched = some t) : tok g = .awaits t := by
  have hnot : (s.fiber g).awaits ≠ false := by rw [hawaits]; nofun
  cases hk : tok g with
  | awaits t' => rw [Option.mem_unique (hi.at_tok hk).fits.2.1 hsched]
  | idle | moving home => exact absurd (hi.at_tok hk).fits.2 hnot
  | free t' | done t' | moves t' q => exact absurd (hi.at_tok hk).fits.2.1 hnot
  | run t' | woken t' | blocked | posted q | waits q =>
    exact absurd (hi.at_tok hk).fits.2.1.awaits hnot
  | ready t' | hand t' => exact absurd (hi.at_tok hk).fits.2.awaits hnot

omit [DecidableEq S] in
private theorem good_wake (hi : Inv s tok loc) (hawaits : (s.fiber g).awaits = true)
    (hsched : (s.fiber g).homeSched = some t) :
    Good ((s.setFiber g { s.fiber g with awaits := false }).setSched t
      { s.sched t with wakeList := (s.sched t).wakeList ++ [g] }) := by
  have htok := hi.awaits_of_flag hawaits hsched
  have hu : s.Untouched t g := hi.untouched_of_tok (by rw [htok]; rfl)
  have hat := hi.at_tok htok
  obtain ⟨hlive, -, hwhole, howner, htodo⟩ := hat.fits
  have hstart := hi.start t htok
  have hrecord := hstart.setFiber (.moving none) { s.fiber g with awaits := false } hu
    nofun trivial trivial ⟨howner, rfl⟩ nofun
    fun h => absurd h hlive.not_waits
  have hd := hrecord.go ((s.setFiber g { s.fiber g with awaits := false }).setSched t
      { s.sched t with wakeList := (s.sched t).wakeList ++ [g] }) (.woken t) hu
    nofun
    (fun f hf => .setSched .rfl (mem_append_singleton_of_ne hf) .rfl)
    (fun hat' => hat'.setSched ((hat'.ready t).trans (by simp)) (by simp)
      ((hat'.free t).trans (by simp)) (fun t' ht => by simp [Ne.symm ht]) (by simp)
      (by rw [setFiber_fiber]; exact ⟨hlive, ⟨rfl, ⟨hwhole.1, hwhole.2⟩, howner⟩, htodo⟩)
      fun _ h => h.elim)
    (fun hl => hl.setSched (hl.ready t)
      (nodup_append_singleton (hl.woken t) fun h => nomatch (hat.woken t).mp h) (hl.free t))
    (fun t' ht => setSched_pc ht) rfl hrecord.asleep_moving
  have hpc : (((s.setFiber g { s.fiber g with awaits := false }).setSched t
      { s.sched t with wakeList := (s.sched t).wakeList ++ [g] }).sched t).pc = (s.sched t).pc := by
    rw [setSched_sched]
  refine ⟨_, _, hd.inv hi ?_ (fun f hf => ?_) fun f hf _ => ?_⟩
  · rw [hpc]
    exact (hi.pcs t).woken htok (fun f hf => update_of_ne hf _ _) rfl
  · rw [hpc] at hf
    exact hi.untouched hf
  · rw [hpc]
    exact hf

/-! ### Runs -/

private theorem good_step {a : Action F S T} (hs : Good s) (hok : Orderly s a)
    (hstep : step s a = some s') : Good s' := by
  obtain ⟨tok, loc, hi⟩ := hs
  cases a <;> simp only [step] at hstep
  case call t c =>
    split at hstep
    next f hpc => exact good_call hi hpc hok hstep
    · cases hstep
  case advance t => exact good_advance hi hok hstep
  case drain t =>
    split at hstep
    next g rest hpc hlist => exact Option.some.inj hstep ▸ good_drain hi hpc hlist
    · cases hstep
  case pick t g =>
    split at hstep
    next h => exact Option.some.inj hstep ▸ good_pick hi h.1 h.2
    · cases hstep
  case poll t g =>
    split at hstep
    next h => exact Option.some.inj hstep ▸ good_poll hi h.1 hok h.2.2
    · cases hstep
  case pull t =>
    split at hstep
    next r rest hpc hqueue => exact Option.some.inj hstep ▸ good_pull hi hpc hqueue
    · cases hstep
  case spawn t g =>
    split at hstep
    next h => exact Option.some.inj hstep ▸ good_spawn hi h nofun
    · cases hstep
  case post t g r =>
    split at hstep
    next h => exact Option.some.inj hstep ▸ good_spawn hi h nofun
    · cases hstep
  case wake g =>
    split at hstep
    next t hawaits hsched => exact Option.some.inj hstep ▸ good_wake hi hawaits hsched
    · cases hstep

omit [DecidableEq F] [DecidableEq S] [DecidableEq T] in
private theorem executing_mem_hands {p : Pc F S} (h : p.executing = some f) : f ∈ p.hands := by
  induction p with
  | run g | enter g _ _ | park g | switch g =>
    cases h
    exact List.mem_cons_self
  | promote g k ih => exact List.mem_cons_of_mem _ (ih h)
  | loop | check _ | release _ _ | recycle _ | resume _ | post _ _ _ | push _ _ _ | settle _
  | pulled _ | take _ => cases h

omit [DecidableEq F] [DecidableEq S] [DecidableEq T] in
private theorem Good.apart (hs : Good s) : Apart s := by
  obtain ⟨tok, loc, hi⟩ := hs
  refine ⟨fun t t' f h h' => hi.apart t t' f (executing_mem_hands h) (executing_mem_hands h'),
    fun t t' f h h' => ?_, fun t t' f h h' => ?_, hi.core.lists.ready⟩
  · have htok := ((hi.core.at_tok f).ready t).mp h
    exact (hi.untouched_of_tok (t := t) (by rw [htok]; rfl) t' (executing_mem_hands h')).symm
  · have htok := ((hi.core.at_tok f).ready t).mp h
    exact Tok.ready.inj (htok.symm.trans (((hi.core.at_tok f).ready t').mp h'))

/-- In every run in which a fiber is taken from a strand's queue, from the reactor or by a poll only
when no other scheduler has it in its hands, no fiber is in a ready queue, or runs, on one scheduler
while it runs on another one, and none is in two ready queues or twice in one. -/
theorem apart_of_orderly {pooled : S → Bool} {as : List (Action F S T)}
    (hok : AllSteps step Orderly (init pooled) as)
    (hrun : runSteps step (init pooled) as = some s) : Apart s :=
  (runSteps_invariant (P := Good) (fun _ _ _ hs ha hstep => good_step hs ha hstep)
    ⟨_, _, inv_init pooled⟩ hok hrun).apart

end

/-! ### A run with a hand-over -/

instance {l m n : Nat} (s : State (Fin l) (Fin m) (Fin n)) (t : Fin n) (g : Fin l) :
    Decidable (s.Untouched t g) :=
  inferInstanceAs (Decidable (∀ t', g ∈ (s.sched t').pc.hands → t' = t))

instance {l m n : Nat} (s : State (Fin l) (Fin m) (Fin n)) (t : Fin n) (r : Fin m) :
    Decidable (s.NextUntouched t r) :=
  inferInstanceAs (Decidable (∀ g, (s.strand r).queue.head? = some g → s.Untouched t g))

instance {l m n : Nat} (s : State (Fin l) (Fin m) (Fin n)) :
    ∀ a : Action (Fin l) (Fin m) (Fin n), Decidable (Orderly s a)
  | .call t .yield | .call t (.sync _) | .call t .syncReturn =>
    inferInstanceAs (Decidable (∀ f r, (s.sched t).pc = .run f → (s.fiber f).homeStrand = some r →
      s.NextUntouched t r))
  | .advance t =>
    inferInstanceAs (Decidable ((∀ f r, (s.sched t).pc = .release f r → s.NextUntouched t r) ∧
      ∀ r g, (s.sched t).pc = .take r → (s.strand r).active = some g → s.Untouched t g))
  | .poll t g => inferInstanceAs (Decidable (s.Untouched t g))
  | .call _ .advance | .call _ .park | .call _ .sleep | .call _ .waitFd | .call _ .finish | .drain _
  | .pick _ _ | .pull _ | .spawn _ _ | .post _ _ _ | .wake _ => isTrue trivial

/-- Two posts to one strand on two schedulers: the second fiber is suspended before the first one
finishes and hands the strand over, and moves to the other scheduler. -/
def handover : List (Action (Fin 2) (Fin 1) (Fin 2)) :=
  [.post 0 0 0, .post 1 1 0, .pick 0 0, .call 0 .advance, .advance 0, .pick 1 1, .call 1 .advance,
    .advance 1, .advance 1, .advance 1, .advance 1, .advance 1, .call 0 .finish, .advance 0,
    .advance 0, .advance 0, .advance 0]

/-- The run is orderly, and the fiber that was handed over is on one scheduler. -/
theorem apart_handover :
    ∃ s, runSteps step (init fun _ => true) handover = some s ∧ 1 ∈ (s.sched 0).ready ∧
      Apart s := by
  refine ⟨_, rfl, by decide, ?_⟩
  exact apart_of_orderly (by decide) (rfl : runSteps step (init fun _ => true) handover = _)

end Reactor

end PsiServe.Fiber
