import PsiServe.Base.Chain
import PsiServe.Base.Run
import PsiServe.Base.Update

/-!
# The lock-free stack of the scheduler

Nodes are linked through a field of their own. A step touches the head or one link.
-/

namespace PsiServe.Stack

open Base Function List

/-- `T*` as an address. -/
abbrev Ptr := Nat

def null : Ptr := 0

/-- Who may write the link of a node. The class leaves this to its callers: a node is pushed only
when it is in no list, and by one thread at a time, as its link is not atomic. -/
inductive Owner (P : Type)
  | free
  | thread (p : P)
  | listed
  deriving DecidableEq

/-- Where a thread stands in `push`: outside, or with the head loaded, or with the link written. -/
inductive Call
  | idle
  | loaded (node oldHead : Ptr)
  | linked (node oldHead : Ptr)
  deriving DecidableEq

/-- The node that a thread pushes. -/
def Call.node : Call → Option Ptr
  | .loaded n _ | .linked n _ => some n
  | .idle => none

structure State (P : Type) where
  head : Ptr
  next : Ptr → Ptr
  call : P → Call
  owner : Ptr → Owner P
  /-- The successful pushes, in their order. -/
  pushed : List (P × Ptr)

def State.init (P : Type) : State P :=
  ⟨null, fun _ => null, fun _ => .idle, fun _ => .free, []⟩

/-- A thread calls `push`, which loads the head; writes the link; tries to exchange the head. -/
inductive PushStep
  | call (node : Ptr)
  | link
  | exchange (spurious : Bool)

variable {P : Type}

/-- `push`; `mpsc_stack.hpp:61–70`. -/
def State.push [DecidableEq P] (s : State P) (p : P) : PushStep → Option (State P)
  | .call node =>
    if s.call p = .idle ∧ s.owner node = .free ∧ node ≠ null then
      some { s with
        call := update s.call p (.loaded node s.head)
        owner := update s.owner node (.thread p) }
    else none
  | .link =>
    match s.call p with
    | .loaded node oldHead =>
      some { s with
        next := update s.next node oldHead
        call := update s.call p (.linked node oldHead) }
    | _ => none
  | .exchange spurious =>
    match s.call p with
    | .linked node oldHead =>
      if s.head = oldHead ∧ spurious = false then
        some { s with
          head := node
          call := update s.call p .idle
          owner := update s.owner node .listed
          pushed := s.pushed ++ [(p, node)] }
      -- a failed exchange loads the head
      else some { s with call := update s.call p (.loaded node s.head) }
    | _ => none

/-- The owners are right, and `nodes`, the nodes of all lists, are distinct. -/
structure Owned (s : State P) (nodes : List Ptr) : Prop where
  bare : s.owner null = .free
  listed : ∀ n ∈ nodes, s.owner n = .listed
  nodup : nodes.Nodup
  owns : ∀ p n, (s.call p).node = some n → s.owner n = .thread p
  linked : ∀ p n old, s.call p = .linked n old → s.next n = old

variable [DecidableEq P] {s s' : State P} {nodes : List Ptr} {p : P}

/-- The effect of a step of `push` on the lists `nodes`: none, or the thread's node comes before
the head. No link but that of the thread's node is written. -/
theorem push_effect {a : PushStep} (h : Owned s nodes) (hstep : s.push p a = some s') :
    (∀ n, s.owner n ≠ .thread p → s'.next n = s.next n) ∧
    ((s'.head = s.head ∧ s'.pushed = s.pushed ∧ Owned s' nodes) ∨
      ∃ n, s'.head = n ∧ s'.next n = s.head ∧ s'.pushed = s.pushed ++ [(p, n)] ∧
        Owned s' (n :: nodes)) := by
  obtain ⟨hbare, hlisted, hnodup, howns, hlinked⟩ := h
  have hnode := howns p
  have howner : ∀ q n old, s.call q = .linked n old → s.owner n = .thread q :=
    fun q n old hq => howns q n (by rw [hq]; rfl)
  unfold State.push at hstep
  split at hstep
  case h_1 node =>
    obtain ⟨⟨hidle, hfree, hnode⟩, hs⟩ := Option.ite_none_right_eq_some.mp hstep
    cases hs
    refine ⟨fun _ _ => rfl, .inl ⟨rfl, rfl, ?_, ?_, hnodup, ?_, ?_⟩⟩
    all_goals grind [Call.node]
  case h_2 =>
    split at hstep
    next node oldHead hcall =>
      rw [hcall] at hnode
      cases hstep
      refine ⟨?_, .inl ⟨rfl, rfl, hbare, hlisted, hnodup, ?_, ?_⟩⟩
      all_goals grind [Call.node]
    · cases hstep
  case h_3 =>
    split at hstep
    next node oldHead hcall =>
      rw [hcall] at hnode
      split at hstep
      next hhead =>
        cases hstep
        refine ⟨fun _ _ => rfl, .inr ⟨node, rfl, ?_, rfl, ?_, ?_, ?_, ?_, ?_⟩⟩
        all_goals grind [Call.node]
      · cases hstep
        refine ⟨fun _ _ => rfl, .inl ⟨rfl, rfl, hbare, hlisted, hnodup, ?_, ?_⟩⟩
        all_goals grind [Call.node]
    · cases hstep

/-- The consumer drains the stack, reverses the chain and takes its nodes one by one; `batch` has
those it took. -/
inductive Consumer
  | idle
  | reversing (head reversed : Ptr)
  | taking (list : Ptr) (batch : List Ptr)

structure Mpsc (P : Type) extends State P where
  consumer : Consumer
  /-- The chains that were taken. -/
  chains : List (List Ptr)

namespace Mpsc

def init (P : Type) : Mpsc P := ⟨State.init P, .idle, []⟩

inductive Label (P : Type)
  | push (p : P) (a : PushStep)
  | consume

/-- A step of the consumer: `drain`, a round of the loop of `reverse`, or the next node. -/
def consume (s : Mpsc P) : Mpsc P :=
  match s.consumer with
  | .idle => { s with head := null, consumer := .reversing s.head null }
  | .reversing head reversed =>
    if head = null then { s with consumer := .taking reversed [] }
    else { s with
      next := update s.next head reversed
      consumer := .reversing (s.next head) head }
  | .taking list batch =>
    if list = null then { s with consumer := .idle, chains := s.chains ++ [batch] }
    else { s with
      consumer := .taking (s.next list) (batch ++ [list])
      owner := update s.owner list .free }

def step (s : Mpsc P) : Label P → Option (Mpsc P)
  | .push p a => (s.toState.push p a).map fun t => { s with toState := t }
  | .consume => some s.consume

/-- Of the chain `out` the consumer still has the nodes `held`. -/
def Holds (next : Ptr → Ptr) (held out : List Ptr) : Consumer → Prop
  | .idle => held = [] ∧ out = []
  | .reversing head reversed => ∃ left right, Threads next head left null ∧
      Threads next reversed right null ∧ held = left.reverse ++ right ∧ out = held
  | .taking list batch => Threads next list held null ∧ out = batch ++ held

structure Inv (s : Mpsc P) (held out stack : List Ptr) : Prop where
  owned : Owned s.toState (stack ++ held)
  threads : Threads s.next s.head stack null
  holds : Holds s.next held out s.consumer
  order : s.pushed.map Prod.snd = s.chains.flatten ++ out ++ stack.reverse
  once : ∀ chain ∈ out :: s.chains, chain.Nodup

variable {s s' : Mpsc P} {held out stack : List Ptr}

private theorem Inv.push {a : PushStep} {t : State P} (h : Inv s held out stack)
    (hstep : s.toState.push p a = some t) :
    ∃ stack', Inv { s with toState := t } held out stack' := by
  obtain ⟨hnext, heffect⟩ := push_effect h.owned hstep
  have hnext : ∀ n ∈ stack ++ held, t.next n = s.next n := fun n hn =>
    hnext n (by rw [h.owned.listed n hn]; nofun)
  have hthreads := h.threads.congr fun n hn => hnext n (mem_append_left _ hn)
  have hholds : Holds t.next held out s.consumer := by
    have holds := h.holds
    cases hc : s.consumer with
    | idle => rwa [hc] at holds
    | reversing =>
      rw [hc] at holds
      obtain ⟨left, right, hleft, hright, rfl, rfl⟩ := holds
      exact ⟨left, right, hleft.congr fun n hn => hnext n (by simp [hn]),
        hright.congr fun n hn => hnext n (by simp [hn]), rfl, rfl⟩
    | taking =>
      rw [hc] at holds
      exact ⟨holds.1.congr fun n hn => hnext n (mem_append_right _ hn), holds.2⟩
  rcases heffect with ⟨hhead, hpushed, howned⟩ | ⟨n, rfl, hlink, hpushed, howned⟩
  · exact ⟨stack, howned, hhead ▸ hthreads, hholds, hpushed ▸ h.order, h.once⟩
  · refine ⟨t.head :: stack, howned, ⟨rfl, hlink ▸ hthreads⟩, hholds, ?_, h.once⟩
    simp [hpushed, h.order]

omit [DecidableEq P] in
private theorem Inv.consume (h : Inv s held out stack) :
    ∃ held' out' stack', Inv s.consume held' out' stack' := by
  obtain ⟨owned, threads, holds, order, once⟩ := h
  have hnodup := owned.nodup
  have hnull : ∀ n ∈ stack ++ held, n ≠ null := by
    rintro n hn rfl
    exact nomatch (owned.listed _ hn).symm.trans owned.bare
  cases hc : s.consumer with
  | idle =>
    rw [hc] at holds
    obtain ⟨rfl, rfl⟩ := holds
    rw [append_nil] at owned hnodup
    simp only [Mpsc.consume, hc]
    refine ⟨stack.reverse, _, [], ⟨owned.bare, ?_, nodup_reverse.mpr hnodup, owned.owns,
      owned.linked⟩, rfl, ⟨stack, [], threads, rfl, (append_nil _).symm, rfl⟩, ?_, ?_⟩
    · exact fun n hn => owned.listed n (mem_reverse.mp hn)
    · simpa using order
    · simpa [hnodup] using once
  | reversing head reversed =>
    rw [hc] at holds
    obtain ⟨left, right, hleft, hright, rfl, rfl⟩ := holds
    cases left with
    | nil =>
      simp only [Mpsc.consume, hc, show head = null from hleft, if_true]
      exact ⟨right, right, stack, owned, threads, ⟨hright, rfl⟩, order, once⟩
    | cons n left =>
      obtain ⟨rfl, hrest⟩ := hleft
      have heq : (head :: left).reverse ++ right = left.reverse ++ head :: right := by simp
      rw [heq] at owned order once hnodup hnull
      have hhead := owned.listed head (by simp)
      simp only [Mpsc.consume, hc, if_neg (hnull head (by simp))]
      refine ⟨_, _, stack, ⟨owned.bare, owned.listed, hnodup, owned.owns, fun p n old hp => ?_⟩,
        threads.congr ?_, ⟨left, head :: right, hrest.congr ?_, ⟨rfl, ?_⟩, rfl, rfl⟩,
        order, once⟩
      · have hn : n ≠ head := by
          rintro rfl
          exact nomatch hhead.symm.trans (owned.owns p n (by rw [hp]; rfl))
        exact (update_of_ne hn ..).trans (owned.linked p n old hp)
      · grind
      · grind
      · simp only [update_self]
        refine hright.congr ?_
        grind
  | taking list batch =>
    rw [hc] at holds
    obtain ⟨hlist, rfl⟩ := holds
    cases held with
    | nil =>
      simp only [Mpsc.consume, hc, show list = null from hlist, if_true]
      refine ⟨[], [], stack, owned, threads, ⟨rfl, rfl⟩, ?_, ?_⟩
      · simpa using order
      · grind
    | cons n ns =>
      obtain ⟨rfl, hns⟩ := hlist
      have hlist := owned.listed list (by simp)
      simp only [Mpsc.consume, hc, if_neg (hnull list (by simp))]
      refine ⟨ns, _, stack, ⟨?_, fun n hn => ?_, ?_, fun p n hp => ?_, owned.linked⟩,
        threads, ⟨hns, rfl⟩, ?_, ?_⟩
      · exact update_eq_of_ne owned.bare (by rw [hlist]; nofun)
      · have hn' := owned.listed n (by grind)
        grind
      · grind
      · exact update_eq_of_ne (owned.owns p n hp) (by rw [hlist]; nofun)
      · simpa using order
      · simpa using once

/-- In every run the nodes are in the lists that the invariant gives. -/
theorem inv_run {as : List (Label P)} (hrun : runSteps step (init P) as = some s) :
    ∃ held out stack, Inv s held out stack := by
  refine runSteps_preserves (P := fun s => ∃ held out stack, Inv s held out stack)
    (fun s a s' hs hstep => ?_) ⟨[], [], [], ?_⟩ hrun
  · obtain ⟨held, out, stack, h⟩ := hs
    cases a with
    | push p a =>
      obtain ⟨t, ht, rfl⟩ := Option.map_eq_some_iff.mp hstep
      obtain ⟨stack', h'⟩ := h.push ht
      exact ⟨held, out, stack', h'⟩
    | consume => exact Option.some.inj hstep ▸ h.consume
  · exact ⟨⟨rfl, nofun, nodup_nil, nofun, nofun⟩, rfl, ⟨rfl, rfl⟩, rfl, by simp [init]⟩

/-- The pushed nodes come out in the order of their pushes, those of one producer in its order. A
node that has not come out is in the chain that the consumer is at, or waits in the stack. -/
theorem chains_in_push_order {as : List (Label P)} (hrun : runSteps step (init P) as = some s) :
    ∃ taken current waiting, s.pushed = taken ++ current ++ waiting ∧
      s.chains.flatten = taken.map Prod.snd ∧ (∀ chain ∈ s.chains, chain.Nodup) ∧
      (∀ p, taken.filter (·.1 = p) <+: s.pushed.filter (·.1 = p)) ∧
      (∃ held, Holds s.next held (current.map Prod.snd) s.consumer) ∧
      Threads s.next s.head (waiting.map Prod.snd).reverse null := by
  obtain ⟨held, out, stack, h⟩ := inv_run hrun
  obtain ⟨_, waiting, hsplit, hrest, hwaiting⟩ := map_eq_append_iff.mp h.order
  obtain ⟨taken, current, rfl, htaken, hcurrent⟩ := map_eq_append_iff.mp hrest
  refine ⟨taken, current, waiting, hsplit, htaken.symm, fun c hc => h.once c (mem_cons_of_mem _ hc),
    fun p => ?_, ⟨held, hcurrent ▸ h.holds⟩, ?_⟩
  · rw [hsplit, append_assoc, filter_append]
    exact prefix_append ..
  · rw [hwaiting, reverse_reverse]
    exact h.threads

/-- A producer's exchange fails because another pushed and the consumer drained since its load. -/
theorem chains_in_push_order_contended :
    ∃ as s, runSteps step (init Bool) as = some s ∧ s.chains = [[3], [2]] ∧
      ∃ held out, Holds s.next held out s.consumer := by
  have hrun : runSteps step (init Bool) [.push true (.call 3), .push true .link,
      .push true (.exchange true), .push true .link, .push true (.exchange false),
      .push false (.call 2), .push false .link, .consume, .push false (.exchange false), .consume,
      .consume, .push false .link, .push false (.exchange false), .consume, .consume, .consume,
      .consume, .consume, .consume, .consume] = some _ := rfl
  obtain ⟨taken, current, waiting, -, -, -, -, ⟨held, hholds⟩, -⟩ := chains_in_push_order hrun
  exact ⟨_, _, hrun, rfl, held, _, hholds⟩

end Mpsc

end PsiServe.Stack
