import PsiServe.Base.Run
import PsiServe.Parser.Tracker

/-!
# Operations of the type stack

What the parser does with the type stack (`psizam/detail/parser.hpp:1087–1183`) is a
sequence of operations on one operand or scope each. Operands of unknown type come from
unreachable code, so that there is a mark of it below them.
-/

namespace PsiServe.Parser

open Base Wasm List Tracker

variable {o : Options} {K : Prop} {tr tr' tr'' : Tracker} {t : ValueType}
  {ts state : List ValueType}

/-- What the parser does with the type stack, one operand or scope at a time. -/
inductive TrackOp where
  | push (t : ValueType)
  | pop (t : ValueType)
  | popAny
  | startUnreachable
  | pushScope
  | leaveScope
deriving DecidableEq

/-- Leave a scope between popping and pushing its results; `parser.hpp:1166–1171`. -/
def leaveScope (tr : Tracker) : Option Tracker :=
  match tr.leaveUnreachable.state with
  | [] => none
  | t :: rest => if t = scopeTag then some { tr.leaveUnreachable with state := rest } else none

/-- One operation; it is refused where the parser throws. -/
def trackStep (o : Options) (tr : Tracker) : TrackOp → Option Tracker
  | .push t => (tr.push o t).toOption
  | .pop t => (tr.pop o t).toOption
  | .popAny => (tr.popAny o).toOption.map Prod.snd
  | .startUnreachable => some tr.startUnreachable
  | .pushScope => some tr.pushScope
  | .leaveScope => leaveScope tr

/-- Closing a scope pops the results, leaves the scope and pushes the results. -/
theorem popScopeMulti_leaves (h : tr.popScopeMulti o ts = .ok tr') :
    ∃ mid out, tr.popAll o ts.reverse = .ok mid ∧ leaveScope mid = some out ∧
      out.pushAll o ts = .ok tr' := by
  obtain ⟨mid, hmid, h⟩ := bind_eq_ok.mp h
  have h := then_eq_ok h
  dsimp only at h
  split at h
  · cases h
  next t rest hstate =>
  obtain ⟨_, ht, h⟩ := bind_eq_ok.mp h
  refine ⟨mid, _, hmid, ?_, h⟩
  rw [leaveScope, hstate]
  exact if_pos (require_ok.mp ht)

/-! ### Operands of unknown type -/

/-- Below an operand of unknown type is a mark of unreachable code. -/
def Known : List ValueType → Prop
  | [] => True
  | t :: rest => (t = anyType → unreachableTag ∈ rest) ∧ Known rest

private theorem Known.belowSegment (h : Known state) : Known (belowSegment state) := by
  induction state with
  | nil => exact h
  | cons t rest ih =>
    unfold Tracker.belowSegment
    split
    · exact h
    · exact ih h.2

/-- Popping takes at most the topmost type. -/
theorem pop_state (h : tr.pop o t = .ok tr') :
    tr'.state = tr.state ∧ (t = types.pseudo ∨ ∃ rest, tr.state = unreachableTag :: rest) ∨
      ∃ u, tr.state = u :: tr'.state ∧ (u = t ∨ u = anyType) := by
  unfold Tracker.pop at h
  split at h
  next ht =>
    cases h
    exact .inl ⟨rfl, .inl ht⟩
  split at h
  · cases h
  next u rest hstate =>
  split at h
  next hu =>
    cases h
    exact .inl ⟨rfl, .inr ⟨rest, hu ▸ hstate⟩⟩
  split at h
  next hu =>
    cases h
    exact .inr ⟨u, hstate, hu⟩
  · cases h

/-- A pop of any type takes the topmost type, or finds the mark of unreachable code. -/
theorem popAny_state (h : tr.popAny o = .ok (t, tr')) :
    tr' = tr ∧ (∃ rest, tr.state = unreachableTag :: rest) ∨ tr.state = t :: tr'.state := by
  unfold Tracker.popAny at h
  split at h
  · cases h
  next u rest hstate =>
  split at h
  · cases h
  split at h
  next hu =>
    cases h
    exact .inl ⟨rfl, rest, hu ▸ hstate⟩
  · cases h
    exact .inr hstate

/-- Where an operand of unknown type was popped, a mark of unreachable code is left. -/
theorem Known.dead_of_pop (h : Known tr.state) (hpop : tr.pop o anyType = .ok tr') :
    unreachableTag ∈ tr'.state := by
  rcases pop_state hpop with ⟨hsame, ht | ⟨rest, hrest⟩⟩ | ⟨u, hstate, hu⟩
  · exact absurd ht (by decide)
  · rw [hsame, hrest]
    exact mem_cons_self
  · rw [hstate] at h
    exact h.1 (or_self_iff.mp hu)

/-- An operand of unknown type is only found in unreachable code. -/
theorem Known.dead_of_popAny (h : Known tr.state) (hpop : tr.popAny o = .ok (anyType, tr')) :
    unreachableTag ∈ tr'.state := by
  rcases popAny_state hpop with ⟨rfl, rest, hrest⟩ | hstate
  · rw [hrest]
    exact mem_cons_self
  · rw [hstate] at h
    exact h.1 rfl

/-! ### Sequences of operations -/

/-- A change of the type stack by its operations; what is pushed is as `K` says. -/
structure Tracks (o : Options) (K : Prop) (tr tr' : Tracker) : Prop where
  ops : ∃ ops, runSteps (trackStep o) tr ops = some tr'
  known : K → Known tr.state → Known tr'.state

namespace Tracks

/-- No operation. -/
theorem refl (tr : Tracker) : Tracks o K tr tr := ⟨⟨[], rfl⟩, fun _ h => h⟩

/-- What follows may use what is known at the start. -/
theorem seq (h : Tracks o K tr tr') (h' : Tracks o (K ∧ Known tr.state) tr' tr'') :
    Tracks o K tr tr'' := by
  obtain ⟨ops, hops⟩ := h.ops
  obtain ⟨ops', hops'⟩ := h'.ops
  exact ⟨⟨ops ++ ops', (runSteps_append hops ops').trans hops'⟩,
    fun hK hknown => h'.known ⟨hK, hknown⟩ (h.known hK hknown)⟩

/-- The condition may be strengthened. -/
theorem mono {K' : Prop} (h : Tracks o K tr tr') (hK : K' → K) : Tracks o K' tr tr' :=
  ⟨h.ops, fun hK' => h.known (hK hK')⟩

/-- Operations after operations. -/
theorem trans (h : Tracks o K tr tr') (h' : Tracks o K tr' tr'') : Tracks o K tr tr'' :=
  h.seq (h'.mono And.left)

private theorem of_step (op : TrackOp) (h : trackStep o tr op = some tr')
    (hknown : K → Known tr.state → Known tr'.state) : Tracks o K tr tr' :=
  ⟨⟨[op], (runSteps_cons_iff _ _ _ _ _).mpr ⟨tr', h, rfl⟩⟩, hknown⟩

/-- A push is an operation. -/
theorem push (h : tr.push o t = .ok tr')
    (ht : K → Known tr.state → t = anyType → unreachableTag ∈ tr.state) : Tracks o K tr tr' := by
  refine .of_step (.push t) (toOption_eq_some.mpr h) fun hK hknown => ?_
  have h := then_eq_ok h
  obtain ⟨bytes, -, h⟩ := bind_eq_ok.mp h
  cases h
  exact ⟨ht hK hknown, hknown⟩

/-- A pop is an operation. -/
theorem pop (h : tr.pop o t = .ok tr') : Tracks o K tr tr' := by
  refine .of_step (.pop t) (toOption_eq_some.mpr h) fun _ hknown => ?_
  rcases pop_state h with ⟨hsame, -⟩ | ⟨u, hstate, -⟩
  · rw [hsame]
    exact hknown
  · rw [hstate] at hknown
    exact hknown.2

/-- A pop of any type is an operation. -/
theorem popAny (h : tr.popAny o = .ok (t, tr')) : Tracks o K tr tr' := by
  have hstep : trackStep o tr .popAny = some tr' := by
    rw [trackStep, toOption_eq_some.mpr h]
    rfl
  refine .of_step .popAny hstep fun _ hknown => ?_
  rcases popAny_state h with ⟨rfl, -⟩ | hstate
  · exact hknown
  · rw [hstate] at hknown
    exact hknown.2

/-- Pops are operations. -/
theorem popAll (h : tr.popAll o ts = .ok tr') : Tracks o K tr tr' := by
  induction ts generalizing tr with
  | nil =>
    cases h
    exact .refl _
  | cons t ts ih =>
    obtain ⟨mid, hmid, h⟩ := bind_eq_ok.mp h
    exact (pop hmid).trans (ih h)

/-- Pushes are operations. -/
theorem pushAll (h : tr.pushAll o ts = .ok tr') (hts : K → anyType ∉ ts) : Tracks o K tr tr' := by
  induction ts generalizing tr with
  | nil =>
    cases h
    exact .refl _
  | cons t ts ih =>
    obtain ⟨mid, hmid, h⟩ := bind_eq_ok.mp h
    refine (push hmid fun hK _ ht => ?_).trans (ih h fun hK hmem => hts hK (mem_cons_of_mem _ hmem))
    exact absurd (ht ▸ mem_cons_self) (hts hK)

/-- An unreachable point is an operation. -/
theorem startUnreachable (tr : Tracker) : Tracks o K tr tr.startUnreachable :=
  .of_step .startUnreachable rfl fun _ h => ⟨fun ht => absurd ht (by decide), h.belowSegment⟩

/-- Entering a scope is an operation. -/
theorem pushScope (tr : Tracker) : Tracks o K tr tr.pushScope :=
  .of_step .pushScope rfl fun _ h => ⟨fun ht => absurd ht (by decide), h⟩

private theorem leaveScope (h : leaveScope tr = some tr') : Tracks o K tr tr' := by
  refine .of_step .leaveScope h fun _ hknown => ?_
  have hleft : Known tr.leaveUnreachable.state := by
    unfold Tracker.leaveUnreachable
    split
    next t rest hstate =>
      rw [hstate] at hknown
      split
      · exact hknown.2
      · rw [hstate]
        exact hknown
    · exact hknown
  unfold Parser.leaveScope at h
  split at h
  · cases h
  next t rest hstate =>
  split at h
  · cases h
    rw [hstate] at hleft
    exact hleft.2
  · cases h

/-- Closing a scope is a sequence of operations. -/
theorem popScopeMulti (h : tr.popScopeMulti o ts = .ok tr') (hts : K → anyType ∉ ts) :
    Tracks o K tr tr' := by
  obtain ⟨mid, out, hmid, hout, h⟩ := popScopeMulti_leaves h
  exact ((popAll hmid).trans (leaveScope hout)).trans (pushAll h hts)

end Tracks

end PsiServe.Parser
