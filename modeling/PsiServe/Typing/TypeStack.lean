import Mathlib.Data.List.Infix
import PsiServe.Interp.Operands
import PsiServe.Parser.Tracker

/-!
# What the operand type stack stands for

The operands a `Tracker` stands for are the types between its marks. Where no mark of
unreachable code is left, they are exactly the operands at run time.
-/

namespace PsiServe.Typing

open Base Wasm Bitcode PsiServe.Parser List Tracker

variable {o : Options} {tr tr' : Tracker} {t : ValueType} {ts state : List ValueType}
  {xs ys : List ValueType}

/-! ### Marks and values -/

/-- A byte that is not a mark of the type stack. -/
def IsValue (t : ValueType) : Prop := t ≠ scopeTag ∧ t ≠ unreachableTag

instance (t : ValueType) : Decidable (IsValue t) := inferInstanceAs (Decidable (_ ∧ _))

/-- A type an operand may be pushed and popped as. -/
def Plain (t : ValueType) : Prop := IsValue t ∧ t ≠ anyType ∧ t ≠ types.pseudo

instance (t : ValueType) : Decidable (Plain t) := inferInstanceAs (Decidable (_ ∧ _))

/-- A value type is plain. -/
theorem plain_of_isValueType (h : IsValueType t) : Plain t := by
  rcases h with (rfl | rfl | rfl | rfl | rfl | rfl | rfl) | rfl
  all_goals decide

/-- The types on the stack, topmost first. -/
def values (state : List ValueType) : List ValueType := state.filter fun t => IsValue t

/-- The code is not known to be unreachable. -/
def Live (state : List ValueType) : Prop := unreachableTag ∉ state

instance (state : List ValueType) : Decidable (Live state) :=
  inferInstanceAs (Decidable (¬_))

/-- The stack below the innermost scope mark. -/
def under (state : List ValueType) : List ValueType := (belowSegment state).tail

/-- The values of two parts of a stack. -/
theorem values_append (xs ys : List ValueType) : values (xs ++ ys) = values xs ++ values ys :=
  filter_append ..

/-- A stack without marks. -/
theorem values_of_all (h : ∀ t ∈ xs, IsValue t) : values xs = xs :=
  filter_eq_self.mpr fun t ht => decide_eq_true (h t ht)

/-- A scope mark is no value. -/
theorem values_scope (out : List ValueType) : values (scopeTag :: out) = values out := rfl

private theorem values_unreachable (out : List ValueType) :
    values (unreachableTag :: out) = values out := rfl

/-- What is under a scope mark. -/
theorem under_scope (out : List ValueType) : under (scopeTag :: out) = out := rfl

private theorem under_append (h : ∀ t ∈ xs, t ≠ scopeTag) : under (xs ++ ys) = under ys := by
  induction xs with
  | nil => rfl
  | cons t xs ih =>
    rw [under, cons_append, belowSegment, if_neg (h t mem_cons_self)]
    exact ih (forall_mem_cons.mp h).2

/-- What is under values. -/
theorem under_values (h : ∀ t ∈ xs, IsValue t) :
    under (xs ++ ys) = under ys := under_append fun t ht => (h t ht).1

/-- Values do not change what is reachable. -/
theorem live_append (h : ∀ t ∈ xs, IsValue t) : Live (xs ++ ys) ↔ Live ys := by
  unfold Live
  rw [mem_append, not_or]
  exact ⟨fun h => h.2, fun h' => ⟨fun hmem => (h _ hmem).2 rfl, h'⟩⟩

/-- A stack with a scope mark splits at the innermost one. -/
theorem split_scope (h : scopeTag ∈ state) :
    ∃ seg, state = seg ++ scopeTag :: under state ∧ ∀ t ∈ seg, t ≠ scopeTag := by
  induction state with
  | nil => cases h
  | cons t rest ih =>
    by_cases ht : t = scopeTag
    · subst ht
      exact ⟨[], rfl, nofun⟩
    · have hrest : scopeTag ∈ rest := (mem_cons.mp h).resolve_left (Ne.symm ht)
      obtain ⟨seg, hseg, hne⟩ := ih hrest
      have hunder : under (t :: rest) = under rest := by
        rw [under, belowSegment, if_neg ht]
        rfl
      refine ⟨t :: seg, ?_, ?_⟩
      · rw [hunder, cons_append, ← hseg]
      · exact forall_mem_cons.mpr ⟨ht, hne⟩

/-- Under reachable code is reachable code. -/
theorem Live.under (h : Live state) : Live (under state) := by
  intro hmem
  apply h
  by_cases hs : scopeTag ∈ state
  · obtain ⟨seg, hseg, -⟩ := split_scope hs
    rw [hseg]
    exact mem_append_right _ (mem_cons_of_mem _ hmem)
  · -- without a scope mark nothing lies below
    have hnil : Typing.under state = [] := by
      have happend : Typing.under (state ++ []) = Typing.under [] :=
        under_append fun t ht (hs' : t = scopeTag) => hs (hs' ▸ ht)
      rwa [append_nil] at happend
    rw [hnil] at hmem
    cases hmem

/-! ### Steps of the tracker -/

/-- The depth counter counts the types on the stack. -/
def DepthOk (tr : Tracker) : Prop := tr.operandDepth.toNat = (values tr.state).length

private theorem DepthOk.dropTop {rest : List ValueType} (h : DepthOk tr)
    (hstate : tr.state = t :: rest)
    (ht : IsValue t) (expected : ValueType) : DepthOk (tr.dropTop o expected rest) := by
  unfold DepthOk at h ⊢
  have hvalues : values (t :: rest) = t :: values rest :=
    filter_cons_of_pos (decide_eq_true ht)
  rw [hstate, hvalues, length_cons] at h
  change (tr.operandDepth - 1).toNat = (values rest).length
  have hle : (1 : UInt32) ≤ tr.operandDepth := by
    rw [UInt32.le_iff_toNat_le, h]
    change 1 ≤ _
    omega
  rw [UInt32.toNat_sub_of_le _ _ hle, h]
  rfl

/-- What popping operands leaves: a stack without some of its topmost types, which are
those expected unless the code is unreachable. -/
structure Popped (tr tr' : Tracker) (ts : List ValueType) : Prop where
  split : ∃ popped, tr.state = popped ++ tr'.state ∧ (∀ t ∈ popped, IsValue t) ∧
    (Live tr.state → anyType ∉ tr.state → popped = ts)
  depth : DepthOk tr → DepthOk tr'

private theorem Popped.refl_of_dead (h : ¬Live tr.state) : Popped tr tr ts :=
  ⟨⟨[], rfl, nofun, fun hlive => absurd hlive h⟩, id⟩

/-- A pop takes an operand of the type. -/
theorem pop_popped (ht : Plain t) (h : tr.pop o t = .ok tr') : Popped tr tr' [t] := by
  unfold pop at h
  rw [if_neg ht.2.2] at h
  split at h
  · cases h
  next u rest hstate =>
    split at h
    next hu =>
      cases h
      refine .refl_of_dead fun hlive => hlive ?_
      rw [hstate, hu]
      exact mem_cons_self
    next hu =>
      split at h
      next hok =>
        cases h
        have hvalue : IsValue u := by
          refine ⟨?_, hu⟩
          rcases hok with rfl | rfl
          · exact ht.1.1
          · decide
        refine ⟨⟨[u], hstate, ?_, ?_⟩, fun hdepth => hdepth.dropTop hstate hvalue t⟩
        · exact forall_mem_singleton.mpr hvalue
        · intro _ hany
          rcases hok with rfl | rfl
          · rfl
          · rw [hstate] at hany
            exact absurd mem_cons_self hany
      · cases h

/-- Operands are popped one after the other. -/
theorem Popped.trans {tr'' : Tracker} {us : List ValueType} (h : Popped tr tr' ts)
    (h' : Popped tr' tr'' us) : Popped tr tr'' (ts ++ us) := by
  obtain ⟨xs, hxs, hvx, hx⟩ := h.split
  obtain ⟨ys, hys, hvy, hy⟩ := h'.split
  refine ⟨⟨xs ++ ys, ?_, ?_, ?_⟩, fun hdepth => h'.depth (h.depth hdepth)⟩
  · rw [hxs, hys, append_assoc]
  · exact forall_mem_append.mpr ⟨hvx, hvy⟩
  · intro hlive hany
    rw [hx hlive hany, hy]
    · rw [hxs] at hlive
      exact (live_append hvx).mp hlive
    · intro hmem
      apply hany
      rw [hxs]
      exact mem_append_right _ hmem

/-- Operands of the types are popped. -/
theorem popAll_popped (hts : ∀ t ∈ ts, Plain t) (h : tr.popAll o ts = .ok tr') :
    Popped tr tr' ts := by
  induction ts generalizing tr with
  | nil =>
    cases h
    exact ⟨⟨[], rfl, nofun, fun _ _ => rfl⟩, id⟩
  | cons t ts ih =>
    obtain ⟨mid, hmid, hrest⟩ := bind_eq_ok.mp h
    exact (pop_popped (hts t mem_cons_self) hmid).trans
      (ih (forall_mem_cons.mp hts).2 hrest)

/-- Popping an operand of any type. -/
theorem popAny_popped (h : tr.popAny o = .ok (t, tr')) : Popped tr tr' [t] := by
  unfold popAny at h
  split at h
  · cases h
  next u rest hstate =>
    split at h
    · cases h
    next hscope =>
      split at h
      next hu =>
        cases h
        refine .refl_of_dead fun hlive => hlive ?_
        rw [hstate, hu]
        exact mem_cons_self
      next hu =>
        cases h
        refine ⟨⟨[t], hstate, ?_, fun _ _ => rfl⟩,
          fun hdepth => hdepth.dropTop hstate ⟨hscope, hu⟩ t⟩
        exact forall_mem_singleton.mpr ⟨hscope, hu⟩

/-- In reachable code the operands popped are those on the stack. -/
theorem Popped.mem (h : Popped tr tr' ts) (hlive : Live tr.state) (hany : anyType ∉ tr.state) :
    ∀ t ∈ ts, t ∈ tr.state := by
  obtain ⟨popped, hstate, -, heq⟩ := h.split
  intro t ht
  rw [hstate, heq hlive hany]
  exact mem_append_left _ ht

/-- A push puts the type on the stack. -/
theorem push_state (h : tr.push o t = .ok tr') :
    tr'.state = t :: tr.state ∧ (IsValue t → DepthOk tr → DepthOk tr') := by
  obtain ⟨_, hlt, h⟩ := bind_eq_ok.mp h
  obtain ⟨_, -, h⟩ := bind_eq_ok.mp h
  have hlt := require_ok.mp hlt
  cases h
  refine ⟨rfl, fun ht hdepth => ?_⟩
  unfold DepthOk at hdepth ⊢
  have hvalues : values (t :: tr.state) = t :: values tr.state :=
    filter_cons_of_pos (decide_eq_true ht)
  rw [hvalues, length_cons, ← hdepth, UInt32.toNat_add]
  rw [UInt32.lt_iff_toNat_lt] at hlt
  change _ < 4294967295 at hlt
  change (tr.operandDepth.toNat + 1) % 4294967296 = _
  omega

/-- Pushes put the types on the stack. -/
theorem pushAll_state (h : tr.pushAll o ts = .ok tr') :
    tr'.state = ts.reverse ++ tr.state ∧ ((∀ t ∈ ts, IsValue t) → DepthOk tr → DepthOk tr') := by
  induction ts generalizing tr with
  | nil =>
    cases h
    exact ⟨rfl, fun _ hdepth => hdepth⟩
  | cons t ts ih =>
    obtain ⟨mid, hmid, hrest⟩ := bind_eq_ok.mp h
    obtain ⟨hstate, hdepth⟩ := push_state hmid
    obtain ⟨hstate', hdepth'⟩ := ih hrest
    refine ⟨?_, fun hts h => ?_⟩
    · rw [hstate', hstate, reverse_cons, append_assoc]
      rfl
    · exact hdepth' (forall_mem_cons.mp hts).2
        (hdepth (hts t mem_cons_self) h)

/-! ### Scopes -/

private theorem belowSegment_append (h : ∀ t ∈ xs, t ≠ scopeTag) :
    belowSegment (xs ++ ys) = belowSegment ys := by
  induction xs with
  | nil => rfl
  | cons t xs ih =>
    rw [cons_append, belowSegment, if_neg (h t mem_cons_self)]
    exact ih (forall_mem_cons.mp h).2

private theorem segment_append (h : ∀ t ∈ xs, t ≠ scopeTag) :
    Tracker.segment (xs ++ scopeTag :: ys) = xs := by
  induction xs with
  | nil => rfl
  | cons t xs ih =>
    rw [cons_append, Tracker.segment, if_neg (h t mem_cons_self)]
    exact congrArg _ (ih (forall_mem_cons.mp h).2)

/-- After a jump nothing of the scope's operands is left. -/
theorem startUnreachable_state (h : scopeTag ∈ tr.state) :
    tr.startUnreachable.state = unreachableTag :: scopeTag :: under tr.state ∧
      (DepthOk tr → DepthOk tr.startUnreachable) := by
  obtain ⟨seg, hseg, hne⟩ := split_scope h
  have hstate : tr.startUnreachable.state = unreachableTag :: scopeTag :: under tr.state := by
    change unreachableTag :: belowSegment tr.state = _
    nth_rewrite 1 [hseg]
    rw [belowSegment_append hne]
    rfl
  refine ⟨hstate, fun hdepth => ?_⟩
  have hcount : (Tracker.segment tr.state).filter (· ≠ unreachableTag) = values seg := by
    nth_rewrite 1 [hseg]
    rw [segment_append hne]
    refine filter_congr fun t ht => ?_
    simp [IsValue, hne t ht]
  have hvalues : (values tr.state).length =
      (values seg).length + (values (under tr.state)).length := by
    nth_rewrite 1 [hseg]
    rw [values_append, values_scope, length_append]
  unfold DepthOk at hdepth ⊢
  rw [hstate, values_unreachable, values_scope]
  change (tr.operandDepth - UInt32.ofNat (length (filter _ _))).toNat = _
  rw [hcount]
  have hlt := tr.operandDepth.toNat_lt
  have hofNat : (UInt32.ofNat (values seg).length).toNat = (values seg).length :=
    UInt32.toNat_ofNat_of_lt' (by change _ < 2 ^ 32; omega)
  rw [UInt32.toNat_sub_of_le, hofNat]
  · omega
  · rw [UInt32.le_iff_toNat_le, hofNat]
    omega

/-- Closing a scope leaves its results on what was below it. -/
theorem popScopeMulti_state (hts : ∀ t ∈ ts, Plain t) (h : tr.popScopeMulti o ts = .ok tr') :
    scopeTag ∈ tr.state ∧ tr'.state = ts.reverse ++ under tr.state ∧
      (Live tr.state → anyType ∉ tr.state → tr.state = ts.reverse ++ scopeTag :: under tr.state) ∧
      (DepthOk tr → DepthOk tr') := by
  obtain ⟨mid, hmid, h⟩ := bind_eq_ok.mp h
  have h := then_eq_ok h
  have hpopped := popAll_popped (fun t ht => hts t (mem_reverse.mp ht)) hmid
  obtain ⟨popped, hstate, hvalue, hlive⟩ := hpopped.split
  obtain ⟨out, hleave, hmark, hdepth⟩ : ∃ out, mid.leaveUnreachable.state = scopeTag :: out ∧
      (mid.state = scopeTag :: out ∨ mid.state = unreachableTag :: scopeTag :: out) ∧
      (DepthOk mid → DepthOk tr') ∧ tr'.state = ts.reverse ++ out := by
    dsimp only at h
    split at h
    · cases h
    next t rest hrest =>
      obtain ⟨_, ht, h⟩ := bind_eq_ok.mp h
      obtain rfl := require_ok.mp ht
      obtain ⟨hpush, hpushDepth⟩ := pushAll_state h
      have hmark : mid.state = scopeTag :: rest ∨
          mid.state = unreachableTag :: scopeTag :: rest := by
        unfold leaveUnreachable at hrest
        split at hrest
        next t rest' hmid =>
          split at hrest
          next ht =>
            rw [hmid, ht]
            exact .inr (congrArg _ hrest)
          · exact .inl hrest
        · exact .inl hrest
      refine ⟨rest, hrest, hmark, fun hdepth => hpushDepth (fun t ht => (hts t ht).1) ?_, hpush⟩
      have hleave : mid.leaveUnreachable.operandDepth = mid.operandDepth := by
        unfold leaveUnreachable
        split
        · split
          · rfl
          · rfl
        · rfl
      unfold DepthOk at hdepth ⊢
      rw [hleave, hdepth]
      rcases hmark with hmark | hmark
      · rw [hmark, values_scope]
      · rw [hmark, values_unreachable, values_scope]
  have hunder : under tr.state = out := by
    rw [hstate, under_values hvalue]
    rcases hmark with hmark | hmark
    · rw [hmark, under_scope]
    · rw [hmark]
      rfl
  refine ⟨?_, by rw [hunder]; exact hdepth.2, fun hl hany => ?_,
    fun hd => hdepth.1 (hpopped.depth hd)⟩
  · rw [hstate]
    refine mem_append_right _ ?_
    rcases hmark with hmark | hmark
    · rw [hmark]
      exact mem_cons_self
    · rw [hmark]
      exact mem_cons_of_mem _ mem_cons_self
  · rw [hunder, hstate, hlive hl hany]
    rcases hmark with hmark | hmark
    · rw [hmark]
    · rw [hstate, live_append hvalue, hmark] at hl
      exact absurd mem_cons_self hl

end PsiServe.Typing
