import PsiServe.Parser.Emitted
import PsiServe.Typing.TypeStack

/-!
# Bytes of locals and operands

The byte count of `max_func_local_bytes_stack_checker` and the recorded maximum
(`psizam/detail/parser.hpp:106–156`, `253–261`) along the
operations of the type stack. Counting is suspended while `unreachable_depth` is not zero;
it grows with every unreachable point and shrinks once per scope, and the operands that an
unreachable point discards stay counted.
-/

namespace PsiServe.Typing

open Base Wasm Bitcode PsiServe.Parser List Tracker

variable {o : Options} {tr tr' : Tracker} {t : ValueType} {state : List ValueType} {base : Nat}
  {limit peak : UInt64}

/-! ### Bytes on the stack -/

/-- Bytes of the types on a stack; marks have none. -/
def usage (state : List ValueType) : Nat := (state.map fun t => (getSizeForType t).toNat).sum

/-- The stack below all marks of unreachable code. -/
def counted : List ValueType → List ValueType
  | [] => []
  | t :: rest => if Live (t :: rest) then t :: rest else counted rest

private theorem counted_of_live (h : Live state) : counted state = state := by
  cases state with
  | nil => rfl
  | cons t rest => rw [counted, if_pos h]

private theorem counted_cons_of_dead (h : ¬Live (t :: state)) : counted
    (t :: state) = counted state := by
  rw [counted, if_neg h]

private theorem live_cons_iff (h : t ≠ unreachableTag) : Live (t :: state) ↔ Live state := by
  simp [Live, h.symm]

/-- A type on top of a stack counts where the stack is reachable. -/
theorem counted_cons (h : t ≠ unreachableTag) : counted (t :: state) =
    (if Live state then [t] else []) ++ counted state := by
  by_cases hlive : Live state
  · simp [counted_of_live ((live_cons_iff h).mpr hlive), counted_of_live hlive, hlive]
  · simp [counted_cons_of_dead (mt (live_cons_iff h).mp hlive), hlive]

private theorem usage_counted_cons (h : t ≠ unreachableTag) : usage (counted (t :: state)) =
    (if Live state then (getSizeForType t).toNat else 0) + usage (counted state) := by
  rw [counted_cons h]
  split <;> simp [usage]

/-! ### The count -/

/-- The counters stand for the operands below unreachable code, and the recorded maximum is not
below the count or `peak`. -/
structure Exact (base : Nat) (peak : UInt64) (tr : Tracker) : Prop where
  depth : tr.localBytes.unreachableDepth.toNat = tr.state.count unreachableTag
  count : tr.localBytes.count.toNat = base + usage (counted tr.state)
  known : anyType ∉ counted tr.state
  recorded : tr.localBytes.count ≤ tr.stackUsage
  kept : peak ≤ tr.stackUsage

/-- The operations after which the counters are right: no mark is pushed as an operand, and an
unreachable point comes where its scope is reachable and has no operands left. -/
def Quiet (tr : Tracker) : TrackOp → Prop
  | .push t => t ≠ unreachableTag ∧ (Live tr.state → t ≠ anyType)
  | .startUnreachable => Tracker.segment tr.state = [] ∧ tr.state.count unreachableTag + 1 < 2 ^ 32
  | _ => True

instance (tr : Tracker) : ∀ op, Decidable (Quiet tr op)
  | .push t => inferInstanceAs (Decidable (t ≠ unreachableTag ∧ (Live tr.state → t ≠ anyType)))
  | .startUnreachable =>
    inferInstanceAs (Decidable (Tracker.segment tr.state = [] ∧
      tr.state.count unreachableTag + 1 < 2 ^ 32))
  | .pop _ | .popAny | .pushScope | .leaveScope => isTrue trivial

private theorem Exact.reachable_iff (h : Exact base peak tr) :
    tr.localBytes.unreachableDepth = 0 ↔ Live tr.state := by
  rw [← UInt32.toNat_inj, h.depth]
  exact count_eq_zero

/-- Bytes are counted if they fit below the limit. -/
theorem onBytes_eq {c : LocalBytes} {size : UInt64} (hlimit : o.maxFuncLocalBytes = some limit) :
    c.onBytes o size = if c.count.toNat + size.toNat ≤ limit.toNat
      then .ok { c with count := c.count + size }
      else .error ⟨.wasmParse, "local variable limit exceeded"⟩ := by
  have hfits : (c.count + size ≤ limit ∧ size ≤ c.count + size) ↔
      c.count.toNat + size.toNat ≤ limit.toNat := by
    have := c.count.toNat_lt
    have := limit.toNat_lt
    rw [UInt64.le_iff_toNat_le, UInt64.le_iff_toNat_le, UInt64.toNat_add]
    omega
  simp only [LocalBytes.onBytes, hlimit, hfits]

/-! ### The locals -/

/-- Bytes of the parameters and locals that are counted. -/
def localsUsage (o : Options) (ft : FuncType) (ls : List LocalEntry) : Nat :=
  (if o.countParams then usage ft.paramTypes else 0) +
    if o.countLocals then (ls.map fun l => (getSizeForType l.type).toNat * l.count).sum else 0

/-- Sizes are counted one after the other until the limit is exceeded. -/
theorem foldSteps_onBytes {τ : Type} (size : τ → UInt64)
    (hlimit : o.maxFuncLocalBytes = some limit) (l : List τ) (c : LocalBytes)
    (hc : c.count.toNat ≤ limit.toNat) :
    foldSteps (fun c x => LocalBytes.onBytes o c (size x)) c l =
      if c.count.toNat + (l.map fun x => (size x).toNat).sum ≤ limit.toNat
      then .ok { c with count := UInt64.ofNat (c.count.toNat +
        (l.map fun x => (size x).toNat).sum) }
      else .error ⟨.wasmParse, "local variable limit exceeded"⟩ := by
  induction l generalizing c with
  | nil => simp [foldSteps, hc]
  | cons x l ih =>
    have := limit.toNat_lt
    rw [foldSteps, onBytes_eq hlimit, map_cons, sum_cons, ← Nat.add_assoc]
    by_cases hx : c.count.toNat + (size x).toNat ≤ limit.toNat
    · have hsum : (c.count + size x).toNat = c.count.toNat + (size x).toNat := by
        rw [UInt64.toNat_add]
        omega
      rw [if_pos hx, ok_bind, ih _ (hsum ▸ hx)]
      simp only [hsum]
    · rw [if_neg hx, if_neg (by omega)]
      rfl

private theorem toNat_size_mul {l : LocalEntry} (h : l.count < 2 ^ 32) :
    (getSizeForType l.type * UInt64.ofNat l.count).toNat =
      (getSizeForType l.type).toNat * l.count := by
  have hsize : (getSizeForType l.type).toNat ≤ 16 := by
    unfold getSizeForType
    split
    · decide
    split
    · decide
    split
    · decide
    · decide
  have hmul := Nat.mul_le_mul hsize h.le
  rw [UInt64.toNat_mul, UInt64.toNat_ofNat_of_lt' (h.trans (by decide)), Nat.mod_eq_of_lt]
  exact hmul.trans_lt (by decide)

/-- The parameters and locals of a function are counted, or refused where their sum exceeds the
limit. -/
theorem ofFunction_eq (hlimit : o.maxFuncLocalBytes = some limit) (ft : FuncType)
    {ls : List LocalEntry} (hls : ∀ l ∈ ls, l.count < 2 ^ 32) :
    LocalBytes.ofFunction o ft ls = if localsUsage o ft ls ≤ limit.toNat
      then .ok ⟨UInt64.ofNat (localsUsage o ft ls), 0⟩
      else .error ⟨.wasmParse, "local variable limit exceeded"⟩ := by
  have := limit.toNat_lt
  have hparams : ((if o.countParams then ft.paramTypes else []).map
      fun t => (getSizeForType t).toNat).sum =
        if o.countParams then usage ft.paramTypes else 0 := by
    split
    · rfl
    · rfl
  have hlocals : ((if o.countLocals then ls else []).map
      fun l => (getSizeForType l.type * UInt64.ofNat l.count).toNat).sum =
        if o.countLocals then (ls.map fun l => (getSizeForType l.type).toNat * l.count).sum
        else 0 := by
    split
    · rw [map_congr_left fun l hl => toNat_size_mul (hls l hl)]
    · rfl
  rw [LocalBytes.ofFunction, foldSteps_onBytes getSizeForType hlimit _ _ (Nat.zero_le _), hparams,
    localsUsage]
  by_cases hp : (if o.countParams then usage ft.paramTypes else 0) ≤ limit.toNat
  · rw [if_pos (by simpa using hp), ok_bind,
      foldSteps_onBytes (fun l : LocalEntry => getSizeForType l.type * UInt64.ofNat l.count) hlimit,
      hlocals]
    · simp only [UInt64.toNat_zero, Nat.zero_add, UInt64.toNat_ofNat_of_lt' (hp.trans_lt this)]
    · simpa [Nat.mod_eq_of_lt (hp.trans_lt this)] using hp
  · have hp₀ : ¬(0 : UInt64).toNat + (if o.countParams then usage ft.paramTypes else 0) ≤
        limit.toNat := by simpa using hp
    rw [if_neg hp₀, if_neg fun hle => hp ((Nat.le_add_right _ _).trans hle)]
    rfl

/-! ### Operations -/

section

variable (hlimit : o.maxFuncLocalBytes = some limit) (hstack : o.countStack = true)
include hlimit hstack

section

variable (h : Exact base peak tr)

include h

/-- A push is refused exactly if the operand does not fit below the limit. -/
theorem Exact.push_iff (hlive : Live tr.state) (hdepth : tr.operandDepth < 0xFFFFFFFF) :
    (∃ tr', tr.push o t = .ok tr') ↔
      base + usage tr.state + (getSizeForType t).toNat ≤ limit.toNat := by
  have hcount := h.count
  rw [counted_of_live hlive] at hcount
  rw [← hcount, push, exists_bind_eq_ok, LocalBytes.pushStack,
    if_pos ⟨h.reachable_iff.mpr hlive, hstack⟩, onBytes_eq hlimit]
  simp only [require_ok, exists_bind_eq_ok, hdepth]
  by_cases hfits : tr.localBytes.count.toNat + (getSizeForType t).toNat ≤ limit.toNat
  · simp [hfits, pure, Except.pure]
  · simp [hfits]

private theorem Exact.push (hquiet : Quiet tr (.push t)) (hpush : tr.push o t = .ok tr') :
    Exact base peak tr' := by
  obtain ⟨hmark, hany⟩ := hquiet
  have hpush := then_eq_ok hpush
  obtain ⟨bytes, hbytes, hpush⟩ := bind_eq_ok.mp hpush
  cases hpush
  have hcounts : bytes.unreachableDepth = tr.localBytes.unreachableDepth ∧
      bytes.count.toNat = base + usage (counted (t :: tr.state)) := by
    rw [usage_counted_cons hmark]
    unfold LocalBytes.pushStack at hbytes
    by_cases hlive : Live tr.state
    · rw [if_pos ⟨h.reachable_iff.mpr hlive, hstack⟩, onBytes_eq hlimit] at hbytes
      split at hbytes
      next hfits =>
        cases hbytes
        have := limit.toNat_lt
        have hcount := h.count
        simp only [UInt64.toNat_add, if_pos hlive]
        refine ⟨trivial, ?_⟩
        omega
      · cases hbytes
    · rw [if_neg (fun hz => hlive (h.reachable_iff.mp hz.1))] at hbytes
      cases hbytes
      simpa [hlive] using h.count
  have hmax : tr.stackUsage ≤ (if tr.stackUsage < bytes.count then bytes.count else tr.stackUsage) ∧
      bytes.count ≤ if tr.stackUsage < bytes.count then bytes.count else tr.stackUsage := by
    split
    next hlt => exact ⟨UInt64.le_of_lt hlt, UInt64.le_refl _⟩
    next hlt => exact ⟨UInt64.le_refl _, UInt64.not_lt.mp hlt⟩
  refine ⟨?_, hcounts.2, ?_, hmax.2, UInt64.le_trans h.kept hmax.1⟩
  · rw [hcounts.1, h.depth, count_cons_of_ne hmark]
  · rw [counted_cons hmark]
    split
    next hlive => simp [h.known, (hany hlive).symm]
    · exact h.known

/-- Taking the topmost operand off, where it is what it is taken for. -/
theorem Exact.dropTop {rest : List ValueType} {expected : ValueType}
    (hstate : tr.state = t :: rest)
    (hmark : t ≠ unreachableTag) (htype : Live tr.state → expected = t) :
    Exact base peak (tr.dropTop o expected rest) := by
  have hcount := h.count
  rw [hstate, usage_counted_cons hmark] at hcount
  rw [hstate, live_cons_iff hmark] at htype
  have hlive_iff : Live tr.state ↔ Live rest := by rw [hstate, live_cons_iff hmark]
  have hcounts : (tr.localBytes.popStack o expected).unreachableDepth =
      tr.localBytes.unreachableDepth ∧
      (tr.localBytes.popStack o expected).count.toNat = base + usage (counted rest) := by
    unfold LocalBytes.popStack
    by_cases hlive : Live rest
    · rw [if_pos ⟨h.reachable_iff.mpr (hlive_iff.mpr hlive), hstack, by simp [hlimit]⟩, htype hlive]
      rw [if_pos hlive] at hcount
      have hle : getSizeForType t ≤ tr.localBytes.count := by
        rw [UInt64.le_iff_toNat_le]
        omega
      refine ⟨rfl, ?_⟩
      rw [UInt64.toNat_sub_of_le _ _ hle]
      omega
    · rw [if_neg (fun hz => hlive (hlive_iff.mp (h.reachable_iff.mp hz.1)))]
      simpa [hlive] using hcount
  refine ⟨?_, hcounts.2, fun hmem => ?_, ?_, h.kept⟩
  · change (tr.localBytes.popStack o expected).unreachableDepth.toNat = _
    rw [hcounts.1, h.depth, hstate, count_cons_of_ne hmark]
    rfl
  · apply h.known
    rw [hstate, counted_cons hmark]
    exact mem_append_right _ hmem
  · refine UInt64.le_trans ?_ h.recorded
    rw [UInt64.le_iff_toNat_le]
    change (tr.localBytes.popStack o expected).count.toNat ≤ _
    omega

private theorem Exact.pop (hpop : tr.pop o t = .ok tr') : Exact base peak tr' := by
  unfold Tracker.pop at hpop
  split at hpop
  · cases hpop
    exact h
  split at hpop
  · cases hpop
  next u rest hstate =>
  split at hpop
  · cases hpop
    exact h
  next hmark =>
  split at hpop
  next hok =>
    cases hpop
    refine h.dropTop hlimit hstack hstate hmark fun hlive => ?_
    rcases hok with rfl | rfl
    · rfl
    · have hknown := h.known
      rw [counted_of_live hlive, hstate] at hknown
      exact absurd mem_cons_self hknown
  · cases hpop

private theorem Exact.popAny (hpop : tr.popAny o = .ok (t, tr')) : Exact base peak tr' := by
  unfold Tracker.popAny at hpop
  split at hpop
  · cases hpop
  next u rest hstate =>
  split at hpop
  · cases hpop
  split at hpop
  · cases hpop
    exact h
  next hmark =>
  cases hpop
  exact h.dropTop hlimit hstack hstate hmark fun _ => rfl

end

end

private theorem usage_counted_scope (state : List ValueType) :
    usage (counted (scopeTag :: state)) = usage (counted state) := by
  rw [usage_counted_cons (by decide)]
  split <;> exact Nat.zero_add _

private theorem anyType_counted_scope (state : List ValueType) :
    anyType ∈ counted (scopeTag :: state) ↔ anyType ∈ counted state := by
  rw [counted_cons (by decide)]
  split <;> simp [anyType, scopeTag]

private theorem counted_unreachable (state : List ValueType) :
    counted (unreachableTag :: state) = counted state :=
  counted_cons_of_dead fun hlive => hlive mem_cons_self

section

variable (h : Exact base peak tr)

include h

private theorem Exact.pushScope : Exact base peak tr.pushScope := by
  refine ⟨h.depth.trans (count_cons_of_ne (by decide)).symm, ?_, ?_, h.recorded, h.kept⟩
  · exact h.count.trans (by rw [← usage_counted_scope]; rfl)
  · exact mt (anyType_counted_scope _).mp h.known

private theorem Exact.popScope {rest : List ValueType} (hstate : tr.state = scopeTag :: rest) :
    Exact base peak { tr with state := rest } := by
  obtain ⟨hdepth, hcount, hknown, hrecorded, hkept⟩ := h
  rw [hstate] at hdepth hcount hknown
  rw [usage_counted_scope] at hcount
  rw [anyType_counted_scope] at hknown
  exact ⟨hdepth.trans (count_cons_of_ne (by decide)), hcount, hknown, hrecorded, hkept⟩

private theorem Exact.leaveUnreachable : Exact base peak tr.leaveUnreachable := by
  unfold Tracker.leaveUnreachable
  split
  next t rest hstate =>
    split
    next ht =>
      subst ht
      obtain ⟨hdepth, hcount, hknown, hrecorded, hkept⟩ := h
      rw [hstate, counted_unreachable] at hcount hknown
      rw [hstate, count_cons_self] at hdepth
      refine ⟨?_, hcount, hknown, hrecorded, hkept⟩
      have hle : (1 : UInt32) ≤ tr.localBytes.unreachableDepth := by
        rw [UInt32.le_iff_toNat_le]
        change 1 ≤ _
        omega
      change (tr.localBytes.unreachableDepth - 1).toNat = _
      rw [UInt32.toNat_sub_of_le _ _ hle, hdepth]
      exact Nat.add_sub_cancel _ 1
    · exact h
  · exact h

private theorem Exact.startUnreachable (hquiet : Quiet tr .startUnreachable) :
    Exact base peak tr.startUnreachable := by
  obtain ⟨hsegment, hbound⟩ := hquiet
  have hbelow : belowSegment tr.state = tr.state := by
    cases hstate : tr.state with
    | nil => rfl
    | cons t rest =>
      rw [hstate, Tracker.segment] at hsegment
      split at hsegment
      next ht => rw [belowSegment, if_pos ht]
      · cases hsegment
  obtain ⟨hdepth, hcount, hknown, hrecorded, hkept⟩ := h
  refine ⟨?_, ?_, ?_, hrecorded, hkept⟩
  · change (tr.localBytes.unreachableDepth + 1).toNat = List.count _ (_ :: belowSegment _)
    rw [hbelow, count_cons_self, UInt32.toNat_add, hdepth]
    change (_ + 1) % 2 ^ 32 = _
    omega
  · change _ = base + usage (counted (_ :: belowSegment _))
    rw [hbelow, counted_unreachable]
    exact hcount
  · change _ ∉ counted (_ :: belowSegment _)
    rw [hbelow, counted_unreachable]
    exact hknown

end

/-- One operation keeps the counters exact. -/
theorem exact_trackStep (hlimit : o.maxFuncLocalBytes = some limit) (hstack : o.countStack = true)
    (tr : Tracker) (op : TrackOp) (tr' : Tracker) (h : Exact base peak tr) (hquiet : Quiet tr op)
    (hstep : trackStep o tr op = some tr') : Exact base peak tr' := by
  cases op with
  | push t => exact h.push hlimit hstack hquiet (toOption_eq_some.mp hstep)
  | pop t => exact h.pop hlimit hstack (toOption_eq_some.mp hstep)
  | popAny =>
    obtain ⟨⟨t, tr₁⟩, hpop, rfl⟩ := Option.map_eq_some_iff.mp hstep
    exact h.popAny hlimit hstack (toOption_eq_some.mp hpop)
  | startUnreachable =>
    cases hstep
    exact h.startUnreachable hquiet
  | pushScope =>
    cases hstep
    exact h.pushScope
  | leaveScope =>
    change leaveScope tr = some tr' at hstep
    unfold leaveScope at hstep
    split at hstep
    · cases hstep
    next t rest hstate =>
    split at hstep
    next ht =>
      cases hstep
      exact h.leaveUnreachable.popScope (ht ▸ hstate)
    · cases hstep

/-- The locals are accepted exactly if their bytes are within the limit. Where every unreachable
point then leaves no operands behind, the count is that of the locals and the operands at every
reachable point, the maximum recorded for the body is not below it, and an operand is refused
exactly if it exceeds the limit. -/
theorem localBytes_exact_of_quiet (o : Options) (limit : UInt64) (ft : FuncType)
    (ls : List LocalEntry) (hlimit : o.maxFuncLocalBytes = some limit)
    (hstack : o.countStack = true) (hls : ∀ l ∈ ls, l.count < 2 ^ 32) :
    ((∃ locals, LocalBytes.ofFunction o ft ls = .ok locals) ↔
      localsUsage o ft ls ≤ limit.toNat) ∧
    ∀ (locals : LocalBytes) (before after : List TrackOp) (tr last : Tracker),
      LocalBytes.ofFunction o ft ls = .ok locals →
      AllSteps (trackStep o) Quiet (.initial locals) (before ++ after) →
      runSteps (trackStep o) (.initial locals) before = some tr →
      runSteps (trackStep o) tr after = some last → Live tr.state →
      tr.localBytes.count.toNat = localsUsage o ft ls + usage tr.state ∧
        tr.localBytes.count ≤ last.stackUsage ∧
        ∀ t, tr.operandDepth < 0xFFFFFFFF → ((∃ tr', tr.push o t = .ok tr') ↔
          localsUsage o ft ls + usage tr.state + (getSizeForType t).toNat ≤ limit.toNat) := by
  rw [ofFunction_eq hlimit ft hls]
  by_cases hfits : localsUsage o ft ls ≤ limit.toNat
  · refine ⟨by simp [hfits],
      fun locals before after tr last hlocals hquiet hbefore hafter hlive => ?_⟩
    rw [if_pos hfits] at hlocals
    cases hlocals
    have hbase : (UInt64.ofNat (localsUsage o ft ls)).toNat = localsUsage o ft ls :=
      UInt64.toNat_ofNat_of_lt' (hfits.trans_lt limit.toNat_lt)
    have hinit : Exact (localsUsage o ft ls) 0 (.initial ⟨.ofNat (localsUsage o ft ls), 0⟩) :=
      ⟨rfl, hbase, fun h => absurd h (by decide : anyType ∉ counted [scopeTag]),
        UInt64.le_refl _, UInt64.zero_le⟩
    obtain ⟨hquiet₁, hquiet₂⟩ := hquiet.of_append hbefore
    have h := runSteps_invariant (exact_trackStep hlimit hstack) hinit hquiet₁ hbefore
    have hpeak : Exact (localsUsage o ft ls) tr.localBytes.count tr :=
      ⟨h.depth, h.count, h.known, h.recorded, h.recorded⟩
    have hlast := runSteps_invariant (exact_trackStep hlimit hstack) hpeak hquiet₂ hafter
    refine ⟨?_, hlast.kept, fun t hdepth => h.push_iff hlimit hstack hlive hdepth⟩
    rw [h.count, counted_of_live hlive]
  · refine ⟨by simp [hfits], fun locals before after tr last hlocals => ?_⟩
    rw [if_neg hfits] at hlocals
    cases hlocals

/-- A limit of 28 bytes, of which a function with a parameter of four and two locals of eight
bytes leaves eight. -/
def limited : Options := { maxFuncLocalBytes := some 28, countParams := true }

/-- A function of one parameter. -/
def takesNumber : FuncType :=
  { FuncType.void with paramTypes := [types.i32], params_valid := by decide }

/-- An operand, a block that ends after an unreachable point, and another operand. -/
def aroundBlock : List TrackOp :=
  [.push types.f32, .pushScope, .startUnreachable, .pop types.i64, .leaveScope, .push types.i32]

/-- With both operands the limit is reached, and no further one is taken. -/
theorem localBytes_exact_of_quiet_block : ∃ tr,
    LocalBytes.ofFunction limited takesNumber [⟨2, types.i64, by decide⟩] = .ok ⟨20, 0⟩ ∧
      runSteps (trackStep limited) (.initial ⟨20, 0⟩) aroundBlock = some tr ∧ Live tr.state ∧
      tr.localBytes.count.toNat =
        localsUsage limited takesNumber [⟨2, types.i64, by decide⟩] + usage tr.state ∧
      ¬∃ tr', tr.push limited types.i32 = .ok tr' := by
  have h := (localBytes_exact_of_quiet limited 28 takesNumber [⟨2, types.i64, by decide⟩] rfl rfl
    (by decide)).2 ⟨20, 0⟩ aroundBlock [] _ _ rfl (by decide) rfl rfl (by decide)
  exact ⟨_, rfl, rfl, by decide, h.1, mt (h.2.2 types.i32 (by decide)).mp (by decide)⟩

/-- Options with a limit of three bytes. -/
def threeBytes : Options := { maxFuncLocalBytes := some 3 }

/-- A function without parameters, locals and results. -/
def threeBytesEnv : BodyEnv where
  o := threeBytes
  m := ⟨[], [], [], [], [], [], [], [], none⟩
  ft := .void
  locals := []

/-- After a block with two unreachable points nothing is counted any more, and a body whose
operands need four bytes passes a limit of three. -/
theorem operands_after_dead_block_not_counted :
    ¬ ∀ (e : BodyEnv) (limit : UInt64) (w : Writer) (bytes : List UInt8) (trace : Trace)
      (final : State), e.o.maxFuncLocalBytes = some limit → e.o.countStack = true →
      parseFunctionBodyCode e ⟨0, 0⟩ w 0 bytes = .ok (trace, final) →
      ∀ x ∈ trace, Live x.1.tracker.state →
        x.1.tracker.localBytes.count.toNat = usage x.1.tracker.state ∧
          x.1.tracker.localBytes.count ≤ final.tracker.stackUsage ∧
          usage x.1.tracker.state ≤ limit.toNat := by
  intro h
  have h := h threeBytesEnv 3 ⟨0, 9, [], 0⟩ [0x02, 0x40, 0x00, 0x00, 0x0B, 0x41, 0, 0x1A, 0x0B] _ _
    rfl rfl rfl
  revert h
  decide

end PsiServe.Typing
