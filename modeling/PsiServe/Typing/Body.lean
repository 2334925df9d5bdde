import PsiServe.Typing.TryTable

/-!
# Function bodies

Parsing a body keeps the invariant of `PsiServe.Typing.Emission` from its first to its last
instruction. The instructions that break it are named: `isLegacy` those of the legacy
exception proposal, and `OpSound` leaves out those whose operands the parser and the
interpreter see differently.
-/

namespace PsiServe.Typing

open Base Wasm Bitcode PsiServe.Parser List

variable {chk last : Bool} {base : Nat} {e : BodyEnv} {slots : List Slot} {st st' : State} {op : Op}

/-! ### One instruction -/

/-- The catch blocks and the `delegate` of the legacy exception proposal. -/
def isLegacy : Op → Bool
  | .catch_ _ | .catchAll | .delegate _ => true
  | _ => false

/-- The interpreter takes and gives for an instruction what the parser assumes. -/
def OpSound (e : BodyEnv) (st : State) : Op → Prop
  | .typedSelect _ t => IsValueType t
  | .brTable labels default => Live st.tracker.state → ∀ l ∈ labels,
      (st.pcStack[l]?).map PcElement.labelTypes = (st.pcStack[default]?).map PcElement.labelTypes
  | .callIndirect type _ | .returnCallIndirect type _ => e.m.typeAlias type < 2 ^ 16
  | .tryTable _ clauses => Live st.tracker.state → ∀ c ∈ clauses, ClauseSound e.m c
  | .plain i => sameOperands e.m i = true
  | _ => True

instance : Decidable (OpSound e st op) := by
  unfold OpSound
  split
  all_goals infer_instance

/-- Every instruction keeps the invariant. -/
theorem step_ok (hlocals : ∀ t ∈ e.locals, IsValueType t) (h : Emits chk base e slots st)
    (hne : st.pcStack ≠ []) (hshort : st.pcStack.length < 2 ^ 32) (hop : op.Ok)
    (hlegacy : isLegacy op = false) (hsound : chk = true → OpSound e st op)
    (hst : step e st last op = .ok st') : EmitsTo chk base e slots st st' := by
  cases op with
  | catch_ _ | catchAll | delegate _ => cases hlegacy
  | unreachable => exact stepUnreachable_ok h hne hst
  | nop => exact stepNop_ok h hne hst
  | end_ => exact stepEnd_ok h hst
  | return_ => exact stepBr_ok h hst
  | block bt => exact stepBlock_ok hop h hne hst
  | loop bt => exact stepLoop_ok hop h hne hst
  | if_ bt => exact stepIf_ok hop h hne hst
  | else_ => exact stepElse_ok h hst
  | try_ bt => exact stepBlock_ok hop h hne (then_eq_ok hst)
  | throw_ tag => exact stepThrow_ok h hne hst
  | rethrow label => exact stepRethrow_ok h hne hst
  | throwRef => exact stepThrowRef_ok h hne hst
  | br label => exact stepBr_ok h hst
  | brIf label => exact stepBrIf_ok h hne hst
  | brTable labels default =>
    refine stepBrTable_ok h hne (fun hchk hlive l hl c d hc hd => ?_) hst
    have hsame := hsound hchk hlive l hl
    rw [hc, hd] at hsame
    exact Option.some.inj hsame
  | call func => exact stepCall_ok h hne hst
  | callIndirect type table => exact stepCallIndirect_ok h hne hsound hst
  | returnCall func => exact stepReturnCall_ok h hne hst
  | returnCallIndirect type table => exact stepReturnCallIndirect_ok h hne hsound hst
  | tryTable bt clauses => exact stepTryTable_ok hop.1 h hne hshort hop.2.1 hsound hst
  | drop => exact stepDrop_ok h hne hst
  | select => exact stepSelect_ok h hne hst
  | typedSelect count t => exact stepTypedSelect_ok h hne hsound hst
  | tableInit elem table => exact stepTableInit_ok h hne hst
  | tableCopy dst src => exact stepTableCopy_ok h hne hst
  | refIsNull => exact stepRefIsNull_ok h hne hst
  | plain i => exact stepPlain_ok h hne hlocals hop hsound hst

/-- After the `end` of the function no instruction follows. -/
theorem step_open (hne : st.pcStack ≠ []) (hlegacy : isLegacy op = false)
    (hst : step e st last op = .ok st') (hnil : st'.pcStack = []) : last = true := by
  by_cases hend : op = .end_
  · subst hend
    have hst := then_eq_ok hst
    obtain ⟨st₁, -, hst⟩ := bind_eq_ok.mp hst
    obtain ⟨_, hlast, hst⟩ := bind_eq_ok.mp hst
    cases hst
    obtain ⟨n, hn⟩ := onEnd_ok e.o st₁
    rw [hn] at hnil
    exact (require_ok.mp hlast).resolve_left (not_not.mpr hnil)
  · have hdelegate : ∀ l, op ≠ .delegate l := by
      rintro l rfl
      cases hlegacy
    have hle := (growing_step hend hdelegate st' hst).scopes
    rw [hnil] at hle
    exact absurd (length_eq_zero_iff.mp (Nat.le_zero.mp hle)) hne

/-! ### All instructions of a body -/

/-- The conditions on the instructions of a body. -/
def TraceOk (chk : Bool) (e : BodyEnv) (trace : Trace) : Prop :=
  ∀ x ∈ trace, isLegacy x.2 = false ∧ (chk = true → OpSound e x.1 x.2)

/-- A body keeps the invariant, and the position of each of its instructions is annotated as
the parser's state in front of the instruction says. -/
theorem parseCode_ok {n : Nat} {bytes : List UInt8} {trace : Trace} {final : State}
    (hlocals : ∀ t ∈ e.locals, IsValueType t) (h : Emits chk base e slots st)
    (hopen : st.pcStack = [] → bytes = []) (htrace : TraceOk chk e trace)
    (hparse : parseCode e n bytes st = .ok (trace, final)) :
    ∃ slots', Emits chk base e slots' final ∧ Extends slots (here chk st) slots' (here chk final) ∧
      ∀ x ∈ trace, Reaches slots' (here chk final) x.1.writer.opIndex (here chk x.1) := by
  induction n generalizing bytes st slots trace with
  | zero =>
    cases bytes with
    | cons b bytes => cases hparse
    | nil =>
      cases hparse
      exact ⟨slots, h, .refl _ _, forall_mem_nil _⟩
  | succ n ih =>
    cases bytes with
    | nil =>
      cases hparse
      exact ⟨slots, h, .refl _ _, forall_mem_nil _⟩
    | cons b bytes =>
      obtain ⟨⟨op, st', rest⟩, hnext, hparse⟩ := bind_eq_ok.mp hparse
      obtain ⟨⟨tail, final'⟩, htail, hret⟩ := bind_eq_ok.mp hparse
      cases hret
      obtain ⟨-, hop, hshort, gas, hst⟩ := next_ok hnext
      have hne : st.pcStack ≠ [] := fun hnil => cons_ne_nil _ _ (hopen hnil)
      obtain ⟨hlegacy, hsound⟩ := htrace (st, op) mem_cons_self
      have hgas : Emits chk base e slots { st with gas := gas } := ⟨h.stack, h.building⟩
      obtain ⟨slots₁, hemits, hext⟩ := step_ok hlocals hgas hne hshort hop hlegacy hsound hst
      have hopen' : st'.pcStack = [] → rest = [] := by
        intro hnil
        have hne' : ({ st with gas := gas } : State).pcStack ≠ [] := hne
        exact isEmpty_iff.mp (step_open hne' hlegacy hst hnil)
      obtain ⟨slots', hfinal, hext', hpoints⟩ :=
        ih hemits hopen' (forall_mem_cons.mp htrace).2 htail
      have hext : Extends slots (here chk st) slots' (here chk final) := hext.trans hext'
      refine ⟨slots', hfinal, hext, ?_⟩
      rw [forall_mem_cons]
      refine ⟨?_, hpoints⟩
      have hlen : st.writer.opIndex = slots.length := h.building.code.length
      rw [hlen]
      exact (Reaches.last (.refl _)).extend hext

end PsiServe.Typing
