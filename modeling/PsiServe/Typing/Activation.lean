import PsiServe.Interp.Isolation
import PsiServe.Typing.Annotation

/-!
# Activations of annotated functions

The operand, call, EH and clause stacks of a run, activation by activation: each one's
operands and EH frames fit the annotation of the place it is at, and below it lies the
activation that called it, up to the stacks `out` the execution started on. What is said
about operands is said only where they are checked.
-/

namespace PsiServe.Typing

open Wasm Bitcode Interp List

/-- A program with an annotation of its code that every opcode respects. -/
structure TypedProgram extends Program where
  chk : Bool
  ann : Annotation
  typed : Typed toProgram chk ann

/-- Alternatives of operands. -/
def kinds (os : List Value) : List Kind := os.map Value.kind

variable {os : List Value} {ys : List Kind}

/-- Each value has an alternative. -/
@[simp] theorem length_kinds (os : List Value) : (kinds os).length = os.length := by
  simp [kinds]

/-- The alternatives of two lists of values. -/
@[simp] theorem kinds_append (xs ys : List Value) : kinds (xs ++ ys) = kinds xs ++ kinds ys := by
  simp [kinds]

/-- Operands whose alternatives are a concatenation split accordingly. -/
theorem kinds_eq_append {xs : List Kind} (h : kinds os = xs ++ ys) :
    ∃ us vs, os = us ++ vs ∧ kinds us = xs ∧ kinds vs = ys := by
  obtain ⟨us, vs, rfl, hus, hvs⟩ := map_eq_append_iff.mp h
  exact ⟨us, vs, rfl, hus, hvs⟩

/-- A value of the first alternative comes first. -/
theorem kinds_eq_cons {x : Kind} (h : kinds os = x :: ys) :
    ∃ v vs, os = v :: vs ∧ v.kind = x ∧ kinds vs = ys := map_eq_cons_iff.mp h

namespace TypedProgram

variable (T : TypedProgram)

/-! ### EH frames of one activation -/

/-- A catch clause entered by an activation with `base` operands below it: the handler is
annotated with the scopes outside of the clause's label and, with the payload, the operands
the clause leaves. -/
def HandlerOk (fn : FnShape) (base : Nat) (kept : List Kind) (tries : List (List Kind))
    (e : EhCatchEntry) : Prop :=
  e.ehLeaveCount ≤ tries.length ∧ ∃ b, Goes T.ann fn e.handlerPc b ∧
    b.tries = tries.drop e.ehLeaveCount ∧
    (T.chk = true → ∃ payload rest, CatchPushes T.module e.kind e.tagIndex payload ∧
      b.ops = some (payload ++ rest) ∧ rest <:+ kept ∧
      e.operandDepth = base + fn.slots.length + rest.length)

/-- The EH and clause stacks hold one frame for each `try_table` scope of the activation at
a call depth, above `eh'` and `catches'`. -/
inductive EhSeg (fn : FnShape) (depth base : Nat) (eh' : List EhFrame)
    (catches' : List EhCatchEntry) :
    List (List Kind) → List EhFrame → List EhCatchEntry → Prop
  | nil : EhSeg fn depth base eh' catches' [] eh' catches'
  | cons {kept : List Kind} {tries : List (List Kind)} {eh : List EhFrame}
      {catches entries : List EhCatchEntry} (h : EhSeg fn depth base eh' catches' tries eh catches)
      (hentries : ∀ e ∈ entries, T.HandlerOk fn base kept tries e) :
      EhSeg fn depth base eh' catches' (kept :: tries)
        (⟨depth, entries.length, catches.length⟩ :: eh) (catches ++ entries)

variable {T} {fn : FnShape} {depth base : Nat} {eh eh' : List EhFrame}
  {catches catches' : List EhCatchEntry} {tries : List (List Kind)}

namespace EhSeg

private theorem suffix (h : T.EhSeg fn depth base eh' catches' tries eh catches) :
    eh' <:+ eh ∧ catches' <+: catches := by
  induction h with
  | nil => exact ⟨suffix_rfl, prefix_rfl⟩
  | cons _ _ ih =>
    exact ⟨ih.1.trans (suffix_cons _ _), ih.2.trans (prefix_append _ _)⟩

/-- The frames are at the depth of the activation, one for each scope. -/
theorem depths (h : T.EhSeg fn depth base eh' catches' tries eh catches) :
    ∃ frames, eh = frames ++ eh' ∧ frames.length = tries.length ∧
      ∀ fr ∈ frames, fr.callDepth = depth := by
  induction h with
  | nil => exact ⟨[], rfl, rfl, nofun⟩
  | @cons kept tries eh catches entries _ _ ih =>
    obtain ⟨frames, rfl, hlen, hdepth⟩ := ih
    refine ⟨⟨depth, entries.length, catches.length⟩ :: frames, rfl, ?_, ?_⟩
    · rw [length_cons, length_cons, hlen]
    · exact forall_mem_cons.mpr ⟨rfl, hdepth⟩

/-- Leaving one frame leaves the innermost scope. -/
theorem leave {k : Control} {kept : List Kind}
    (h : T.EhSeg fn depth base eh' catches' (kept :: tries) k.ehStack k.ehCatches) :
    T.EhSeg fn depth base eh' catches' tries k.leaveEhFrame.ehStack k.leaveEhFrame.ehCatches := by
  generalize heh : k.ehStack = eh, hcatches : k.ehCatches = catches at h
  cases h with
  | cons h _ =>
    rw [leaveEhFrame_cons heh, hcatches, take_left]
    exact h

/-- Leaving a number of frames leaves as many scopes. -/
theorem leaves {k : Control} {n : Nat}
    (h : T.EhSeg fn depth base eh' catches' tries k.ehStack k.ehCatches)
    (hn : n ≤ tries.length) :
    T.EhSeg fn depth base eh' catches' (tries.drop n) (k.leaveEhFrames n).ehStack
      (k.leaveEhFrames n).ehCatches := by
  induction n generalizing k tries with
  | zero => exact h
  | succ n ih =>
    cases tries with
    | nil => exact absurd hn (Nat.not_succ_le_zero n)
    | cons kept tries => exact ih h.leave (Nat.le_of_succ_le_succ hn)

end EhSeg

/-! ### The activations of an execution -/

variable (T)

/-- The operands of an activation lie above its parameters and locals, and those above the
`base` operands `os'` of the activations below. -/
def Window (fn : FnShape) (a : Ann) (base : Nat) (os os' : List Value) : Prop :=
  T.chk = true → ∃ ops locals, os = ops ++ locals ++ os' ∧ a.ops = some (kinds ops) ∧
    kinds locals = fn.slots.reverse ∧ base = os'.length

/-- An activation that is at `a` during a call finds itself at `b` with the results. -/
def Resumes (results : List Kind) (a b : Ann) : Prop :=
  b.tries = a.tries ∧ (T.chk = true → ∃ ts, a.ops = some ts ∧ Guarded a.tries ts ∧
    b.ops = some (results ++ ts))

/-- The stacks below an activation whose results are `results`: it is the first of its
execution, or was called by one that fits its annotation. -/
inductive Below (out : Control) : List Kind → List ActivationFrame → List Value →
    List EhFrame → List EhCatchEntry → Prop
  | entry {results : List Kind} {af : ActivationFrame} (hpc : af.pc = .halt) :
      Below out results (af :: out.as) out.os out.ehStack out.ehCatches
  | caller {results : List Kind} {af : ActivationFrame} {rest : List ActivationFrame}
      {os os' : List Value} {eh eh' : List EhFrame} {catches catches' : List EhCatchEntry}
      {fn : FnShape} {a b : Ann} {n : Nat} (hpc : af.pc = .code n)
      (hann : T.ann n = some (fn, b)) (hresumes : T.Resumes results a b)
      (hwindow : T.Window fn a af.lastOpIndex os os')
      (heh : T.EhSeg fn rest.length af.lastOpIndex eh' catches' a.tries eh catches)
      (h : Below out fn.results rest os' eh' catches') :
      Below out results (af :: rest) os eh catches

/-- The stacks of an execution whose innermost activation is at a place annotated `a`. -/
def Acts (out : Control) (fn : FnShape) (a : Ann) (as : List ActivationFrame) (base : Nat)
    (os : List Value) (eh : List EhFrame) (catches : List EhCatchEntry) : Prop :=
  ∃ os' eh' catches', T.Window fn a base os os' ∧
    T.EhSeg fn as.length base eh' catches' a.tries eh catches ∧
    T.Below out fn.results as os' eh' catches'

variable {T} {out : Control} {a b : Ann} {as rest : List ActivationFrame} {os' : List Value}
  {results : List Kind}

private theorem Window.flow (h : T.Window fn a base os os') (hflow : Flow a b) :
    T.Window fn b base os os' := by
  intro hchk
  obtain ⟨ops, locals, hos, hops, hrest⟩ := h hchk
  exact ⟨ops, locals, hos, hflow.2 _ hops, hrest⟩

private theorem Acts.flow (h : T.Acts out fn a as base os eh catches) (hflow : Flow a b) :
    T.Acts out fn b as base os eh catches := by
  obtain ⟨os', eh', catches', hwindow, heh, hbelow⟩ := h
  rw [← hflow.1] at heh
  exact ⟨os', eh', catches', hwindow.flow hflow, heh, hbelow⟩

/-- The stacks of an execution lie on those it started on. -/
theorem Below.suffix (h : T.Below out results as os eh catches) :
    out.as.length < as.length ∧ out.as <:+ as ∧ (T.chk = true → out.os <:+ os) ∧
      out.ehStack <:+ eh ∧ out.ehCatches <+: catches := by
  induction h with
  | entry =>
    exact ⟨Nat.lt_succ_self _, suffix_cons _ _, fun _ => suffix_rfl, suffix_rfl,
      prefix_rfl⟩
  | caller _ _ _ hwindow heh _ ih =>
    obtain ⟨hlen, has, hos, heh', hcatches'⟩ := ih
    refine ⟨Nat.lt_succ_of_lt hlen, has.trans (suffix_cons _ _), fun hchk => ?_,
      heh'.trans heh.suffix.1, hcatches'.trans heh.suffix.2⟩
    obtain ⟨ops, locals, rfl, -⟩ := hwindow hchk
    exact (hos hchk).trans (suffix_append _ _)

/-- The stacks that the execution started on are below those of its activations. -/
theorem Acts.suffix (h : T.Acts out fn a as base os eh catches) :
    out.as <:+ as ∧ (T.chk = true → out.os <:+ os) ∧ out.ehStack <:+ eh ∧
      out.ehCatches <+: catches := by
  obtain ⟨os', eh', catches', hwindow, heh, hbelow⟩ := h
  obtain ⟨-, has, hos, heh', hcatches'⟩ := hbelow.suffix
  refine ⟨has, fun hchk => ?_, heh'.trans heh.suffix.1, hcatches'.trans heh.suffix.2⟩
  obtain ⟨ops, locals, rfl, -⟩ := hwindow hchk
  exact (hos hchk).trans (suffix_append _ _)

/-- No EH frame belongs to an activation that is gone. -/
def Depths (k : Control) : Prop := ∀ fr ∈ k.ehStack, fr.callDepth ≤ k.as.length

/-- The EH frames below an activation are those of activations below it. -/
theorem Below.depths (hout : Depths out) (h : T.Below out results as os eh catches) :
    ∀ fr ∈ eh, fr.callDepth < as.length := by
  induction h with
  | entry =>
    intro fr hfr
    exact Nat.lt_succ_of_le (hout fr hfr)
  | caller _ _ _ _ heh _ ih =>
    obtain ⟨frames, rfl, -, hdepth⟩ := heh.depths
    refine forall_mem_append.mpr ⟨fun fr hfr => ?_, fun fr hfr => Nat.lt_succ_of_lt (ih fr hfr)⟩
    rw [hdepth fr hfr, length_cons]
    exact Nat.lt_succ_self _

/-- The innermost activation has one EH frame for each scope around it, and no frame
belongs to an activation that is gone. -/
theorem Acts.depths (hout : Depths out) (h : T.Acts out fn a as base os eh catches) :
    (eh.filter fun fr => fr.callDepth = as.length).length = a.tries.length ∧
      ∀ fr ∈ eh, fr.callDepth ≤ as.length := by
  obtain ⟨os', eh', catches', -, heh, hbelow⟩ := h
  obtain ⟨frames, rfl, hlen, hdepth⟩ := heh.depths
  have hlt := hbelow.depths hout
  constructor
  · rw [filter_append, filter_eq_self.mpr, filter_eq_nil_iff.mpr,
      append_nil, hlen]
    · intro fr hfr
      have := hlt fr hfr
      rw [decide_eq_true_iff]
      omega
    · intro fr hfr
      rw [decide_eq_true_iff]
      exact hdepth fr hfr
  · exact forall_mem_append.mpr ⟨fun fr hfr => le_of_eq (hdepth fr hfr),
      fun fr hfr => le_of_lt (hlt fr hfr)⟩

/-! ### States of an execution -/

variable (T)

/-- What stays of the stacks an execution started on, so that leaving it restores them. -/
structure Over (out k : Control) : Prop where
  as : out.as <:+ k.as
  eh : out.ehStack <:+ k.ehStack
  catches : out.ehCatches <+: k.ehCatches
  exns : out.ehExnStack <+: k.ehExnStack
  os : T.chk = true → out.os <:+ k.os
  noExn : T.chk = true → k.ehExnStack = []
  asIndex : k.asIndex = out.as.length
  osIndex : k.osIndex = out.os.length

/-- A state of an execution that started on `out`. Where operands are not checked, the
operand stack is not followed either. -/
structure RunOk (out k : Control) : Prop where
  stackOk : T.Over out k
  depths : Depths k
  acts : ∀ n, k.pc = .code n → ∃ fn a os, T.ann n = some (fn, a) ∧ (T.chk = true → k.os = os) ∧
    T.Acts out fn a k.as k.lastOpIndex os k.ehStack k.ehCatches

/-- A host function called from an execution may return to it with results. -/
def HostOk (out k : Control) (f : Nat) (tail : Bool) : Prop :=
  T.Over out k ∧ Depths k ∧ f < T.module.importedFunctionsSize ∧
    ∃ ft af rest, T.module.getFunctionType f = some ft ∧ k.as = af :: rest ∧
    ∀ results, (T.chk = true → kinds results = topKinds ft.returnTypes) →
      T.RunOk out (if tail then
          { k with as := rest, pc := af.pc, lastOpIndex := af.lastOpIndex, os := results ++ k.os }
        else { k with as := rest, os := results ++ k.os })

/-- How a step of an execution ends. -/
def StepOk (out : Control) : Outcome Control → Prop
  | .next k => T.RunOk out k
  | .host k f tail => T.HostOk out k f tail
  | .trap k _ => T.Over out k
  | .leave k => T.Over out k
  | .undefined => True

variable {T} {k d : Control}

/-- What of a state does not change while an execution runs. -/
def bounds (k : Control) : List WasmException × Nat × Nat := (k.ehExnStack, k.asIndex, k.osIndex)

/-- A state that differs in more than its stacks. -/
theorem Over.of_eq (h : T.Over out k) (has : out.as <:+ d.as) (heh : out.ehStack <:+ d.ehStack)
    (hcatches : out.ehCatches <+: d.ehCatches)
    (hos : T.chk = true → out.os <:+ d.os) (hsame : bounds d = bounds k) : T.Over out d := by
  obtain ⟨hexns, hasIndex, hosIndex⟩ : _ ∧ _ ∧ _ := by simpa [bounds] using hsame
  exact ⟨has, heh, hcatches, hexns ▸ h.exns, hos, fun hchk => hexns.trans (h.noExn hchk),
    hasIndex.trans h.asIndex, hosIndex.trans h.osIndex⟩

/-- Operands above those that the execution started with. -/
theorem Over.of_os (h : T.Over out k) (hos : T.chk = true → out.os <:+ os) :
    T.Over out { k with os := os } :=
  h.of_eq (d := { k with os := os }) h.as h.eh h.catches hos rfl

/-- Only the stacks and where they start count. -/
theorem Over.congr (h : T.Over out k) (hd : d = { k with
    pc := d.pc, exiting := d.exiting, remainingCallDepth := d.remainingCallDepth
    lastOpIndex := d.lastOpIndex }) : T.Over out d := by
  rw [hd]
  exact h.of_eq h.as h.eh h.catches h.os rfl

/-- Stacks that fit an annotation lie on those the execution started on. -/
theorem Over.of_acts (h : T.Over out k) (hos : T.chk = true → d.os = os)
    (hacts : T.Acts out fn a d.as d.lastOpIndex os d.ehStack d.ehCatches)
    (hsame : bounds d = bounds k) : T.Over out d := by
  obtain ⟨has, hosout, heh, hcatches⟩ := hacts.suffix
  apply h.of_eq has heh hcatches _ hsame
  intro hchk
  rw [hos hchk]
  exact hosout hchk

/-- Continue where the activation's stacks fit an annotation. -/
theorem RunOk.of_acts (hout : Depths out) (h : T.Over out k)
    (hgoes : ∀ n, d.pc = .code n → Goes T.ann fn n a) (hos : T.chk = true → d.os = os)
    (hacts : T.Acts out fn a d.as d.lastOpIndex os d.ehStack d.ehCatches)
    (hsame : bounds d = bounds k) : T.RunOk out d := by
  refine ⟨h.of_acts hos hacts hsame, (hacts.depths hout).2, ?_⟩
  intro n hn
  obtain ⟨b, hb, hflow⟩ := hgoes n hn
  exact ⟨fn, b, os, hb, hos, hacts.flow hflow⟩

end TypedProgram

end PsiServe.Typing
