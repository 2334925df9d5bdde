import PsiServe.Typing.Preservation

/-!
# Runs of annotated programs

The invariant of `PsiServe.Typing.Activation` for a whole machine: each execution in
progress fits the annotation, the outer ones at the host calls they wait for. Every step
that leaves the EH frames of outer executions alone preserves it.
-/

namespace PsiServe.Typing

open Base Wasm Bitcode Interp List

variable {W : Type}

/-- A step throws no exception past the EH frames of the running execution, or there are
none around it. -/
def ThrowOk (env : Env W) (m : Machine W) : Label W → Prop
  | .visit => ∀ s ∈ m.running, ∀ i ∈ m.ctx.fetch env, ∀ tag ∈ thrownTag m.ctx.toControl i,
    s.ehStackSize = 0 ∨
      s.ehStackSize + throwLeaves tag m.ctx.ehStack m.ctx.ehCatches ≤ m.ctx.ehStack.length
  | _ => True

instance (env : Env W) (m : Machine W) : DecidablePred (ThrowOk env m)
  | .visit => inferInstanceAs (Decidable (∀ s ∈ m.running, _))
  | .enter _ _ | .hostMemory _ | .hostExit | .hostThrow _ | .hostReturn _ => isTrue trivial

/-- What an execution saved are the stacks it started on. -/
def Restores (s : Saved) (out : Control) : Prop :=
  s = ⟨out.lastOpIndex, out.remainingCallDepth, out.pc, out.exiting, out.asIndex, out.osIndex,
    out.ehStack.length, out.ehCatches.length, out.ehExnStack.length⟩

namespace TypedProgram

variable (T : TypedProgram) {tail : Bool} {c : Context W} {r : Except Trap (Option Value)}
  {depth : Nat} {l : Label W}

/-- A host function runs that an execution on `out` entered. -/
def HostRuns (out k : Control) (f : Nat) : HostEntry → Prop
  | .call => T.HostOk out k f false
  | .tail => T.HostOk out k f true
  | .direct => T.Over out k ∧ Depths k

/-- A host function runs, or nothing does: the executions around it can continue, each on
the stacks it started on, innermost first. -/
def Waits : List Control → List NativeFrame → Control → Prop
  | [], [], k => Depths k ∧ (T.chk = true → k.ehExnStack = [])
  | out :: outs, .host f entry _ :: .execute _ s :: outer, k =>
    Restores s out ∧ Waits outs outer out ∧ T.HostRuns out k f entry
  | _, _, _ => False

/-- The executions of a machine fit the annotation. -/
def MachineOk (outs : List Control) (m : Machine W) : Prop :=
  match outs, m.stack with
  | out :: outs, .execute _ s :: outer =>
    Restores s out ∧ T.Waits outs outer out ∧ T.RunOk out m.ctx.toControl
  | outs, stack => T.Waits outs stack m.ctx.toControl

/-- A control state restored up to the operands, which count where they are checked. -/
structure Same (k out : Control) : Prop where
  rest : k = { out with os := k.os }
  os : T.chk = true → k.os = out.os

variable {T} {out k d : Control} {outs : List Control} {stack outer : List NativeFrame} {s : Saved}
  {env : Env W} {m m' : Machine W} {func f : Nat} {args : List Value} {entry : HostEntry}
  {ft : FuncType} {α : Type} {xs ys : List α}

/-- Where operands are checked, the same stacks are the same state. -/
theorem Same.eq (h : T.Same k out) (hchk : T.chk = true) : k = out := by
  rw [h.rest, h.os hchk]

/-- Under a host function are the stacks of its execution. -/
theorem HostRuns.over (h : T.HostRuns out k f entry) : T.Over out k ∧ Depths k := by
  cases entry with
  | call | tail => exact ⟨h.1, h.2.1⟩
  | direct => exact h

/-- The EH frames of executions that wait are within their depth. -/
theorem Waits.depths (h : T.Waits outs stack k) :
    Depths k ∧ (T.chk = true → k.ehExnStack = []) := by
  unfold Waits at h
  split at h
  · exact h
  · obtain ⟨-, -, h⟩ := h
    exact ⟨h.over.2, h.over.1.noExn⟩
  · exact h.elim

/-! ### Operands that are not checked -/

private theorem RunOk.of_os (hchk : T.chk ≠ true) (h : T.RunOk out k) (os : List Value) :
    T.RunOk out { k with os := os } := by
  refine ⟨h.stackOk.of_os fun h => absurd h hchk, h.depths, fun n hn => ?_⟩
  obtain ⟨fn, a, os, hann, -, hacts⟩ := h.acts n hn
  exact ⟨fn, a, os, hann, fun h => absurd h hchk, hacts⟩

private theorem HostOk.of_os (hchk : T.chk ≠ true) (h : T.HostOk out k f tail) (os : List Value) :
    T.HostOk out { k with os := os } f tail := by
  obtain ⟨hover, hdepths, hf, ft, af, rest, hft, has, hret⟩ := h
  refine ⟨hover.of_os fun h => absurd h hchk, hdepths, hf, ft, af, rest, hft, has,
    fun results _ => ?_⟩
  have hrun := hret results fun h => absurd h hchk
  cases tail with
  | false | true => exact hrun.of_os hchk _

private theorem Waits.of_os (hchk : T.chk ≠ true) (h : T.Waits outs stack k) (os : List Value) :
    T.Waits outs stack { k with os := os } := by
  unfold Waits at h ⊢
  split at h
  · exact h
  next entry _ _ _ _ =>
    obtain ⟨hs, houter, h⟩ := h
    refine ⟨hs, houter, ?_⟩
    cases entry with
    | call | tail => exact HostOk.of_os hchk h os
    | direct => exact ⟨h.1.of_os fun h => absurd h hchk, h.2⟩
  · exact h.elim

/-! ### Leaving an execution -/

private theorem drop_of_suffix (h : xs <:+ ys) :
    ys.drop (ys.length - xs.length) = xs := (suffix_iff_eq_drop.mp h).symm

private theorem resizeTop_of_suffix (dflt : α) (h : xs <:+ ys) :
    resizeTop dflt ys xs.length = xs := by
  rw [resizeTop, Nat.sub_eq_zero_of_le h.length_le, drop_of_suffix h]
  rfl

private theorem resize_of_prefix (dflt : α) (h : xs <+: ys) : resize dflt ys xs.length = xs := by
  rw [resize, Nat.sub_eq_zero_of_le h.length_le, ← prefix_iff_eq_take.mp h]
  exact append_nil xs

/-- Leaving an execution restores the stacks it started on. -/
theorem cleanup_restores {c' : Context W} (hover : T.Over out c.toControl) (hs : Restores s out)
    (h : c.cleanup s = some c') : T.Same c'.toControl out := by
  unfold Context.cleanup at h
  split at h
  · cases h
    cases hs
    refine ⟨?_, fun hchk => ?_⟩
    · rw [hover.asIndex, drop_of_suffix hover.as, resizeTop_of_suffix _ hover.eh,
        resize_of_prefix _ hover.catches, resize_of_prefix _ hover.exns]
    · rw [hover.osIndex]
      exact drop_of_suffix (hover.os hchk)
  · cases h

/-- An execution whose operands are checked can be left. -/
theorem finish_isSome (hover : T.Over out c.toControl) (hchk : T.chk = true) :
    ∃ m, Interp.finish outer c s r = some m := by
  unfold Interp.finish Context.cleanup
  rw [if_pos]
  · exact ⟨_, rfl⟩
  · rw [hover.osIndex, hover.asIndex]
    exact ⟨(hover.os hchk).length_le, hover.as.length_le⟩

private theorem Waits.same (h : T.Waits outs stack out) (hsame : T.Same k out) :
    T.Waits outs stack k := by
  rw [hsame.rest]
  by_cases hchk : T.chk = true
  · rw [hsame.os hchk]
    exact h
  · exact h.of_os hchk _

private theorem finish_same (hover : T.Over out c.toControl) (hs : Restores s out)
    (hm : Interp.finish outer c s r = some m) :
    T.Same m.ctx.toControl out ∧ m.stack = outer := by
  unfold Interp.finish at hm
  split at hm
  · cases hm
  next c' hc' =>
    cases hm
    exact ⟨cleanup_restores hover hs hc', rfl⟩

/-- No execution is on top where a host function runs or nothing does. -/
theorem Waits.machineOk (h : T.Waits outs m.stack m.ctx.toControl) :
    T.MachineOk outs m := by
  unfold MachineOk
  split
  next hstack =>
    rw [hstack] at h
    exact h.elim
  · exact h

/-! ### Starting an execution -/

variable (T)

/-- How the start of an execution on `out` ends. -/
def StartOk (out : Control) : Outcome (Context W) → Prop
  | .next c => T.RunOk out c.toControl
  | .host c _ _ => T.Over out c.toControl ∧ Depths c.toControl
  | .trap c _ => T.Over out c.toControl
  | .leave _ => True
  | .undefined => True

variable {T}

private theorem kindOf_kindType (k : Kind) : kindOf (kindType k) = k := by
  cases k with
  | i32 | i64 | f32 | f64 | v128 => rfl

/-- Arguments that pass the check of `execute` are those of the function. -/
theorem kinds_args (h : typeCheckArgs ft args = none) :
    kinds args.reverse = topKinds ft.paramTypes := by
  unfold typeCheckArgs at h
  split at h
  · cases h
  · split at h
    · cases h
    next htypes =>
      rw [topKinds, ← Decidable.of_not_not htypes, kinds, map_reverse, map_map]
      congr 2
      funext v
      exact (kindOf_kindType v.kind).symm

/-- The state in which an execution starts. -/
theorem over_start (hexns : T.chk = true → k.ehExnStack = []) :
    T.Over k { k with asIndex := k.as.length, osIndex := k.os.length } :=
  ⟨suffix_rfl, suffix_rfl, prefix_rfl, prefix_rfl,
    fun _ => suffix_rfl, hexns, rfl, rfl⟩

/-! ### Steps of a machine -/

variable (T) in
/-- The executions in progress continue, or the innermost one was left on the stacks it
started on. -/
def Continues (outs : List Control) (m : Machine W) : Prop :=
  T.MachineOk outs m ∨
    ∃ out rest, outs = out :: rest ∧ T.Same m.ctx.toControl out ∧ T.MachineOk rest m

variable (T) in
/-- What a step does to the executions in progress: `execute` starts one on the stacks it
finds or ends at once with them. -/
def StepsTo (outs : List Control) (m : Machine W) : Label W → Machine W → Prop
  | .enter _ _, m' => T.MachineOk (m.ctx.toControl :: outs) m' ∨
    T.Same m'.ctx.toControl m.ctx.toControl ∧ T.MachineOk outs m'
  | _, m' => T.Continues outs m'

/-- What is known where an execution is on top. -/
theorem MachineOk.running (h : T.MachineOk outs m) (hstack : m.stack = .execute func s :: outer) :
    ∃ out rest, outs = out :: rest ∧ Restores s out ∧ T.Waits rest outer out ∧
      T.RunOk out m.ctx.toControl := by
  unfold MachineOk at h
  rw [hstack] at h
  cases outs with
  | nil => exact h.elim
  | cons out rest => exact ⟨out, rest, rfl, h⟩

/-- What is known where none is. -/
theorem MachineOk.waits (h : T.MachineOk outs m) (hidle : ∀ func s outer,
    m.stack ≠ .execute func s :: outer) : T.Waits outs m.stack m.ctx.toControl := by
  unfold MachineOk at h
  split at h
  next hstack => exact absurd hstack (hidle _ _ _)
  · exact h

private theorem Waits.finish (h : T.Waits outs outer out) (hover : T.Over out c.toControl)
    (hs : Restores s out) (hm : Interp.finish outer c s r = some m) :
    T.Continues (out :: outs) m := by
  obtain ⟨hsame, rfl⟩ := finish_same hover hs hm
  exact .inr ⟨out, outs, rfl, hsame, (h.same hsame).machineOk⟩

/-- The result a host function returns is that of the declared type. -/
theorem kinds_hostResult (hlinked : HostsLinked T.toProgram)
    (hf : f < T.module.importedFunctionsSize) (hft : T.module.getFunctionType f = some ft)
    (bits : UInt64) : kinds (hostResult (T.hostSignature f) bits) = topKinds ft.returnTypes := by
  obtain ⟨hsig, hlen, htypes⟩ := hlinked f ft hf hft
  rw [hsig, hostResult]
  match hreturn : ft.returnTypes with
  | [] => rfl
  | [t] =>
    rcases htypes t (hreturn ▸ mem_singleton_self t) with rfl | rfl | rfl | rfl
    · rfl
    · rfl
    · rfl
    · rfl
  | _ :: _ :: _ =>
    rw [hreturn, length_cons, length_cons] at hlen
    omega

private theorem HostOk.halt (h : T.HostOk out k f tail) :
    T.HostOk out { k with pc := .halt, exiting := true } f tail := by
  obtain ⟨hover, hdepths, hf, ft, af, rest, hft, has, hret⟩ := h
  refine ⟨hover.congr rfl, hdepths, hf, ft, af, rest, hft, has, fun results hresults => ?_⟩
  have hrun := hret results hresults
  cases tail with
  | false =>
    refine ⟨hrun.stackOk.congr rfl, hrun.depths, fun n hn => ?_⟩
    cases hn
  | true => exact ⟨hrun.stackOk.congr rfl, hrun.depths, hrun.acts⟩

private theorem Waits.host (h : T.Waits outs (.host f entry depth :: .execute func s :: outer) k) :
    ∃ out rest, outs = out :: rest ∧ Restores s out ∧ T.Waits rest outer out ∧
      T.HostRuns out k f entry := by
  cases outs with
  | nil => exact h.elim
  | cons out rest => exact ⟨out, rest, rfl, h⟩

/-- What is known where a host function was called. -/
theorem MachineOk.host {depth : Nat} (h : T.MachineOk outs m)
    (hstack : m.stack = .host f entry depth :: .execute func s :: outer) :
    ∃ out rest, outs = out :: rest ∧ Restores s out ∧ T.Waits rest outer out ∧
      T.HostRuns out m.ctx.toControl f entry := by
  have hwaits := h.waits fun _ _ _ heq => nomatch hstack.symm.trans heq
  rw [hstack] at hwaits
  exact hwaits.host

private theorem HostRuns.halt (h : T.HostRuns out k f entry) :
    T.HostRuns out { k with pc := .halt, exiting := true } f entry := by
  cases entry with
  | call | tail => exact HostOk.halt h
  | direct =>
    obtain ⟨hover, hdepths⟩ := h
    exact ⟨hover.congr rfl, hdepths⟩

private theorem StepsTo.exists (h : T.StepsTo outs m l m') : ∃ outs, T.MachineOk outs m' := by
  unfold StepsTo at h
  split at h
  · rcases h with h | ⟨-, h⟩
    · exact ⟨_, h⟩
    · exact ⟨_, h⟩
  · rcases h with h | ⟨-, rest, -, -, h⟩
    · exact ⟨_, h⟩
    · exact ⟨rest, h⟩

/-- An idle machine is sound. -/
theorem machineOk_idle (hidle : m.stack = []) (heh : m.ctx.ehStack = [])
    (hexns : T.chk = true → m.ctx.ehExnStack = []) : T.MachineOk [] m := by
  refine Waits.machineOk ?_
  rw [hidle]
  refine ⟨fun fr hfr => ?_, hexns⟩
  rw [heh] at hfr
  exact absurd hfr not_mem_nil

section

variable (hT : env.toProgram = T.toProgram) (hlinked : T.chk = true → HostsLinked T.toProgram)

include hT hlinked

private theorem startExecution_ok {af : ActivationFrame} (hout : Depths out)
    (hover : T.Over out c.toControl) (hft : T.module.getFunctionType func = some ft)
    (has : c.as = af :: out.as) (hpc : af.pc = .halt) (heh : c.ehStack = out.ehStack)
    (hcatches : c.ehCatches = out.ehCatches) (hos : c.os = args.reverse ++ out.os)
    (hargs : kinds args.reverse = topKinds ft.paramTypes)
    (hbase : c.lastOpIndex = c.os.length - ft.paramTypes.length) :
    T.StartOk out (startExecution env func c) := by
  have hlen : args.reverse.length = ft.paramTypes.length := by
    rw [← length_kinds, hargs, length_topKinds]
  unfold startExecution
  split
  next hf =>
    dsimp only
    split
    · exact hover
    · refine ⟨hover.of_os fun hchk => ?_, ?_⟩
      · rw [show env.hostSignature func = T.hostSignature func from
          congrArg (fun p => p.hostSignature func) hT]
        rw [show env.module = T.module from congrArg Program.module hT] at hf
        rw [(hlinked hchk func ft hf hft).1, hos, ← hlen, drop_left]
      · intro fr hfr
        rw [heh] at hfr
        rw [has]
        exact Nat.le_succ_of_le (hout fr hfr)
  next hf =>
    obtain ⟨gas, pool, ⟨t, ht⟩ | hgas⟩ := withGas_cases c env.gasHandler (env.functionCost func)
      fun c => .next { c with toControl := enterFunction env.toProgram c.toControl func }
    · rw [ht]
      exact hover
    · rw [hgas]
      rw [show env.module = T.module from congrArg Program.module hT] at hf
      rw [hT]
      have hbelow : T.Below out (shape T.toProgram func ft).results c.as out.os c.ehStack
          c.ehCatches := by
        rw [has, heh, hcatches]
        exact .entry hpc
      refine .of_acts hout hover (fun m hm => T.typed.entry func ft m (Nat.le_of_not_lt hf) hft hm)
        (fun _ => rfl) ⟨out.os, c.ehStack, c.ehCatches, fun hchk => ?_, .nil, hbelow⟩ rfl
      refine ⟨[], setupLocals T.toProgram func ++ args.reverse, ?_, ?_, kinds_entered hargs, ?_⟩
      · change setupLocals T.toProgram func ++ c.os = _
        rw [hos, nil_append, append_assoc]
      · rw [entryAnn, hchk]
        rfl
      · change c.lastOpIndex = _
        rw [hbase, hos, length_append]
        omega

private theorem beginExecution_ok (hdepths : Depths c.toControl)
    (hexns : T.chk = true → c.ehExnStack = []) :
    T.StartOk c.toControl (beginExecution env func args
      { c with asIndex := c.as.length, osIndex := c.os.length }) := by
  have hover := over_start hexns
  unfold beginExecution
  rw [show env.module = T.module from congrArg Program.module hT]
  split
  · trivial
  next ft hft =>
    split
    · exact hover
    next hargs =>
      have hover' : T.Over c.toControl { c.toControl with
          asIndex := c.as.length, osIndex := c.os.length, os := args.reverse ++ c.os } :=
        hover.of_eq hover.as hover.eh hover.catches
          (fun _ => suffix_append _ _) rfl
      rcases pushCall_cases env.toProgram { c.toControl with
        asIndex := c.as.length, osIndex := c.os.length, os := args.reverse ++ c.os } func .halt with
        ⟨ft', hft', -, hnext⟩ | ⟨t, ht⟩ | hundef
      · rw [hnext]
        rw [hT] at hft'
        obtain rfl := Option.some.inj (hft.symm.trans hft')
        refine startExecution_ok hT hlinked hdepths ?_ hft rfl rfl rfl rfl rfl (kinds_args hargs)
          rfl
        exact hover'.of_eq (hover'.as.trans (suffix_cons _ _)) hover'.eh hover'.catches
          hover'.os rfl
      · rw [ht]
        exact hover'
      · rw [hundef]
        trivial

/-- Entering an execution. -/
theorem enter_ok (h : T.Waits outs m.stack m.ctx.toControl)
    (hstep : m.enter env func args = some m') :
    T.StepsTo outs m (.enter func args) m' := by
  unfold Machine.enter at hstep
  obtain ⟨c, hc, hcontrol, -⟩ := m.exists_start
  rw [hc] at hstep
  unfold StepsTo
  rw [← hcontrol] at h ⊢
  dsimp only at hstep
  split at hstep
  · cases hstep
    exact .inr ⟨⟨rfl, fun _ => rfl⟩, Waits.machineOk h⟩
  · obtain ⟨hdepths, hexns⟩ := h.depths
    have hstart : T.StartOk c.toControl (beginExecution env func args
        { c with asIndex := c.as.length, osIndex := c.os.length }) :=
      beginExecution_ok hT hlinked hdepths hexns
    split at hstep
    next d hd =>
      rw [hd] at hstart
      cases hstep
      exact .inl ⟨rfl, h, hstart⟩
    next d f tail hd =>
      rw [hd] at hstart
      cases hstep
      exact .inl ⟨rfl, h, hstart⟩
    next d t hd =>
      rw [hd] at hstart
      obtain ⟨hsame, hstack⟩ := finish_same hstart rfl hstep
      refine .inr ⟨hsame, Waits.machineOk ?_⟩
      rw [hstack]
      exact h.same hsame
    · cases hstep
    · cases hstep

/-- The running execution takes a step. -/
theorem visit_ok (hout : Depths out) (hs : Restores s out)
    (hstack : m.stack = .execute func s :: outer) (h : T.RunOk out m.ctx.toControl)
    (hthrow : ThrowOk env m .visit) :
    T.StepOk out (Interp.visit env m.ctx).control := by
  rcases visit_cases env m.ctx with hleave | hundef | ⟨i, hfetch, n, hpc, hvisit⟩
  · rw [hleave]
    exact h.stackOk
  · rw [hundef]
    trivial
  · obtain ⟨fn, a, os, hann, hos, hacts⟩ := h.acts n hpc
    obtain ⟨i', hcode, hok⟩ := T.typed.code n fn a hann
    have hi : T.code[n]? = some i := by
      rw [Context.fetch, hpc] at hfetch
      rw [← show env.code = T.code from congrArg Program.code hT]
      exact hfetch
    obtain rfl := Option.mem_unique hcode hi
    have hstays : Stays out m.ctx.toControl i' := by
      intro tag htag
      have hrunning : s ∈ m.running := by
        rw [Machine.running, hstack]
        rfl
      cases hs
      exact (hthrow _ hrunning i' hfetch tag htag).imp eq_nil_of_length_eq_zero id
    have hstep := visitInstr_stackStep env m.ctx n i'
    rw [hvisit]
    rw [hT] at hstep
    exact stackStep_ok hout ⟨hpc, h.stackOk, os, hos, hacts⟩ hlinked hann hcode hok hstays hstep

/-- A visit of the execution on top. -/
theorem machineVisit_ok (hstack : m.stack = .execute func s :: outer) (h : T.MachineOk outs m)
    (hthrow : ThrowOk env m .visit) (hstep : m.visit env func s outer = some m') :
    T.Continues outs m' := by
  obtain ⟨out, outs, rfl, hs, houter, hrun⟩ := h.running hstack
  have hok := visit_ok hT hlinked houter.depths.1 hs hstack hrun hthrow
  unfold Machine.visit at hstep
  split at hstep
  next c hc =>
    rw [hc] at hok
    cases hstep
    refine .inl ?_
    rw [hstack]
    exact ⟨hs, houter, hok⟩
  next c f tail hc =>
    rw [hc] at hok
    cases hstep
    refine .inl (Waits.machineOk ?_)
    rw [hstack]
    refine ⟨hs, houter, ?_⟩
    cases tail with
    | false | true => exact hok
  next c t hc =>
    rw [hc] at hok
    exact houter.finish hok hs hstep
  next c hc =>
    rw [hc] at hok
    exact houter.finish hok hs hstep
  · cases hstep

/-- A host function returns. -/
theorem hostReturn_ok {bits : UInt64}
    (hstack : m.stack = .host f entry depth :: .execute func s :: outer)
    (h : T.MachineOk outs m)
    (hstep : m.hostReturn env f entry depth func s outer bits = some m') :
    T.Continues outs m' := by
  obtain ⟨out, outs, rfl, hs, houter, h⟩ := h.host hstack
  unfold Machine.hostReturn at hstep
  rw [show env.hostSignature = T.hostSignature from congrArg Program.hostSignature hT] at hstep
  dsimp only at hstep
  cases entry with
  | direct =>
    refine houter.finish ?_ hs hstep
    exact h.1.of_os fun hchk => (h.1.os hchk).trans (suffix_append _ _)
  | call =>
    obtain ⟨-, -, hf, ft, af, rest, hft, has, hret⟩ := h
    rw [has] at hstep
    cases hstep
    have hrun := hret _ fun hchk => kinds_hostResult (hlinked hchk) hf hft bits
    exact .inl ⟨hs, houter, hrun.stackOk.congr rfl, hrun.depths, hrun.acts⟩
  | tail =>
    obtain ⟨-, -, hf, ft, af, rest, hft, has, hret⟩ := h
    rw [has] at hstep
    cases hstep
    have hrun := hret _ fun hchk => kinds_hostResult (hlinked hchk) hf hft bits
    exact .inl ⟨hs, houter, hrun⟩

/-- One step of a machine preserves that its executions fit the annotation. -/
theorem machineOk_step (h : T.MachineOk outs m) (hthrow : ThrowOk env m l)
    (hstep : m.step env l = some m') : T.StepsTo outs m l m' := by
  unfold Machine.step at hstep
  split at hstep
  · split at hstep
    · cases hstep
    next hidle => exact enter_ok hT hlinked (h.waits hidle) hstep
  · split at hstep
    next func s outer hstack => exact machineVisit_ok hT hlinked hstack h hthrow hstep
    · cases hstep
  · split at hstep
    · cases hstep
      exact .inl h
    · cases hstep
  · split at hstep
    next f entry depth outer hstack =>
      cases hstep
      have hwaits := h.waits fun _ _ _ heq => nomatch hstack.symm.trans heq
      rw [hstack] at hwaits
      refine .inl (Waits.machineOk ?_)
      rw [hstack]
      unfold Waits at hwaits ⊢
      split at hwaits
      next heq => cases heq
      next heq =>
        cases heq
        exact ⟨hwaits.1, hwaits.2.1, hwaits.2.2.halt⟩
      · exact hwaits.elim
    · cases hstep
  · split at hstep
    next f entry depth func s outer hstack =>
      obtain ⟨out, outs, rfl, hs, houter, h⟩ := h.host hstack
      exact houter.finish h.over.1 hs hstep
    · cases hstep
  · split at hstep
    next f entry depth func s outer hstack =>
      exact hostReturn_ok hT hlinked hstack h hstep
    · cases hstep

/-- In every run from an idle machine, the executions fit the annotation. -/
theorem machineOk_run {m₀ : Machine W} {labels : List (Label W)} (hidle : m₀.stack = [])
    (heh : m₀.ctx.ehStack = []) (hexns : T.chk = true → m₀.ctx.ehExnStack = [])
    (hok : AllSteps (Machine.step env) (ThrowOk env) m₀ labels)
    (hrun : runSteps (Machine.step env) m₀ labels = some m) : ∃ outs, T.MachineOk outs m := by
  refine runSteps_invariant (P := fun m => ∃ outs, T.MachineOk outs m) ?_ ?_ hok hrun
  · rintro m l m' ⟨outs, h⟩ hthrow hstep
    exact (machineOk_step hT hlinked h hthrow hstep).exists
  · exact ⟨[], machineOk_idle hidle heh hexns⟩

end

end TypedProgram

end PsiServe.Typing
