import PsiServe.Interp.CallDepth
import PsiServe.Typing.Soundness

/-!
# The stacks an execution leaves

`execute` restores the sizes it found (`execution_context.hpp:1774–1802`). In accepted code
the contents below them are untouched too, so that each execution leaves the stacks it was
started on, and the remaining call depth and the frames on the call stack add up to the
limit in every state. A host function entered by a tail call breaks the sum.
-/

namespace PsiServe.Interp

open Base Wasm Bitcode

variable {W : Type}

/-- Executions in progress. -/
def executions : List NativeFrame → Nat
  | [] => 0
  | .execute _ _ :: outer => executions outer + 1
  | .host _ _ _ :: outer => executions outer

/-- No step tail calls a host function. -/
def TailOk (env : Env W) (m : Machine W) : Label W → Prop
  | .visit => ∀ i ∈ m.ctx.fetch env, ∀ f ∈ tailTarget env m.ctx i,
    env.module.importedFunctionsSize ≤ f
  | _ => True

instance (env : Env W) (m : Machine W) : DecidablePred (TailOk env m)
  | .visit => inferInstanceAs (Decidable (∀ i ∈ m.ctx.fetch env, _))
  | .enter _ _ | .hostMemory _ | .hostExit | .hostThrow _ | .hostReturn _ => isTrue trivial

/-- A step in which the innermost execution ends, with a result or an exception. -/
def Leaving (env : Env W) (m : Machine W) : Label W → Prop
  | .visit => (∃ func s outer, m.stack = .execute func s :: outer) ∧
    ∃ c, visit env m.ctx = .leave c ∨ ∃ t, visit env m.ctx = .trap c t
  | .hostThrow _ => ∃ f entry depth func s outer,
    m.stack = .host f entry depth :: .execute func s :: outer
  | .hostReturn _ => ∃ f depth func s outer,
    m.stack = .host f .direct depth :: .execute func s :: outer
  | _ => False

/-- The execution that a call of `execute` starts in `m` has ended in `m'`, after the steps
of `inner`. -/
structure Returns (env : Env W) (m : Machine W) (func : Nat) (args : List Value)
    (inner : List (Label W)) (m' : Machine W) : Prop where
  run : runSteps (Machine.step env) m (.enter func args :: inner) = some m'
  ended : executions m'.stack ≤ executions m.stack
  inside : ∀ n < inner.length, ∀ d,
    runSteps (Machine.step env) m (.enter func args :: inner.take n) = some d →
    executions m.stack < executions d.stack

end PsiServe.Interp

namespace PsiServe.Typing

open Base Wasm Bitcode Interp PsiServe.Parser List

variable {W : Type}

namespace TypedProgram

variable {T : TypedProgram} {out k : Control} {outs : List Control} {stack outer : List NativeFrame}
  {env : Env W} {m m' : Machine W} {limit func : Nat} {s : Saved} {c : Context W}
  {args : List Value} {l : Label W}

/-! ### Executions and the stacks they started on -/

private theorem Waits.length (h : T.Waits outs stack k) : outs.length = executions stack := by
  induction outs generalizing stack k with
  | nil =>
    unfold Waits at h
    split at h
    · rfl
    next heq => cases heq
    · exact h.elim
  | cons out outs ih =>
    unfold Waits at h
    split at h
    next heq => cases heq
    next heq =>
      cases heq
      rw [length_cons, ih h.2.1]
      rfl
    · exact h.elim

private theorem MachineOk.length (h : T.MachineOk outs m) : outs.length = executions m.stack := by
  unfold MachineOk at h
  split at h
  next hstack =>
    rw [length_cons, h.2.1.length, hstack]
    rfl
  · exact h.length

private theorem Continues.kept (h : T.Continues outs m')
    (hlen : outs.length ≤ executions m'.stack) : T.MachineOk outs m' := by
  rcases h with h | ⟨out, rest, rfl, -, h⟩
  · exact h
  · have := h.length
    rw [length_cons] at hlen
    omega

private theorem Continues.left (h : T.Continues outs m')
    (hlen : executions m'.stack < outs.length) :
    ∃ out rest, outs = out :: rest ∧ T.Same m'.ctx.toControl out ∧ T.MachineOk rest m' := by
  rcases h with h | h
  · have := h.length
    omega
  · exact h

/-- After the steps an execution takes, it has left the stacks it started on. -/
theorem returns_same {start : Control} {inner : List (Label W)} (news : List Control)
    (hT : env.toProgram = T.toProgram) (hlinked : T.chk = true → HostsLinked T.toProgram)
    (h : T.MachineOk (news ++ start :: outs) m)
    (hok : AllSteps (Machine.step env) (ThrowOk env) m inner)
    (hrun : runSteps (Machine.step env) m inner = some m')
    (hended : executions m'.stack ≤ outs.length)
    (hinside : ∀ n < inner.length, ∀ d,
      runSteps (Machine.step env) m (inner.take n) = some d → outs.length < executions d.stack) :
    T.Same m'.ctx.toControl start := by
  induction inner generalizing m news with
  | nil =>
    cases hrun
    have := h.length
    rw [length_append, length_cons] at this
    omega
  | cons l inner ih =>
    obtain ⟨d, hd, hrest⟩ := (runSteps_cons_iff _ _ _ _ _).mp hrun
    obtain ⟨hthrow, hoks⟩ := hok
    rw [hd] at hoks
    have htail : ∀ n < inner.length, ∀ e,
        runSteps (Machine.step env) d (inner.take n) = some e →
        outs.length < executions e.stack := by
      intro n hn e he
      apply hinside (n + 1) (Nat.succ_lt_succ hn)
      exact (runSteps_cons_iff _ _ _ _ _).mpr ⟨d, hd, he⟩
    have hsteps := machineOk_step hT hlinked h hthrow hd
    unfold StepsTo at hsteps
    split at hsteps
    · rcases hsteps with hstart | ⟨-, hsame⟩
      · exact ih (m.ctx.toControl :: news) hstart hoks hrest htail
      · exact ih news hsame hoks hrest htail
    · rcases hsteps with hkept | ⟨out, rest, heq, hsame, hleft⟩
      · exact ih news hkept hoks hrest htail
      · cases news with
        | cons new news =>
          obtain ⟨-, rfl⟩ := cons.inj heq
          exact ih news hleft hoks hrest htail
        | nil =>
          -- the execution has ended, and the run with it
          obtain ⟨rfl, rfl⟩ := cons.inj heq
          cases inner with
          | nil =>
            cases hrest
            exact hsame
          | cons _ _ =>
            have := htail 0 (Nat.succ_pos _) d rfl
            rw [hleft.length] at this
            omega

/-! ### Call depth -/

/-- Every execution in progress, and what runs on top of them, has the call depth `limit`
in total. A host function that was called gives its frame back for the depth saved. -/
def Funded (limit : Nat) : List Control → List NativeFrame → Control → Prop
  | [], [], k => k.depthTotal = limit
  | out :: outs, .execute _ _ :: outer, k => k.depthTotal = limit ∧ Funded limit outs outer out
  | out :: outs, .host _ entry saved :: .execute _ _ :: outer, k => k.depthTotal = limit ∧
    (entry = .call → ∃ af rest, k.as = af :: rest ∧
      saved + (rest.map ActivationFrame.frameSize).sum = limit) ∧
    entry ≠ .tail ∧ Funded limit outs outer out
  | _, _, _ => False

private theorem Funded.total (h : Funded limit outs stack k) : k.depthTotal = limit := by
  unfold Funded at h
  split at h
  · exact h
  · exact h.1
  · exact h.1
  · exact h.elim

/-- Only the frames and the remaining depth count. -/
theorem Funded.congr {d : Control} (h : Funded limit outs stack k) (has : d.as = k.as)
    (hdepth : d.remainingCallDepth = k.remainingCallDepth) :
    Funded limit outs stack d := by
  have htotal : d.depthTotal = k.depthTotal := by
    rw [Control.depthTotal, has, hdepth]
    rfl
  unfold Funded at h ⊢
  split at h
  · exact htotal.trans h
  · exact ⟨htotal.trans h.1, h.2⟩
  · exact ⟨htotal.trans h.1, has ▸ h.2.1, h.2.2⟩
  · exact h.elim

private theorem Funded.same (h : Funded limit outs stack out) (hsame : T.Same k out) :
    Funded limit outs stack k := by
  rw [hsame.rest]
  exact h.congr rfl rfl

/-- The start of an execution conserves the call depth. -/
def StartFunded (k : Control) : Outcome (Context W) → Prop
  | .next d => d.depthTotal = k.depthTotal
  | .host d _ _ => d.depthTotal = k.depthTotal
  | _ => True

private theorem startExecution_funded (hc : c.depthTotal = k.depthTotal) :
    StartFunded k (startExecution env func c) := by
  unfold startExecution
  split
  · dsimp only
    split
    · trivial
    · exact hc
  · obtain ⟨gas, pool, ⟨t, ht⟩ | hgas⟩ := withGas_cases c env.gasHandler (env.functionCost func)
      fun c => .next { c with toControl := enterFunction env.toProgram c.toControl func }
    · rw [ht]
      trivial
    · rw [hgas]
      exact hc

private theorem beginExecution_funded : StartFunded c.toControl (beginExecution env func args
      { c with asIndex := c.as.length, osIndex := c.os.length }) := by
  unfold beginExecution
  split
  · trivial
  · split
    · trivial
    · rcases pushCall_cases env.toProgram { c.toControl with
          asIndex := c.as.length, osIndex := c.os.length, os := args.reverse ++ c.os }
          func .halt with
        ⟨ft, -, hsize, hk⟩ | ⟨t, ht⟩ | hundef
      · rw [hk]
        exact startExecution_funded (depthTotal_push hsize rfl rfl rfl)
      · rw [ht]
        trivial
      · rw [hundef]
        trivial

private theorem finish_stack {r : Except Trap (Option Value)} (h : finish outer c s r = some m) :
    m.stack = outer := by
  unfold finish at h
  split at h
  · cases h
  · cases h
    rfl

/-- The machine's executions fit the annotation, and the call depth is conserved. -/
def Balanced (T : TypedProgram) (limit : Nat) (m : Machine W) : Prop :=
  ∃ outs, T.MachineOk outs m ∧ Funded limit outs m.stack m.ctx.toControl

private theorem Continues.balanced {rest : List Control} (h : T.Continues (out :: rest) m')
    (hstack : m'.stack = outer) (hlen : rest.length = executions outer)
    (hfunded : Funded limit rest outer out) : T.Balanced limit m' := by
  obtain ⟨out', rest', heq, hsame, hleft⟩ := h.left (by
    rw [length_cons, hlen, hstack]
    exact Nat.lt_succ_self _)
  obtain ⟨rfl, rfl⟩ := cons.inj heq
  exact ⟨rest, hleft, hstack ▸ hfunded.same hsame⟩

section

variable (hT : env.toProgram = T.toProgram) (hlinked : T.chk = true → HostsLinked T.toProgram)

include hT hlinked

private theorem enter_balanced (h : T.Waits outs m.stack m.ctx.toControl)
    (hfunded : Funded limit outs m.stack m.ctx.toControl) (hstep : m.enter env func args = some m')
    : T.Balanced limit m' := by
  have hsteps := enter_ok hT hlinked h hstep
  have hlen := h.length
  -- whether an execution started shows in the native calls
  have hkept : m'.stack = m.stack → T.Balanced limit m' := by
    intro hstack
    rcases hsteps with hstart | ⟨hsame, hkept⟩
    · have := hstart.length
      rw [length_cons, hstack] at this
      omega
    · exact ⟨outs, hkept, hstack ▸ hfunded.same hsame⟩
  have hstarted : executions m'.stack = executions m.stack + 1 →
      Funded limit (m.ctx.toControl :: outs) m'.stack m'.ctx.toControl →
      T.Balanced limit m' := by
    intro hstack hnew
    rcases hsteps with hstart | ⟨-, hkept⟩
    · exact ⟨_, hstart, hnew⟩
    · have := hkept.length
      omega
  unfold Machine.enter at hstep
  obtain ⟨c, hc, hcontrol, -⟩ := m.exists_start
  rw [hc] at hstep
  rw [← hcontrol] at hfunded hstarted
  have hbegin : StartFunded c.toControl (beginExecution env func args
      { c with asIndex := c.as.length, osIndex := c.os.length }) := beginExecution_funded
  dsimp only at hstep
  split at hstep
  · cases hstep
    exact hkept rfl
  · split at hstep
    next d hd =>
      rw [hd] at hbegin
      cases hstep
      exact hstarted rfl ⟨hbegin.trans hfunded.total, hfunded⟩
    next d f tail hd =>
      rw [hd] at hbegin
      cases hstep
      exact hstarted rfl
        ⟨hbegin.trans hfunded.total, fun h => (nomatch h), fun h => (nomatch h), hfunded⟩
    · exact hkept (finish_stack hstep)
    · cases hstep
    · cases hstep

private theorem visit_balanced (hstack : m.stack = .execute func s :: outer)
    (h : T.MachineOk outs m)
    (hfunded : Funded limit outs m.stack m.ctx.toControl) (hthrow : ThrowOk env m .visit)
    (htail : TailOk env m .visit) (hstep : m.visit env func s outer = some m') :
    T.Balanced limit m' := by
  have hcontinues := machineVisit_ok hT hlinked hstack h hthrow hstep
  have hlen := h.length
  obtain ⟨out, rest, rfl, -, hwaits, -⟩ := h.running hstack
  rw [hstack] at hfunded hlen
  obtain ⟨htotal, houter⟩ := hfunded
  have hleft : m'.stack = outer → T.Balanced limit m' := fun hstack' =>
    hcontinues.balanced hstack' hwaits.length houter
  have hconserves := visit_conserves env m.ctx
  unfold Machine.visit at hstep
  split at hstep
  next c hc =>
    rw [hc] at hconserves
    cases hstep
    refine ⟨_, hcontinues.kept ?_, ?_⟩
    · rw [hlen, hstack]
    · rw [hstack]
      exact ⟨Eq.trans hconserves htotal, houter⟩
  next c f tail hc =>
    rw [hc] at hconserves
    cases hstep
    refine ⟨_, hcontinues.kept ?_, ?_⟩
    · rw [hlen, hstack]
      exact le_rfl
    · rw [hstack]
      cases tail with
      | true =>
        obtain ⟨i, hi, hf, himport⟩ := visit_hostTail hc
        exact absurd himport (Nat.not_lt_of_le (htail i hi f hf))
      | false =>
        obtain ⟨hconserves, af, has⟩ := hconserves
        refine ⟨hconserves.trans htotal, fun _ => ⟨af, _, has, htotal⟩, fun h => (nomatch h),
          houter⟩
  · exact hleft (finish_stack hstep)
  · exact hleft (finish_stack hstep)
  · cases hstep

private theorem hostReturn_balanced {f depth : Nat} {entry : HostEntry} {bits : UInt64}
    (hstack : m.stack = .host f entry depth :: .execute func s :: outer)
    (h : T.MachineOk outs m) (hfunded : Funded limit outs m.stack m.ctx.toControl)
    (hstep : m.hostReturn env f entry depth func s outer bits = some m') :
    T.Balanced limit m' := by
  have hcontinues := hostReturn_ok hT hlinked hstack h hstep
  obtain ⟨out, rest, rfl, -, hwaits, hruns⟩ := h.host hstack
  rw [hstack] at hfunded
  obtain ⟨-, hcall, htail, houter⟩ := hfunded
  unfold Machine.hostReturn at hstep
  dsimp only at hstep
  cases entry with
  | direct => exact hcontinues.balanced (finish_stack hstep) hwaits.length houter
  | call =>
    obtain ⟨af, frames, has, hdepth⟩ := hcall rfl
    rw [has] at hstep
    cases hstep
    refine ⟨_, hcontinues.kept ?_, hdepth, houter⟩
    rw [length_cons, hwaits.length]
    exact le_rfl
  | tail => exact absurd rfl htail

/-- One step keeps the balance. -/
theorem balanced_step (h : T.Balanced limit m) (hthrow : ThrowOk env m l) (htail : TailOk env m l)
    (hstep : m.step env l = some m') :
    T.Balanced limit m' := by
  obtain ⟨outs, h, hfunded⟩ := h
  have hsteps := machineOk_step hT hlinked h hthrow hstep
  unfold Machine.step at hstep
  split at hstep
  · split at hstep
    · cases hstep
    next hidle => exact enter_balanced hT hlinked (h.waits hidle) hfunded hstep
  · split at hstep
    next hstack => exact visit_balanced hT hlinked hstack h hfunded hthrow htail hstep
    · cases hstep
  · split at hstep
    · cases hstep
      exact ⟨outs, h, hfunded⟩
    · cases hstep
  · split at hstep
    · cases hstep
      exact ⟨outs, Continues.kept hsteps (le_of_eq h.length), hfunded.congr rfl rfl⟩
    · cases hstep
  · split at hstep
    next hstack =>
      obtain ⟨out, rest, rfl, -, houter, -⟩ := h.host hstack
      rw [hstack] at hfunded
      exact Continues.balanced hsteps (finish_stack hstep) houter.length hfunded.2.2.2
    · cases hstep
  · split at hstep
    next hstack =>
      exact hostReturn_balanced hT hlinked hstack h hfunded hstep
    · cases hstep

end

/-- Where operands are checked, an execution that ends can be left. -/
theorem MachineOk.leaves (hT : env.toProgram = T.toProgram) (hlinked : HostsLinked T.toProgram)
    (hchk : T.chk = true) (h : T.MachineOk outs m) (hthrow : ThrowOk env m l) (hl : Leaving env m l)
    : ∃ m', m.step env l = some m' := by
  cases l with
  | enter | hostMemory | hostExit => exact hl.elim
  | visit =>
    obtain ⟨⟨func, s, outer, hstack⟩, c, hvisit⟩ := hl
    obtain ⟨out, rest, rfl, hs, houter, hrun⟩ := h.running hstack
    have hok := visit_ok hT (fun _ => hlinked) houter.depths.1 hs hstack hrun hthrow
    have hover : T.Over out c.toControl := by
      rcases hvisit with hvisit | ⟨t, hvisit⟩
      · rw [hvisit] at hok
        exact hok
      · rw [hvisit] at hok
        exact hok
    rw [Machine.step, hstack]
    unfold Machine.visit
    rcases hvisit with hvisit | ⟨t, hvisit⟩
    · rw [hvisit]
      exact finish_isSome hover hchk
    · rw [hvisit]
      exact finish_isSome hover hchk
  | hostThrow t =>
    obtain ⟨f, entry, depth, func, s, outer, hstack⟩ := hl
    obtain ⟨out, rest, rfl, -, -, hruns⟩ := h.host hstack
    rw [Machine.step, hstack]
    exact finish_isSome hruns.over.1 hchk
  | hostReturn bits =>
    obtain ⟨f, depth, func, s, outer, hstack⟩ := hl
    obtain ⟨out, rest, rfl, -, -, hover, -⟩ := h.host hstack
    have hreturned : T.Over out
        { m.ctx.toControl with os := hostResult (env.hostSignature f) bits ++ m.ctx.os } :=
      hover.of_os fun hchk => (hover.os hchk).trans (suffix_append _ _)
    rw [Machine.step, hstack]
    exact finish_isSome (c := { m.ctx with
      os := hostResult (env.hostSignature f) bits ++ m.ctx.os }) hreturned hchk

end TypedProgram

/-- In every run of accepted code the call depth is conserved, and each execution can be
left whenever it ends and leaves the stacks it was started on. -/
theorem depth_conserved_stacks_restored (o : Options) (bodies : List FunctionBody) (out : CodeOut)
    (env : Env W) (m₀ m : Machine W) (labels : List (Label W))
    (hcompiled : Compiled o bodies out env.toProgram) (hparsed : ∀ q ∈ out.parsed, ParsedOk true q)
    (hlinked : HostsLinked env.toProgram) (hidle : m₀.stack = []) (has : m₀.ctx.as = [])
    (heh : m₀.ctx.ehStack = []) (hexns : m₀.ctx.ehExnStack = [])
    (hok : AllSteps (Machine.step env) (fun m l => ThrowOk env m l ∧ TailOk env m l) m₀ labels)
    (hrun : runSteps (Machine.step env) m₀ labels = some m) :
    m.ctx.depthTotal = m₀.ctx.remainingCallDepth ∧
      (∀ l, ThrowOk env m l → Leaving env m l → ∃ m', m.step env l = some m') ∧
      ∀ pre func args inner d, labels = pre ++ .enter func args :: inner →
        runSteps (Machine.step env) m₀ pre = some d → Returns env d func args inner m →
        m.ctx.toControl = d.ctx.toControl := by
  obtain ⟨T, hT, hchk, -, -⟩ := compiled_typed hcompiled hparsed
  rw [← hT] at hlinked
  have hthrows := hok.mono fun _ _ h => h.1
  refine ⟨?_, ?_, ?_⟩
  · have hbalanced : T.Balanced m₀.ctx.remainingCallDepth m := by
      refine runSteps_invariant (P := T.Balanced m₀.ctx.remainingCallDepth) ?_ ?_ hok hrun
      · intro m l m' h hl hstep
        exact TypedProgram.balanced_step hT.symm (fun _ => hlinked) h hl.1 hl.2 hstep
      · refine ⟨[], TypedProgram.machineOk_idle hidle heh fun _ => hexns, ?_⟩
        rw [hidle]
        change m₀.ctx.remainingCallDepth + _ = _
        rw [has]
        rfl
    obtain ⟨outs, -, hfunded⟩ := hbalanced
    exact hfunded.total
  · obtain ⟨outs, hm⟩ :=
      T.machineOk_run hT.symm (fun _ => hlinked) hidle heh (fun _ => hexns) hthrows hrun
    intro l hthrow hl
    exact hm.leaves hT.symm hlinked hchk hthrow hl
  · rintro pre func args inner d rfl hpre hreturns
    obtain ⟨hthrowsPre, hthrow, hrest⟩ := hthrows.of_append hpre
    obtain ⟨outs, hd⟩ :=
      T.machineOk_run hT.symm (fun _ => hlinked) hidle heh (fun _ => hexns) hthrowsPre hpre
    obtain ⟨e, he, hinner⟩ := (runSteps_cons_iff _ _ _ _ _).mp hreturns.run
    rw [he] at hrest
    have hinside : ∀ n < inner.length, ∀ x,
        runSteps (Machine.step env) e (inner.take n) = some x →
        outs.length < executions x.stack := by
      intro n hn x hx
      rw [hd.length]
      exact hreturns.inside n hn x ((runSteps_cons_iff _ _ _ _ _).mpr ⟨e, he, hx⟩)
    have hended := hreturns.ended
    rw [← hd.length] at hended
    rcases TypedProgram.machineOk_step hT.symm (fun _ => hlinked) hd hthrow he with
      hstart | ⟨hsame, hkept⟩
    · exact (TypedProgram.returns_same [] hT.symm (fun _ => hlinked) hstart hrest hinner
        hended hinside).eq hchk
    · -- the call ended at once
      cases inner with
      | nil =>
        cases hinner
        exact hsame.eq hchk
      | cons _ _ =>
        have hlt := hinside 0 (Nat.succ_pos _) e rfl
        rw [hkept.length] at hlt
        exact absurd hlt (lt_irrefl _)

/-- A module whose function 0 is imported and whose function 1 is defined, both without
parameters and results. -/
def hostModule : Module where
  types := [.void]
  imports := [0]
  functions := [0]
  tables := []
  memories := []
  globals := []
  tags := []
  elements := []
  datacount := none

/-- The bitcode of a function body in that module. -/
def hostCode (body : List UInt8) : CodeOut :=
  match writeCodeOut {} hostModule [⟨[], body⟩] with
  | .ok out => out
  | .error _ => ⟨[], [], 0, 0, [], []⟩

/-- An instance of the module. -/
def hostEnv (body : List UInt8) : Env Unit where
  module := hostModule
  code := (hostCode body).code
  functionPc := (hostCode body).functionPc
  locals := [[]]
  functionCost := fun _ => 1
  functionStackSize := fun _ => 1
  hostSignature := fun _ => .void
  gasHandler := none
  maxPages := 65536
  allocLimit := 65536
  mprotect := fun _ _ => true
  ops := ⟨fun _ _ _ w => .ok (w, 0), fun _ _ _ => .error underflow⟩

private theorem hostsLinked_hostEnv (body : List UInt8) : HostsLinked (hostEnv body).toProgram := by
  intro f ft hf hft
  have hlt : f < 1 := hf
  obtain rfl : f = 0 := by omega
  cases hft
  exact ⟨rfl, Nat.zero_le _, fun t ht => absurd ht not_mem_nil⟩

/-- A call of the imported function. -/
def callHostBody : List UInt8 := [0x10, 0, 0x0B]

/-- The host function calls `execute` and throws in it: the inner execution leaves the
stacks of the outer one. -/
theorem depth_conserved_nested : ∃ d m,
    runSteps (Machine.step (hostEnv callHostBody)) idleMachine [.enter 1 [], .visit] = some d ∧
    runSteps (Machine.step (hostEnv callHostBody)) idleMachine
      ([.enter 1 [], .visit] ++ [.enter 1 [], .visit, .hostThrow underflow]) = some m ∧
    m.ctx.depthTotal = 250 ∧ m.ctx.toControl = d.ctx.toControl := by
  let run := runSteps (Machine.step (hostEnv callHostBody)) idleMachine
  let inner : List (Label Unit) := [.visit, .hostThrow underflow]
  obtain ⟨d, hd⟩ : ∃ d, run [.enter 1 [], .visit] = some d := ⟨_, rfl⟩
  obtain ⟨m, hm⟩ : ∃ m, run ([.enter 1 [], .visit] ++ .enter 1 [] :: inner) = some m := ⟨_, rfl⟩
  obtain ⟨htotal, -, hreturns⟩ := depth_conserved_stacks_restored {} [⟨[], callHostBody⟩]
    (hostCode callHostBody) (hostEnv callHostBody) idleMachine m _
    ⟨rfl, rfl, rfl, rfl⟩ (by decide +kernel) (hostsLinked_hostEnv callHostBody) rfl rfl rfl rfl
    (by decide +kernel) hm
  have hbefore : (run [.enter 1 [], .visit]).map (executions ·.stack) = some 1 := by decide +kernel
  have hafter : (run ([.enter 1 [], .visit] ++ .enter 1 [] :: inner)).map (executions ·.stack) =
      some 1 := by decide +kernel
  have hinside : ∀ n < 2, (run ([.enter 1 [], .visit] ++ .enter 1 [] :: inner.take n)).map
      (executions ·.stack) = some 2 := by decide +kernel
  rw [hd] at hbefore
  rw [hm] at hafter
  have hd₁ : executions d.stack = 1 := Option.some.inj hbefore
  have hm₁ : executions m.stack = 1 := Option.some.inj hafter
  refine ⟨d, m, hd, hm, htotal, hreturns _ 1 [] _ d rfl hd ⟨?_, ?_, ?_⟩⟩
  · rw [← runSteps_append hd]
    exact hm
  · rw [hd₁, hm₁]
  · intro n hn x hx
    have hn := hinside n hn
    rw [show run _ = _ from (runSteps_append hd _).trans hx] at hn
    have hx₂ : executions x.stack = 2 := Option.some.inj hn
    rw [hd₁, hx₂]
    exact Nat.one_lt_two

/-- A tail call of the imported function. -/
def tailCallHostBody : List UInt8 := [0x12, 0, 0x0B]

/-- While the host function runs, the caller's frame is on the call stack and the depth it
uses is given back. -/
theorem host_tail_call_gains_depth :
    ¬ ∀ (o : Options) (bodies : List FunctionBody) (out : CodeOut) (env : Env Unit)
      (m₀ m : Machine Unit) (labels : List (Label Unit)), Compiled o bodies out env.toProgram →
      HostsLinked env.toProgram → m₀.stack = [] → m₀.ctx.as = [] → m₀.ctx.ehStack = [] →
      m₀.ctx.ehExnStack = [] → runSteps (Machine.step env) m₀ labels = some m →
      m.ctx.depthTotal = m₀.ctx.remainingCallDepth := by
  intro h
  obtain ⟨m, hrun, htotal⟩ : ∃ m, runSteps (Machine.step (hostEnv tailCallHostBody)) idleMachine
      [.enter 1 [], .visit] = some m ∧ m.ctx.depthTotal = 251 := ⟨_, rfl, by decide +kernel⟩
  have hbad := h {} [⟨[], tailCallHostBody⟩] (hostCode tailCallHostBody)
    (hostEnv tailCallHostBody) idleMachine m [.enter 1 [], .visit] ⟨rfl, rfl, rfl, rfl⟩
    (hostsLinked_hostEnv tailCallHostBody) rfl rfl rfl rfl hrun
  rw [htotal] at hbad
  exact absurd hbad (by decide)

end PsiServe.Typing
