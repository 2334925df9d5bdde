import PsiServe.Interp.Isolation

/-!
# Conservation of call depth

The depth a frame uses is taken from `_remaining_call_depth` when the frame is pushed and
given back when it goes, by a return, a tail call or an exception that unwinds it
(`psizam/detail/execution_context.hpp:1411–1634`). A tail call to a
host function gives the caller's depth back while its frame is still there.
-/

namespace PsiServe.Interp

open Wasm Bitcode List

variable {W : Type} {k : Control} {env : Env W} {c : Context W} {f : Nat}

/-- The remaining call depth and what the frames on the call stack use. -/
def Control.depthTotal (k : Control) : Nat :=
  k.remainingCallDepth + (k.as.map ActivationFrame.frameSize).sum

private theorem depthTotal_unwindTo (depth : Nat) (as : List ActivationFrame) (k : Control) :
    (Control.unwindTo depth as k).depthTotal =
      k.remainingCallDepth + (as.map ActivationFrame.frameSize).sum := by
  induction as generalizing k with
  | nil => rfl
  | cons af rest ih =>
    unfold Control.unwindTo
    split
    · rw [ih, map_cons, sum_cons]
      dsimp only
      omega
    · rfl

private theorem depthTotal_unwindCallStackTo (k : Control) (depth : Nat) :
    (k.unwindCallStackTo depth).depthTotal = k.depthTotal := depthTotal_unwindTo depth k.as k

private theorem depthTotal_leaveEhFrames (n : Nat) (k : Control) :
    (k.leaveEhFrames n).depthTotal = k.depthTotal := by
  obtain ⟨eh, catches, h⟩ := leaveEhFrames_eq n k
  rw [h]
  rfl

/-- What a step leaves of the call depth. A host function runs on a frame of its own,
unless it is one of those tail called. -/
def Conserves (tail : Nat → Prop) (k : Control) : Outcome Control → Prop
  | .next d => d.depthTotal = k.depthTotal
  | .host d _ false => d.depthTotal = k.depthTotal ∧ ∃ af, d.as = af :: k.as
  | .host _ f true => tail f
  | .trap _ _ => True
  | .leave _ => True
  | .undefined => True

section

variable {tail : Nat → Prop} {d : Control} {p : Program}

private theorem Conserves.withPop {f : Value → Control → Outcome Control}
    (h : ∀ v rest, Conserves tail k (f v { k with os := rest })) :
    Conserves tail k (k.withPop f) := by
  unfold Control.withPop
  split
  · trivial
  · exact h _ _

/-- The frame of a called function uses the depth that is taken. -/
theorem depthTotal_push {size : Nat} (hsize : size ≤ k.remainingCallDepth)
    (hd : d.remainingCallDepth = k.remainingCallDepth - size) {af : ActivationFrame}
    (has : d.as = af :: k.as) (haf : af.frameSize = size) : d.depthTotal = k.depthTotal := by
  rw [Control.depthTotal, hd, has, map_cons, sum_cons, haf, Control.depthTotal]
  omega

section

variable (hd : d.depthTotal = k.depthTotal)

include hd

private theorem Conserves.leave_jump (n data pc : Nat) :
    Conserves tail k (.ofOption ((d.leaveEhFrames n).jump data pc)) := by
  cases hj : (d.leaveEhFrames n).jump data pc with
  | none => trivial
  | some e =>
    obtain ⟨os, rfl⟩ := jump_eq hj
    exact (depthTotal_leaveEhFrames n d).trans hd

private theorem enterHandler_conserves (p : Program) (frame : EhFrame) (e : EhCatchEntry)
    (tag : Nat) (payload : List UInt64) :
    Conserves tail k (enterHandler p d frame e tag payload) := by
  unfold enterHandler
  split
  next heat _ =>
    obtain ⟨-, rfl⟩ := eatOperands_eq heat
    refine (depthTotal_leaveEhFrames (e.ehLeaveCount + 1) _).trans ?_
    exact (depthTotal_unwindCallStackTo d frame.callDepth).trans hd
  · trivial

private theorem dispatchException_conserves (p : Program) (tag : Nat) (payload : List UInt64)
    (eh : List EhFrame) :
    Conserves tail k (dispatchException p tag payload eh d) := by
  induction eh generalizing d with
  | nil => trivial
  | cons frame eh ih =>
    unfold dispatchException
    split
    · trivial
    · exact enterHandler_conserves hd p frame _ tag payload
    · apply ih
      rw [depthTotal_unwindCallStackTo]
      exact (depthTotal_leaveEhFrames 1 d).trans hd

omit hd in
private theorem visitControl_conserves {n : Nat} {i : Instr} {o : Outcome Control}
    (ho : visitControl p k n i = some o) : Conserves tail k o := by
  cases i with
  | unreachable | rethrow _ | exit | brTableData | error =>
    cases ho
    trivial
  | nop | else_ _ | catch_ _ _ | catchAll _ =>
    cases ho
    rfl
  | if_ pc =>
    cases ho
    apply Conserves.withPop
    intro v rest
    split
    · rfl
    · rfl
  | br data pc =>
    cases ho
    exact .leave_jump rfl 0 data pc
  | brIf data pc leaves =>
    cases ho
    apply Conserves.withPop
    intro v rest
    split
    · split
      · rfl
      · exact .leave_jump rfl leaves data pc
    · trivial
  | brTable size table =>
    cases ho
    apply Conserves.withPop
    intro v rest
    split
    · trivial
    · exact .leave_jump rfl _ _ _
  | return_ data pc _ =>
    cases ho
    unfold Control.applyPopCall
    split
    · trivial
    next af rest has =>
      split
      · unfold Conserves Control.depthTotal
        rw [has, map_cons, sum_cons]
        dsimp only
        omega
      · trivial
  | throw_ tag =>
    cases ho
    unfold throwTag
    split
    · trivial
    · dsimp only
      split
      · trivial
      · apply dispatchException_conserves
        rfl
  | throwRef =>
    cases ho
    apply Conserves.withPop
    intro v rest
    split
    · trivial
    · split
      · trivial
      · apply dispatchException_conserves
        rfl
  | delegate _ =>
    cases ho
    exact depthTotal_leaveEhFrames 1 k
  | tryTable data _ =>
    cases ho
    unfold enterTryTable
    split
    · rfl
    · split
      · trivial
      · rfl
  | drop =>
    cases ho
    exact .withPop fun _ _ => rfl
  | select =>
    cases ho
    apply Conserves.withPop
    intro b rest
    cases rest with
    | nil => trivial
    | cons v2 rest =>
      cases rest with
      | nil => trivial
      | cons v1 rest => rfl
  | getLocal _ =>
    cases ho
    split
    · trivial
    · rfl
  | setLocal i =>
    cases ho
    apply Conserves.withPop
    intro v rest
    cases hset : ({ k with os := rest } : Control).advance.setOperand i v with
    | none => trivial
    | some d =>
      obtain ⟨os, rfl⟩ := setOperand_eq hset
      rfl
  | teeLocal i =>
    cases ho
    apply Conserves.withPop
    intro v rest
    split
    · trivial
    next hset =>
      obtain ⟨os, rfl⟩ := setOperand_eq hset
      rfl
  | _ => cases ho

private theorem callWasm_conserves (p : Program) (f : Nat) : Conserves tail k (callWasm p d f) := by
  unfold callWasm
  rcases pushCall_cases p d f d.pc.inc with ⟨ft, -, hsize, he⟩ | ⟨t, ht⟩ | hundef
  · rw [he]
    exact (depthTotal_push hsize rfl rfl rfl).trans hd
  · rw [ht]
    trivial
  · rw [hundef]
    trivial

/-- The caller's frame goes with the depth that was given back. -/
theorem tailCallWasm_conserves {cur : ActivationFrame} {rest : List ActivationFrame}
    (has : d.as = cur :: rest) (p : Program) (f : Nat) :
    Conserves tail k (tailCallWasm p (d.refund cur) f) := by
  have htotal : d.depthTotal = d.remainingCallDepth +
      (cur.frameSize + (rest.map ActivationFrame.frameSize).sum) := by
    rw [Control.depthTotal, has, map_cons, sum_cons]
  unfold tailCallWasm
  split
  next has' _ =>
    obtain ⟨rfl, rfl⟩ := cons.inj (has.symm.trans has')
    dsimp only
    split
    · trivial
    next hdepth =>
      change ¬d.remainingCallDepth + cur.frameSize < p.functionStackSize f at hdepth
      split
      · trivial
      · split
        · trivial
        · change d.remainingCallDepth + cur.frameSize - p.functionStackSize f +
            (p.functionStackSize f + (rest.map ActivationFrame.frameSize).sum) = k.depthTotal
          omega
  · trivial

end

end

/-- One step on the stacks conserves the call depth. -/
theorem StackStep.conserves {p : Program} {n : Nat} {i : Instr} {o : Outcome Control}
    (h : StackStep p k n i o) :
    Conserves (fun f => f < p.module.importedFunctionsSize ∧ ∃ d, Calls p k true i f d) k o := by
  cases h with
  | control ho => exact visitControl_conserves ho
  | undefined => trivial
  | trap _ _ => trivial
  | plain _ _ _ | charged _ | bulkDone _ _ | bulkMore _ _ _ _ _ => rfl
  | call hcalls _ =>
    obtain ⟨os, rfl⟩ := hcalls.eq_os
    exact callWasm_conserves rfl p _
  | hostCall hcalls _ he =>
    obtain ⟨os, rfl⟩ := hcalls.eq_os
    obtain ⟨ft, -, hsize, rfl⟩ := callHost_next he
    exact ⟨depthTotal_push hsize rfl rfl rfl, _, rfl⟩
  | hostCallTrap _ _ _ _ => trivial
  | tailCall hcalls _ has =>
    obtain ⟨os, rfl⟩ := hcalls.eq_os
    exact tailCallWasm_conserves rfl has p _
  | hostTailCall hcalls hf _ _ => exact ⟨hf, _, hcalls⟩

/-- One turn of the interpreter conserves the call depth. -/
theorem visit_conserves (env : Env W) (c : Context W) :
    Conserves (fun _ => True) c.toControl (visit env c).control := by
  rcases visit_cases env c with hleave | hundef | ⟨i, -, n, -, hvisit⟩
  · rw [hleave]
    trivial
  · rw [hundef]
    trivial
  · rw [hvisit]
    have hstep := (visitInstr_stackStep env c n i).conserves
    generalize (visitInstr env c n i).control = o at hstep
    cases o with
    | host d f tail =>
      cases tail with
      | true => trivial
      | false => exact hstep
    | next d => exact hstep
    | trap | leave | undefined => trivial

/-! ### Tail calls to host functions -/

private theorem tailCall_host {d : Context W} {index : Nat}
    (h : tailCall env c index = .host d f true) : f = index := by
  unfold tailCall at h
  split at h
  · cases h
  next cur rest has =>
    by_cases hf : index < env.module.importedFunctionsSize
    · rw [if_pos hf] at h
      dsimp only at h
      have hcases := tailCallHost_cases env.toProgram (c.toControl.refund cur) index
      rw [Control.refund] at hcases
      rcases hcases with ⟨ft, -, he⟩ | ⟨t, ht⟩ | hundef
      · rw [he] at h
        cases h
        rfl
      · rw [ht] at h
        cases h
      · rw [hundef] at h
        cases h
    · rw [if_neg hf] at h
      change Context.withGas { c with toControl := c.toControl.refund cur } _ _ _ = _ at h
      obtain ⟨gas, pool, ⟨t, ht⟩ | hgas⟩ := withGas_cases
        { c with toControl := c.toControl.refund cur } env.gasHandler (env.functionCost index)
        fun c => c.lift (tailCallWasm env.toProgram c.toControl index)
      · rw [ht] at h
        cases h
      · rw [hgas] at h
        -- a tail call of a defined function enters no host function
        have hwasm : tailCallWasm env.toProgram (c.toControl.refund cur) index =
            .host d.toControl f true := (control_lift _ _).symm.trans (congrArg Outcome.control h)
        have hno : Conserves (fun _ => False) c.toControl
            (tailCallWasm env.toProgram (c.toControl.refund cur) index) :=
          tailCallWasm_conserves rfl has env.toProgram index
        rw [hwasm] at hno
        exact hno.elim

/-- A host function entered by a tail call is the target of the instruction. -/
theorem visit_hostTail {d : Context W} (h : visit env c = .host d f true) :
    ∃ i ∈ c.fetch env, f ∈ tailTarget env c i ∧ f < env.module.importedFunctionsSize := by
  rcases visit_cases env c with hleave | hundef | ⟨i, hi, n, -, hvisit⟩
  · rw [hleave] at h
    cases h
  · rw [hundef] at h
    cases h
  · rw [hvisit] at h
    have hstep := (visitInstr_stackStep env c n i).conserves
    rw [h] at hstep
    obtain ⟨hf, k, hcalls⟩ := hstep
    refine ⟨i, hi, ?_, hf⟩
    cases hcalls with
    | tailCall => rfl
    | @tailCallIndirect index slot rest _ _ hos _ _ =>
      change withCallee env c index (fun fn c => tailCall env c fn) = _ at h
      unfold withCallee at h
      rw [hos] at h
      dsimp only at h
      unfold tailTarget
      rw [hos]
      split at h
      · cases h
      next fn hfn =>
        dsimp only
        rw [hfn]
        split at h
        · cases h
        · split at h
          · split at h
            · rw [tailCall_host h]
              rfl
            · cases h
          · cases h
          · cases h

end PsiServe.Interp
