import PsiServe.Interp.Frame

/-!
# Abstraction of the interpreter to its stacks

`StackStep` is the interpreter with memory, globals, tables and gas forgotten: values it
does not know are arbitrary values of the right alternative, and a trap may come at any
time. `visitInstr_stackStep` connects it to `PsiServe.Interp.Visit`: what a step does to
the stacks of a context is a step of the abstraction. Invariants of the stacks are proved
about the abstraction.
-/

namespace PsiServe.Interp

open Wasm Bitcode Gas List

variable {W : Type} {env : Env W} {c d : Context W} {n f : Nat} {i : Instr}

/-- The stacks an outcome ends with. -/
def Outcome.control : Outcome (Context W) → Outcome Control
  | .next c => .next c.toControl
  | .host c f tail => .host c.toControl f tail
  | .trap c t => .trap c.toControl t
  | .leave c => .leave c.toControl
  | .undefined => .undefined

/-- The stacks after a lifted step are those of the step. -/
@[simp] theorem control_lift (c : Context W) (o : Outcome Control) : (c.lift o).control = o := by
  cases o with
  | next _ | host _ _ _ | trap _ _ | leave _ | undefined => rfl

/-- Call frames, EH frames and the bounds of the running execution agree. -/
structure Control.SameFrames (d k : Control) : Prop where
  as : d.as = k.as
  ehStack : d.ehStack = k.ehStack
  ehCatches : d.ehCatches = k.ehCatches
  asIndex : d.asIndex = k.asIndex
  osIndex : d.osIndex = k.osIndex

/-- The instructions that pop the slot of their callee before they check it. -/
def IsIndirect : Instr → Prop
  | .callIndirect _ | .tailCallIndirect _ => True
  | _ => False

/-- The frames agree and at most the slot of an indirect call is gone. -/
structure Control.Popped (i : Instr) (d k : Control) : Prop extends d.SameFrames k where
  ehExnStack : d.ehExnStack = k.ehExnStack
  os : d.os = k.os ∨ IsIndirect i ∧ ∃ v, k.os = v :: d.os

private theorem Control.Popped.refl (i : Instr) (k : Control) : k.Popped i k :=
  ⟨⟨rfl, rfl, rfl, rfl, rfl⟩, rfl, .inl rfl⟩

/-- Give back the call depth of the topmost frame; `execution_context.hpp:1476–1477`. -/
def Control.refund (k : Control) (cur : ActivationFrame) : Control :=
  { k with remainingCallDepth := k.remainingCallDepth + cur.frameSize }

/-- Instruction `i` calls function `f`, and the stacks are `d` once the slot of an indirect
call is popped. -/
inductive Calls (p : Program) (k : Control) : (tail : Bool) → Instr → Nat → Control → Prop
  | call (f : Nat) : Calls p k false (.call f) f k
  | tailCall (f : Nat) : Calls p k true (.tailCall f) f k
  | callIndirect {index : UInt32} {slot : Value} {rest : List Value} {f : Nat} {ft : FuncType}
      (hos : k.os = slot :: rest)
      (hexpected : p.module.types[(index &&& 0xFFFF).toNat]? = some ft)
      (hactual : p.module.getFunctionType f = some ft) :
      Calls p k false (.callIndirect index) f { k with os := rest }
  | tailCallIndirect {index : UInt32} {slot : Value} {rest : List Value} {f : Nat}
      {ft : FuncType} (hos : k.os = slot :: rest)
      (hexpected : p.module.types[(index &&& 0xFFFF).toNat]? = some ft)
      (hactual : p.module.getFunctionType f = some ft) :
      Calls p k true (.tailCallIndirect index) f { k with os := rest }

/-- The instructions that work off their operands one element at a time. -/
def IsBulk : Instr → Prop
  | .memoryCopy | .memoryFill | .tableCopy _ => True
  | _ => False

/-- One step on the stacks. -/
inductive StackStep (p : Program) (k : Control) (n : Nat) : Instr → Outcome Control → Prop
  | control {i : Instr} {o : Outcome Control} (h : visitControl p k n i = some o) :
      StackStep p k n i o
  | undefined {i : Instr} : StackStep p k n i .undefined
  | trap {i : Instr} {d : Control} {t : Trap} (hi : visitControl p k n i = none)
      (h : d.Popped i k) : StackStep p k n i (.trap d t)
  | plain {i : Instr} {o : Operands} {results : List Value}
      (ho : plainOperands p.module i = some o) (hlen : o.takes.length ≤ k.os.length)
      (hres : results.map Value.kind = o.gives) :
      StackStep p k n i
        (.next { k with os := results ++ k.os.drop o.takes.length, pc := k.pc.inc })
  | charged (cost : Int) : StackStep p k n (.gasCharge cost) (.next k.advance)
  | bulkDone {i : Instr} {size src dst : Value} {rest : List Value} (hi : IsBulk i)
      (hos : k.os = size :: src :: dst :: rest) :
      StackStep p k n i (.next { k with os := rest, pc := k.pc.inc })
  | bulkMore {i : Instr} {size src dst src' dst' : Value} {rest : List Value} (left : UInt32)
      (hi : IsBulk i) (hos : k.os = size :: src :: dst :: rest)
      (hsrc : src' = src ∨ ∃ x, src' = .i32 x) (hdst : dst' = dst ∨ ∃ x, dst' = .i32 x) :
      StackStep p k n i (.next { k with os := .i32 left :: src' :: dst' :: rest })
  | call {i : Instr} {f : Nat} {d : Control} (h : Calls p k false i f d)
      (hf : p.module.importedFunctionsSize ≤ f) : StackStep p k n i (callWasm p d f)
  | hostCall {i : Instr} {f : Nat} {d e : Control} (h : Calls p k false i f d)
      (hf : f < p.module.importedFunctionsSize) (he : callHost p d f = .next e) :
      StackStep p k n i (.host e f false)
  | hostCallTrap {i : Instr} {f : Nat} {d e : Control} (t : Trap) (h : Calls p k false i f d)
      (hf : f < p.module.importedFunctionsSize) (he : callHost p d f = .next e) :
      StackStep p k n i (.trap e t)
  | tailCall {i : Instr} {f : Nat} {d : Control} {cur : ActivationFrame}
      {rest : List ActivationFrame} (h : Calls p k true i f d)
      (hf : p.module.importedFunctionsSize ≤ f) (has : d.as = cur :: rest) :
      StackStep p k n i (tailCallWasm p (d.refund cur) f)
  | hostTailCall {i : Instr} {f : Nat} {d e : Control} {cur : ActivationFrame}
      {rest : List ActivationFrame} (h : Calls p k true i f d)
      (hf : f < p.module.importedFunctionsSize) (has : d.as = cur :: rest)
      (he : tailCallHost p (d.refund cur) f = .next e) : StackStep p k n i (.host e f true)

/-! ### What the frame changes do -/

section

variable {p : Program} {k e : Control}

/-- Operands are taken off if they are there. -/
theorem eatOperands_eq (h : k.eatOperands n = some e) :
    n ≤ k.os.length ∧ e = { k with os := k.os.drop (k.os.length - n) } := by
  unfold Control.eatOperands at h
  split at h
  next hle =>
    cases h
    exact ⟨hle, rfl⟩
  · cases h

/-- Writing a local changes the operands only. -/
theorem setOperand_eq {v : Value} (h : k.setOperand n v = some e) :
    ∃ os, e = { k with os := os } := by
  unfold Control.setOperand at h
  split at h
  · cases h
    exact ⟨_, rfl⟩
  · cases h

/-- A jump changes the position and the operands only. -/
theorem jump_eq {data pc : Nat} (h : k.jump data pc = some e) :
    ∃ os, e = { k with pc := .code pc, os := os } := by
  unfold Control.jump at h
  dsimp only at h
  split at h
  · cases h
    exact ⟨_, rfl⟩
  · cases h

/-- A call pushes a frame, traps before it changes anything, or is undefined. -/
theorem pushCall_cases (p : Program) (k : Control) (f : Nat) (pc : Pc) :
    (∃ ft, p.module.getFunctionType f = some ft ∧ p.functionStackSize f ≤ k.remainingCallDepth ∧
      pushCall p k f pc = .next { k with
        remainingCallDepth := k.remainingCallDepth - p.functionStackSize f
        as := ⟨pc, k.lastOpIndex, p.functionStackSize f⟩ :: k.as
        lastOpIndex := k.os.length - ft.paramTypes.length }) ∨
      (∃ t, pushCall p k f pc = .trap k t) ∨ pushCall p k f pc = .undefined := by
  unfold pushCall
  split
  · exact .inr (.inr rfl)
  next ft hft =>
    dsimp only
    split
    · exact .inr (.inl ⟨_, rfl⟩)
    next hdepth =>
      split
      · exact .inr (.inr rfl)
      · exact .inl ⟨ft, hft, Nat.le_of_not_lt hdepth, rfl⟩

/-- A host call is set up, traps before it changes anything, or is undefined. -/
theorem callHost_cases (p : Program) (k : Control) (f : Nat) :
    (∃ ft, p.module.getFunctionType f = some ft ∧ p.functionStackSize f ≤ k.remainingCallDepth ∧
      callHost p k f = .next { k with
        pc := k.pc.inc
        remainingCallDepth := k.remainingCallDepth - p.functionStackSize f
        as := ⟨.null, 0, p.functionStackSize f⟩ :: k.as
        os := k.os.drop (p.hostSignature f).paramTypes.length }) ∨
      (∃ t, callHost p k f = .trap k t) ∨ callHost p k f = .undefined := by
  unfold callHost
  split
  · exact .inr (.inr rfl)
  next ft hft =>
    split
    · exact .inr (.inr rfl)
    · split
      · dsimp only
        split
        · exact .inr (.inl ⟨_, rfl⟩)
        next hdepth =>
          split
          · exact .inr (.inl ⟨_, rfl⟩)
          · exact .inl ⟨ft, hft, Nat.le_of_not_lt hdepth, rfl⟩
      · exact .inr (.inl ⟨_, rfl⟩)

/-- The state in which a host function is called. -/
theorem callHost_next (h : callHost p k f = .next e) :
    ∃ ft, p.module.getFunctionType f = some ft ∧ p.functionStackSize f ≤ k.remainingCallDepth ∧
      e = { k with
        pc := k.pc.inc
        remainingCallDepth := k.remainingCallDepth - p.functionStackSize f
        as := ⟨.null, 0, p.functionStackSize f⟩ :: k.as
        os := k.os.drop (p.hostSignature f).paramTypes.length } := by
  rcases callHost_cases p k f with ⟨ft, hft, hdepth, hnext⟩ | ⟨t, ht⟩ | hundef
  · exact ⟨ft, hft, hdepth, Outcome.next.inj (h.symm.trans hnext)⟩
  · cases h.symm.trans ht
  · cases h.symm.trans hundef

/-- A tail call of a host function is set up, or undefined. -/
theorem tailCallHost_cases (p : Program) (k : Control) (f : Nat) :
    (∃ ft, p.module.getFunctionType f = some ft ∧ tailCallHost p k f = .next { k with
      os := (k.os.drop ft.paramTypes.length).drop
        ((k.os.drop ft.paramTypes.length).length - k.lastOpIndex) }) ∨
      (∃ t, tailCallHost p k f = .trap k t) ∨ tailCallHost p k f = .undefined := by
  unfold tailCallHost
  split
  · exact .inr (.inr rfl)
  next ft hft =>
    split
    · exact .inr (.inl ⟨_, rfl⟩)
    · unfold Control.eatOperands
      split
      · exact .inl ⟨ft, hft, rfl⟩
      · exact .inr (.inr rfl)

/-- The state in which a host function is tail-called. -/
theorem tailCallHost_next (h : tailCallHost p k f = .next e) :
    ∃ ft, p.module.getFunctionType f = some ft ∧ e = { k with
      os := (k.os.drop ft.paramTypes.length).drop
        ((k.os.drop ft.paramTypes.length).length - k.lastOpIndex) } := by
  rcases tailCallHost_cases p k f with ⟨ft, hft, hnext⟩ | ⟨t, ht⟩ | hundef
  · exact ⟨ft, hft, Outcome.next.inj (h.symm.trans hnext)⟩
  · cases h.symm.trans ht
  · cases h.symm.trans hundef

end

/-! ### The interpreter steps of the abstraction -/

@[simp] private theorem kind_currentMemory (m : Module) (pages : UInt32) :
    (currentMemory m pages).kind = addrKind m := by
  rw [currentMemory, addrKind, apply_ite Value.kind]
  rfl

@[simp] private theorem kind_growResult (m : Module) (result : UInt32) :
    (growResult m result).kind = addrKind m := by
  rw [growResult, addrKind]
  split
  · split
    · rfl
    · rfl
  · rfl

/-- A plain instruction's results are of the alternatives it gives. -/
theorem plainResult_kinds {o : Operands} {effective : UInt64} {vals results : List Value}
    (ho : plainOperands env.module i = some o)
    (h : plainResult env c i o effective vals = .ok (d, results)) :
    results.map Value.kind = o.gives ∧ d.toControl = c.toControl := by
  unfold plainResult at h
  split at h
  · cases h
    cases ho
    rw [map_singleton, kind_currentMemory]
    exact ⟨rfl, rfl⟩
  · split at h
    · cases h
    next e result hgrow =>
      cases h
      cases ho
      rw [map_singleton, kind_growResult]
      exact ⟨rfl, (growLinearMemory_cases hgrow).1⟩
  · cases h
    cases ho
    exact ⟨rfl, rfl⟩
  · split at h
    · cases h
    · cases h
      refine ⟨?_, rfl⟩
      rw [map_map]
      conv_rhs => rw [← map_id o.gives]
      apply map_congr_left
      intro k _
      exact Value.kind_ofBits k _

private theorem visitBulk_stackStep (hbulk : IsBulk i)
    (hi : visitControl env.toProgram c.toControl n i = none) (downSrc : Bool)
    (backward : UInt32 → UInt32 → Bool) :
    StackStep env.toProgram c.toControl n i (visitBulk env c i downSrc backward).control := by
  unfold visitBulk
  split
  next size src dst rest hos =>
    split
    · exact .trap hi (.refl _ _)
    · dsimp only
      split
      · exact .bulkDone hbulk hos
      · split
        · exact .bulkMore _ hbulk hos (.inl rfl) (.inl rfl)
        · refine .bulkMore _ hbulk hos ?_ (.inr ⟨_, rfl⟩)
          split
          · exact .inr ⟨_, rfl⟩
          · exact .inl rfl
  · exact .undefined

section

variable (hi : visitControl env.toProgram c.toControl n i = none)

include hi

private theorem visitOperands_stackStep :
    StackStep env.toProgram c.toControl n i (visitOperands env c i).control := by
  unfold visitOperands
  split
  · exact .undefined
  next o ho =>
    unfold visitPlain
    split
    · exact .trap hi (.refl _ _)
    next hlen =>
      dsimp only
      split
      · exact .trap hi (.refl _ _)
      · have haccess := (accessMemory_cases c i (c.os.take o.takes.length)).1
        split
        next heq =>
          rw [heq] at haccess
          rw [Outcome.control, haccess]
          exact .trap hi (.refl _ _)
        next d effective heq =>
          rw [heq] at haccess
          split
          · rw [Outcome.control, haccess]
            exact .trap hi (.refl _ _)
          next e results hres =>
            obtain ⟨hkinds, hcontrol⟩ := plainResult_kinds ho hres
            rw [haccess] at hcontrol
            rw [hcontrol]
            exact .plain ho (Nat.le_of_not_lt hlen) hkinds

private theorem call_stackStep (hd : d.toControl.Popped i c.toControl)
    (hcalls : Calls env.toProgram c.toControl false i f d.toControl) :
    StackStep env.toProgram c.toControl n i (call env d f).control := by
  unfold call
  by_cases hf : f < env.module.importedFunctionsSize
  · rw [if_pos hf]
    rcases callHost_cases env.toProgram d.toControl f with ⟨ft, -, -, he⟩ | ⟨t, ht⟩ | hundef
    · rw [he]
      dsimp only
      rcases withValidation_cases { d with toControl := _ } fun c =>
        .host { c with events := c.events ++ [.enterHost f] } f false with
        ⟨mem, t, -, ht⟩ | ⟨mem, -, hmem⟩
      · rw [ht]
        exact .hostCallTrap t hcalls hf he
      · rw [hmem]
        exact .hostCall hcalls hf he
    · rw [ht]
      exact .trap hi hd
    · rw [hundef]
      exact .undefined
  · rw [if_neg hf]
    obtain ⟨gas, pool, ⟨t, ht⟩ | hgas⟩ := withGas_cases d env.gasHandler (env.functionCost f)
      fun c => c.lift (callWasm env.toProgram c.toControl f)
    · rw [ht]
      exact .trap hi hd
    · rw [hgas, control_lift]
      exact .call hcalls (Nat.le_of_not_lt hf)

private theorem tailCall_stackStep (hd : d.toControl.Popped i c.toControl)
    (hcalls : Calls env.toProgram c.toControl true i f d.toControl) :
    StackStep env.toProgram c.toControl n i (tailCall env d f).control := by
  unfold tailCall
  split
  · exact .undefined
  next cur rest has =>
    have hrefund : (d.toControl.refund cur).Popped i c.toControl :=
      ⟨⟨hd.as, hd.ehStack, hd.ehCatches, hd.asIndex, hd.osIndex⟩, hd.ehExnStack, hd.os⟩
    by_cases hf : f < env.module.importedFunctionsSize
    · rw [if_pos hf]
      dsimp only
      have hcases := tailCallHost_cases env.toProgram (d.toControl.refund cur) f
      rw [Control.refund] at hcases
      rcases hcases with ⟨ft, -, he⟩ | ⟨t, ht⟩ | hundef
      · rw [he]
        exact .hostTailCall hcalls hf has he
      · rw [ht]
        exact .trap hi hrefund
      · rw [hundef]
        exact .undefined
    · rw [if_neg hf]
      change StackStep _ _ _ _ (Outcome.control (Context.withGas
        { d with toControl := d.toControl.refund cur } _ _ _))
      obtain ⟨gas, pool, ⟨t, ht⟩ | hgas⟩ := withGas_cases
        { d with toControl := d.toControl.refund cur } env.gasHandler (env.functionCost f)
        fun c => c.lift (tailCallWasm env.toProgram c.toControl f)
      · rw [ht]
        exact .trap hi hrefund
      · rw [hgas, control_lift]
        exact .tailCall hcalls (Nat.le_of_not_lt hf) has

private theorem withCallee_stackStep {index : UInt32} {g : Nat → Context W → Outcome (Context W)}
    (hind : IsIndirect i)
    (hg : ∀ slot rest f ft, c.os = slot :: rest →
      env.module.types[(index &&& 0xFFFF).toNat]? = some ft →
      env.module.getFunctionType f = some ft →
      ({ c.toControl with os := rest } : Control).Popped i c.toControl →
      StackStep env.toProgram c.toControl n i (g f { c with os := rest }).control) :
    StackStep env.toProgram c.toControl n i (withCallee env c index g).control := by
  have hframes : ∀ slot rest, c.os = slot :: rest →
      ({ c.toControl with os := rest } : Control).Popped i c.toControl :=
    fun slot rest hos => ⟨⟨rfl, rfl, rfl, rfl, rfl⟩, rfl, .inr ⟨hind, slot, hos⟩⟩
  refine withCallee_rule (R := fun o => StackStep env.toProgram c.toControl n i o.control)
    .undefined (fun _ => .trap hi (.refl _ _))
    (fun slot rest _ hos => .trap hi (hframes slot rest hos)) ?_
  intro slot rest f ft hos _ hexpected hactual
  exact hg slot rest f ft hos hexpected hactual (hframes slot rest hos)

private theorem visitContext_stackStep :
    StackStep env.toProgram c.toControl n i (visitContext env c i).control := by
  delta visitContext
  cases i with
  | call index =>
    exact call_stackStep hi (.refl _ _) (.call index)
  | callIndirect index =>
    refine withCallee_stackStep hi trivial fun slot rest f ft hos hexpected hactual hd => ?_
    exact call_stackStep hi hd (.callIndirect hos hexpected hactual)
  | tailCall index =>
    exact tailCall_stackStep hi (.refl _ _) (.tailCall index)
  | tailCallIndirect index =>
    refine withCallee_stackStep hi trivial fun slot rest f ft hos hexpected hactual hd => ?_
    exact tailCall_stackStep hi hd (.tailCallIndirect hos hexpected hactual)
  | memoryCopy | memoryFill =>
    apply visitBulk_stackStep _ hi
    trivial
  | tableCopy index =>
    apply visitBulk_stackStep _ hi
    trivial
  | gasCharge cost =>
    dsimp only
    rcases withValidation_cases c fun c => c.withGas env.gasHandler (UInt64.ofInt cost)
      fun c => .next { c with toControl := c.advance } with ⟨mem, t, -, ht⟩ | ⟨mem, -, hmem⟩
    · rw [ht]
      exact .trap hi (.refl _ _)
    · rw [hmem]
      obtain ⟨gas, pool, ⟨t, ht⟩ | hgas⟩ := withGas_cases { c with mem := mem } env.gasHandler
        (UInt64.ofInt cost) fun c => .next { c with toControl := c.advance }
      · rw [ht]
        exact .trap hi (.refl _ _)
      · rw [hgas]
        exact .charged cost
  | _ =>
    exact visitOperands_stackStep hi

end

/-- What an instruction does to the stacks is a step of the abstraction. -/
theorem visitInstr_stackStep (env : Env W) (c : Context W) (n : Nat) (i : Instr) :
    StackStep env.toProgram c.toControl n i (visitInstr env c n i).control := by
  unfold visitInstr
  cases hi : visitControl env.toProgram c.toControl n i with
  | some o =>
    rw [control_lift]
    exact .control hi
  | none => exact visitContext_stackStep hi

end PsiServe.Interp
