import PsiServe.Typing.Execution
import PsiServe.Typing.Linking

/-!
# EH frames of accepted code

The EH frames the interpreter has pushed at an instruction of a body are those of the
`try_table` scopes around the instruction: `try_table` pushes one, and the parser emits an
`eh_leave` for every way out of the scope (`parser.hpp:1342–1382`,
`interpret_visitor.hpp:3170–3362`). Catch blocks and `delegate` of the legacy proposal are
not counted in, neither is the code a full buffer loses.
-/

namespace PsiServe.Typing

open Base Wasm Bitcode Interp PsiServe.Parser

variable {W : Type}

/-- No EH frame belongs to an activation that is gone, and in front of an instruction the
running activation has one for each `try_table` with clauses around the instruction. -/
def EhBalanced (out : CodeOut) (m : Machine W) : Prop :=
  (∀ fr ∈ m.ctx.ehStack, fr.callDepth ≤ m.ctx.as.length) ∧
    ∀ func s outer, m.stack = .execute func s :: outer →
    ∀ (i : Nat) (q : Parsed) (pc : Nat), out.parsed[i]? = some q → out.functionPc[i]? = some pc →
    ∀ x ∈ q.trace, m.ctx.pc = .code (pc + x.1.writer.opIndex) →
      (m.ctx.ehStack.filter fun fr => fr.callDepth = m.ctx.as.length).length =
        (x.1.pcStack.filter PcElement.isTryTable).length

private theorem TypedProgram.MachineOk.depths {T : TypedProgram} {outs : List Control}
    {m : Machine W} (h : T.MachineOk outs m) : Depths m.ctx.toControl := by
  unfold TypedProgram.MachineOk at h
  split at h
  · obtain ⟨-, -, hrun⟩ := h
    exact hrun.depths
  · exact h.depths.1

/-- In every run of accepted code, EH frames and `try_table` scopes agree. -/
theorem eh_frames_balanced (o : Options) (bodies : List FunctionBody) (out : CodeOut)
    (env : Env W) (m₀ m : Machine W) (labels : List (Label W))
    (hcompiled : Compiled o bodies out env.toProgram) (hparsed : ∀ q ∈ out.parsed, ParsedOk false q)
    (hidle : m₀.stack = []) (heh : m₀.ctx.ehStack = [])
    (hok : AllSteps (Machine.step env) (ThrowOk env) m₀ labels)
    (hrun : runSteps (Machine.step env) m₀ labels = some m) : EhBalanced out m := by
  obtain ⟨T, hT, hchk, -, hpoints⟩ := compiled_typed hcompiled hparsed
  have hunchecked : T.chk ≠ true := by
    rw [hchk]
    exact Bool.false_ne_true
  obtain ⟨outs, hm⟩ :=
    T.machineOk_run hT.symm (fun h => absurd h hunchecked) hidle heh (fun h => absurd h hunchecked)
      hok hrun
  refine ⟨hm.depths, fun func s outer hstack i q pc hq hpc x hx hat => ?_⟩
  obtain ⟨start, rest, -, -, houter, hrunOk⟩ := hm.running hstack
  obtain ⟨fn, a, os, hann, -, hacts⟩ := hrunOk.acts _ hat
  obtain ⟨b, hb, hflow⟩ := hpoints i q pc hq hpc x hx
  obtain ⟨-, rfl⟩ := Prod.mk.inj (Option.mem_unique hann hb)
  rw [(hacts.depths houter.depths.1).1, hflow.1]
  exact length_tries _ _

/-- A module with a tag and a function, both without parameters and results. -/
def tryModule : Module where
  types := [.void]
  imports := []
  functions := [0]
  tables := []
  memories := []
  globals := []
  tags := [0]
  elements := []
  datacount := none

/-- The bitcode of a function body in that module. -/
def tryCode (body : List UInt8) : CodeOut :=
  match writeCodeOut {} tryModule [⟨[], body⟩] with
  | .ok out => out
  | .error _ => ⟨[], [], 0, 0, [], []⟩

/-- An instance of the module. -/
def tryEnv (body : List UInt8) : Env Unit where
  module := tryModule
  code := (tryCode body).code
  functionPc := (tryCode body).functionPc
  locals := [[]]
  functionCost := fun _ => 1
  functionStackSize := fun _ => 1
  hostSignature := fun _ => .void
  gasHandler := none
  maxPages := 65536
  allocLimit := 65536
  mprotect := fun _ _ => true
  ops := ⟨fun _ _ _ w => .ok (w, 0), fun _ _ _ => .error underflow⟩

/-- Two nested `try_table` with a `nop` inside. -/
def nestedTry : List UInt8 :=
  [0x1F, 0x40, 1, 2, 0, 0x1F, 0x40, 1, 2, 0, 0x01, 0x0B, 0x0B, 0x0B]

/-- At the `nop` both frames are there. -/
theorem eh_frames_balanced_nested : ∃ m, runSteps (Machine.step (tryEnv nestedTry)) idleMachine
      [.enter 0 [], .visit, .visit] = some m ∧
    m.ctx.ehStack.length = 2 ∧ EhBalanced (tryCode nestedTry) m :=
  ⟨_, rfl, by decide +kernel, eh_frames_balanced {} [⟨[], nestedTry⟩] (tryCode nestedTry)
    (tryEnv nestedTry) idleMachine _ [.enter 0 [], .visit, .visit] ⟨rfl, rfl, rfl, rfl⟩
    (by decide +kernel) rfl rfl (by decide +kernel) rfl⟩

/-- A `try_table` with an empty `catch_all` block of the legacy proposal. -/
def catchAllInTry : List UInt8 := [0x1F, 0x40, 1, 2, 0, 0x18, 0x0B, 0x0B]

/-- The block in front of `catch_all` goes behind the `eh_leave` of its scope. -/
theorem catch_all_keeps_frame :
    ¬ ∀ (o : Options) (bodies : List FunctionBody) (out : CodeOut) (env : Env Unit)
      (m₀ m : Machine Unit) (labels : List (Label Unit)), Compiled o bodies out env.toProgram →
      m₀.stack = [] → m₀.ctx.ehStack = [] → runSteps (Machine.step env) m₀ labels = some m →
      EhBalanced out m := by
  intro h
  obtain ⟨-, hpoints⟩ := h {} [⟨[], catchAllInTry⟩] (tryCode catchAllInTry) (tryEnv catchAllInTry)
    idleMachine _ [.enter 0 [], .visit, .visit] ⟨rfl, rfl, rfl, rfl⟩ rfl rfl rfl
  -- the last instruction is the `end` of the function
  have hend := hpoints 0 _ [] rfl 0 _ 0 rfl rfl _
    (List.mem_of_getElem? (i := 3) rfl) rfl
  exact absurd hend (by decide +kernel)

end PsiServe.Typing
