import PsiServe.Typing.EhBalance

/-!
# The parser's types are those of the operands

Every step of the interpreter finds the operands its opcode takes above the parameters and
locals of the frame, and in front of each reachable instruction the operands are those on
the parser's type stack. The conditions name the instructions the parser checks otherwise
than the interpreter runs them: an annotated `select` with a byte that is no type, labels of
a `br_table` that differ, types and tags whose index does not fit its word, exception
references and payloads, and bulk and atomic instructions with other operands.
-/

namespace PsiServe.Typing

open Base Wasm Bitcode Interp PsiServe.Parser List

variable {W : Type} {a : Ann} {ts : List Kind} {fn : FnShape}

/-- An opcode finds what it takes on top of the operands `ts` of its frame. A branch takes
the operands up to those of its target's scope. -/
def Finds (m : Module) (fn : FnShape) (ts : List Kind) : Instr → Prop
  | .unreachable | .rethrow _ | .else_ _ | .catch_ _ _ | .catchAll _ | .delegate _
  | .tryTable _ _ => True
  | .if_ _ => ∃ rest, ts = .i32 :: rest
  | .br data _ => data / 2 ^ 24 ≤ data % 2 ^ 24 ∧ data % 2 ^ 24 ≤ ts.length
  | .brIf data _ _ => ∃ rest, ts = .i32 :: rest ∧ data / 2 ^ 24 ≤ data % 2 ^ 24 ∧
      data % 2 ^ 24 ≤ rest.length
  | .brTable _ table => ∃ rest, ts = .i32 :: rest ∧ ∀ x ∈ table,
      x.stackPop / 2 ^ 24 ≤ x.stackPop % 2 ^ 24 ∧ x.stackPop % 2 ^ 24 ≤ rest.length
  | .return_ _ pc _ => ts = fn.results ∧ pc % 2 ^ 16 = fn.results.length
  | .tailCall f => ∃ ft rest, m.getFunctionType f = some ft ∧ ts = topKinds ft.paramTypes ++ rest
  | .tailCallIndirect index => ∃ ft rest, m.types[(index &&& 0xFFFF).toNat]? = some ft ∧
      ts = .i32 :: topKinds ft.paramTypes ++ rest
  | .throw_ tag => ∃ ft rest, m.tagType tag = some ft ∧ ts = topKinds ft.paramTypes ++ rest
  | .throwRef => ∃ rest, ts = .i32 :: rest
  | .exit | .error | .brTableData => False
  | i => ∃ takes gives rest, Moves m fn i takes gives ∧ ts = takes ++ rest

private theorem Branches.finds {b : Ann} {data leaves : Nat} (h : Branches a data leaves b)
    (hops : a.ops = some ts) :
    data / 2 ^ 24 ≤ data % 2 ^ 24 ∧ data % 2 ^ 24 ≤ ts.length := by
  obtain ⟨lab, mid, rest, rfl, hdepth, hcount, -⟩ := h.2.2 ts hops
  rw [length_append, length_append]
  omega

/-- An opcode that respects its annotation finds what it takes. -/
theorem InstrOk.finds {m : Module} {clause : Nat → UInt32 → Nat → UInt32 → Prop}
    {reach : Nat → Ann → Prop} {target : Nat → Nat → Ann → Prop} {n : Nat} {i : Instr}
    (h : InstrOk m fn clause reach target n a i) (hops : a.ops = some ts) :
    Finds m fn ts i := by
  have hstraight : Straight m fn reach n a i →
      ∃ takes gives rest, Moves m fn i takes gives ∧ ts = takes ++ rest := by
    rintro ⟨b, -, -, hmoves⟩
    obtain ⟨takes, gives, rest, hmoves, hts, -⟩ := hmoves ts hops
    exact ⟨takes, gives, rest, hmoves, hts⟩
  cases i with
  | unreachable | rethrow _ | else_ _ | catch_ _ _ | catchAll _ | delegate _ | tryTable _ _ =>
    trivial
  | exit | error | brTableData => exact h
  | if_ _ =>
    obtain ⟨b, hpops, -⟩ := h
    obtain ⟨rest, hrest, -⟩ := hpops.2 ts hops
    exact ⟨rest, hrest⟩
  | br _ _ =>
    obtain ⟨b, hbranches, -⟩ := h
    exact hbranches.finds hops
  | brIf _ _ _ =>
    obtain ⟨b, c, hpops, -, hbranches, -⟩ := h
    obtain ⟨rest, hrest, hb⟩ := hpops.2 ts hops
    exact ⟨rest, hrest, hbranches.finds hb⟩
  | brTable _ _ =>
    obtain ⟨b, hpops, hcases⟩ := h
    obtain ⟨rest, hrest, hb⟩ := hpops.2 ts hops
    refine ⟨rest, hrest, fun x hx => ?_⟩
    obtain ⟨e, he⟩ := mem_iff_getElem?.mp hx
    obtain ⟨c, hbranches, -⟩ := hcases e x he
    exact hbranches.finds hb
  | return_ _ _ _ =>
    obtain ⟨hts, -, hcount⟩ := h.2 ts hops
    exact ⟨hts, hcount⟩
  | tailCall _ | tailCallIndirect _ =>
    obtain ⟨ft, rest, hft, hts, -⟩ := h.2 ts hops
    exact ⟨ft, rest, hft, hts⟩
  | throw_ _ =>
    obtain ⟨ft, rest, hft, hts, -⟩ := h ts hops
    exact ⟨ft, rest, hft, hts⟩
  | throwRef =>
    obtain ⟨rest, hts, -⟩ := h ts hops
    exact ⟨rest, hts⟩
  | _ => exact hstraight h

/-- The operands above the given number of parameters and locals of the running frame. -/
def frameOperands (k : Control) (slots : Nat) : List Value :=
  k.os.take (k.os.length - (k.lastOpIndex + slots))

/-- The interpreter is in the code of a function, at an opcode that finds what it takes,
and the operands in front of an instruction are those on the parser's type stack. -/
def OperandsFit (p : Program) (out : CodeOut) (m : Machine W) : Prop :=
  ∀ func s outer, m.stack = .execute func s :: outer → ∀ n, m.ctx.pc = .code n →
    ∃ (j : Nat) (q : Parsed) (pc : Nat) (i : Instr), out.parsed[j]? = some q ∧
      out.functionPc[j]? = some pc ∧ pc ≤ n ∧ n ≤ pc + q.final.writer.opIndex ∧
      p.code[n]? = some i ∧ m.ctx.lastOpIndex + q.env.locals.length ≤ m.ctx.os.length ∧
      Finds p.module (bodyShape q.env)
        (kinds (frameOperands m.ctx.toControl q.env.locals.length)) i ∧
      ∀ x ∈ q.trace, n = pc + x.1.writer.opIndex → Live x.1.tracker.state →
        kinds (frameOperands m.ctx.toControl q.env.locals.length) = kindsOf x.1.tracker.state

/-- The operands of an activation are those above its parameters and locals. -/
theorem TypedProgram.Window.frameOperands {T : TypedProgram} {k : Control}
    {os' : List Value} (hchk : T.chk = true) (h : T.Window fn a k.lastOpIndex k.os os') :
    k.lastOpIndex + fn.slots.length ≤ k.os.length ∧
      a.ops = some (kinds (Typing.frameOperands k fn.slots.length)) := by
  obtain ⟨ops, locals, hos, hops, hlocals, hbase⟩ := h hchk
  have hlen : locals.length = fn.slots.length := by
    rw [← length_kinds, hlocals, length_reverse]
  have hcut : k.os.length - (k.lastOpIndex + fn.slots.length) = ops.length := by
    rw [hbase, hos, ← hlen, length_append, length_append]
    omega
  refine ⟨?_, ?_⟩
  · rw [hbase, hos, ← hlen, length_append, length_append]
    omega
  · rw [Typing.frameOperands, hcut, hos, append_assoc, take_left]
    exact hops

/-- In every run of accepted code, every step finds its operands. -/
theorem operands_fit (o : Options) (bodies : List FunctionBody) (out : CodeOut)
    (env : Env W) (m₀ m : Machine W) (labels : List (Label W))
    (hcompiled : Compiled o bodies out env.toProgram) (hparsed : ∀ q ∈ out.parsed, ParsedOk true q)
    (hlinked : HostsLinked env.toProgram)
    (hidle : m₀.stack = []) (heh : m₀.ctx.ehStack = []) (hexns : m₀.ctx.ehExnStack = [])
    (hok : AllSteps (Machine.step env) (ThrowOk env) m₀ labels)
    (hrun : runSteps (Machine.step env) m₀ labels = some m) :
    OperandsFit env.toProgram out m := by
  obtain ⟨T, hT, hchk, howner, hpoints⟩ := compiled_typed hcompiled hparsed
  rw [← hT] at hlinked ⊢
  obtain ⟨outs, hm⟩ :=
    T.machineOk_run hT.symm (fun _ => hlinked) hidle heh (fun _ => hexns) hok hrun
  intro func s outer hstack n hat
  obtain ⟨start, rest, -, -, houter, hrunOk⟩ := hm.running hstack
  obtain ⟨fn, a, os, hann, hos, os', eh', catches', hwindow, -⟩ := hrunOk.acts _ hat
  obtain ⟨i, hi, hinstr⟩ := T.typed.code n fn a hann
  obtain ⟨j, q, pc, hq, hpc, hle, hge, rfl⟩ := howner n fn a hann
  rw [← hos hchk] at hwindow
  obtain ⟨hroom, hops⟩ := hwindow.frameOperands hchk
  have hslots : (bodyShape q.env).slots.length = q.env.locals.length := length_map _
  rw [hslots] at hroom hops
  refine ⟨j, q, pc, i, hq, hpc, hle, hge, hi, hroom, hinstr.finds hops, fun x hx hn hlive => ?_⟩
  obtain ⟨b, hb, hflow⟩ := hpoints j q pc hq hpc x hx
  rw [← hn] at hb
  obtain ⟨-, rfl⟩ := Prod.mk.inj (Option.mem_unique hann hb)
  have hhere : (here true x.1).ops = some (kindsOf x.1.tracker.state) := opsOf_some hlive
  exact Option.some.inj (hops.symm.trans (hflow.2 _ hhere))

/-- A `select` on two constants. -/
def selectConstants : List UInt8 := [0x41, 1, 0x41, 2, 0x41, 0, 0x1B, 0x1A, 0x0B]

/-- In front of the `select` are its three operands. -/
theorem operands_fit_select : ∃ m, runSteps (Machine.step (tryEnv selectConstants)) idleMachine
      [.enter 0 [], .visit, .visit, .visit] = some m ∧
    m.ctx.os.length = 3 ∧
    OperandsFit (tryEnv selectConstants).toProgram (tryCode selectConstants) m :=
  ⟨_, rfl, by decide +kernel, operands_fit {} [⟨[], selectConstants⟩] (tryCode selectConstants)
    (tryEnv selectConstants) idleMachine _ [.enter 0 [], .visit, .visit, .visit]
    ⟨rfl, rfl, rfl, rfl⟩ (by decide +kernel) (fun f ft hf => absurd hf (Nat.not_lt_zero f)) rfl rfl
    rfl (by decide +kernel) rfl⟩

/-- An annotated `select` whose type is the byte of an empty block type, on one constant. -/
def selectPseudo : List UInt8 := [0x41, 0, 0x1C, 1, 0x40, 0x1A, 0x0B]

/-- The parser pops and pushes nothing of the byte, and the `select` finds one operand. -/
theorem select_lacks_operands :
    ¬ ∀ (o : Options) (bodies : List FunctionBody) (out : CodeOut) (env : Env Unit)
      (m₀ m : Machine Unit) (labels : List (Label Unit)), Compiled o bodies out env.toProgram →
      m₀.stack = [] → m₀.ctx.ehStack = [] → m₀.ctx.ehExnStack = [] →
      runSteps (Machine.step env) m₀ labels = some m → OperandsFit env.toProgram out m := by
  intro h
  obtain ⟨m, hrun, hone, hat, func, s, hstack⟩ :
      ∃ m, runSteps (Machine.step (tryEnv selectPseudo)) idleMachine [.enter 0 [], .visit] =
        some m ∧ m.ctx.os.length = 1 ∧ m.ctx.pc = .code 1 ∧ ∃ func s,
        m.stack = [.execute func s] := ⟨_, rfl, rfl, rfl, _, _, rfl⟩
  obtain ⟨j, q, pc, i, -, -, -, -, hi, -, hfinds, -⟩ := h {} [⟨[], selectPseudo⟩]
    (tryCode selectPseudo) (tryEnv selectPseudo) idleMachine m [.enter 0 [], .visit]
    ⟨rfl, rfl, rfl, rfl⟩ rfl rfl rfl hrun func s [] hstack 1 hat
  have hselect : (tryEnv selectPseudo).code[1]? = some .select := rfl
  obtain rfl := Option.mem_unique hi hselect
  obtain ⟨takes, gives, rest, hmoves, hts⟩ := hfinds
  have hlen := congrArg length hts
  rw [length_kinds, frameOperands, length_take, length_append, hone] at hlen
  have htakes : takes.length = 3 := by
    cases hmoves with
    | select k => rfl
    | plain h | bulk h => cases h
  omega

end PsiServe.Typing
