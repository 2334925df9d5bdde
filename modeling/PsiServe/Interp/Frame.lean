import PsiServe.Interp.Machine

/-!
# What one step leaves alone

Frame lemmas of `PsiServe.Interp.Visit`. `Outcome.All` carries a property of contexts
through a step in whatever way the step ends; the observable part of a context (memory
state, page count, recorded events) changes only where memory is accessed, grown or
validated and where a host function is entered.
-/

namespace PsiServe.Interp

open Wasm Bitcode Gas Context

variable {W : Type} {c d : Context W} {P : Context W → Prop} {env : Env W} {i : Instr}
  {m m' : Machine W} {outer : List NativeFrame} {func : Nat} {args : List Value}

/-- The context a step leaves has a property, in whatever way the step ends. -/
def Outcome.All {C : Type} (P : C → Prop) : Outcome C → Prop
  | .next c => P c
  | .host c _ _ => P c
  | .trap c _ => P c
  | .leave c => P c
  | .undefined => True

/-- Charging gas changes nothing else, and then traps or continues. -/
theorem withGas_cases (c : Context W) (handler : Option GasHandler) (cost : UInt64)
    (f : Context W → Outcome (Context W)) :
    ∃ gas pool, (∃ t, c.withGas handler cost f = .trap { c with gas := gas, pool := pool } t) ∨
      c.withGas handler cost f = f { c with gas := gas, pool := pool } := by
  unfold withGas
  split
  next t heq =>
    obtain ⟨rfl, -⟩ := Prod.mk.inj heq
    exact ⟨_, _, .inl ⟨t, rfl⟩⟩
  next heq =>
    obtain ⟨rfl, -⟩ := Prod.mk.inj heq
    exact ⟨_, _, .inr rfl⟩

private theorem Context.withGas_all {handler : Option GasHandler} {cost : UInt64}
    {f : Context W → Outcome (Context W)} (hc : ∀ gas pool, P { c with gas := gas, pool := pool })
    (hf : ∀ gas pool, (f { c with gas := gas, pool := pool }).All P) :
    (c.withGas handler cost f).All P := by
  obtain ⟨gas, pool, ⟨t, htrap⟩ | hnext⟩ := withGas_cases c handler cost f
  · rw [htrap]
    exact hc gas pool
  · rw [hnext]
    exact hf gas pool

/-- Validating reads traps and records it, or continues. -/
theorem withValidation_cases (c : Context W) (f : Context W → Outcome (Context W)) :
    (∃ mem t, c.mem.validateReadWatermark = (mem, some t) ∧ c.withValidation f =
      .trap { c with mem := mem, events := c.events ++ [.deferredOutOfBounds] } t) ∨
      ∃ mem, c.mem.validateReadWatermark = (mem, none) ∧
        c.withValidation f = f { c with mem := mem } := by
  unfold withValidation validateReadWatermark
  cases c.mem.validateReadWatermark with
  | mk mem t =>
    cases t with
    | none => exact .inr ⟨mem, rfl, rfl⟩
    | some t => exact .inl ⟨mem, t, rfl, rfl⟩

/-! ### Observations -/

/-- The part of a context that deferred reads are judged by. -/
structure Obs where
  mem : MemState
  pages : UInt32
  events : List Event

/-- Append an event to the record. -/
def Obs.record (o : Obs) (e : Event) : Obs := { o with events := o.events ++ [e] }

/-- Observable part of a context. -/
def Context.obs (c : Context W) : Obs := ⟨c.mem, c.pages, c.events⟩

/-- Address operand of an access: the operand popped last. -/
def Context.accessPtr (c : Context W) (o : Operands) : Value :=
  (c.os.take o.takes.length).getLastD (.i32 0)

/-- Function an instruction tail calls, if it is one that does. -/
def tailTarget (env : Env W) (c : Context W) : Instr → Option Nat
  | .tailCall index => some index
  | .tailCallIndirect index =>
    match c.os with
    | [] => none
    | v :: _ => (env.ops.tableElem c.world v.toUi32 (index >>> 16).toNat).toOption
  | _ => none

/-- Everything a step can do to the observable part, as the cases an invariant `Q` of it
has to be checked for. -/
structure ObsRule (env : Env W) (c : Context W) (i : Instr) (Q : Obs → Prop) : Prop where
  same : Q c.obs
  load : ∀ o ∈ plainOperands env.module i, ∀ offset width effective mem,
    memoryAccess i = some (.read, offset, width) →
    c.mem.popMemopAddrRead offset width (c.accessPtr o) = .ok (effective, mem) →
    Q (({ c.obs with mem := mem } : Obs).record
      (.load (decide (c.mem.InBounds offset width (c.accessPtr o)))))
  grow : ∀ pages : UInt32, i = .growMemory → c.pages ≤ pages →
    Q { c.obs with
      mem := { c.mem with memorySizeBytes := pages.toUInt64 * 65536 }
      pages := pages }
  rejected : ∀ mem t, c.mem.validateReadWatermark = (mem, some t) →
    Q (({ c.obs with mem := mem } : Obs).record .deferredOutOfBounds)
  validated : ∀ mem, c.mem.validateReadWatermark = (mem, none) → Q { c.obs with mem := mem }
  entered : ∀ mem f, c.mem.validateReadWatermark = (mem, none) →
    Q (({ c.obs with mem := mem } : Obs).record (.enterHost f))
  tailEntered : ∀ f ∈ tailTarget env c i, f < env.module.importedFunctionsSize →
    Q (c.obs.record (.enterHost f))

variable {Q : Obs → Prop}

/-- Steps on the stacks have no observable effect. -/
theorem lift_obs (hQ : Q c.obs) (o : Outcome Control) : (c.lift o).All (Q ·.obs) := by
  cases o with
  | undefined => trivial
  | next _ | host _ _ _ | trap _ _ | leave _ => exact hQ

private theorem visitBulk_obs (hQ : Q c.obs) (i : Instr) (downSrc : Bool)
    (backward : UInt32 → UInt32 → Bool) :
    (visitBulk env c i downSrc backward).All (Q ·.obs) := by
  unfold visitBulk
  split
  · split
    · exact hQ
    · dsimp only
      split
      · exact hQ
      · split
        · exact hQ
        · exact hQ
  · trivial

/-- Resolving the callee of an indirect call traps, at most with its slot popped, or continues
with the slot popped and a function of the expected type. -/
theorem withCallee_rule {index : UInt32} {f : Nat → Context W → Outcome (Context W)}
    {R : Outcome (Context W) → Prop} (hundef : R .undefined) (htrap : ∀ t, R (.trap c t))
    (hpop : ∀ slot rest t, c.os = slot :: rest → R (.trap { c with os := rest } t))
    (hf : ∀ slot rest fn ft, c.os = slot :: rest →
      env.ops.tableElem c.world slot.toUi32 (index >>> 16).toNat = .ok fn →
      env.module.types[(index &&& 0xFFFF).toNat]? = some ft →
      env.module.getFunctionType fn = some ft → R (f fn { c with os := rest })) :
    R (withCallee env c index f) := by
  unfold withCallee
  split
  · exact htrap _
  next slot rest hos =>
    dsimp only
    split
    · exact hpop slot rest _ hos
    next fn hfn =>
      split
      · exact hpop slot rest _ hos
      · split
        next expected actual hexpected hactual =>
          split
          next heq =>
            subst heq
            exact hf slot rest fn _ hos hfn hexpected hactual
          · exact hpop slot rest _ hos
        · exact hpop slot rest _ hos
        · exact hundef

namespace ObsRule

/-- Validation followed by a continuation that keeps the observable part. -/
theorem withValidation_all (h : ObsRule env c i Q) (hd : d.obs = c.obs)
    {f : Context W → Outcome (Context W)}
    (hf : ∀ mem, c.mem.validateReadWatermark = (mem, none) →
      (f { d with mem := mem }).All (Q ·.obs)) :
    (d.withValidation f).All (Q ·.obs) := by
  have hmem : d.mem = c.mem := congrArg Obs.mem hd
  rcases withValidation_cases d f with ⟨mem, t, hv, htrap⟩ | ⟨mem, hv, hnext⟩
  · rw [hmem] at hv
    have hQ := h.rejected mem t hv
    rw [← hd] at hQ
    rw [htrap]
    exact hQ
  · rw [hmem] at hv
    rw [hnext]
    exact hf mem hv

private theorem call_all (h : ObsRule env c i Q) (hd : d.obs = c.obs) (index : Nat) :
    (call env d index).All (Q ·.obs) := by
  have hQ : Q d.obs := hd ▸ h.same
  unfold call
  split
  · split
    next k _ =>
      refine h.withValidation_all ?_ ?_
      · exact hd
      · intro mem hv
        have hin := h.entered mem index hv
        rw [← hd] at hin
        exact hin
    · exact lift_obs hQ _
  · apply withGas_all
    · intro gas pool
      exact hQ
    · intro gas pool
      apply lift_obs
      exact hQ

private theorem tailCall_all (h : ObsRule env c i Q) (hd : d.obs = c.obs) (index : Nat)
    (htarget : index ∈ tailTarget env c i) : (tailCall env d index).All (Q ·.obs) := by
  have hQ : Q d.obs := hd ▸ h.same
  unfold tailCall
  split
  · trivial
  · dsimp only
    split
    next himp =>
      have hin := h.tailEntered index htarget himp
      rw [← hd] at hin
      split
      · exact hin
      · apply lift_obs
        exact hQ
    · apply withGas_all
      · intro gas pool
        exact hQ
      · intro gas pool
        apply lift_obs
        exact hQ

end ObsRule

/-- Growing memory leaves it as it is or sets a page count that is not smaller, and leaves the
stacks alone. -/
theorem growLinearMemory_cases {delta r : UInt32} (h : growLinearMemory env c delta = .ok (d, r)) :
    d.toControl = c.toControl ∧ (d.obs = c.obs ∨ ∃ pages, c.pages ≤ pages ∧ d.obs = { c.obs with
      mem := { c.mem with memorySizeBytes := pages.toUInt64 * 65536 }
      pages := pages }) := by
  unfold growLinearMemory at h
  split at h
  · cases h
    exact ⟨rfl, .inl rfl⟩
  · split at h
    · cases h
      exact ⟨rfl, .inl rfl⟩
    · split at h
      · cases h
        exact ⟨rfl, .inl rfl⟩
      · split at h
        · cases h
        next hlimit =>
          split at h
          · cases h
          · cases h
            refine ⟨rfl, .inr ⟨c.pages + delta, ?_, rfl⟩⟩
            have hle := env.allocLimit.toNat_lt
            rw [UInt32.le_iff_toNat_le, UInt32.toNat_add]
            omega

/-- Only `memory.grow` among the plain instructions changes the observable part when it
computes its result. -/
theorem plainResult_obs {o : Operands} {effective : UInt64} {vals results : List Value}
    (h : plainResult env c i o effective vals = .ok (d, results)) :
    d.obs = c.obs ∨ i = .growMemory ∧ ∃ pages, c.pages ≤ pages ∧ d.obs = { c.obs with
      mem := { c.mem with memorySizeBytes := pages.toUInt64 * 65536 }
      pages := pages } := by
  unfold plainResult at h
  split at h
  · cases h
    exact .inl rfl
  · split at h
    · cases h
    next hgrow =>
      cases h
      exact (growLinearMemory_cases hgrow).2.imp id fun hpages => ⟨rfl, hpages⟩
  · cases h
    exact .inl rfl
  · split at h
    · cases h
    · cases h
      exact .inl rfl

/-- An access is checked without an effect, or it is a load that is recorded. -/
theorem accessMemory_cases (c : Context W) (i : Instr) (vals : List Value) :
    (c.accessMemory i vals).1.toControl = c.toControl ∧ ((c.accessMemory i vals).1 = c ∨
      ∃ offset width effective mem, memoryAccess i = some (.read, offset, width) ∧
        c.mem.popMemopAddrRead offset width (vals.getLastD (.i32 0)) = .ok (effective, mem) ∧
        (c.accessMemory i vals).1.obs = ({ c.obs with mem := mem } : Obs).record
          (.load (decide (c.mem.InBounds offset width (vals.getLastD (.i32 0)))))) := by
  unfold accessMemory
  dsimp only
  split
  · exact ⟨rfl, .inl rfl⟩
  · exact ⟨rfl, .inl rfl⟩
  next offset width haccess =>
    split
    · exact ⟨rfl, .inl rfl⟩
    next effective mem hpop =>
      exact ⟨rfl, .inr ⟨offset, width, effective, mem, haccess, hpop, rfl⟩⟩

namespace ObsRule

section

variable (h : ObsRule env c i Q)

include h

private theorem visitPlain_all {o : Operands} (ho : plainOperands env.module i = some o) :
    (visitPlain env c i o).All (Q ·.obs) := by
  have hQ : Q c.obs := h.same
  unfold visitPlain
  split
  · exact hQ
  · dsimp only
    split
    · exact hQ
    · have hd : Q (c.accessMemory i (c.os.take o.takes.length)).1.obs := by
        rcases (accessMemory_cases c i (c.os.take o.takes.length)).2 with hsame | hload
        · rw [hsame]
          exact hQ
        · obtain ⟨offset, width, effective, mem, haccess, hpop, hobs⟩ := hload
          rw [hobs]
          exact h.load o ho offset width effective mem haccess hpop
      split
      next heq =>
        rw [heq] at hd
        exact hd
      next d effective heq =>
        rw [heq] at hd
        split
        · exact hd
        next e results hres =>
          change Q e.obs
          rcases plainResult_obs hres with hsame | ⟨hgrow, pages, hle, hpages⟩
          · rw [hsame]
            exact hd
          · -- growing accesses no memory, so the context is still the one before the step
            have hcd : d = c := by
              rw [hgrow] at heq
              exact (congrArg Prod.fst heq).symm
            rw [hpages, hcd]
            rw [hcd] at hle
            exact h.grow pages hgrow hle

private theorem visitOperands_all : (visitOperands env c i).All (Q ·.obs) := by
  unfold visitOperands
  split
  · trivial
  next o ho => exact h.visitPlain_all ho

private theorem visitContext_all : (visitContext env c i).All (Q ·.obs) := by
  have hQ : Q c.obs := h.same
  delta visitContext
  cases i with
  | call index =>
    exact h.call_all rfl _
  | callIndirect index =>
    refine withCallee_rule trivial (fun _ => hQ) (fun _ _ _ _ => hQ) ?_
    intro slot rest fn ft _ _ _ _
    apply h.call_all
    rfl
  | tailCall index =>
    exact h.tailCall_all rfl _ rfl
  | tailCallIndirect index =>
    refine withCallee_rule trivial (fun _ => hQ) (fun _ _ _ _ => hQ) ?_
    intro slot rest fn ft hos hfn _ _
    apply h.tailCall_all
    · rfl
    · rw [tailTarget, hos]
      exact congrArg Except.toOption hfn
  | memoryCopy | memoryFill =>
    exact visitBulk_obs hQ _ _ _
  | tableCopy index =>
    exact visitBulk_obs hQ _ _ _
  | gasCharge cost =>
    apply h.withValidation_all rfl
    intro mem hmem
    have hval := h.validated mem hmem
    apply withGas_all
    · intro gas pool
      exact hval
    · intro gas pool
      exact hval
  | _ =>
    exact h.visitOperands_all

/-- An invariant of the observable part that passes every case of the rule holds after the
instruction. -/
theorem visitInstr_all (n : Nat) : (visitInstr env c n i).All (Q ·.obs) := by
  unfold visitInstr
  split
  · exact lift_obs h.same _
  · exact h.visitContext_all

end

end ObsRule

/-- Opcode the interpreter loop is about to visit. -/
def Context.fetch (env : Env W) (c : Context W) : Option Instr :=
  match c.pc with
  | .code n => env.code[n]?
  | _ => none

/-- A visit executes the opcode that was fetched. -/
theorem visit_of_fetch (h : i ∈ c.fetch env) :
    ∃ n, c.pc = .code n ∧ visit env c = visitInstr env c n i := by
  unfold fetch at h
  split at h
  next n hpc =>
    refine ⟨n, hpc, ?_⟩
    have hi : env.code[n]? = some i := h
    rw [visit, hpc]
    dsimp only
    rw [hi]
  · cases h

/-- Without an opcode to visit the loop is left, or what happens is undefined. -/
theorem visit_cases (env : Env W) (c : Context W) :
    visit env c = .leave c ∨ visit env c = .undefined ∨
      ∃ i ∈ c.fetch env, ∃ n, c.pc = .code n ∧ visit env c = visitInstr env c n i := by
  cases h : c.fetch env with
  | none =>
    unfold visit
    split
    · exact .inl rfl
    · exact .inr (.inl rfl)
    next n hpc =>
      rw [fetch, hpc] at h
      dsimp only at h
      rw [h]
      exact .inr (.inl rfl)
  | some i => exact .inr (.inr ⟨i, rfl, visit_of_fetch h⟩)

private theorem visit_obs (hQ : Q c.obs) (h : ∀ i ∈ c.fetch env, ObsRule env c i Q) :
    (visit env c).All (Q ·.obs) := by
  rcases visit_cases env c with hleave | hundef | ⟨i, hi, n, -, hvisit⟩
  · rw [hleave]
    exact hQ
  · rw [hundef]
    trivial
  · rw [hvisit]
    exact (h i hi).visitInstr_all n

/-! ### Observations of a run -/

/-- Observable part an execution starts from: the embedder starts a new record. -/
def Machine.startObs (m : Machine W) : Obs :=
  if m.stack = [] then { m.ctx.obs with events := [] } else m.ctx.obs

/-- Cases an invariant `Q` of the observable part has to be checked for when a machine
takes a step. -/
structure MachineRule (env : Env W) (m : Machine W) (l : Label W) (Q : Obs → Prop) : Prop where
  same : Q m.ctx.obs
  start : ∀ func args, l = .enter func args → Q m.startObs
  direct : ∀ func args, l = .enter func args → func < env.module.importedFunctionsSize →
    Q (m.startObs.record (.enterHost func))
  visit : l = .visit → ∀ i ∈ m.ctx.fetch env, ObsRule env m.ctx i Q

private theorem obs_finish {s : Saved} {r : Except Trap (Option Value)}
    (h : finish outer c s r = some m) : m.ctx.obs = c.obs := by
  unfold finish cleanup at h
  split at h
  · cases h
  next heq =>
    split at heq
    · cases heq
      cases h
      rfl
    · cases heq

private theorem startExecution_obs (hQ : Q c.obs)
    (hin : func < env.module.importedFunctionsSize → Q (c.obs.record (.enterHost func))) :
    (startExecution env func c).All (Q ·.obs) := by
  unfold startExecution
  split
  next himp =>
    dsimp only
    split
    · exact hQ
    · exact hin himp
  · apply withGas_all
    · intro gas pool
      exact hQ
    · intro gas pool
      exact hQ

private theorem beginExecution_obs (hQ : Q c.obs)
    (hin : func < env.module.importedFunctionsSize → Q (c.obs.record (.enterHost func))) :
    (beginExecution env func args c).All (Q ·.obs) := by
  unfold beginExecution
  split
  · trivial
  · split
    · exact hQ
    · split
      · apply startExecution_obs
        · exact hQ
        · exact hin
      · exact lift_obs hQ _

/-- The context an execution starts from. -/
theorem Machine.exists_start (m : Machine W) :
    ∃ c, (if m.stack = [] then { m.ctx with events := [] } else m.ctx) = c ∧
      c.toControl = m.ctx.toControl ∧ c.obs = m.startObs := by
  refine ⟨_, rfl, ?_, ?_⟩
  · rw [apply_ite toControl, ite_self]
  · rw [startObs, apply_ite obs]
    rfl

private theorem enter_obs (hstart : Q m.startObs)
    (hin : func < env.module.importedFunctionsSize → Q (m.startObs.record (.enterHost func)))
    (h : m.enter env func args = some m') : Q m'.ctx.obs := by
  unfold Machine.enter at h
  obtain ⟨c, hc, -, hobs⟩ := m.exists_start
  rw [hc] at h
  rw [← hobs] at hstart hin
  dsimp only at h
  split at h
  · cases h
    exact hstart
  · have hbegin : (beginExecution env func args
        { c with asIndex := c.as.length, osIndex := c.os.length }).All (Q ·.obs) :=
      beginExecution_obs hstart hin
    split at h
    next heq =>
      rw [heq] at hbegin
      cases h
      exact hbegin
    next heq =>
      rw [heq] at hbegin
      cases h
      exact hbegin
    next heq =>
      rw [heq] at hbegin
      rw [obs_finish h]
      exact hbegin
    · cases h
    · cases h

private theorem hostReturn_obs {f depth : Nat} {entry : HostEntry} {saved : Saved} {bits : UInt64}
    (h : m.hostReturn env f entry depth func saved outer bits = some m') :
    m'.ctx.obs = m.ctx.obs := by
  unfold Machine.hostReturn at h
  dsimp only at h
  split at h
  · rw [obs_finish h]
    rfl
  · rw [obs_finish h]
    rfl
  · cases h
    rfl
  · cases h
    rfl

/-- An invariant of the observable part that passes every case of the rule holds after the
step. -/
theorem MachineRule.step {l : Label W} (hrule : MachineRule env m l Q) (h : m.step env l = some m')
    : Q m'.ctx.obs := by
  have hQ := hrule.same
  unfold Machine.step at h
  split at h
  next func args =>
    split at h
    · cases h
    · exact enter_obs (hrule.start func args rfl) (hrule.direct func args rfl) h
  · split at h
    · have hvisit := visit_obs hQ (hrule.visit rfl)
      unfold Machine.visit at h
      split at h
      next heq =>
        rw [heq] at hvisit
        cases h
        exact hvisit
      next heq =>
        rw [heq] at hvisit
        cases h
        exact hvisit
      next heq =>
        rw [heq] at hvisit
        rw [obs_finish h]
        exact hvisit
      next heq =>
        rw [heq] at hvisit
        rw [obs_finish h]
        exact hvisit
      · cases h
    · cases h
  · split at h
    · cases h
      exact hQ
    · cases h
  · split at h
    · cases h
      exact hQ
    · cases h
  · split at h
    · rw [obs_finish h]
      exact hQ
    · cases h
  · split at h
    · rw [hostReturn_obs h]
      exact hQ
    · cases h

end PsiServe.Interp
