import Mathlib.Data.List.Infix
import PsiServe.Interp.StackStep

/-!
# Annotated bitcode

What is known about the running function at a position of its code: the `try_table` scopes
around it, innermost first, and the alternatives of its operands, topmost first, when the
position can be reached. `InstrOk` says that an opcode respects the annotation of its
position and what it passes on to the positions it continues at. Nothing here is computed
by the program; `PsiServe.Typing.Preservation` shows that runs of annotated code keep to
the annotation, and `PsiServe.Typing.Emission` that the parser emits code that has one.
-/

namespace PsiServe.Typing

open Wasm Bitcode Interp

/-! ### Annotations -/

/-- Annotation of a position. A `try_table` scope is represented by the operands below its
parameters, which the code inside it leaves alone. `ops` is `none` where nothing is said
about the operands. -/
structure Ann where
  tries : List (List Kind)
  ops : Option (List Kind)

/-- Control may pass from a place annotated `a` to one annotated `b`. -/
def Flow (a b : Ann) : Prop := b.tries = a.tries ∧ ∀ ts, a.ops = some ts → b.ops = some ts

/-- An annotation fits itself. -/
theorem Flow.refl (a : Ann) : Flow a a := ⟨rfl, fun _ h => h⟩

/-- Stacks that fit are passed on. -/
theorem Flow.trans {a b c : Ann} (h : Flow a b) (h' : Flow b c) : Flow a c :=
  ⟨h'.1.trans h.1, fun ts hts => h'.2 ts (h.2 ts hts)⟩

/-- The operands `rest` include those the scopes `tries` leave alone. -/
def Guarded (tries : List (List Kind)) (rest : List Kind) : Prop := ∀ kept ∈ tries, kept <:+ rest

/-- Alternatives of a list of types with the last on top of the stack. -/
def topKinds (ts : List ValueType) : List Kind := (ts.map kindOf).reverse

/-- Each type has an alternative. -/
@[simp] theorem length_topKinds (ts : List ValueType) : (topKinds ts).length = ts.length := by
  simp [topKinds]

/-- A function as its code sees it: parameters and locals in order, and results, topmost
first. -/
structure FnShape where
  slots : List Kind
  results : List Kind

/-- Operands an instruction takes and gives, topmost first, where it continues with the
next one. -/
inductive Moves (m : Module) (fn : FnShape) : Instr → List Kind → List Kind → Prop
  | nop : Moves m fn .nop [] []
  | gasCharge (cost : Int) : Moves m fn (.gasCharge cost) [] []
  | plain {i : Instr} {o : Operands} (h : plainOperands m i = some o) : Moves m fn i o.takes o.gives
  | drop (k : Kind) : Moves m fn .drop [k] []
  | select (k : Kind) : Moves m fn .select [.i32, k, k] [k]
  | getLocal {i : Nat} {k : Kind} (h : fn.slots[i]? = some k) : Moves m fn (.getLocal i) [] [k]
  | setLocal {i : Nat} {k : Kind} (h : fn.slots[i]? = some k) : Moves m fn (.setLocal i) [k] []
  | teeLocal {i : Nat} {k : Kind} (h : fn.slots[i]? = some k) : Moves m fn (.teeLocal i) [k] [k]
  | bulk {i : Instr} (h : IsBulk i) : Moves m fn i [.i32, .i32, .i32] []
  | call {f : Nat} {ft : FuncType} (h : m.getFunctionType f = some ft) :
      Moves m fn (.call f) (topKinds ft.paramTypes) (topKinds ft.returnTypes)
  | callIndirect {index : UInt32} {ft : FuncType}
      (h : m.types[(index &&& 0xFFFF).toNat]? = some ft) :
      Moves m fn (.callIndirect index) (.i32 :: topKinds ft.paramTypes) (topKinds ft.returnTypes)

/-- The annotation after popping operands. -/
def Pops (a : Ann) (takes : List Kind) (b : Ann) : Prop :=
  b.tries = a.tries ∧
    ∀ ts, a.ops = some ts → ∃ rest, ts = takes ++ rest ∧ b.ops = some rest

/-- The annotation a branch arrives with that leaves some scopes and whose word says how
many operands it removes and keeps. -/
def Branches (a : Ann) (data leaves : Nat) (b : Ann) : Prop :=
  leaves ≤ a.tries.length ∧ b.tries = a.tries.drop leaves ∧
    ∀ ts, a.ops = some ts → ∃ lab mid rest, ts = lab ++ mid ++ rest ∧
      data % 2 ^ 24 = lab.length + mid.length ∧ data / 2 ^ 24 = lab.length ∧
      b.ops = some (lab ++ rest)

/-- Types whose values an exception carries in their own alternative;
`interpret_visitor.hpp:3319–3325`. -/
def IsPayloadType (t : ValueType) : Prop :=
  t = types.i32 ∨ t = types.i64 ∨ t = types.f32 ∨ t = types.f64

instance (t : ValueType) : Decidable (IsPayloadType t) :=
  inferInstanceAs (Decidable (_ ∨ _ ∨ _ ∨ _))

/-- Operands a catch clause of a kind and tag leaves for its handler. -/
inductive CatchPushes (m : Module) : UInt8 → Nat → List Kind → Prop
  | tag {tag : Nat} {ft : FuncType} (h : m.tagType tag = some ft)
      (hpayload : ∀ t ∈ ft.paramTypes, IsPayloadType t) :
      CatchPushes m 0 tag (topKinds ft.paramTypes)
  | all (tag : Nat) : CatchPushes m 2 tag []

/-! ### Opcodes -/

section

variable (m : Module) (fn : FnShape) (clause : Nat → UInt32 → Nat → UInt32 → Prop)
  (reach : Nat → Ann → Prop) (target : Nat → Nat → Ann → Prop) (n : Nat) (a : Ann)

/-- An instruction that continues with the next one. -/
def Straight (i : Instr) : Prop :=
  ∃ b, b.tries = a.tries ∧ reach (n + 1) b ∧
    ∀ ts, a.ops = some ts → ∃ takes gives rest, Moves m fn i takes gives ∧
      ts = takes ++ rest ∧ Guarded a.tries rest ∧ b.ops = some (gives ++ rest)

/-- The clause in the slots from `c` of a `try_table` annotated `a`: its handler finds the
payload on the operands that were there outside the target's scope. -/
def ClauseOk (kept : List Kind) (c : Nat) : Prop :=
  ∃ data depthChange leaves b, clause c data depthChange leaves ∧ target (c + 1) 0 b ∧
    leaves.toNat ≤ a.tries.length ∧ b.tries = a.tries.drop leaves.toNat ∧
    ∀ ts, a.ops = some ts → ∃ payload,
      CatchPushes m (data >>> 24).toUInt8 (data &&& 0x00FFFFFF).toNat payload ∧
      depthChange ≤ ts.length ∧ ts.drop depthChange <:+ kept ∧
      b.ops = some (payload ++ ts.drop depthChange)

/-- A `try_table` with a number of clauses. -/
def TryOk (clauses : Nat) : Prop :=
  if clauses = 0 then reach (n + 1) a
  else ∃ kept, reach (n + 1 + 2 * clauses) ⟨kept :: a.tries, a.ops⟩ ∧
    (∀ ts, a.ops = some ts → kept <:+ ts) ∧
    ∀ j < clauses, ClauseOk m clause target a kept (n + 1 + 2 * j)

/-- An opcode at position `n` respects the annotation `a`: `reach k b` says that control
may continue at `k` as `b` describes, `target k e b` that it may at the branch target `e`
of the opcode at `k`, and `clause c` what the clause slots from `c` hold. -/
def InstrOk : Instr → Prop
  | .unreachable => True
  | .rethrow _ => True
  | .if_ _ => ∃ b, Pops a [.i32] b ∧ reach (n + 1) b ∧ target n 0 b
  | .else_ _ => target n 0 a
  | .catch_ _ _ => target n 0 a
  | .catchAll _ => target n 0 a
  | .br data _ => ∃ b, Branches a data 0 b ∧ target n 0 b
  | .brIf data _ leaves => ∃ b c, Pops a [.i32] b ∧ reach (n + 1) b ∧
      Branches b data leaves c ∧ target n 0 c
  | .brTable _ table => ∃ b, Pops a [.i32] b ∧ ∀ e x, table[e]? = some x →
      ∃ c, Branches b x.stackPop x.ehLeaveCount c ∧ target n e c
  | .return_ data pc _ => a.tries = [] ∧ ∀ ts, a.ops = some ts →
      ts = fn.results ∧ data = fn.slots.length ∧ pc % 2 ^ 16 = fn.results.length
  | .tailCall f => a.tries = [] ∧ ∀ ts, a.ops = some ts → ∃ ft rest,
      m.getFunctionType f = some ft ∧ ts = topKinds ft.paramTypes ++ rest ∧
      topKinds ft.returnTypes = fn.results
  | .tailCallIndirect index => a.tries = [] ∧ ∀ ts, a.ops = some ts → ∃ ft rest,
      m.types[(index &&& 0xFFFF).toNat]? = some ft ∧
      ts = .i32 :: topKinds ft.paramTypes ++ rest ∧ topKinds ft.returnTypes = fn.results
  | .throw_ tag => ∀ ts, a.ops = some ts → ∃ ft rest, m.tagType tag = some ft ∧
      ts = topKinds ft.paramTypes ++ rest ∧ Guarded a.tries rest
  | .throwRef => ∀ ts, a.ops = some ts → ∃ rest, ts = .i32 :: rest ∧ Guarded a.tries rest
  | .delegate _ => ∃ kept tries, a.tries = kept :: tries ∧ reach (n + 1) ⟨tries, a.ops⟩
  | .tryTable data _ => TryOk m clause reach target n a data.toNat
  | .exit => False
  | .error => False
  | .brTableData => False
  | i => Straight m fn reach n a i

end

variable {i : Instr}

/-- An opcode respects its annotation at another position, the better the more it may
continue with. -/
theorem InstrOk.shift {m : Module} {fn : FnShape}
    {clause clause' : Nat → UInt32 → Nat → UInt32 → Prop} {reach reach' : Nat → Ann → Prop}
    {target target' : Nat → Nat → Ann → Prop} {n : Nat} {a : Ann} (base : Nat)
    (hclause : ∀ c d x l, clause c d x l → clause' (base + c) d x l)
    (hreach : ∀ k b, reach k b → reach' (base + k) b)
    (htarget : ∀ k e b, target k e b → target' (base + k) e b)
    (h : InstrOk m fn clause reach target n a i) :
    InstrOk m fn clause' reach' target' (base + n) a i := by
  have hstraight : Straight m fn reach n a i → Straight m fn reach' (base + n) a i := by
    rintro ⟨b, htries, hb, hops⟩
    exact ⟨b, htries, hreach _ _ hb, hops⟩
  cases i with
  | unreachable | rethrow _ | return_ _ _ _ | tailCall _ | tailCallIndirect _ | throw_ _
  | throwRef | exit | error | brTableData => exact h
  | if_ _ =>
    obtain ⟨b, hpops, hb, ht⟩ := h
    exact ⟨b, hpops, hreach _ _ hb, htarget _ _ _ ht⟩
  | else_ _ | catch_ _ _ | catchAll _ => exact htarget _ _ _ h
  | br _ _ =>
    obtain ⟨b, hbr, ht⟩ := h
    exact ⟨b, hbr, htarget _ _ _ ht⟩
  | brIf _ _ _ =>
    obtain ⟨b, c, hpops, hb, hbr, ht⟩ := h
    exact ⟨b, c, hpops, hreach _ _ hb, hbr, htarget _ _ _ ht⟩
  | brTable _ _ =>
    obtain ⟨b, hpops, hcases⟩ := h
    refine ⟨b, hpops, fun e x hx => ?_⟩
    obtain ⟨c, hbr, ht⟩ := hcases e x hx
    exact ⟨c, hbr, htarget _ _ _ ht⟩
  | delegate _ =>
    obtain ⟨kept, tries, htries, hb⟩ := h
    exact ⟨kept, tries, htries, hreach _ _ hb⟩
  | tryTable data _ =>
    change TryOk m clause' reach' target' (base + n) a data.toNat
    change TryOk m clause reach target n a data.toNat at h
    unfold TryOk at h ⊢
    split
    next hzero =>
      rw [if_pos hzero] at h
      exact hreach _ _ h
    next hne =>
      rw [if_neg hne] at h
      obtain ⟨kept, hb, hkept, hclauses⟩ := h
      rw [add_assoc base n 1, add_assoc base (n + 1)]
      refine ⟨kept, hreach _ _ hb, hkept, fun j hj => ?_⟩
      obtain ⟨d, x, l, b, hc, ht, hrest⟩ := hclauses j hj
      rw [add_assoc base (n + 1)]
      exact ⟨d, x, l, b, hclause _ _ _ _ hc, htarget _ _ _ ht, hrest⟩
  | _ => exact hstraight h

/-- More may be reachable than an opcode needs. -/
theorem InstrOk.mono {m : Module} {fn : FnShape}
    {clause clause' : Nat → UInt32 → Nat → UInt32 → Prop} {reach reach' : Nat → Ann → Prop}
    {target target' : Nat → Nat → Ann → Prop} {n : Nat} {a : Ann}
    (hclause : ∀ c d x l, clause c d x l → clause' c d x l) (hreach : ∀ k b, reach k b → reach' k b)
    (htarget : ∀ k e b, target k e b → target' k e b) (h : InstrOk m fn clause reach target n a i) :
    InstrOk m fn clause' reach' target' n a i := by
  have hshift : InstrOk m fn clause' reach' target' (0 + n) a i := by
    refine h.shift 0 (fun c d x l hc => ?_) (fun k b hb => ?_) fun k e b ht => ?_
    · exact (zero_add c).symm ▸ hclause c d x l hc
    · exact (zero_add k).symm ▸ hreach k b hb
    · exact (zero_add k).symm ▸ htarget k e b ht
  rwa [zero_add] at hshift

/-- Instructions with fixed operands continue with the next one. -/
theorem InstrOk.straight {m : Module} {fn : FnShape} {clause : Nat → UInt32 → Nat → UInt32 → Prop}
    {reach : Nat → Ann → Prop} {target : Nat → Nat → Ann → Prop} {n : Nat} {a : Ann} {o : Operands}
    (ho : plainOperands m i = some o) (h : InstrOk m fn clause reach target n a i) :
    Straight m fn reach n a i := by
  cases i with
  | unreachable | rethrow _ | if_ _ | else_ _ | catch_ _ _ | catchAll _ | br _ _ | brIf _ _ _
  | brTable _ _ | return_ _ _ _ | tailCall _ | tailCallIndirect _ | throw_ _ | throwRef
  | delegate _ | tryTable _ _ | exit | error | brTableData => cases ho
  | _ => exact h

/-- The operands of an instruction with fixed ones. -/
theorem Moves.of_plain {m : Module} {fn : FnShape} {o : Operands} {takes gives : List Kind}
    (ho : plainOperands m i = some o) (h : Moves m fn i takes gives) :
    takes = o.takes ∧ gives = o.gives := by
  cases h with
  | plain ho' =>
    obtain rfl := Option.some.inj (ho.symm.trans ho')
    exact ⟨rfl, rfl⟩
  | bulk hbulk =>
    unfold IsBulk at hbulk
    split at hbulk
    · cases ho
    · cases ho
    · cases ho
    · exact hbulk.elim
  | nop | gasCharge _ | drop _ | select _ | getLocal _ | setLocal _ | teeLocal _ | call _
  | callIndirect _ => cases ho

/-! ### Programs -/

/-- Branch target of an opcode. -/
def targetPc (entry : Nat) : Instr → Option Nat
  | .if_ pc | .else_ pc | .br _ pc | .brIf _ pc _ | .catch_ _ pc | .catchAll pc
  | .tryTable _ pc => some pc
  | .brTable _ table => (table[entry]?).map BrTableElem.pc
  | _ => none

/-- The slots of a catch clause. -/
def ClauseAt (code : List Instr) (c : Nat) (data : UInt32) (depthChange : Nat)
    (leaves : UInt32) : Prop :=
  ∃ pc, code[c]? = some (.tryTable data depthChange) ∧ code[c + 1]? = some (.tryTable leaves pc)

/-- Annotations of the code of a program, with the function each position belongs to. -/
abbrev Annotation := Nat → Option (FnShape × Ann)

/-- Control may continue at a position of a function as an annotation describes. -/
def Goes (ann : Annotation) (fn : FnShape) (n : Nat) (a : Ann) : Prop :=
  ∃ b, ann n = some (fn, b) ∧ Flow a b

/-- Control may continue at a branch target of the opcode at a position. -/
def GoesTo (ann : Annotation) (code : List Instr) (fn : FnShape) (n entry : Nat) (a : Ann) : Prop :=
  ∃ i pc, code[n]? = some i ∧ targetPc entry i = some pc ∧ Goes ann fn pc a

/-- An annotation of the position in a state. -/
theorem Goes.of_pc {ann : Annotation} {fn : FnShape} {a : Ann} {pc : Pc} {n : Nat}
    (h : Goes ann fn n a) (hpc : pc = .code n) : ∀ n', pc = .code n' → Goes ann fn n' a := by
  intro n' hn'
  rw [← Pc.code.inj (hpc.symm.trans hn')]
  exact h

/-- A target that is filled in has its annotation. -/
theorem GoesTo.goes {ann : Annotation} {code : List Instr} {fn : FnShape} {n entry pc : Nat}
    {a : Ann} (h : GoesTo ann code fn n entry a) (hcode : code[n]? = some i)
    (hpc : targetPc entry i = some pc) : Goes ann fn pc a := by
  obtain ⟨i', pc', hcode', hpc', hgoes⟩ := h
  obtain rfl := Option.some.inj (hcode.symm.trans hcode')
  obtain rfl := Option.some.inj (hpc.symm.trans hpc')
  exact hgoes

/-- A defined function of a program as its code sees it. -/
def shape (p : Program) (f : Nat) (ft : FuncType) : FnShape where
  slots := (ft.paramTypes ++
    localTypes ((p.locals[f - p.module.importedFunctionsSize]?).getD [])).map kindOf
  results := topKinds ft.returnTypes

/-- Imports are mapped to host functions of the declared types, with at most one result and
that of a number type. -/
def HostsLinked (p : Program) : Prop := ∀ f ft, f < p.module.importedFunctionsSize →
  p.module.getFunctionType f = some ft → p.hostSignature f = ft ∧
    ft.returnTypes.length ≤ 1 ∧ ∀ t ∈ ft.returnTypes, IsPayloadType t

/-- The annotation at the entry of a function; `chk` says whether operands are checked. -/
def entryAnn (chk : Bool) : Ann := ⟨[], if chk then some [] else none⟩

/-- Every annotated opcode of a program respects its annotation, and every defined function
starts at an annotated one. -/
structure Typed (p : Program) (chk : Bool) (ann : Annotation) : Prop where
  code : ∀ n fn a, ann n = some (fn, a) → ∃ i, p.code[n]? = some i ∧
    InstrOk p.module fn (ClauseAt p.code) (Goes ann fn) (GoesTo ann p.code fn) n a i
  entry : ∀ f ft n, p.module.importedFunctionsSize ≤ f →
    p.module.getFunctionType f = some ft → functionEntry p f = .code n →
    Goes ann (shape p f ft) n (entryAnn chk)

end PsiServe.Typing
