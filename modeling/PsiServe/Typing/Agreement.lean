import PsiServe.Parser.WellFormed
import PsiServe.Typing.Emission

/-!
# Signatures of the parser and operands of the interpreter

For each instruction without control flow, the types the parser pops and pushes
(`PsiServe.Parser.Signature`) against the alternatives the interpreter reads and writes
(`PsiServe.Interp.Operands`). They agree except for two atomic opcodes, whose 64-bit
values the parser types as 32-bit ones, and for the bulk memory instructions on a 64-bit
memory.
-/

namespace PsiServe.Typing

open Base Wasm Bitcode Interp PsiServe.Parser

/-- Instructions whose operands the parser types as the interpreter reads them. -/
def sameOperands (m : Module) : Instr → Bool
  | .atomic sub _ _ => sub ≠ 0x11 && sub ≠ 0x18
  | .memoryInit _ | .memoryCopy | .memoryFill => !m.isMemory64
  | _ => true

/-- The types of a signature are those of the operands an instruction exchanges. -/
def Agrees (s : Signature) (o : Operands) : Prop :=
  s.pops.map kindOf = o.takes ∧ topKinds s.pushes = o.gives ∧ (∀ t ∈ s.pops, Plain t) ∧
    ∀ t ∈ s.pushes, Plain t

instance (s : Signature) (o : Operands) : Decidable (Agrees s o) :=
  inferInstanceAs (Decidable (_ ∧ _ ∧ _ ∧ _))

private theorem numeric_agrees {op : UInt8} (h : 0x45 ≤ op ∧ op ≤ 0xC4) :
    Agrees (numericSignature op) (numericOperands op) := by
  have hall : ∀ n : Fin 256, 0x45 ≤ UInt8.ofFin n ∧ UInt8.ofFin n ≤ 0xC4 →
      Agrees (numericSignature (UInt8.ofFin n)) (numericOperands (UInt8.ofFin n)) := by
    decide +kernel
  exact hall op.toFin h

private theorem truncSat_agrees (sub : Nat) : Agrees (truncSatSignature sub)
    (truncSatOperands sub) := by
  unfold truncSatSignature truncSatOperands
  split
  · decide
  · split
    · decide
    · split
      · decide
      · decide

private theorem load_agrees (op : UInt8) : kindOf (loadRule op).2 = (loadAccess op).2 ∧
    Plain (loadRule op).2 := by
  have hall : ∀ n : Fin 256, kindOf (loadRule (UInt8.ofFin n)).2 =
      (loadAccess (UInt8.ofFin n)).2 ∧ Plain (loadRule (UInt8.ofFin n)).2 := by decide +kernel
  exact hall op.toFin

private theorem store_agrees (op : UInt8) : kindOf (storeRule op).2 = (storeAccess op).2 ∧
    Plain (storeRule op).2 := by
  have hall : ∀ n : Fin 256, kindOf (storeRule (UInt8.ofFin n)).2 =
      (storeAccess (UInt8.ofFin n)).2 ∧ Plain (storeRule (UInt8.ofFin n)).2 := by decide +kernel
  exact hall op.toFin

private theorem vecLane_agrees (sub : Nat) : Agrees (laneRule sub).2 (vecLaneOperands sub) := by
  by_cases hsub : sub < 35
  · have hall : ∀ n : Fin 35, Agrees (laneRule n).2 (vecLaneOperands n) := by decide +kernel
    exact hall ⟨sub, hsub⟩
  · have hne : ∀ n, n < 35 → sub ≠ n := by
      intro n hn heq
      omega
    simp only [laneRule, vecLaneOperands, hne _ (by decide : 21 < 35), hne _ (by decide : 22 < 35),
      hne _ (by decide : 23 < 35), hne _ (by decide : 24 < 35), hne _ (by decide : 25 < 35),
      hne _ (by decide : 26 < 35), hne _ (by decide : 27 < 35), hne _ (by decide : 28 < 35),
      hne _ (by decide : 29 < 35), hne _ (by decide : 30 < 35), hne _ (by decide : 31 < 35),
      hne _ (by decide : 32 < 35), hne _ (by decide : 33 < 35), or_self, if_false]
    decide

variable {sub : Nat} {s : Signature} {m : Module}

/-- The codes of a list of groups are bounded by the last codes. -/
theorem le_of_inRanges {ranges : List (Nat × Nat)} {bound : Nat}
    (h : inRanges ranges sub = true) (hbound : ∀ r ∈ ranges, r.2 ≤ bound) : sub ≤ bound := by
  obtain ⟨r, hr, hin⟩ := List.any_eq_true.mp h
  rw [Bool.and_eq_true, decide_eq_true_iff, decide_eq_true_iff] at hin
  exact hin.2.trans (hbound r hr)

private theorem vecNumeric_agrees (h : vecNumericSignature sub = some s) :
    Agrees s (vecNumericOperands sub) := by
  have hle : sub ≤ 261 := by
    unfold vecNumericSignature at h
    split at h
    · omega
    split at h
    · omega
    split at h
    · omega
    split at h
    · omega
    split at h
    next hin => exact le_of_inRanges hin (by decide)
    split at h
    next hin => exact le_of_inRanges hin (by decide)
    split at h
    next hin => exact le_of_inRanges hin (by decide)
    split at h
    next hin => exact le_of_inRanges hin (by decide)
    split at h
    · omega
    · cases h
  have hall : ∀ n : Fin 262, ∀ s ∈ vecNumericSignature n, Agrees s (vecNumericOperands n) := by
    decide +kernel
  exact hall ⟨sub, Nat.lt_succ_of_le hle⟩ s h

private theorem kindOf_memAddrType (m : Module) : kindOf m.memAddrType = addrKind m := by
  unfold Module.memAddrType addrKind
  split
  · rfl
  · rfl

private theorem plain_memAddrType (m : Module) : Plain m.memAddrType := by
  unfold Module.memAddrType
  split
  · decide
  · decide

/-- A module with a memory of either kind. -/
def withMemory (isMemory64 : Bool) : Module :=
  ⟨[], [], [], [], [⟨⟨false, 0, 0⟩, isMemory64⟩], [], [], [], none⟩

private theorem atomic_plain : (∀ t ∈ (atomicSignature m sub).pops, Plain t) ∧
      ∀ t ∈ (atomicSignature m sub).pushes, Plain t := by
  have haddr := plain_memAddrType m
  have hi32 : Plain types.i32 := by decide
  have hi64 : Plain types.i64 := by decide
  have hrmw : Plain (if atomicRmwIs64 sub = true then types.i64 else types.i32) := by
    split
    · exact hi64
    · exact hi32
  unfold atomicSignature
  dsimp only
  generalize (if atomicRmwIs64 sub = true then types.i64 else types.i32) = rmw at hrmw ⊢
  split_ifs
  all_goals simp [haddr, hi32, hi64, hrmw]

private theorem atomic_agrees (hsub : sub ≤ 0x03 ∨ 0x10 ≤ sub ∧ sub ≤ 0x4E)
    (hne : sub ≠ 0x11 ∧ sub ≠ 0x18) : Agrees (atomicSignature m sub) (atomicOperands m sub) := by
  have hall : ∀ (b : Bool) (n : Fin 79), (n.val ≤ 0x03 ∨ 0x10 ≤ n.val) →
      n.val ≠ 0x11 ∧ n.val ≠ 0x18 →
      Agrees (atomicSignature (withMemory b) n) (atomicOperands (withMemory b) n) := by
    decide +kernel
  -- only the width of addresses matters
  exact hall m.isMemory64 ⟨sub, by omega⟩ (hsub.imp id And.left) hne

/-! ### Plain instructions -/

/-- The signature of an instruction: its types are those of operands, and the interpreter
exchanges operands of these types. -/
structure SignatureOk (e : BodyEnv) (i : Instr) (s : Signature) : Prop where
  pops : ∀ t ∈ s.pops, Plain t
  pushes : ∀ t ∈ s.pushes, Plain t
  moves : sameOperands e.m i = true →
    Moves e.m (bodyShape e) i (s.pops.map kindOf) (topKinds s.pushes)

section

variable {e : BodyEnv} {i : Instr} {o : Operands} {t : ValueType} {index : Nat}

private theorem Agrees.moves (h : Agrees s o) (ho : plainOperands e.m i = some o) :
    Moves e.m (bodyShape e) i (s.pops.map kindOf) (topKinds s.pushes) := by
  rw [h.1, h.2.1]
  exact .plain ho

private theorem SignatureOk.of_agrees (ho : plainOperands e.m i = some o) (h : Agrees s o) :
    SignatureOk e i s := ⟨h.2.2.1, h.2.2.2, fun _ => h.moves ho⟩

private theorem localType_ok {locals : List ValueType} (h : localType locals index = .ok t) :
    locals[index]? = some t := by
  unfold localType at h
  split at h
  · cases h
  next heq =>
    cases h
    exact heq

private theorem globalType_ok {g : GlobalType} (h : globalType e index = .ok g) :
    e.m.globals[index]? = some g := by
  unfold globalType at h
  split at h
  · cases h
  next heq =>
    cases h
    exact heq

private theorem tableElement_ok {table : Nat} {text : String}
    (h : tableElement e table text = .ok t) : t = types.funcref ∨ t = types.externref := by
  unfold tableElement at h
  split at h
  · cases h
  next tt heq =>
    cases h
    exact tt.element_valid

private theorem kindOf_ref (h : t = types.funcref ∨ t = types.externref) : kindOf t = .i32 ∧
    Plain t := by
  rcases h with rfl | rfl
  · decide
  · decide

private theorem constType_agrees (v : Value) : kindOf (constType v) = v.kind ∧ Plain
    (constType v) := by
  cases v with
  | i32 => exact ⟨rfl, (by decide : Plain types.i32)⟩
  | i64 => exact ⟨rfl, (by decide : Plain types.i64)⟩
  | f32 => exact ⟨rfl, (by decide : Plain types.f32)⟩
  | f64 => exact ⟨rfl, (by decide : Plain types.f64)⟩
  | v128 => exact ⟨rfl, (by decide : Plain types.v128)⟩

/-- The parser's signature of a plain instruction. -/
theorem plainSignature_ok (hlocals : ∀ t ∈ e.locals, IsValueType t) (hok : PlainOk i)
    (h : plainSignature e i = .ok s) : SignatureOk e i s := by
  have hslot : ∀ (index : Nat) t, e.locals[index]? = some t →
      (bodyShape e).slots[index]? = some (kindOf t) := by
    intro index t ht
    change (e.locals.map kindOf)[index]? = _
    rw [List.getElem?_map, ht]
    rfl
  have hplain : ∀ (index : Nat) t, e.locals[index]? = some t → Plain t :=
    fun index t ht => plain_of_isValueType (hlocals t (List.mem_of_getElem? ht))
  have haddr := kindOf_memAddrType e.m
  have haddr' := plain_memAddrType e.m
  have haddr32 : (!e.m.isMemory64) = true → addrKind e.m = .i32 := by
    intro h64
    rw [addrKind, if_neg (by simpa using h64)]
  have hi32 : kindOf types.i32 = .i32 ∧ Plain types.i32 := by decide
  have hv128 : kindOf types.v128 = .v128 ∧ Plain types.v128 := by decide
  cases i with
  | getLocal index =>
    obtain ⟨t, ht, h⟩ := bind_eq_ok.mp h
    cases h
    have ht := localType_ok ht
    exact ⟨by simp, by simpa using hplain index t ht, fun _ => .getLocal (hslot index t ht)⟩
  | setLocal index =>
    obtain ⟨t, ht, h⟩ := bind_eq_ok.mp h
    cases h
    have ht := localType_ok ht
    exact ⟨by simpa using hplain index t ht, by simp, fun _ => .setLocal (hslot index t ht)⟩
  | teeLocal index =>
    obtain ⟨t, ht, h⟩ := bind_eq_ok.mp h
    cases h
    have ht := localType_ok ht
    exact ⟨by simpa using hplain index t ht, by simpa using hplain index t ht,
      fun _ => .teeLocal (hslot index t ht)⟩
  | getGlobal index =>
    obtain ⟨g, hg, h⟩ := bind_eq_ok.mp h
    cases h
    have hvalid := plain_of_isValueType (.inl g.content_valid)
    refine .of_agrees (o := ⟨[], [kindOf g.contentType]⟩) ?_
      ⟨rfl, rfl, by simp, by simpa using hvalid⟩
    delta plainOperands
    dsimp only
    rw [globalType_ok hg]
  | setGlobal index =>
    obtain ⟨g, hg, h⟩ := bind_eq_ok.mp h
    have h := then_eq_ok h
    cases h
    have hvalid := plain_of_isValueType (.inl g.content_valid)
    refine .of_agrees (o := ⟨[kindOf g.contentType], []⟩) ?_
      ⟨rfl, rfl, by simpa using hvalid, by simp⟩
    delta plainOperands
    dsimp only
    rw [globalType_ok hg]
  | tableGet _ | tableSet _ | tableGrow _ | tableFill _ =>
    obtain ⟨t, ht, h⟩ := bind_eq_ok.mp h
    cases h
    obtain ⟨hkind, hplain⟩ := kindOf_ref (tableElement_ok ht)
    exact .of_agrees rfl (by simp [Agrees, topKinds, hkind, hplain, hi32])
  | refNull t =>
    cases h
    obtain ⟨hkind, hplain⟩ := kindOf_ref hok
    exact .of_agrees rfl (by simp [Agrees, topKinds, hkind, hplain])
  | refFunc _ | tableSize _ | vecShuffle _ =>
    have h := then_eq_ok h
    cases h
    exact .of_agrees rfl (by decide)
  | load op align offset =>
    have h := then_eq_ok h
    cases h
    obtain ⟨hkind, hplain⟩ := load_agrees op
    exact .of_agrees rfl (by simp [Agrees, topKinds, hkind, hplain, haddr, haddr'])
  | store op align offset =>
    have h := then_eq_ok h
    cases h
    obtain ⟨hkind, hplain⟩ := store_agrees op
    exact .of_agrees rfl (by simp [Agrees, topKinds, hkind, hplain, haddr, haddr'])
  | currentMemory | growMemory =>
    have h := then_eq_ok h
    cases h
    exact .of_agrees rfl (by simp [Agrees, topKinds, haddr, haddr'])
  | const v =>
    cases h
    obtain ⟨hkind, hplain⟩ := constType_agrees v
    exact .of_agrees rfl (by simp [Agrees, topKinds, hkind, hplain])
  | numeric op =>
    have h := then_eq_ok h
    cases h
    exact .of_agrees rfl (numeric_agrees hok)
  | truncSat sub =>
    have h := then_eq_ok h
    cases h
    exact .of_agrees rfl (truncSat_agrees sub)
  | memoryInit index =>
    have h := then_eq_ok h
    have h := then_eq_ok h
    have h := then_eq_ok h
    cases h
    refine ⟨by simp [haddr', hi32], by simp, fun hsame => ?_⟩
    exact Agrees.moves (o := ⟨[.i32, .i32, .i32], []⟩)
      (by simp [Agrees, topKinds, haddr, haddr', hi32, haddr32 hsame]) rfl
  | memoryCopy =>
    have h := then_eq_ok h
    have h := then_eq_ok h
    cases h
    refine ⟨by simp [haddr'], by simp, fun hsame => ?_⟩
    have hbulk : Moves e.m (bodyShape e) .memoryCopy [.i32, .i32, .i32] [] := .bulk trivial
    simpa [haddr, haddr32 hsame, topKinds] using hbulk
  | memoryFill =>
    have h := then_eq_ok h
    have h := then_eq_ok h
    cases h
    refine ⟨by simp [haddr', hi32], by simp, fun hsame => ?_⟩
    have hbulk : Moves e.m (bodyShape e) .memoryFill [.i32, .i32, .i32] [] := .bulk trivial
    simpa [haddr, haddr32 hsame, topKinds, hi32.1] using hbulk
  | dataDrop _ | elemDrop _ =>
    have h := then_eq_ok h
    have h := then_eq_ok h
    cases h
    exact .of_agrees rfl (by decide)
  | vecMemory sub align offset =>
    have h := then_eq_ok h
    cases h
    refine .of_agrees rfl ?_
    split
    · simp [Agrees, topKinds, haddr, haddr', hv128]
    · simp [Agrees, topKinds, haddr, haddr', hv128]
  | vecLaneMemory sub align offset lane =>
    have h := then_eq_ok h
    have h := then_eq_ok h
    cases h
    refine .of_agrees rfl ?_
    split
    · simp [Agrees, topKinds, haddr, haddr', hv128]
    · simp [Agrees, topKinds, haddr, haddr', hv128]
  | vecLane sub lane =>
    have h := then_eq_ok h
    cases h
    exact .of_agrees rfl (vecLane_agrees sub)
  | vecNumeric sub =>
    cases hs : vecNumericSignature sub with
    | none =>
      delta plainSignature at h
      dsimp only at h
      rw [hs] at h
      cases h
    | some s' =>
      delta plainSignature at h
      dsimp only at h
      rw [hs] at h
      cases h
      exact .of_agrees rfl (vecNumeric_agrees hs)
  | atomic sub align offset =>
    cases h
    refine ⟨atomic_plain.1, atomic_plain.2, fun hsame => ?_⟩
    refine Agrees.moves (atomic_agrees hok ?_) rfl
    simpa [sameOperands] using hsame
  | _ => cases h

end

end PsiServe.Typing
