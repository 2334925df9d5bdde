import PsiServe.Parser.Code

/-!
# Decoded instructions

What holds of every instruction that was decoded, whatever the bytes are: block types name
value types, catch clauses have one of the four kinds, and opcodes lie in the range of
their group. An instruction takes at least one byte, so the loop over a body never runs
out of fuel.
-/

namespace PsiServe.Parser

open Base Wasm Bitcode List

/-- The types of a block are value types, and the single one is the first result. -/
structure BlockType.Ok (bt : BlockType) : Prop where
  single : bt.single = types.pseudo ∨ IsValueType bt.single
  params : ∀ t ∈ bt.params, IsValueType t
  results : ∀ t ∈ bt.results, IsValueType t
  first : ∀ t ∈ bt.results.head?, bt.single = t

/-- Opcodes of the groups that are checked by their range. -/
def PlainOk : Instr → Prop
  | .refNull t => t = types.funcref ∨ t = types.externref
  | .numeric op => 0x45 ≤ op ∧ op ≤ 0xC4
  | .atomic sub _ _ => sub ≤ 0x03 ∨ 0x10 ≤ sub ∧ sub ≤ 0x4E
  | _ => True

/-- An instruction as it is decoded. -/
def Op.Ok : Op → Prop
  | .block bt | .loop bt | .if_ bt | .try_ bt => bt.Ok
  | .tryTable bt clauses => bt.Ok ∧ clauses.length < 2 ^ 32 ∧ ∀ c ∈ clauses, c.kind ≤ 3
  | .plain i => PlainOk i
  | _ => True

/-! ### Bytes and integers -/

section

variable {α : Type} {P : α → Prop} {text : String}

private theorem check_ensures {p : Prop} [Decidable p] :
    (check p text).Ensures fun _ => p := Reader.Ensures.lift fun _ h => require_ok.mp h

private theorem fail_ensures : (fail text : Read α).Ensures P := Reader.Ensures.error _

private theorem nextByte_ensures : nextByte.Ensures fun _ => True := by
  intro input a rest h
  cases input with
  | nil => cases h
  | cons b bytes =>
    cases h
    exact ⟨Nat.le_succ _, trivial⟩

private theorem peekByte_ensures : peekByte.Ensures fun _ => True := by
  intro input a rest h
  cases input with
  | nil => cases h
  | cons b bytes =>
    cases h
    exact ⟨le_rfl, trivial⟩

private theorem takeBytes_ensures {n : Nat} : (takeBytes n text).Ensures fun _ => True := by
  intro input a rest h
  unfold takeBytes at h
  split at h
  · cases h
    exact ⟨by rw [length_drop]; omega, trivial⟩
  · cases h

private theorem remaining_ensures : remaining.Ensures fun _ => True := by
  intro input a rest h
  cases h
  exact ⟨le_rfl, trivial⟩

private theorem skipContinuation_ensures : skipContinuation.Ensures fun _ => True := by
  intro input a rest h
  induction input with
  | nil => cases h
  | cons b bytes ih =>
    unfold skipContinuation at h
    split at h
    · cases h
      exact ⟨Nat.le_succ _, trivial⟩
    · exact ⟨Nat.le_succ_of_le (ih h).1, trivial⟩

/-- An encoding has at most as many bytes as the fuel says, and its last one ends it. -/
theorem lebBytes_ensures (fuel : Nat) : (lebBytes fuel).Ensures fun bs =>
    bs ≠ [] ∧ bs.length ≤ fuel ∧ bs.getLastD 0 &&& 0x80 = 0 := by
  induction fuel with
  | zero => exact Reader.Ensures.error _
  | succ fuel ih =>
    intro input bs rest h
    cases input with
    | nil => cases h
    | cons b bytes =>
      unfold lebBytes at h
      split at h
      next hlast =>
        cases h
        exact ⟨Nat.le_succ _, cons_ne_nil b [], Nat.succ_le_succ (Nat.zero_le _), hlast⟩
      · split at h
        · cases h
        next more rest' hmore =>
          cases h
          obtain ⟨hle, hne, hlen, hlast⟩ := ih bytes more rest hmore
          refine ⟨Nat.le_succ_of_le hle, cons_ne_nil b more, Nat.succ_le_succ hlen, ?_⟩
          cases more with
          | nil => exact absurd rfl hne
          | cons c cs => exact hlast

/-- The value is below a power given by the number of bytes before the last one. -/
theorem lebValue_lt (bs : List UInt8) (hne : bs ≠ []) :
    lebValue bs < 128 ^ (bs.length - 1) * ((bs.getLastD 0).toNat % 128 + 1) := by
  induction bs with
  | nil => exact absurd rfl hne
  | cons b bs ih =>
    cases bs with
    | nil =>
      simp only [lebValue, length_cons, length_nil, getLastD_cons, getLastD_nil]
      omega
    | cons c cs =>
      have hlt := ih (cons_ne_nil c cs)
      have hpow : 128 ^ ((b :: c :: cs).length - 1) = 128 ^ ((c :: cs).length - 1) * 128 := by
        rfl
      rw [hpow, Nat.mul_right_comm]
      change b.toNat % 128 + 128 * lebValue (c :: cs) < _
      have hlast : (b :: c :: cs).getLastD 0 = (c :: cs).getLastD 0 := rfl
      rw [hlast]
      omega

/-- The last byte of a longest encoding of 32 bits has four bits. -/
theorem lastByte_lt {b : UInt8} (hcont : b &&& 0x80 = 0) (hmask : b &&& 0x70 = 0) :
    b.toNat < 16 := by
  have hall : ∀ n : Fin 256, UInt8.ofFin n &&& 0x80 = 0 → UInt8.ofFin n &&& 0x70 = 0 →
      n.val < 16 := by decide +kernel
  exact hall b.toFin hcont hmask

/-- An unsigned encoding of 32 bits gives a 32-bit value. -/
theorem varuint32_ensures : varuint32.Ensures fun n => n < 2 ^ 32 := by
  refine (lebBytes_ensures 5).bind fun bs ⟨hne, hlen, hcont⟩ => check_ensures.bind fun _ hmask => ?_
  refine .pure ?_
  have hlt := lebValue_lt bs hne
  by_cases hlong : bs.length = 5
  · have hlast := lastByte_lt hcont (hmask hlong)
    rw [hlong] at hlt
    omega
  · have hpow : 128 ^ (bs.length - 1) ≤ 128 ^ 3 := Nat.pow_le_pow_right (by decide) (by omega)
    have hlast : (bs.getLastD 0).toNat % 128 + 1 ≤ 128 := Nat.mod_lt _ (by decide)
    calc lebValue bs < 128 ^ (bs.length - 1) * ((bs.getLastD 0).toNat % 128 + 1) := hlt
      _ ≤ 128 ^ 3 * 128 := Nat.mul_le_mul hpow hlast
      _ ≤ 2 ^ 32 := by decide

private theorem index_ensures :
    varuint32.Ensures fun _ => True := varuint32_ensures.mono fun _ _ => trivial

private theorem varuint_ensures (bits : Nat) : (varuint bits).Ensures fun _ => True :=
  (lebBytes_ensures _).bind fun _ _ => check_ensures.bind fun _ _ => .pure trivial

private theorem varint_ensures (bits : Nat) : (varint bits).Ensures fun _ => True :=
  (lebBytes_ensures _).bind fun _ _ => check_ensures.bind fun _ _ => .pure trivial

private theorem rawBytes_ensures (n : Nat) : (rawBytes n).Ensures fun _ => True :=
  takeBytes_ensures.bind fun _ _ => .pure trivial

private theorem zeroByte_ensures (text : String) : (zeroByte text).Ensures fun _ => True :=
  peekByte_ensures.bind fun _ _ => check_ensures.bind fun _ _ =>
    nextByte_ensures.bind fun _ _ => .pure trivial

private theorem memarg_ensures (m : Module) : (memarg m).Ensures fun _ => True := by
  refine index_ensures.bind fun _ _ => Reader.Ensures.bind (P := fun _ => True) ?_ fun _ _ =>
    .pure trivial
  refine .ite (fun _ => ?_) fun _ => index_ensures
  exact (varuint_ensures 64).bind fun _ _ => check_ensures.bind fun _ _ => .pure trivial

private theorem times_ensures {r : Read α} (h : r.Ensures P) (n : Nat) :
    (times r n).Ensures fun as => as.length = n ∧ ∀ a ∈ as, P a := by
  induction n with
  | zero => exact .pure ⟨rfl, nofun⟩
  | succ n ih =>
    refine h.bind fun a ha => ih.bind fun as ⟨hlen, has⟩ => .pure ⟨congrArg (· + 1) hlen, ?_⟩
    exact forall_mem_cons.mpr ⟨ha, has⟩

end

/-! ### Block types and catch clauses -/

variable {bytes rest : List UInt8} {op : Op}

private theorem BlockType.Ok.of_single {t : ValueType} (h : t = types.pseudo ∨ IsValueType t) :
    BlockType.Ok ⟨t, [], []⟩ :=
  ⟨h, nofun, nofun, nofun⟩

private theorem indexedBlockType_ensures (m : Module) :
    (indexedBlockType m).Ensures BlockType.Ok := by
  refine (varint_ensures 32).bind fun index _ => ?_
  split
  · exact fail_ensures
  next ft _ =>
    refine .pure ⟨?_, fun t ht => .inl (ft.params_valid t ht), ft.returns_valid, ?_⟩
    · cases hret : ft.returnTypes with
      | nil => simp [FuncType.returnCount_eq, hret]
      | cons t ts =>
        refine .inr (ft.returns_valid _ ?_)
        simp [FuncType.returnCount_eq, FuncType.returnType, hret]
    · cases hret : ft.returnTypes with
      | nil => exact nofun
      | cons t ts => simp [FuncType.returnCount_eq, FuncType.returnType, hret]

private theorem blockType_ensures (o : Options) (m : Module) (text : String) :
    (blockType o m text).Ensures BlockType.Ok := by
  refine peekByte_ensures.bind fun first _ => .ite (fun hinline => ?_) fun _ =>
    .ite (fun _ => ?_) fun _ => indexedBlockType_ensures m
  · refine nextByte_ensures.bind fun _ _ => check_ensures.bind fun _ _ => .pure ?_
    refine .of_single ?_
    simp only [isInlineType, Bool.or_eq_true, decide_eq_true_eq] at hinline
    unfold IsValueType IsParamType
    tauto
  · refine nextByte_ensures.bind fun _ _ => nextByte_ensures.bind fun heap _ =>
      .ite (fun _ => .pure (.of_single (.inr ?_))) fun _ =>
        skipContinuation_ensures.bind fun _ _ => .pure (.of_single (by decide))
    split
    · decide
    · decide

private theorem tryBlockType_ensures (m : Module) (refs : Bool) :
    (tryBlockType m refs).Ensures BlockType.Ok := by
  refine peekByte_ensures.bind fun first _ => .ite (fun hinline => ?_) fun _ =>
    indexedBlockType_ensures m
  refine nextByte_ensures.bind fun _ _ => .pure (.of_single ?_)
  unfold IsValueType IsParamType
  tauto

private theorem catchClause_ensures : catchClause.Ensures fun c => c.kind ≤ 3 := by
  refine nextByte_ensures.bind fun kind _ => check_ensures.bind fun _ hkind => .ite (fun _ => ?_)
    fun _ => index_ensures.bind fun _ _ => .pure hkind
  exact index_ensures.bind fun _ _ => index_ensures.bind fun _ _ => .pure hkind

private theorem tryTable_ensures (m : Module) : (tryTable m).Ensures Op.Ok := by
  refine (tryBlockType_ensures m true).bind fun bt hbt => varuint32_ensures.bind fun n hn =>
    remaining_ensures.bind fun _ _ => check_ensures.bind fun _ _ =>
      (times_ensures catchClause_ensures n).bind fun clauses ⟨hlen, hkinds⟩ => .pure ?_
  exact ⟨hbt, hlen ▸ hn, hkinds⟩

private theorem brTable_ensures (o : Options) : (brTable o).Ensures Op.Ok :=
  index_ensures.bind fun _ _ => check_ensures.bind fun _ _ =>
    (times_ensures index_ensures _).bind fun _ _ => index_ensures.bind fun _ _ => .pure trivial

/-! ### Instructions -/

private theorem refNull_ensures : refNull.Ensures PlainOk := by
  have hextern : PlainOk (.refNull types.externref) := .inr rfl
  have hfunc : PlainOk (.refNull types.funcref) := .inl rfl
  exact nextByte_ensures.bind fun _ _ => .ite (fun _ => .pure hextern) fun _ =>
    .ite (fun _ => .pure hfunc) fun _ => skipContinuation_ensures.bind fun _ _ => .pure hfunc

private theorem vector_ensures (o : Options) (m : Module) : (vector o m).Ensures PlainOk := by
  refine check_ensures.bind fun _ _ => index_ensures.bind fun sub _ =>
    .ite (fun _ => (memarg_ensures m).bind fun _ _ => .pure trivial) fun _ =>
    .ite (fun _ => (rawBytes_ensures 16).bind fun _ _ => .pure trivial) fun _ =>
    .ite (fun _ => takeBytes_ensures.bind fun _ _ => .pure trivial) fun _ =>
    .ite (fun _ => nextByte_ensures.bind fun _ _ => .pure trivial) fun _ =>
    .ite (fun _ => (memarg_ensures m).bind fun _ _ => nextByte_ensures.bind fun _ _ =>
      .pure trivial) fun _ =>
    .ite (fun _ => .pure trivial) fun _ => ?_
  split
  · exact fail_ensures
  · exact .pure trivial

private theorem atomic_ensures (m : Module) : (atomic m).Ensures PlainOk := by
  refine index_ensures.bind fun sub _ => .ite (fun hfence => ?_) fun _ => .ite (fun hsub => ?_)
    fun _ => fail_ensures
  · exact (zeroByte_ensures _).bind fun _ _ => .pure (.inl (le_of_eq hfence))
  · exact (memarg_ensures m).bind fun _ _ => .pure (by grind [PlainOk])

private theorem extended_ensures : extended.Ensures Op.Ok := by
  refine index_ensures.bind fun sub _ => ?_
  repeat' refine .ite (fun _ => ?_) fun _ => ?_
  all_goals first
    | exact fail_ensures
    | exact .pure trivial
    | exact (zeroByte_ensures _).bind fun _ _ => .pure trivial
    | exact (zeroByte_ensures _).bind fun _ _ => (zeroByte_ensures _).bind fun _ _ => .pure trivial
    | exact index_ensures.bind fun _ _ => .pure trivial
    | exact index_ensures.bind fun _ _ => index_ensures.bind fun _ _ => .pure trivial
    | exact index_ensures.bind fun _ _ => (zeroByte_ensures _).bind fun _ _ => .pure trivial

private theorem plainInstr_ensures (o : Options) (m : Module) (byte : UInt8) :
    (plainInstr o m byte).Ensures PlainOk := by
  repeat' refine .ite (fun _ => ?_) fun _ => ?_
  all_goals first
    | exact fail_ensures
    | exact .pure ‹_›
    | exact refNull_ensures
    | exact vector_ensures o m
    | exact atomic_ensures m
    | exact index_ensures.bind fun _ _ => .pure trivial
    | exact (memarg_ensures m).bind fun _ _ => .pure trivial
    | exact (zeroByte_ensures _).bind fun _ _ => .pure trivial
    | exact (varint_ensures _).bind fun _ _ => .pure trivial
    | exact (rawBytes_ensures _).bind fun _ _ => .pure trivial

/-- Every decoded instruction is well formed. -/
theorem instruction_ensures (o : Options) (m : Module) (byte : UInt8) :
    (instruction o m byte).Ensures Op.Ok := by
  repeat' refine .ite (fun _ => ?_) fun _ => ?_
  all_goals first
    | exact .pure trivial
    | exact brTable_ensures o
    | exact tryTable_ensures m
    | exact extended_ensures
    | exact index_ensures.bind fun _ _ => .pure trivial
    | exact index_ensures.bind fun _ _ => index_ensures.bind fun _ _ => .pure trivial
    | exact index_ensures.bind fun _ _ => nextByte_ensures.bind fun _ _ => .pure trivial
    | exact (blockType_ensures o m _).bind fun _ h => .pure h
    | exact (tryBlockType_ensures m _).bind fun _ h => .pure h
    | exact (plainInstr_ensures o m byte).bind fun _ h => .pure h

/-- An instruction takes its first byte. -/
theorem decodeOp_ok {o : Options} {m : Module} {byte : UInt8}
    (h : decodeOp o m bytes = .ok ((byte, op), rest)) : rest.length < bytes.length ∧ op.Ok := by
  cases bytes with
  | nil => cases h
  | cons b bytes =>
    obtain ⟨⟨op', rest'⟩, hop, hret⟩ := bind_eq_ok.mp h
    cases hret
    obtain ⟨hle, hok⟩ := instruction_ensures o m byte bytes op rest hop
    exact ⟨Nat.lt_succ_of_le hle, hok⟩

/-! ### Bodies -/

variable {e : BodyEnv} {st st' : State}

/-- One turn of the loop decodes an instruction and steps over it. -/
theorem next_ok (h : next e st bytes = .ok (op, st', rest)) :
    rest.length < bytes.length ∧ op.Ok ∧ st.pcStack.length < 2 ^ 32 ∧
      ∃ gas, step e { st with gas := gas } rest.isEmpty op = .ok st' := by
  obtain ⟨_, hnested, h⟩ := bind_eq_ok.mp h
  obtain ⟨⟨⟨byte, op'⟩, rest'⟩, hdecode, h⟩ := bind_eq_ok.mp h
  obtain ⟨st'', hstep, hret⟩ := bind_eq_ok.mp h
  cases hret
  obtain ⟨hlt, hok⟩ := decodeOp_ok hdecode
  have hmax := e.o.maxNestedStructures.toNat_lt
  exact ⟨hlt, hok, (require_ok.mp hnested).trans_lt hmax, _, hstep⟩

end PsiServe.Parser
