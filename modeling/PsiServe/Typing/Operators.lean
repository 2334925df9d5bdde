import PsiServe.Base.Packed
import PsiServe.Typing.Agreement

/-!
# Instructions without labels

The steps of the parser that do not touch the control stack keep the invariant of
`PsiServe.Typing.Emission`.
-/

namespace PsiServe.Typing

open Base Wasm Bitcode Interp PsiServe.Parser List

variable {chk : Bool} {base func tag : Nat} {e : BodyEnv} {slots : List Slot} {st st' : State}
  {ts : List Kind} {ft : FuncType}

/-! ### Plain instructions -/

variable {i : Instr} {table type : Nat} {tr' : Tracker} {t : ValueType}

/-- A plain instruction continues with the next one and has no branch target. -/
theorem straight_of_signature {s : Signature} (h : plainSignature e i = .ok s) :
    (∀ reach n a, Straight e.m (bodyShape e) reach n a i →
      InstrOk e.m (bodyShape e) (fun _ _ _ _ => False) reach (fun _ _ _ => False) n a i) ∧
    TargetsFit [] i := by
  cases i with
  | unreachable | rethrow _ | if_ _ | else_ _ | catch_ _ _ | catchAll _ | br _ _ | brIf _ _ _
  | brTable _ _ | return_ _ _ _ | tailCall _ | tailCallIndirect _ | throw_ _ | throwRef
  | delegate _ | tryTable _ _ | exit | error | brTableData => cases h
  | _ => exact ⟨fun _ _ _ hs => hs, rfl⟩

/-- A 32-bit integer is plain. -/
theorem plain_i32 : Plain types.i32 := by decide

private theorem plain_three : ∀ t ∈ [types.i32, types.i32, types.i32], Plain t := by decide

/-- No types are plain. -/
theorem plain_nil : ∀ t ∈ ([] : List ValueType), Plain t := by decide

/-- Operands that were popped one by one, and one pushed. -/
theorem Popped.push {o : Options} {tr mid : Tracker} {ts : List ValueType}
    (h : Popped tr mid ts) (hpush : mid.push o t = .ok tr') (ht : IsValue t)
    (hany : Live tr.state → anyType ∉ tr.state → t ≠ anyType) : Exchanged tr tr' ts [t] := by
  obtain ⟨hstate, hdepth⟩ := push_state hpush
  exact ⟨mid, h, hstate, forall_mem_singleton.mpr ⟨ht, hany⟩, hdepth ht⟩

private theorem isValue_of_isSelectType (h : isSelectType t = true) : IsValue t := by
  unfold isSelectType at h
  simp only [Bool.or_eq_true, decide_eq_true_eq] at h
  rcases h with ((((rfl | rfl) | rfl) | rfl) | rfl) | rfl
  all_goals decide

/-! ### Calls -/

/-- The parameters of a function are plain. -/
theorem plain_params (ft : FuncType) : ∀ t ∈ ft.paramTypes.reverse, Plain t :=
  fun t ht => plain_of_isValueType (.inl (ft.params_valid t (mem_reverse.mp ht)))

/-- The results of a function are plain. -/
theorem plain_returns (ft : FuncType) : ∀ t ∈ ft.returnTypes, Plain t :=
  fun t ht => plain_of_isValueType (ft.returns_valid t ht)

/-- The alternatives of types that are on the stack. -/
theorem map_kindOf_reverse (ts : List ValueType) : ts.reverse.map kindOf = topKinds ts :=
  map_reverse

/-- The type of a called function. -/
theorem callee_ok {text : String} (h : callee e func text = .ok ft) :
    e.m.getFunctionType func = some ft := by
  have h := then_eq_ok h
  split at h
  · cases h
  next heq =>
    cases h
    exact heq

/-- The type of an indirect call is in the low half of its word. -/
theorem indirectIndex_type (h : e.m.typeAlias type < 2 ^ 16) :
    (indirectIndex e type table &&& 0xFFFF).toNat = e.m.typeAlias type :=
  (packHalves_low _ table).trans (Nat.mod_eq_of_lt h)

/-- The type of an indirect call is found by its index. -/
theorem indirect_type (hft : e.m.types[type]? = some ft) (h : e.m.typeAlias type < 2 ^ 16) :
    e.m.types[(indirectIndex e type table &&& 0xFFFF).toNat]? = some ft := by
  rw [indirectIndex_type h]
  exact Module.types_typeAlias e.m type ft hft

/-- The parameters of a tag. -/
theorem tagParams_ok {params : List ValueType} (h : tagParams e tag = .ok params) :
    ∃ ft, e.m.tagType tag = some ft ∧ params = ft.paramTypes := by
  have h := then_eq_ok h
  split at h
  · cases h
  next ft heq =>
    cases h
    exact ⟨ft, heq, rfl⟩

section

variable (h : Emits chk base e slots st) (hne : st.pcStack ≠ [])

include h hne

/-- A plain instruction keeps the invariant. -/
theorem stepPlain_ok (hlocals : ∀ t ∈ e.locals, IsValueType t) (hi : PlainOk i)
    (hsame : chk = true → sameOperands e.m i = true) (hst : stepPlain e st i = .ok st') :
    EmitsTo chk base e slots st st' := by
  have hst := then_eq_ok hst
  obtain ⟨s, hs, hst⟩ := bind_eq_ok.mp hst
  obtain ⟨tr', hex, hst⟩ := exchange_ok hst
  have hsig := plainSignature_ok hlocals hi hs
  obtain ⟨hstraight, hfit⟩ := straight_of_signature hs
  refine h.exchange hne hst (fun _ => hex hsig.pops hsig.pushes) (fun ts hts => ?_) hstraight hfit
  cases chk with
  | false => cases hts
  | true => exact hsig.moves (hsame rfl)

/-- A `nop` keeps the invariant. -/
theorem stepNop_ok (hst : st.emit .nop = .ok st') : EmitsTo chk base e slots st st' := by
  have hex : Exchanged st.tracker st.tracker [] [] :=
    (popAll_popped (o := e.o) (fun _ ht => absurd ht not_mem_nil) rfl).exchanged
  exact h.exchange hne hst (fun _ => hex) (fun _ _ => .nop)

/-- A `table.init` keeps the invariant. -/
theorem stepTableInit_ok {elem : Nat} (hst : stepTableInit e st elem table = .ok st') :
    EmitsTo chk base e slots st st' := by
  have hst := then_eq_ok hst
  have hst := then_eq_ok hst
  have hst := then_eq_ok hst
  obtain ⟨_, -, hst⟩ := bind_eq_ok.mp hst
  have hst := then_eq_ok hst
  have hst := then_eq_ok hst
  obtain ⟨tr', hex, hst⟩ := exchange_ok hst
  exact h.exchange hne hst (fun _ => hex plain_three plain_nil)
    (fun _ _ => .plain (o := ⟨[.i32, .i32, .i32], []⟩) rfl)

/-- A `table.copy` keeps the invariant. -/
theorem stepTableCopy_ok {dst src : Nat} (hst : stepTableCopy e st dst src = .ok st') :
    EmitsTo chk base e slots st st' := by
  have hst := then_eq_ok hst
  have hst := then_eq_ok hst
  have hst := then_eq_ok hst
  have hst := then_eq_ok hst
  have hst := then_eq_ok hst
  obtain ⟨tr', hex, hst⟩ := exchange_ok hst
  exact h.exchange hne hst (fun _ => hex plain_three plain_nil) (fun _ _ => .bulk trivial)

/-! ### Operands of any type -/

/-- A `drop` keeps the invariant. -/
theorem stepDrop_ok (hst : stepDrop e st = .ok st') : EmitsTo chk base e slots st st' := by
  have hst := then_eq_ok hst
  obtain ⟨⟨t, tr'⟩, hpop, hst⟩ := bind_eq_ok.mp hst
  exact h.exchange hne hst (fun _ => (popAny_popped hpop).exchanged) (fun _ _ => .drop (kindOf t))

/-- Where operands are checked and code is reachable, their types are known. -/
theorem Emits.known (hts : opsOf (view chk st.tracker) = some ts) :
    Live st.tracker.state ∧ anyType ∉ st.tracker.state := by
  cases chk with
  | false => cases hts
  | true =>
    have hlive := (opsOf_eq_some hts).1
    exact ⟨hlive, (h.stack.known hne rfl).2 hlive⟩

/-- A `select` keeps the invariant. -/
theorem stepSelect_ok (hst : stepSelect e st = .ok st') : EmitsTo chk base e slots st st' := by
  have hst := then_eq_ok hst
  obtain ⟨tr₁, hpop, hst⟩ := bind_eq_ok.mp hst
  obtain ⟨⟨t₀, tr₂⟩, hpop₀, hst⟩ := bind_eq_ok.mp hst
  obtain ⟨⟨t₁, tr₃⟩, hpop₁, hst⟩ := bind_eq_ok.mp hst
  obtain ⟨_, hsame, hst⟩ := bind_eq_ok.mp hst
  obtain ⟨_, hselect, hst⟩ := bind_eq_ok.mp hst
  obtain ⟨tr₄, hpush, hst⟩ := bind_eq_ok.mp hst
  have hsame := require_ok.mp hsame
  have hselect := require_ok.mp hselect
  have hpopped : Popped st.tracker tr₃ [types.i32, t₀, t₁] :=
    ((pop_popped plain_i32 hpop).trans (popAny_popped hpop₀)).trans (popAny_popped hpop₁)
  -- types on the stack are known, so both operands have the same one
  have hknown : Live st.tracker.state → anyType ∉ st.tracker.state → t₀ ≠ anyType ∧ t₁ = t₀ := by
    intro hlive hany
    have hmem := hpopped.mem hlive hany
    have h₀ : t₀ ≠ anyType := fun heq => hany (heq ▸ hmem t₀ (by simp))
    have h₁ : t₁ ≠ anyType := fun heq => hany (heq ▸ hmem t₁ (by simp))
    refine ⟨h₀, ?_⟩
    rcases hsame with heq | heq | heq
    · exact heq.symm
    · exact absurd heq h₀
    · exact absurd heq h₁
  have hex : Exchanged st.tracker tr₄ [types.i32, t₀, t₁]
      [if t₀ = anyType then t₁ else t₀] := by
    refine hpopped.push hpush (isValue_of_isSelectType hselect) fun hlive hany => ?_
    obtain ⟨h₀, -⟩ := hknown hlive hany
    rw [if_neg h₀]
    exact h₀
  refine h.exchange hne hst (fun _ => hex) (fun ts hts => ?_)
  obtain ⟨hlive, hany⟩ := h.known hne hts
  obtain ⟨h₀, rfl⟩ := hknown hlive hany
  rw [if_neg h₀]
  exact .select (kindOf t₁)

/-- A typed `select` keeps the invariant. -/
theorem stepTypedSelect_ok {count : Nat} (ht : chk = true → IsValueType t)
    (hst : stepTypedSelect e st count t = .ok st') :
    EmitsTo chk base e slots st st' := by
  have hst := then_eq_ok hst
  have hst := then_eq_ok hst
  obtain ⟨tr', hex, hst⟩ := exchange_ok hst
  refine h.exchange hne hst (fun hchk => hex ?_ ?_) (fun _ _ => .select (kindOf t))
  · have hplain := plain_of_isValueType (ht hchk)
    simp [plain_i32, hplain]
  · simpa using plain_of_isValueType (ht hchk)

/-- A `ref.is_null` keeps the invariant. -/
theorem stepRefIsNull_ok (hst : stepRefIsNull e st = .ok st') :
    EmitsTo chk base e slots st st' := by
  have hst := then_eq_ok hst
  obtain ⟨⟨t, tr₁⟩, hpop, hst⟩ := bind_eq_ok.mp hst
  obtain ⟨_, href, hst⟩ := bind_eq_ok.mp hst
  obtain ⟨tr', hpush, hst⟩ := bind_eq_ok.mp hst
  have href := require_ok.mp href
  have hpopped := popAny_popped hpop
  refine h.exchange hne hst (fun _ => hpopped.push hpush (by decide) fun _ _ => by decide)
    (fun ts hts => ?_)
  obtain ⟨hlive, hany⟩ := h.known hne hts
  have hne : t ≠ anyType :=
    fun heq => hany (heq ▸ hpopped.mem hlive hany t mem_cons_self)
  have hkind : kindOf t = .i32 := by
    rcases href with rfl | rfl | heq
    · rfl
    · rfl
    · exact absurd heq hne
  change Moves e.m (bodyShape e) .refIsNull [kindOf t] _
  rw [hkind]
  exact .plain (o := ⟨[.i32], [.i32]⟩) rfl

/-- A `call` keeps the invariant. -/
theorem stepCall_ok (hst : stepCall e st func = .ok st') : EmitsTo chk base e slots st st' := by
  have hst := then_eq_ok hst
  obtain ⟨ft, hft, hst⟩ := bind_eq_ok.mp hst
  obtain ⟨tr', hex, hst⟩ := exchange_ok hst
  refine h.exchange hne hst (fun _ => hex (plain_params ft) (plain_returns ft)) (fun _ _ => ?_)
  rw [map_kindOf_reverse]
  exact .call (callee_ok hft)

/-- A `call_indirect` keeps the invariant. -/
theorem stepCallIndirect_ok (halias : chk = true → e.m.typeAlias type < 2 ^ 16)
    (hst : stepCallIndirect e st type table = .ok st') : EmitsTo chk base e slots st st' := by
  have hst := then_eq_ok hst
  cases hft : e.m.types[type]? with
  | none =>
    rw [hft] at hst
    cases hst
  | some ft =>
    rw [hft] at hst
    have hst := then_eq_ok hst
    obtain ⟨tr', hex, hst⟩ := exchange_ok hst
    have hst := then_eq_ok hst
    refine h.exchange hne hst (fun _ => hex ?_ (plain_returns ft)) (fun ts hts => ?_)
    · rw [forall_mem_cons]
      exact ⟨plain_i32, plain_params ft⟩
    · cases chk with
      | false => cases hts
      | true =>
        rw [map_cons, map_kindOf_reverse]
        exact .callIndirect (indirect_type hft (halias rfl))

/-! ### Exceptions -/

/-- An instruction after which nothing is reached. -/
theorem Emits.halt {st₁ : State} (hst : { st with tracker := tr' }.emit i = .ok st₁)
    (hre : chk = true → Retrack st.tracker tr')
    (hok : InstrOk e.m (bodyShape e) (fun _ _ _ _ => False) (fun _ _ => False) (fun _ _ _ => False)
      slots.length (here chk st) i)
    (hfit : TargetsFit [] i) :
    EmitsTo chk base e slots st st₁.startUnreachable := by
  obtain ⟨w, hw, rfl⟩ := State.emit_ok hst
  have hre' : chk = true → Retrack st.tracker tr'.startUnreachable := by
    intro hchk
    have hscope := (hre hchk).scope (h.stack.known hne hchk).1
    exact (hre hchk).trans (retrack_startUnreachable hscope)
  exact h.emit hne hre' hw
    (hok.mono (fun _ _ _ _ h => h) (fun _ _ h => h.elim) fun _ _ _ h => h) hfit

/-- An `unreachable` keeps the invariant. -/
theorem stepUnreachable_ok (hst : stepUnreachable st = .ok st') :
    EmitsTo chk base e slots st st' := by
  have hst := then_eq_ok hst
  obtain ⟨st₁, hst₁, hst⟩ := bind_eq_ok.mp hst
  cases hst
  exact h.halt hne hst₁ (fun _ => ⟨rfl, id, id, id⟩) trivial rfl

/-- The operands an instruction pops before control leaves. -/
theorem Emits.popped {pops : List ValueType}
    (hex : chk = true → Exchanged st.tracker tr' pops [])
    (hts : opsOf (view chk st.tracker) = some ts) :
    ∃ rest, ts = pops.map kindOf ++ rest ∧
      Guarded (tries st.pcStack (view chk st.tracker)) rest := by
  cases chk with
  | false => cases hts
  | true =>
    obtain ⟨rest, rfl, -, hrest⟩ := (hex rfl).ops (h.stack.known hne rfl).2 hts
    exact ⟨rest, rfl, fun kept hkept => (tries_suffix hkept).trans hrest⟩

/-- A `throw` keeps the invariant. -/
theorem stepThrow_ok (hst : stepThrow e st tag = .ok st') : EmitsTo chk base e slots st st' := by
  have hst := then_eq_ok hst
  have hst := then_eq_ok hst
  obtain ⟨params, hparams, hst⟩ := bind_eq_ok.mp hst
  obtain ⟨tr', hex, hst⟩ := exchange_ok hst
  obtain ⟨st₂, hst₂, hst⟩ := bind_eq_ok.mp hst
  cases hst
  obtain ⟨ft, hft, rfl⟩ := tagParams_ok hparams
  have hex := hex (plain_params ft) plain_nil
  refine h.halt hne hst₂ (fun _ => hex.retrack) (fun ts hts => ?_) rfl
  obtain ⟨rest, rfl, hguarded⟩ := h.popped hne (fun _ => hex) hts
  exact ⟨ft, rest, hft, by rw [map_kindOf_reverse], hguarded⟩

/-- A `throw_ref` keeps the invariant. -/
theorem stepThrowRef_ok (hst : stepThrowRef e st = .ok st') : EmitsTo chk base e slots st st' := by
  have hst := then_eq_ok hst
  have hst := then_eq_ok hst
  obtain ⟨tr', hex, hst⟩ := exchange_ok hst
  obtain ⟨st₂, hst₂, hst⟩ := bind_eq_ok.mp hst
  cases hst
  have hex := hex (by decide) plain_nil
  refine h.halt hne hst₂ (fun _ => hex.retrack) (fun ts hts => ?_) rfl
  obtain ⟨rest, rfl, hguarded⟩ := h.popped hne (fun _ => hex) hts
  exact ⟨rest, rfl, hguarded⟩

end

end PsiServe.Typing
