import PsiServe.Typing.BranchTable

/-!
# Scopes

Opening and closing the scopes of structured control keeps the invariant of
`PsiServe.Typing.Emission`. The code of a scope starts with its parameters on the operands
outside of it and ends with its results on them.
-/

namespace PsiServe.Typing

open Base Wasm Bitcode PsiServe.Parser List PcElement

variable {chk : Bool} {base : Nat} {e : BodyEnv} {slots : List Slot} {st st' : State}
  {el : PcElement} {pcs outer pcs' : List PcElement} {ft : FuncType} {o : Options}
  {tr tr' : Tracker} {params : List ValueType} {v v' : Option (List ValueType)} {sc : Scope}
  {b : Branch} {w : Writer} {bt : BlockType}

/-! ### Opening a scope -/

/-- The tracker inside a scope that was just opened. -/
def Entered (tr tr' : Tracker) (params : List ValueType) : Prop :=
  tr'.state = params.reverse ++ scopeTag :: tr.state ∧
    ((∀ t ∈ params, IsValue t) → DepthOk tr → DepthOk tr')

/-- A scope is entered with its parameters. -/
theorem pushScope_entered (h : tr.pushScope.pushAll o params = .ok tr') :
    Entered tr tr' params := by
  obtain ⟨hstate, hdepth⟩ := pushAll_state h
  exact ⟨hstate, fun hparams hd => hdepth hparams hd⟩

/-- Counting a nested scope changes the count only. -/
theorem onControl_ok (h : st.onControl o = .ok st') : ∃ n, st' = { st with nested := n } := by
  unfold State.onControl at h
  split at h
  · cases h
    exact ⟨st.nested, rfl⟩
  · have h := then_eq_ok h
    cases h
    exact ⟨_, rfl⟩

/-- What entering a scope does to the parser. -/
theorem enterScope_ok (h : st.enterScope o el = .ok st') :
    ∃ tr' n, st' = { st with pcStack := el :: st.pcStack, tracker := tr', nested := n } ∧
      Entered st.tracker tr' el.blockParams := by
  obtain ⟨tr', htr', h⟩ := bind_eq_ok.mp h
  obtain ⟨n, rfl⟩ := onControl_ok h
  exact ⟨tr', n, rfl, pushScope_entered htr'⟩

section

variable (h : Entered tr tr' params)

include h

section

variable (hparams : ∀ t ∈ params, IsValue t)

include hparams

private theorem Entered.live : Live tr'.state ↔ Live tr.state := by
  rw [h.1, live_append fun t ht => hparams t (mem_reverse.mp ht)]
  unfold Live
  rw [mem_cons, not_or]
  exact ⟨fun h => h.2, fun h => ⟨by decide, h⟩⟩

private theorem Entered.under : under tr'.state = tr.state := by
  rw [h.1, under_values fun t ht => hparams t (mem_reverse.mp ht), under_scope]

/-- Below the scope is the stack it was entered on. -/
theorem Entered.below : below (view chk tr') = view chk tr := by
  cases chk with
  | false => rfl
  | true => exact congrArg some (h.under hparams)

/-- The parameters are on top of the operands. -/
theorem Entered.ops : opsOf (view chk tr') = (opsOf (view chk tr)).map (topKinds params ++ ·) := by
  cases chk with
  | false => rfl
  | true =>
    change opsOf (some tr'.state) = (opsOf (some tr.state)).map _
    by_cases hlive : Live tr.state
    · rw [opsOf_some hlive, opsOf_some ((h.live hparams).mpr hlive), kindsOf, h.1, values_append,
        values_scope, values_of_all fun t ht => hparams t (mem_reverse.mp ht),
        map_append, map_reverse]
      rfl
    · rw [opsOf_dead hlive, opsOf_dead (mt (h.live hparams).mp hlive)]
      rfl

end

end

/-- A value type is no mark. -/
theorem isValue_of_isValueType {t : ValueType} (h : IsValueType t) : IsValue t :=
  (plain_of_isValueType h).1

/-- A scope was opened on a well-formed control stack. -/
theorem StackOk.enter (hs : StackOk chk ft pcs tr) (hne : pcs ≠ []) (hel : ElemOk el)
    (hdepth : el.operandDepth = tr.operandDepth) (h : Entered tr tr' el.blockParams) :
    StackOk chk ft (el :: pcs) tr' := by
  have hplain : ∀ t ∈ el.blockParams, Plain t := fun t ht => plain_of_isValueType (hel.params t ht)
  have hparams : ∀ t ∈ el.blockParams, IsValue t := fun t ht => (hplain t ht).1
  refine ⟨?_, ?_, fun hchk => h.2 hparams (hs.depth hchk), fun hchk => ⟨?_, ?_, ?_, ?_⟩⟩
  · rw [forall_mem_cons]
    exact ⟨hel, hs.elems⟩
  · intro x hx
    rw [getLast?_cons, getLast?_eq_some_getLast hne] at hx
    exact hs.last x ((getLast?_eq_some_getLast hne).trans hx)
  · rw [h.1]
    exact mem_append_right _ mem_cons_self
  · intro hlive hany
    rw [h.1] at hany
    rcases mem_append.mp hany with hany | hany
    · exact (hplain _ (mem_reverse.mp hany)).2.1 rfl
    · rcases mem_cons.mp hany with hany | hany
      · exact absurd hany (by decide)
      · exact (hs.known hne hchk).2 ((h.live hparams).mp hlive) hany
  · rw [h.under hparams, hdepth]
    exact hs.depth hchk
  · rw [h.under hparams]
    exact hs.nested hne hchk

/-- The scopes after one was opened. -/
theorem Entered.scopesOf (h : Entered tr tr' el.blockParams)
    (hparams : ∀ t ∈ el.blockParams, IsValue t) :
    scopesOf (el :: pcs) (view chk tr') =
      ⟨el, outside el.labelTypes pcs (view chk tr), outside el.blockParams pcs (view chk tr)⟩ ::
        Typing.scopesOf pcs (view chk tr) := by
  rw [Typing.scopesOf, h.below hparams]

/-- Inside a scope that is not a `try_table`, the parameters are on the operands outside. -/
theorem Entered.place (h : Entered tr tr' el.blockParams)
    (hparams : ∀ t ∈ el.blockParams, IsValue t) (htry : el.isTryTable = false) :
    place (el :: pcs) (view chk tr') = outside el.blockParams pcs (view chk tr) := by
  rw [Typing.place, outside, tries, htry, h.below hparams, h.ops hparams]
  rfl

/-- Popping the parameters of a scope and pushing them inside changes no operand. -/
theorem Exchanged.outside (hs : StackOk chk ft pcs tr) (hne : pcs ≠ [])
    (hex : Exchanged tr tr' params.reverse []) :
    outside params pcs (view chk tr') = place pcs (view chk tr) := by
  have htries : tries pcs (view chk tr') = tries pcs (view chk tr) :=
    tries_congr (Retrack.below fun _ => hex.retrack)
  have hops : (opsOf (view chk tr')).map (topKinds params ++ ·) = opsOf (view chk tr) := by
    cases chk with
    | false => rfl
    | true =>
      by_cases hlive : Live tr.state
      · obtain ⟨rest, hrest, hops, -⟩ := hex.ops (hs.known hne rfl).2 (opsOf_some hlive)
        change (opsOf (some tr'.state)).map _ = opsOf (some tr.state)
        rw [hops, opsOf_some hlive, hrest, map_kindOf_reverse]
        rfl
      · change (opsOf (some tr'.state)).map _ = opsOf (some tr.state)
        rw [opsOf_dead hlive, opsOf_dead (mt hex.live.mp hlive)]
        rfl
  rw [Typing.outside, Typing.place, htries, hops]

/-- The branches that wait after a scope was opened. -/
theorem pending_cons {a : Ann} (h : scopesOf pcs' v' = sc :: scopesOf pcs v) :
    Pending pcs' v' b a ↔ (b, a) ∈ sc.waits ∨ Pending pcs v b a := by
  unfold Pending
  rw [h]
  constructor
  · rintro ⟨n, sc', hsc', hb⟩
    cases n with
    | zero =>
      cases hsc'
      exact .inl hb
    | succ n => exact .inr ⟨n, sc', hsc', hb⟩
  · rintro (hb | ⟨n, sc', hsc', hb⟩)
    · exact ⟨0, sc, rfl, hb⟩
    · exact ⟨n + 1, sc', hsc', hb⟩

/-- The code where a scope opens. -/
theorem Building.enter {m : Module} {fn : FnShape} {cur : Ann}
    (hscopes : scopesOf pcs' v' = sc :: scopesOf pcs v) (hoffset : w.baseOffset = base)
    (hcode : CodeOk m fn base w.code slots cur fun b a => Pending pcs v b a ∨ (b, a) ∈ sc.waits)
    (hloops : ∀ (n : Nat) (sc : Scope) (pos : Nat), (scopesOf pcs v)[n]? = some sc →
      sc.elem.relocations = .label pos → Reaches slots cur pos sc.label)
    (hloop : ∀ pos, sc.elem.relocations = .label pos → Reaches slots cur pos sc.label) :
    Building m fn base w slots cur pcs' v' [] := by
  refine ⟨hoffset, hcode.repend ?_ ?_, fun n sc' pos hsc' hpos => ?_⟩
  · rintro b a (hb | ⟨_, hmem, -⟩)
    · exact hcode.expects b a ((pending_cons hscopes).mp hb).symm
    · cases hmem
  · intro b a hb
    exact ⟨a, .inl ((pending_cons hscopes).mpr hb.symm)⟩
  · rw [hscopes] at hsc'
    cases n with
    | zero =>
      cases hsc'
      exact hloop pos hpos
    | succ n => exact hloops n sc' pos hsc' hpos

/-- The code where a scope opens to whose end nothing branches yet. -/
theorem Building.enter_empty {m : Module} {fn : FnShape} {cur : Ann}
    (h : Building m fn base w slots cur pcs v [])
    (hscopes : scopesOf pcs' v' = sc :: scopesOf pcs v) (hwaits : sc.waits = [])
    (hloop : ∀ pos, sc.elem.relocations = .label pos → Reaches slots cur pos sc.label) :
    Building m fn base w slots cur pcs' v' [] := by
  refine .enter hscopes h.offset ?_ h.loops hloop
  refine h.codeOk.repend (fun b a hb => ?_) fun b a hb => ⟨a, .inl hb⟩
  rw [hwaits] at hb
  rcases hb with hb | hb
  · exact h.codeOk.expects b a hb
  · cases hb

/-- Types of a decoded block type are value types. -/
theorem block_isValue (hbt : bt.Ok) : ∀ t ∈ bt.params, IsValue t :=
  fun t ht => isValue_of_isValueType (hbt.params t ht)

/-- The parameters of a block are plain. -/
theorem block_plain (hbt : bt.Ok) : ∀ t ∈ bt.params.reverse, Plain t :=
  fun t ht => plain_of_isValueType (hbt.params t (mem_reverse.mp ht))

/-- The operands outside of the open scopes are among those of the position. -/
theorem guarded_here {ts : List Kind} (h : opsOf (view chk st.tracker) = some ts) :
    Guarded (tries st.pcStack (view chk st.tracker)) ts := by
  obtain rfl := chk_of_opsOf h
  obtain ⟨-, rfl⟩ := opsOf_eq_some h
  intro kept hkept
  exact (tries_suffix hkept).trans (kindsOf_suffix (under_suffix _))

private theorem emitBranch_ok {w' : Writer} {i : Instr} (h : w.emitBranch i = .ok (w', b)) :
    w.append i = .ok w' ∧ b = ⟨w.opIndex, 0⟩ := by
  obtain ⟨w₁, hw₁, h⟩ := bind_eq_ok.mp h
  cases h
  exact ⟨hw₁, rfl⟩

section

variable (hbt : bt.Ok) (h : Emits chk base e slots st) (hne : st.pcStack ≠ [])

include hbt h hne

/-- A `block` keeps the invariant. -/
theorem stepBlock_ok (hst : stepBlock e st bt = .ok st') : EmitsTo chk base e slots st st' := by
  obtain ⟨tr₁, hex, hst⟩ := exchange_ok hst
  obtain ⟨tr', n, rfl, hentered⟩ := enterScope_ok hst
  have hex := hex (block_plain hbt) plain_nil
  have hs₁ := h.stack.retrack hne fun _ => hex.retrack
  have hhere : place (bt.element tr₁.operandDepth :: st.pcStack) (view chk tr') = here chk st :=
    (hentered.place (block_isValue hbt) rfl).trans (hex.outside h.stack hne)
  have hb := h.building.congr (Retrack.below fun _ => hex.retrack)
  have hel : ElemOk (bt.element tr₁.operandDepth) :=
    ⟨⟨hbt.typesOr_valid, hbt.params, hbt.typesOr_valid, hbt.single_eq⟩, fun _ _ => rfl, nofun⟩
  refine ⟨slots, ⟨hs₁.enter hne hel rfl hentered, ?_⟩, .inl ⟨rfl, ?_⟩⟩
  · unfold here
    rw [hhere]
    exact hb.enter_empty (hentered.scopesOf (block_isValue hbt)) rfl nofun
  · unfold here at hhere ⊢
    rw [hhere]
    exact .refl _

/-- A `loop` keeps the invariant. -/
theorem stepLoop_ok (hst : stepLoop e st bt = .ok st') : EmitsTo chk base e slots st st' := by
  obtain ⟨tr₁, hex, hst⟩ := exchange_ok hst
  obtain ⟨w, hw, hst⟩ := bind_eq_ok.mp hst
  obtain ⟨tr', n, rfl, hentered⟩ := enterScope_ok hst
  have hex := hex (block_plain hbt) plain_nil
  have hs₁ := h.stack.retrack hne fun _ => hex.retrack
  have hout := hex.outside h.stack hne
  have hb := h.building.congr (Retrack.below fun _ => hex.retrack)
  set el : PcElement :=
    { bt.element tr₁.operandDepth with
      labelResult := types.pseudo
      isLoop := true
      gasHandle := some st.writer.opIndex
      relocations := .label st.writer.opIndex
      labelResults := bt.params } with hel
  have helOk : ElemOk el :=
    ⟨⟨hbt.typesOr_valid, hbt.params, hbt.params_valid, rfl⟩, nofun, nofun⟩
  have hhere : place (el :: st.pcStack) (view chk tr') = here chk st :=
    (hentered.place (block_isValue hbt) rfl).trans hout
  -- the header is annotated as the position in front of it, which is that of the label
  have hgas : Building e.m (bodyShape e) base w (slots ++ [⟨some (here chk st), []⟩]) (here chk st)
      st.pcStack (view chk tr₁) [] := by
    refine hb.emitPlain (emitted_ok.mp hw) ?_ rfl
    refine ⟨here chk st, rfl, ⟨rfl, .refl _⟩, fun ts hts => ?_⟩
    exact ⟨[], [], ts, .gasCharge 1, rfl, guarded_here hts, hts⟩
  refine ⟨_, ⟨hs₁.enter hne helOk rfl hentered, ?_⟩,
    .append slots ⟨some (here chk st), []⟩ [] _ rfl⟩
  unfold here
  rw [hhere]
  refine hgas.enter_empty (hentered.scopesOf (block_isValue hbt)) rfl fun pos hpos => ?_
  cases hpos
  refine ⟨here chk st, ?_, ?_⟩
  · have hlen : st.writer.opIndex = slots.length := h.building.code.length
    rw [hlen, annAt_of_lt (by rw [length_append]; exact Nat.lt_succ_self _),
      getElem?_append_right (le_rfl), Nat.sub_self]
    rfl
  · change Flow (outside (typesOr bt.params types.pseudo) st.pcStack (view chk tr₁)) _
    rw [typesOr_pseudo, hout]
    exact .refl _

/-- An `if` keeps the invariant. -/
theorem stepIf_ok (hst : stepIf e st bt = .ok st') : EmitsTo chk base e slots st st' := by
  have hst := then_eq_ok hst
  obtain ⟨⟨w, b⟩, hw, hst⟩ := bind_eq_ok.mp hst
  obtain ⟨happ, rfl⟩ := emitBranch_ok (emitted_ok.mp hw)
  obtain ⟨tr₁, hex, hst⟩ := exchange_ok hst
  obtain ⟨tr', n, rfl, hentered⟩ := enterScope_ok hst
  have hpops : ∀ t ∈ types.i32 :: bt.params.reverse, Plain t := by
    rw [forall_mem_cons]
    exact ⟨plain_i32, block_plain hbt⟩
  have hex : Exchanged st.tracker tr₁ (types.i32 :: bt.params.reverse) [] := hex hpops plain_nil
  have hs₁ := h.stack.retrack hne fun _ => hex.retrack
  have hb := h.building.congr (Retrack.below fun _ => hex.retrack)
  have hlen : st.writer.opIndex = slots.length := h.building.code.length
  set el : PcElement :=
    { bt.element tr₁.operandDepth with
      isIf := true
      relocations := .branches [⟨st.writer.opIndex, 0⟩] } with hel
  have helOk : ElemOk el :=
    ⟨⟨hbt.typesOr_valid, hbt.params, hbt.typesOr_valid, hbt.single_eq⟩, fun _ _ => rfl,
      fun _ => ⟨rfl, _, [], rfl⟩⟩
  have hhere : place (el :: st.pcStack) (view chk tr') =
      outside bt.params st.pcStack (view chk tr₁) := hentered.place (block_isValue hbt) rfl
  have hcode : CodeOk e.m (bodyShape e) base (st.writer.code ++ [.if_ 0])
      (slots ++ [⟨some (here chk st), [outside bt.params st.pcStack (view chk tr₁)]⟩])
      (outside bt.params st.pcStack (view chk tr₁)) fun b a =>
        Pending st.pcStack (view chk tr₁) b a ∨ b.slot = slots.length ∧
          [outside bt.params st.pcStack (view chk tr₁)][b.entry]? = some a := by
    refine hb.codeOk.emit ⟨_, ⟨?_, fun ts hts => ?_⟩, ⟨rfl, .refl _⟩, rfl, _, rfl, .refl _⟩
      (le_refl 1)
    · exact tries_congr (Retrack.below fun _ => hex.retrack)
    · obtain rfl := chk_of_opsOf hts
      obtain ⟨rest, hrest, hops, -⟩ := hex.ops (h.stack.known hne rfl).2 hts
      refine ⟨topKinds bt.params ++ rest, ?_, ?_⟩
      · rw [hrest, map_cons, map_kindOf_reverse]
        rfl
      · change (opsOf (some tr₁.state)).map _ = _
        rw [hops]
        rfl
  refine ⟨_, ⟨hs₁.enter hne helOk rfl hentered, ?_⟩,
    .append slots ⟨some (here chk st), [outside bt.params st.pcStack (view chk tr₁)]⟩ [] _ rfl⟩
  unfold here
  rw [hhere]
  refine .enter (hentered.scopesOf (block_isValue hbt)) ?_ ?_ ?_ nofun
  · rw [Writer.append_ok happ]
    exact h.building.offset
  · rw [Writer.append_ok happ]
    refine hcode.repend (fun b a hb' => ?_) fun b a hb' => ⟨a, ?_⟩
    · rcases hb' with hb' | hb'
      · exact hcode.expects b a (.inl hb')
      · cases mem_singleton.mp hb'
        exact hcode.expects _ _ (.inr ⟨hlen, rfl⟩)
    · refine hb'.imp id fun ⟨hslot, ha⟩ => ?_
      obtain ⟨slot, entry⟩ := b
      obtain rfl : slot = st.writer.opIndex := hslot.trans hlen.symm
      cases entry with
      | succ entry => cases ha
      | zero =>
        cases ha
        exact mem_singleton_self _
  · intro n sc pos hsc hpos
    exact (hb.loops n sc pos hsc hpos).extend (.append slots _ [] _ rfl)

end

end PsiServe.Typing
