import PsiServe.Typing.Operators

/-!
# Branches

The steps of the parser that branch to labels keep the invariant of
`PsiServe.Typing.Emission`: a branch leaves the `try_table` scopes up to its label and
arrives with the operands the label expects.
-/

namespace PsiServe.Typing

open Base Wasm Bitcode PsiServe.Parser List

variable {chk : Bool} {base depth count : Nat} {e : BodyEnv} {slots : List Slot} {st st' : State}
  {label : Nat} {sc : Scope} {v : Option (List ValueType)} {cur : Ann} {b : Branch}

/-! ### Leaving scopes -/

variable {s : State} {pcs : List PcElement} {w w' : Writer} {tr' tr : Tracker} {ft : FuncType}

/-- A branch leaves the scopes that are open up to its label. -/
theorem label_leaves (h : (scopesOf s.pcStack v)[label]? = some sc) :
    sc.label.tries = (tries s.pcStack v).drop (s.countEhLeaves label) := by
  have hlt := (List.getElem?_eq_some_iff.mp (scopesOf_getElem? h).1).1
  rw [label_tries h, State.countEhLeaves, if_pos hlt]

/-- The opcodes that leave EH frames before a branch. -/
theorem Building.leaves {m : Module} {fn : FnShape} {n : Nat}
    (h : Building m fn base w slots cur pcs v []) (hn : n ≤ cur.tries.length)
    (hw : w.emitEhLeaves n = .ok w') :
    ∃ slots', Building m fn base w' slots' ⟨cur.tries.drop n, cur.ops⟩ pcs v [] ∧
      Extends slots cur slots' ⟨cur.tries.drop n, cur.ops⟩ := by
  induction n generalizing w slots cur with
  | zero =>
    cases hw
    exact ⟨slots, h, .refl slots cur⟩
  | succ n ih =>
    obtain ⟨w₁, hw₁, hw⟩ := bind_eq_ok.mp hw
    obtain ⟨trs, ops⟩ := cur
    cases trs with
    | nil => exact absurd hn (Nat.not_succ_le_zero n)
    | cons kept outer =>
      have hfirst : Building m fn base w₁ (slots ++ [⟨some ⟨kept :: outer, ops⟩, []⟩])
          ⟨outer, ops⟩ pcs v [] := by
        refine h.emitPlain hw₁ ?_ rfl
        exact ⟨kept, outer, rfl, rfl, .refl _⟩
      obtain ⟨slots', hb, hext⟩ := ih hfirst (Nat.le_of_succ_le_succ hn) hw
      exact ⟨slots', hb, Extends.trans (.append slots _ [] ⟨outer, ops⟩ rfl) hext⟩

private theorem emitEhLeaves_ok (h : st.emitEhLeaves label = .ok st') :
    ∃ w, st.writer.emitEhLeaves (st.countEhLeaves label) = .ok w ∧
      st' = { st with writer := w } := by
  obtain ⟨w, hw, h⟩ := bind_eq_ok.mp h
  cases h
  exact ⟨w, emitted_ok.mp hw, rfl⟩

/-- A branch leaves no more `try_table`s than are open. -/
theorem countEhLeaves_le (v : Option (List ValueType)) :
    st.countEhLeaves label ≤ (tries st.pcStack v).length := by
  unfold State.countEhLeaves
  split
  · rw [length_tries]
    exact ((take_sublist _ _).filter _).length_le
  · exact Nat.zero_le _

/-! ### Jumps -/

private theorem emitBr_ok (h : w.emitBr depth count = .ok (w', b)) : ∃ data,
      Writer.encodeDepthChange depth count = .ok data ∧ w.append (.br data 0) = .ok w' ∧
      b = ⟨w.opIndex, 0⟩ := by
  obtain ⟨data, hdata, h⟩ := bind_eq_ok.mp h
  obtain ⟨w₁, hw₁, h⟩ := bind_eq_ok.mp h
  cases h
  exact ⟨data, hdata, hw₁, rfl⟩

/-! ### Conditional branches -/

private theorem emitBrIf_ok {leaves : Nat} (h : w.emitBrIf depth count leaves = .ok (w', b)) :
    ∃ data,
      Writer.encodeDepthChange depth count = .ok data ∧
      w.append (.brIf data 0 leaves) = .ok w' ∧ b = ⟨w.opIndex, 0⟩ := by
  obtain ⟨data, hdata, h⟩ := bind_eq_ok.mp h
  obtain ⟨w₁, hw₁, h⟩ := bind_eq_ok.mp h
  cases h
  exact ⟨data, hdata, hw₁, rfl⟩

section

variable (hs : StackOk chk ft pcs tr) (hne : pcs ≠ [])

include hs hne

/-- After a jump the code is unreachable. -/
theorem retrack_jump (hre : chk = true → Retrack tr tr') :
    chk = true → Retrack tr tr'.startUnreachable := by
  intro hchk
  have hscope := (hre hchk).scope (hs.known hne hchk).1
  exact (hre hchk).trans (retrack_startUnreachable hscope)

omit hs hne in
/-- A jump from where the scopes up to the label were left. -/
theorem jumpTo_ok {s' : State} (hs : StackOk chk e.ft s.pcStack s.tracker)
    (hb : Building e.m (bodyShape e) base s.writer slots cur s.pcStack (view chk s.tracker) [])
    (htries : ∀ sc, (scopesOf s.pcStack (view chk s.tracker))[label]? = some sc →
      sc.label.tries = cur.tries)
    (hops : ∀ ts, cur.ops = some ts → opsOf (view chk s.tracker) = some ts)
    (hst : jumpTo e s label = .ok s') :
    ∃ slots', Emits chk base e slots' s' ∧ Extends slots cur slots' (here chk s') := by
  obtain ⟨⟨st₁, depth, count⟩, hdepth, hst⟩ := bind_eq_ok.mp hst
  obtain ⟨⟨w, b⟩, hbr, hst⟩ := bind_eq_ok.mp hst
  obtain ⟨st₂, hst₂, hst⟩ := bind_eq_ok.mp hst
  cases hst
  obtain ⟨el, tr', hel, rfl, rfl, rfl, hex⟩ := computeDepthChange_ok hdepth
  obtain ⟨data, hdata, hw, rfl⟩ := emitBr_ok (emitted_ok.mp hbr)
  obtain ⟨sc, hsc, rfl⟩ := exists_scope (view chk s.tracker) hel
  have hne : s.pcStack ≠ [] := by
    intro hnil
    rw [hnil] at hel
    cases hel
  have hex := hex (hs.elems _ (mem_of_getElem? hel))
  have hbr : Building e.m (bodyShape e) base w (slots ++ [⟨some cur, [sc.label]⟩])
      (place s.pcStack (view chk tr'.startUnreachable)) s.pcStack (view chk s.tracker)
      [(⟨s.writer.opIndex, 0⟩, label)] := by
    refine hb.emitTo hsc hw ?_ (le_refl 1)
    refine ⟨sc.label, ⟨Nat.zero_le _, htries sc hsc, fun ts hts => ?_⟩, rfl, rfl, .refl _⟩
    exact label_branches hs hsc hdata (hops ts hts) hex
  obtain ⟨hb₂, hrec, htracker⟩ :=
    hbr.handleBranchTarget (s := { s with tracker := tr', writer := w }) hs.elems hst₂
  have hst₂ : st₂.startUnreachable.tracker = tr'.startUnreachable :=
    congrArg Tracker.startUnreachable htracker
  obtain ⟨hemits, hhere⟩ := Recorded.emits (s := st₂.startUnreachable) hrec hs hne
    (hst₂ ▸ retrack_jump hs hne fun _ => hex.retrack) hb₂ (by rw [hst₂])
  refine ⟨_, hemits, ?_⟩
  exact .append slots _ [] _ rfl

/-- The annotation after an operand was popped. -/
theorem Exchanged.pops {pops : List ValueType} (hex : Exchanged tr tr' pops []) :
    Pops (place pcs (view chk tr)) (pops.map kindOf) (place pcs (view chk tr')) := by
  refine ⟨tries_congr (Retrack.below fun _ => hex.retrack), fun ts hts => ?_⟩
  obtain rfl := chk_of_opsOf hts
  obtain ⟨rest, hrest, hops, -⟩ := hex.ops (hs.known hne rfl).2 hts
  exact ⟨rest, hrest, hops⟩

/-- Popping and pushing back the operands of a label changes nothing. -/
theorem Exchanged.same {ts : List ValueType} (hex : Exchanged tr tr' ts.reverse ts) :
    Flow (place pcs (view chk tr)) (place pcs (view chk tr')) := by
  refine ⟨tries_congr (Retrack.below fun _ => hex.retrack), fun us hus => ?_⟩
  obtain rfl := chk_of_opsOf hus
  obtain ⟨rest, rfl, hops, -⟩ := hex.ops (hs.known hne rfl).2 hus
  rw [map_kindOf_reverse]
  exact hops

end

/-- The annotation of a label a branch arrives at. -/
theorem branches_of_label {data : Nat} (hs : StackOk chk e.ft s.pcStack tr)
    (hsc : (scopesOf s.pcStack (view chk tr))[label]? = some sc)
    (hdata : Writer.encodeDepthChange (tr.operandDepth - sc.elem.operandDepth).toNat
      sc.elem.labelTypes.length = .ok data)
    (hex : ∀ ts, opsOf (view chk tr) = some ts →
      Exchanged tr tr' sc.elem.labelTypes.reverse sc.elem.labelTypes) :
    Branches (place s.pcStack (view chk tr)) data (s.countEhLeaves label) sc.label := by
  exact ⟨countEhLeaves_le _, label_leaves hsc,
    fun ts hts => label_branches hs hsc hdata hts (hex ts hts)⟩

/-! ### Tail calls -/

private theorem countEhLeaves_all (v : Option (List ValueType)) :
    (tries st.pcStack v).drop (st.countEhLeaves (st.pcStack.length - 1)) = [] := by
  rw [drop_eq_nil_iff, length_tries, State.countEhLeaves]
  split
  next hlt => rw [Nat.sub_add_cancel (by omega), take_length]
  next hlt =>
    have hnil : st.pcStack = [] := length_eq_zero_iff.mp (by omega)
    rw [hnil]
    exact le_refl 0

section

variable (h : Emits chk base e slots st)

include h

/-- A `br` keeps the invariant. -/
theorem stepBr_ok (hst : stepBr e st label = .ok st') : EmitsTo chk base e slots st st' := by
  have hst := then_eq_ok hst
  obtain ⟨st₁, hst₁, hst⟩ := bind_eq_ok.mp hst
  obtain ⟨w, hw, rfl⟩ := emitEhLeaves_ok hst₁
  obtain ⟨slots₁, hb, hext⟩ :=
    h.building.leaves (countEhLeaves_le (view chk st.tracker)) hw
  obtain ⟨slots', hemits, hext'⟩ := jumpTo_ok (s := { st with writer := w }) h.stack hb
    (fun sc hsc => label_leaves (s := st) hsc) (fun ts hts => hts) hst
  exact ⟨slots', hemits, hext.trans hext'⟩

section

variable (hne : st.pcStack ≠ [])

include hne

/-- A `rethrow` keeps the invariant. -/
theorem stepRethrow_ok (hst : stepRethrow e st label = .ok st') :
    EmitsTo chk base e slots st st' := by
  have hst := then_eq_ok hst
  have hst := then_eq_ok hst
  obtain ⟨⟨st₁, depth, count⟩, hdepth, hst⟩ := bind_eq_ok.mp hst
  obtain ⟨st₂, hst₂, hst⟩ := bind_eq_ok.mp hst
  cases hst
  obtain ⟨el, tr', hel, rfl, -, -, hex⟩ := computeDepthChange_ok hdepth
  have hex := hex (h.stack.elems el (mem_of_getElem? hel))
  exact h.halt hne hst₂ (fun _ => hex.retrack) trivial rfl

/-- A `br_if` keeps the invariant. -/
theorem stepBrIf_ok (hst : stepBrIf e st label = .ok st') : EmitsTo chk base e slots st st' := by
  have hst := then_eq_ok hst
  obtain ⟨tr₁, hex₁, hst⟩ := exchange_ok hst
  obtain ⟨⟨st₂, depth, count⟩, hdepth, hst⟩ := bind_eq_ok.mp hst
  obtain ⟨⟨w, b⟩, hbr, htarget⟩ := bind_eq_ok.mp hst
  obtain ⟨el, tr₂, hel, rfl, rfl, rfl, hex₂⟩ := computeDepthChange_ok hdepth
  obtain ⟨data, hdata, hw, rfl⟩ := emitBrIf_ok (emitted_ok.mp hbr)
  have hex₁ := hex₁ (by decide) plain_nil
  have hs₁ := h.stack.retrack hne fun _ => hex₁.retrack
  have hex₂ := hex₂ (h.stack.elems el (mem_of_getElem? hel))
  obtain ⟨sc, hsc, rfl⟩ := exists_scope (view chk tr₁) hel
  have hb := h.building.congr (Retrack.below fun _ => hex₁.retrack)
  have hbr : Building e.m (bodyShape e) base w (slots ++ [⟨some (here chk st), [sc.label]⟩])
      (place st.pcStack (view chk tr₂)) st.pcStack (view chk tr₁)
      [(⟨st.writer.opIndex, 0⟩, label)] := by
    refine hb.emitTo hsc hw ?_ (le_refl 1)
    refine ⟨place st.pcStack (view chk tr₁), sc.label, hex₁.pops h.stack hne,
      ⟨rfl, hex₂.same hs₁ hne⟩, ?_, rfl, rfl, .refl _⟩
    exact branches_of_label (s := { st with tracker := tr₁ }) hs₁ hsc hdata fun _ _ => hex₂
  obtain ⟨hb', hrec, htracker⟩ :=
    hbr.handleBranchTarget (s := { st with tracker := tr₂, writer := w }) h.stack.elems
      htarget
  obtain ⟨hemits, hhere⟩ := hrec.emits hs₁ hne (fun _ => htracker ▸ hex₂.retrack) hb'
    (by rw [htracker])
  refine ⟨_, hemits, ?_⟩
  exact .append slots _ [] _ rfl

/-- A tail call leaves all scopes; what follows it is never reached. -/
theorem tailCallTo_ok {i : Instr} (hst : tailCallTo e { st with tracker := tr' } i = .ok st')
    (hre : chk = true → Retrack st.tracker tr')
    (hok : ∀ n, InstrOk e.m (bodyShape e) (fun _ _ _ _ => False) (fun _ _ => False)
      (fun _ _ _ => False) n ⟨[], opsOf (view chk st.tracker)⟩ i) (hfit : TargetsFit [] i) :
    EmitsTo chk base e slots st st' := by
  obtain ⟨st₁, hst₁, hst⟩ := bind_eq_ok.mp hst
  obtain ⟨w₁, hw₁, rfl⟩ := emitEhLeaves_ok hst₁
  obtain ⟨st₂, hst₂, hjump⟩ := bind_eq_ok.mp hst
  obtain ⟨w₂, hw₂, rfl⟩ := State.emit_ok hst₂
  obtain ⟨slots₁, hb₁, hext₁⟩ := h.building.leaves (countEhLeaves_le (view chk st.tracker)) hw₁
  have htries : (here chk st).tries.drop (st.countEhLeaves (st.pcStack.length - 1)) = [] :=
    countEhLeaves_all _
  have hcur : (⟨(here chk st).tries.drop (st.countEhLeaves (st.pcStack.length - 1)),
      (here chk st).ops⟩ : Ann) = ⟨[], opsOf (view chk st.tracker)⟩ := by
    rw [htries]
    rfl
  rw [hcur] at hb₁
  have hb₂ : Building e.m (bodyShape e) base w₂
      (slots₁ ++ [⟨some ⟨[], opsOf (view chk st.tracker)⟩, []⟩]) ⟨[], none⟩ st.pcStack
      (view chk st.tracker) [] := by
    refine hb₁.emitPlain hw₂ ?_ hfit
    exact (hok _).mono (fun _ _ _ _ h => h) (fun _ _ h => h.elim) fun _ _ _ h => h
  have hlabel : ∀ sc, (scopesOf st.pcStack (view chk tr'))[st.pcStack.length - 1]? = some sc →
      sc.label.tries = [] := by
    intro sc hsc
    exact (label_leaves hsc).trans (countEhLeaves_all _)
  obtain ⟨slots', hemits, hext'⟩ := jumpTo_ok (s := { st with tracker := tr', writer := w₂ })
    (h.stack.retrack hne hre) (hb₂.congr (Retrack.below hre)) hlabel nofun
    hjump
  refine ⟨slots', hemits, Extends.trans ?_ hext'⟩
  exact hext₁.trans (.append slots₁ _ [] _ (congrArg some hcur.symm))

/-- A `return_call` keeps the invariant. -/
theorem stepReturnCall_ok {func : Nat} (hst : stepReturnCall e st func = .ok st') :
    EmitsTo chk base e slots st st' := by
  have hst := then_eq_ok hst
  obtain ⟨ft, hft, hst⟩ := bind_eq_ok.mp hst
  obtain ⟨_, hret, hst⟩ := bind_eq_ok.mp hst
  obtain ⟨tr', hex, hst⟩ := exchange_ok hst
  have hex := hex (plain_params ft) (plain_returns ft)
  refine tailCallTo_ok h hne hst (fun _ => hex.retrack) (fun _ => ⟨rfl, fun ts hts => ?_⟩) rfl
  obtain rfl := chk_of_opsOf hts
  obtain ⟨rest, hrest, -⟩ := hex.ops (h.stack.known hne rfl).2 hts
  rw [map_kindOf_reverse] at hrest
  exact ⟨ft, rest, callee_ok hft, hrest, congrArg topKinds (require_ok.mp hret)⟩

/-- A `return_call_indirect` keeps the invariant. -/
theorem stepReturnCallIndirect_ok {type table : Nat}
    (halias : chk = true → e.m.typeAlias type < 2 ^ 16)
    (hst : stepReturnCallIndirect e st type table = .ok st') :
    EmitsTo chk base e slots st st' := by
  have hst := then_eq_ok hst
  cases hft : e.m.types[type]? with
  | none =>
    rw [hft] at hst
    cases hst
  | some ft =>
    rw [hft] at hst
    obtain ⟨_, hret, hst⟩ := bind_eq_ok.mp hst
    have hst := then_eq_ok hst
    obtain ⟨tr', hex, hst⟩ := exchange_ok hst
    have hst := then_eq_ok hst
    have hpops : ∀ t ∈ types.i32 :: ft.paramTypes.reverse, Plain t := by
      rw [forall_mem_cons]
      exact ⟨plain_i32, plain_params ft⟩
    have hex := hex hpops (plain_returns ft)
    refine tailCallTo_ok h hne hst (fun _ => hex.retrack) (fun _ => ⟨rfl, fun ts hts => ?_⟩) rfl
    obtain rfl := chk_of_opsOf hts
    obtain ⟨rest, hrest, -⟩ := hex.ops (h.stack.known hne rfl).2 hts
    rw [map_cons, map_kindOf_reverse] at hrest
    exact ⟨ft, rest, indirect_type hft (halias rfl), hrest, congrArg topKinds (require_ok.mp hret)⟩

end

end

end PsiServe.Typing
