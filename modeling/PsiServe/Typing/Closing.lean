import PsiServe.Typing.Blocks

/-!
# Ends of scopes

`else` and `end` keep the invariant of `PsiServe.Typing.Emission`: the results of a scope
lie on the operands outside of it, where the branches that waited for the end arrive too.
-/

namespace PsiServe.Typing

open Base Wasm Bitcode PsiServe.Parser List

variable {chk : Bool} {base : Nat} {e : BodyEnv} {slots : List Slot} {st st' : State}
  {el el' : PcElement} {pcs outer : List PcElement} {ft : FuncType} {tr tr' : Tracker}
  {w w' : Writer} {results state : List ValueType} {o : Options} {b : Branch} {bs : List Branch}
  {cur : Ann} {v' : Option (List ValueType)}

private theorem EmitsTo.trans {st'' : State} (h : EmitsTo chk base e slots st st')
    (h' : ∀ slots', Emits chk base e slots' st' → EmitsTo chk base e slots' st' st'') :
    EmitsTo chk base e slots st st'' := by
  obtain ⟨slots', hemits, hext⟩ := h
  obtain ⟨slots'', hemits', hext'⟩ := h' slots' hemits
  exact ⟨slots'', hemits', hext.trans hext'⟩

/-- Counters of the parser are not part of the invariant. -/
theorem EmitsTo.counters (h : EmitsTo chk base e slots st st') (g : GasInjectionState)
    (n : Nat) : EmitsTo chk base e slots st { st' with gas := g, nested := n } := by
  obtain ⟨slots', hemits, hext⟩ := h
  exact ⟨slots', ⟨hemits.stack, hemits.building⟩, hext⟩

/-! ### What is left of a scope -/

/-- The innermost scope has nothing but its results where its code is reachable. -/
def Closes (tr : Tracker) (results : List ValueType) : Prop :=
  Live tr.state → anyType ∉ tr.state → tr.state = results.reverse ++ scopeTag :: under tr.state

/-- The tracker after a scope was closed with results. -/
structure Left (tr tr' : Tracker) (results : List ValueType) : Prop where
  state : tr'.state = results.reverse ++ under tr.state
  closes : Closes tr results
  depth : DepthOk tr → DepthOk tr'

private theorem popScopeMulti_left (hresults : ∀ t ∈ results, Plain t)
    (h : tr.popScopeMulti o results = .ok tr') :
    Left tr tr' results := by
  obtain ⟨-, hstate, hlive, hdepth⟩ := popScopeMulti_state hresults h
  exact ⟨hstate, hlive, hdepth⟩

/-- At the end of a scope the operands are its results and those outside of it. -/
theorem Closes.flow (hcloses : Closes tr results) (hresults : ∀ t ∈ results, IsValue t)
    (hknown : chk = true → Live tr.state → anyType ∉ tr.state) :
    Flow ⟨tries outer (below (view chk tr)), opsOf (view chk tr)⟩
      (outside results outer (below (view chk tr))) := by
  refine ⟨rfl, fun ts hts => ?_⟩
  obtain rfl := chk_of_opsOf hts
  obtain ⟨hlive, rfl⟩ := opsOf_eq_some hts
  have hrev : ∀ t ∈ results.reverse, IsValue t := fun t ht => hresults t (mem_reverse.mp ht)
  change (opsOf (some (under tr.state))).map _ = some (kindsOf tr.state)
  rw [opsOf_some hlive.under]
  nth_rewrite 2 [hcloses hlive (hknown rfl hlive)]
  rw [kindsOf, kindsOf, values_append, values_scope, values_of_all hrev, map_append, map_reverse]
  rfl

/-- The results were popped before the scope was closed. -/
theorem Popped.closes {mid : Tracker} (hpopped : Popped tr mid results.reverse)
    (hmid : Closes mid []) : Closes tr results := by
  intro hlive hany
  obtain ⟨popped, hstate, hvalues, heq⟩ := hpopped.split
  have hpop := heq hlive hany
  rw [hstate] at hlive hany
  have hmid := hmid ((live_append hvalues).mp hlive) fun h => hany (mem_append_right _ h)
  rw [hstate, under_values hvalues, ← hpop]
  exact congrArg _ hmid

private theorem Nested.known (h : Nested pcs state) (hlive : Live state) : anyType ∉ state := by
  cases pcs with
  | nil =>
    rw [show state = [] from h]
    exact not_mem_nil
  | cons el outer => exact h.2.1 hlive

private theorem Nested.push {xs : List ValueType} (h : Nested (el :: outer) state)
    (hxs : ∀ t ∈ xs, Plain t) : Nested (el :: outer) (xs ++ state) := by
  have hvalues : ∀ t ∈ xs, IsValue t := fun t ht => (hxs t ht).1
  obtain ⟨hscope, hknown, hdepth, houter⟩ := h
  refine ⟨mem_append_right _ hscope, fun hlive hany => ?_, ?_, ?_⟩
  · rcases mem_append.mp hany with hany | hany
    · exact (hxs _ hany).2.1 rfl
    · exact hknown ((live_append hvalues).mp hlive) hany
  · rw [under_values hvalues]
    exact hdepth
  · rw [under_values hvalues]
    exact houter

section

variable (hleft : Left tr tr' results)

include hleft

private theorem Left.below (hresults : ∀ t ∈ results, IsValue t) :
    below (view chk tr') = below (below (view chk tr)) := by
  cases chk with
  | false => rfl
  | true =>
    change some (under tr'.state) = some (under (under tr.state))
    rw [hleft.state, under_values fun t ht => hresults t (mem_reverse.mp ht)]

/-- The results are on the operands outside of the scope. -/
theorem Left.place (hresults : ∀ t ∈ results, IsValue t) :
    place outer (view chk tr') = outside results outer (Typing.below (view chk tr)) := by
  have htries : tries outer (view chk tr') = tries outer (Typing.below (view chk tr)) :=
    tries_congr (hleft.below hresults)
  have hrev : ∀ t ∈ results.reverse, IsValue t := fun t ht => hresults t (mem_reverse.mp ht)
  unfold Typing.place outside
  congr 1
  cases chk with
  | false => rfl
  | true =>
    change opsOf (some tr'.state) = (opsOf (some (under tr.state))).map _
    rw [hleft.state]
    by_cases hlive : Live (under tr.state)
    · rw [opsOf_some hlive, opsOf_some ((live_append hrev).mpr hlive), kindsOf, values_append,
        values_of_all hrev, map_append, map_reverse]
      rfl
    · rw [opsOf_dead hlive, opsOf_dead (mt (live_append hrev).mp hlive)]
      rfl

/-- The control stack without its innermost scope. -/
theorem Left.leave (hs : StackOk chk ft (el :: outer) tr)
    (hres : el.resultTypes = results) : StackOk chk ft outer tr' := by
  have hplain : ∀ t ∈ results.reverse, Plain t := by
    intro t ht
    refine plain_of_isValueType ((hs.elems el mem_cons_self).results t ?_)
    rw [hres]
    exact mem_reverse.mp ht
  refine ⟨(forall_mem_cons.mp hs.elems).2, fun x hx => ?_,
    fun hchk => hleft.depth (hs.depth hchk), fun hchk => ?_⟩
  · refine hs.last x ?_
    rw [getLast?_cons, hx]
    rfl
  · obtain ⟨-, -, -, houter⟩ := hs.nested (cons_ne_nil _ _) hchk
    rw [hleft.state]
    cases outer with
    | nil =>
      obtain ⟨hresults, -⟩ := hs.last el rfl
      change _ = _
      rw [show under tr.state = [] from houter, append_nil, ← hres, hresults]
    | cons top rest => exact houter.push hplain

end

/-! ### `else` -/

private theorem emitElse_ok {b' : Branch} (h : w.emitElse b = .ok (w', b')) :
    ∃ w₁, w.append (.else_ 0) = .ok w₁ ∧ w' = w₁.fixBranch b w₁.opIndex ∧ b' = ⟨w.opIndex, 0⟩ := by
  obtain ⟨w₁, hw₁, h⟩ := bind_eq_ok.mp h
  cases h
  exact ⟨w₁, hw₁, rfl, rfl⟩

/-- The tracker at the start of the second branch of an `if`: the scope was closed without
results and opened again. -/
def Reopened (tr tr' : Tracker) (el : PcElement) : Prop :=
  ∃ out : Tracker, out.state = under tr.state ∧ (DepthOk tr → DepthOk out) ∧
    Entered out tr' el.blockParams

private theorem view_under {out : Tracker} (h : out.state = under tr.state) :
    view chk out = below (view chk tr) := by
  cases chk with
  | false => rfl
  | true => exact congrArg some h

private theorem elseBranch_reopened (hok : ElemOk el)
    (h : elseBranch o el tr w = .ok (el', tr', w')) :
    Reopened tr tr' el ∧ Closes tr el.resultTypes ∧ ∃ b bs, el.relocations = .branches (b :: bs) ∧
        el' = { el with isIf := false, relocations := .branches (⟨w.opIndex, 0⟩ :: bs) } ∧
        ∃ w₁, w.append (.else_ 0) = .ok w₁ ∧ w' = w₁.fixBranch b w₁.opIndex := by
  obtain ⟨mid, hmid, h⟩ := bind_eq_ok.mp h
  obtain ⟨tr₂, htr₂, h⟩ := bind_eq_ok.mp h
  obtain ⟨tr₃, htr₃, h⟩ := bind_eq_ok.mp h
  have hplain : ∀ t ∈ el.resultTypes.reverse, Plain t :=
    fun t ht => plain_of_isValueType (hok.results t (mem_reverse.mp ht))
  have hpopped := popAll_popped hplain hmid
  have hleft : Left mid tr₂ [] := popScopeMulti_left plain_nil htr₂
  have hentered := pushScope_entered htr₃
  obtain ⟨popped, hstate, hvalues, -⟩ := hpopped.split
  split at h
  · cases h
  · cases h
  next b bs hbs =>
    obtain ⟨⟨w₁, b'⟩, hw₁, h⟩ := bind_eq_ok.mp h
    cases h
    obtain ⟨w₂, hw₂, rfl, rfl⟩ := emitElse_ok (emitted_ok.mp hw₁)
    refine ⟨⟨tr₂, ?_, fun hd => hleft.depth (hpopped.depth hd), hentered⟩,
      hpopped.closes hleft.closes, b, bs, hbs, rfl, w₂, hw₂, rfl⟩
    rw [hleft.state, hstate, under_values hvalues]
    rfl

private theorem StackOk.reopen (hs : StackOk chk ft (el :: outer) tr) (h : Reopened tr tr' el)
    (hsim : Similar el el') (hok' : ElemOk el') : StackOk chk ft (el' :: outer) tr' := by
  obtain ⟨out, hout, houtDepth, hstate, hdepth⟩ := h
  have hset : StackOk chk ft (el' :: outer) tr := hs.set (n := 0) rfl hsim hok'
  have hplain : ∀ t ∈ el.blockParams, Plain t := fun t ht =>
    plain_of_isValueType ((hs.elems el mem_cons_self).params t ht)
  refine ⟨hset.elems, hset.last, fun hchk => ?_, fun hchk => ?_⟩
  · exact hdepth (fun t ht => (hplain t ht).1) (houtDepth (hs.depth hchk))
  · obtain ⟨-, -, hcount, houter⟩ := hset.nested (cons_ne_nil _ _) hchk
    have hscope : Nested (el' :: outer) (scopeTag :: under tr.state) := by
      refine ⟨mem_cons_self, fun hlive hany => ?_, hcount, houter⟩
      rcases mem_cons.mp hany with hany | hany
      · exact absurd hany (by decide)
      · exact houter.known (fun hmem => hlive (mem_cons_of_mem _ hmem)) hany
    rw [hstate, hout]
    exact hscope.push fun t ht => hplain t (mem_reverse.mp ht)

/-- The innermost scope. -/
def topScope (el : PcElement) (outer : List PcElement) (v : Option (List ValueType)) : Scope :=
  ⟨el, outside el.labelTypes outer (below v), outside el.blockParams outer (below v)⟩

private theorem scopesOf_cons (el : PcElement) (outer : List PcElement)
    (v : Option (List ValueType)) :
    scopesOf (el :: outer) v = topScope el outer v :: scopesOf outer (below v) := rfl

/-- Annotation in front of an `end`, apart from the scope that ends. -/
theorem place_cons (htry : el.isTryTable = false) (v : Option (List ValueType)) :
    place (el :: outer) v = ⟨tries outer (below v), opsOf v⟩ := by
  rw [place, tries, htry]
  rfl

private theorem mem_map_pair {a x : Ann} (h : (b, a) ∈ bs.map fun b => (b, x)) : b ∈ bs ∧
    a = x := by
  obtain ⟨b', hb', heq⟩ := mem_map.mp h
  cases heq
  exact ⟨hb', rfl⟩

/-- The branch of an `if` waits for the `else`, the others for the end. -/
theorem waits_of_if (sc : Scope) (hif : sc.elem.isIf = true)
    (hbs : sc.elem.relocations = .branches (b :: bs)) :
    sc.waits = (b, sc.other) :: bs.map fun b => (b, sc.label) := by
  unfold Scope.waits
  rw [hbs]
  exact if_pos hif

variable {m : Module} {fn : FnShape} {v : Option (List ValueType)} {sc : Scope}

/-- The `else` of a scope: its `if` goes to the next position, and the first branch goes to
the label. -/
theorem Building.emitElse {w₁ : Writer} {pcs' : List PcElement}
    (hb : Building m fn base w slots cur pcs v [])
    (hscopes : scopesOf pcs v = sc :: scopesOf outer (below v))
    (hwaits : sc.waits = (b, sc.other) :: bs.map fun b => (b, sc.label)) (hflow : Flow cur sc.label)
    (hw : w.append (.else_ 0) = .ok w₁)
    (hscopes' : scopesOf pcs' v' = ⟨el', sc.label, sc.other⟩ :: scopesOf outer (below v))
    (hif : el'.isIf = false) (hbs : el'.relocations = .branches (⟨w.opIndex, 0⟩ :: bs)) :
    Building m fn base (w₁.fixBranch b w₁.opIndex) (slots ++ [⟨some cur, [sc.label]⟩]) sc.other
      pcs' v' [] := by
  have hlen : w.opIndex = slots.length := hb.code.length
  have hoffset : w₁.baseOffset = base := by
    rw [Writer.append_ok hw]
    exact hb.offset
  have hemit : CodeOk m fn base w₁.code (slots ++ [⟨some cur, [sc.label]⟩]) sc.other fun b a =>
      Pending pcs v b a ∨ b.slot = slots.length ∧ [sc.label][b.entry]? = some a := by
    rw [Writer.append_ok hw]
    exact hb.codeOk.emit ⟨rfl, sc.label, rfl, hflow⟩ (le_refl 1)
  have hexpects : ∀ b a, (b, a) ∈ sc.waits → Expects (slots ++ [⟨some cur, [sc.label]⟩]) b a :=
    fun b a hmem => hemit.expects b a (.inl ((pending_cons hscopes).mpr (.inl hmem)))
  have hreach : Reaches (slots ++ [⟨some cur, [sc.label]⟩]) sc.other w₁.opIndex sc.other := by
    have hend : w₁.opIndex = (slots ++ [(⟨some cur, [sc.label]⟩ : Slot)]).length := hemit.length
    rw [hend]
    exact .last (.refl _)
  have hfix := hemit.fix (hexpects b sc.other (by rw [hwaits]; exact mem_cons_self)) hreach
  refine .enter hscopes' hoffset ?_ ?_ fun pos hpos => ?_
  · rw [fixBranch_code hoffset]
    simp only [Scope.waits, hbs, hif, Bool.false_eq_true, if_false, map_cons]
    refine hfix.repend (fun b' a hb' => ?_) ?_
    · rcases hb' with hb' | hb'
      · exact hemit.expects b' a (.inl ((pending_cons hscopes).mpr (.inr hb')))
      · rcases mem_cons.mp hb' with heq | hmem
        · cases heq
          exact hemit.expects _ _ (.inr ⟨hlen, rfl⟩)
        · refine hexpects b' a ?_
          rw [hwaits]
          exact mem_cons_of_mem _ hmem
    · rintro b' a ⟨hb' | ⟨hslot, ha⟩, hne⟩
      · rcases (pending_cons hscopes).mp hb' with hb' | hb'
        · rw [hwaits] at hb'
          rcases mem_cons.mp hb' with heq | hmem
          · exact absurd (congrArg Prod.fst heq) hne
          · exact ⟨a, .inr (mem_cons_of_mem _ hmem)⟩
        · exact ⟨a, .inl hb'⟩
      · obtain ⟨slot, entry⟩ := b'
        obtain rfl : slot = w.opIndex := hslot.trans hlen.symm
        cases entry with
        | succ entry => cases ha
        | zero => exact ⟨sc.label, .inr mem_cons_self⟩
  · intro n sc' pos hsc' hpos
    refine (hb.loops (n + 1) sc' pos ?_ hpos).extend (.append slots ⟨some cur, _⟩ [] _ rfl)
    rw [hscopes]
    exact hsc'
  · rw [hbs] at hpos
    cases hpos

/-! ### `end` -/

private theorem closeLoop_pcStack (st : State) (el : PcElement) :
    (closeLoop st el).pcStack = st.pcStack ∧ (closeLoop st el).tracker = st.tracker := by
  unfold closeLoop
  split
  · exact ⟨rfl, rfl⟩
  · exact ⟨rfl, rfl⟩

/-- Every branch that waits for the end of a scope arrives as the label says. -/
def Settled (sc : Scope) : Prop := ∀ b a, (b, a) ∈ sc.waits → a = sc.label

private theorem settled_of_not_if (h : sc.elem.isIf = false) : Settled sc := by
  intro b a hmem
  unfold Scope.waits at hmem
  split at hmem
  · cases hmem
  · rw [h] at hmem
    exact (mem_map_pair hmem).2

/-- An `if` without parameters and `else` has no results. -/
theorem checkIf_ok (h : checkIf el = .ok ()) (hparams : el.blockParams = []) :
    el.resultTypes = [] := by
  unfold checkIf at h
  rw [hparams] at h
  by_cases hres : el.expectedResults = []
  · rw [if_neg (by rw [hres]; simp)] at h
    rw [PcElement.resultTypes, PcElement.typesOr, if_neg (not_not.mpr hres),
      if_pos (require_ok.mp h)]
  · rw [if_pos (.inr hres)] at h
    exact absurd (require_ok.mp h).symm hres

private theorem fixBranches_code (w : Writer) (bs : List Branch) (pos : Nat) :
    (w.fixBranches bs pos).baseOffset = w.baseOffset ∧
      (w.fixBranches bs pos).code = bs.foldl
        (fun code b => code.modify b.slot (Instr.setPc b.entry (w.baseOffset + pos))) w.code := by
  induction bs generalizing w with
  | nil => exact ⟨rfl, rfl⟩
  | cons b bs ih => exact ih (w.fixBranch b pos)

private theorem mem_waits {a : Ann} (hbs : sc.elem.relocations = .branches bs)
    (h : (b, a) ∈ sc.waits) : b ∈ bs := by
  unfold Scope.waits at h
  rw [hbs] at h
  dsimp only at h
  split at h
  · rcases mem_append.mp h with h | h
    · exact mem_of_mem_take (mem_map_pair h).1
    · exact mem_of_mem_drop (mem_map_pair h).1
  · exact (mem_map_pair h).1

private theorem exists_waits (hbs : sc.elem.relocations = .branches bs) (hmem : b ∈ bs) :
    ∃ a, (b, a) ∈ sc.waits := by
  unfold Scope.waits
  rw [hbs]
  dsimp only
  split
  · rw [← take_append_drop 1 bs] at hmem
    rcases mem_append.mp hmem with hmem | hmem
    · exact ⟨_, mem_append_left _ (mem_map_of_mem hmem)⟩
    · exact ⟨_, mem_append_right _ (mem_map_of_mem hmem)⟩
  · exact ⟨_, mem_map_of_mem hmem⟩

/-- The end of a scope: the branches that waited for it go there. -/
theorem Building.close (hb : Building m fn base w slots cur pcs v [])
    (hscopes : scopesOf pcs v = sc :: scopesOf outer v') (hsettled : Settled sc)
    (hlabel : ∀ bs, sc.elem.relocations = .branches bs → Flow sc.label cur) :
    Building m fn base (fixRelocations w sc.elem.relocations) slots cur outer v' [] := by
  have hlen : w.opIndex = slots.length := hb.code.length
  have hloops : ∀ (n : Nat) (sc : Scope) (pos : Nat), (scopesOf outer v')[n]? = some sc →
      sc.elem.relocations = .label pos → Reaches slots cur pos sc.label := by
    intro n sc' pos hsc' hpos
    refine hb.loops (n + 1) sc' pos ?_ hpos
    rw [hscopes]
    exact hsc'
  have hpending : ∀ b a, Pending outer v' b a → Expects slots b a := fun b a hmem =>
    hb.codeOk.expects b a ((pending_cons hscopes).mpr (.inr hmem))
  cases hrel : sc.elem.relocations with
  | label pos =>
    refine ⟨hb.offset, hb.codeOk.repend ?_ ?_, hloops⟩
    · rintro b a (hmem | ⟨_, hmem, -⟩)
      · exact hpending b a hmem
      · cases hmem
    · intro b a hmem
      rcases (pending_cons hscopes).mp hmem with hmem | hmem
      · unfold Scope.waits at hmem
        rw [hrel] at hmem
        cases hmem
      · exact ⟨a, .inl hmem⟩
  | branches bs =>
    obtain ⟨hoffset, hcode⟩ := fixBranches_code w bs w.opIndex
    have harrive : ∀ b ∈ bs, ∃ a, Expects slots b a ∧ Reaches slots cur w.opIndex a := by
      intro b hmem
      obtain ⟨a, ha⟩ := exists_waits hrel hmem
      refine ⟨a, hb.codeOk.expects b a ((pending_cons hscopes).mpr (.inl ha)), ?_⟩
      rw [hlen, hsettled b a ha]
      exact .last (hlabel bs hrel)
    refine ⟨hoffset.trans hb.offset, ?_, hloops⟩
    change CodeOk m fn base (w.fixBranches bs w.opIndex).code _ _ _
    rw [hcode, hb.offset]
    refine (hb.codeOk.fixAll harrive).repend ?_ ?_
    · rintro b a (hmem | ⟨_, hmem, -⟩)
      · exact hpending b a hmem
      · cases hmem
    · rintro b a ⟨hmem, hnot⟩
      rcases (pending_cons hscopes).mp hmem with hmem | hmem
      · exact absurd (mem_waits hrel hmem) hnot
      · exact ⟨a, .inl hmem⟩

/-- The EH frame of a `try_table` is removed where its scope ends. -/
theorem emitEhLeave_ok
    (hb : Building m fn base w slots (place (el :: outer) v) (el :: outer) v [])
    (hw : (if el.isTryTable then w.emitEhLeave else .ok w) = .ok w') :
    ∃ slots', Building m fn base w' slots' ⟨tries outer (below v), opsOf v⟩ (el :: outer) v [] ∧
      Extends slots (place (el :: outer) v) slots' ⟨tries outer (below v), opsOf v⟩ := by
  split at hw
  next htry =>
    refine ⟨_, hb.emitPlain hw ⟨(opsOf (below v)).getD [], tries outer (below v), ?_, rfl, .refl _⟩
      rfl, .append slots ⟨some (place (el :: outer) v), []⟩ [] _ rfl⟩
    exact if_pos htry
  next htry =>
    cases hw
    rw [place_cons (Bool.not_eq_true _ ▸ htry)] at hb ⊢
    exact ⟨slots, hb, .inl ⟨rfl, .refl _⟩⟩

/-- Counting an `end` changes the count only. -/
theorem onEnd_ok (o : Options) (st : State) : ∃ n, st.onEnd o = { st with nested := n } := by
  unfold State.onEnd
  split
  · exact ⟨st.nested, rfl⟩
  · exact ⟨_, rfl⟩

section

variable (h : Emits chk base e slots st)

include h

/-- The second branch of an `if` starts with the parameters on the operands outside. -/
theorem elseBranch_ok (hpcs : st.pcStack = el :: outer) (hif : el.isIf = true)
    (hst : elseBranch e.o el st.tracker st.writer = .ok (el', tr', w')) :
    EmitsTo chk base e slots st { st with pcStack := el' :: outer, tracker := tr', writer := w' } ∧
      el'.isIf = false := by
  have hs : StackOk chk e.ft (el :: outer) st.tracker := hpcs ▸ h.stack
  have hok := hs.elems el mem_cons_self
  obtain ⟨hreopened, hcloses, b, bs, hbs, rfl, w₁, hw₁, rfl⟩ := elseBranch_reopened hok hst
  have htry : el.isTryTable = false := (hok.if_ hif).1
  have hhere : here chk st = place (el :: outer) (view chk st.tracker) := by
    rw [here, hpcs]
  have hscopes := scopesOf_cons el outer (view chk st.tracker)
  rw [← hpcs] at hscopes
  -- the end of the first branch is where the label is
  have hflow : Flow (here chk st) (topScope el outer (view chk st.tracker)).label := by
    rw [hhere, place_cons htry, topScope, hok.forward _ hbs]
    exact hcloses.flow (fun t ht => isValue_of_isValueType (hok.results t ht))
      fun hchk => (hs.known (cons_ne_nil _ _) hchk).2
  have hwaits := waits_of_if (topScope el outer (view chk st.tracker)) hif hbs
  obtain ⟨out, hout, houtDepth, hentered⟩ := hreopened
  have hparams : ∀ t ∈ el.blockParams, IsValue t :=
    fun t ht => isValue_of_isValueType (hok.params t ht)
  have hbelow : below (view chk tr') = below (view chk st.tracker) :=
    (hentered.below hparams).trans (view_under hout)
  set el' : PcElement :=
    { el with isIf := false, relocations := .branches (⟨st.writer.opIndex, 0⟩ :: bs) } with hel'
  refine ⟨⟨_, ⟨hs.reopen ⟨out, hout, houtDepth, hentered⟩ ⟨rfl, rfl, rfl, rfl, rfl⟩ ?_, ?_⟩,
    .append slots ⟨some (here chk st), [(topScope el outer (view chk st.tracker)).label]⟩ [] _
      rfl⟩, rfl⟩
  · exact ⟨⟨hok.results, hok.params, hok.labels, hok.label⟩, fun _ _ => hok.forward _ hbs,
      by simp [hel']⟩
  · have hentered : Entered out tr' el'.blockParams := hentered
    have hscopes' := scopesOf_cons el' outer (view chk tr')
    rw [topScope, hbelow] at hscopes'
    unfold here
    rw [hentered.place hparams htry, view_under hout]
    exact h.building.emitElse hscopes hwaits hflow hw₁ hscopes' rfl rfl

/-- An `else` keeps the invariant. -/
theorem stepElse_ok (hst : stepElse e st = .ok st') : EmitsTo chk base e slots st st' := by
  unfold stepElse at hst
  split at hst
  · cases hst
  next top outer hpcs =>
    obtain ⟨_, hif, hst⟩ := bind_eq_ok.mp hst
    obtain ⟨⟨el', tr', w'⟩, helse, hst⟩ := bind_eq_ok.mp hst
    obtain ⟨n, rfl⟩ := onControl_ok hst
    exact (elseBranch_ok h hpcs (require_ok.mp hif) helse).1.counters _ n

private theorem closeLoop_ok : Emits chk base e slots (closeLoop st el) := by
  unfold closeLoop
  split
  · refine ⟨h.stack, ?_⟩
    split
    · exact h.building
    next slot _ =>
      exact ⟨h.building.offset, h.building.code.addCost slot _, h.building.loops⟩
  · exact h

private theorem closeIf_ok (hpcs : st.pcStack = el :: outer)
    (hst : closeIf e.o el st.tracker st.writer = .ok (el', tr', w')) :
    EmitsTo chk base e slots st { st with pcStack := el' :: outer, tracker := tr', writer := w' } ∧
      Settled (topScope el' outer (view chk tr')) := by
  have hself : EmitsTo chk base e slots st
      { st with pcStack := el :: outer, tracker := st.tracker, writer := st.writer } := by
    rw [← hpcs]
    exact ⟨slots, h, .inl ⟨rfl, .refl _⟩⟩
  have hok := h.stack.elems el (by rw [hpcs]; exact mem_cons_self)
  unfold closeIf at hst
  split at hst
  next hif =>
    obtain ⟨_, hcheck, hst⟩ := bind_eq_ok.mp hst
    split at hst
    · obtain ⟨hto, hif'⟩ := elseBranch_ok h hpcs hif hst
      exact ⟨hto, settled_of_not_if hif'⟩
    next hparams =>
      cases hst
      refine ⟨hself, fun b a hmem => ?_⟩
      have hparams := not_not.mp hparams
      obtain ⟨-, b₀, bs, hbs⟩ := hok.if_ hif
      have hlabel : el.labelTypes = el.blockParams := by
        rw [hok.forward _ hbs, checkIf_ok hcheck hparams, hparams]
      rw [waits_of_if _ hif hbs] at hmem
      rcases mem_cons.mp hmem with heq | hmem
      · cases heq
        rw [topScope, hlabel]
      · exact (mem_map_pair hmem).2
  next hif =>
    cases hst
    exact ⟨hself, settled_of_not_if (Bool.not_eq_true _ ▸ hif)⟩

/-- Close a scope whose branches all wait for its label. -/
theorem leaveScope_ok (hpcs : st.pcStack = el :: outer)
    (hsettled : Settled (topScope el outer (view chk st.tracker)))
    (hw : (if el.isTryTable then st.writer.emitEhLeave else .ok st.writer) = .ok w)
    (htr : st.tracker.popScopeMulti e.o el.resultTypes = .ok tr') :
    EmitsTo chk base e slots st
      { st with pcStack := outer, tracker := tr', writer := fixRelocations w el.relocations } := by
  have hs : StackOk chk e.ft (el :: outer) st.tracker := hpcs ▸ h.stack
  have hok := hs.elems el mem_cons_self
  have hresults : ∀ t ∈ el.resultTypes, IsValue t :=
    fun t ht => isValue_of_isValueType (hok.results t ht)
  have hleft := popScopeMulti_left (fun t ht => plain_of_isValueType (hok.results t ht)) htr
  have hhere : here chk st = place (el :: outer) (view chk st.tracker) := by
    rw [here, hpcs]
  have hb := h.building
  rw [hhere, hpcs] at hb
  obtain ⟨slots', hb', hext⟩ := emitEhLeave_ok hb hw
  have hplace : place outer (view chk tr') = _ := hleft.place hresults
  have hflow : Flow ⟨tries outer (below (view chk st.tracker)), opsOf (view chk st.tracker)⟩
      (place outer (view chk tr')) := by
    rw [hplace]
    exact hleft.closes.flow hresults fun hchk => (hs.known (cons_ne_nil _ _) hchk).2
  have hscopes := scopesOf_cons el outer (view chk st.tracker)
  rw [← scopesOf_congr (hleft.below hresults)] at hscopes
  refine ⟨slots', ⟨hleft.leave hs rfl, ?_⟩, ?_⟩
  · refine (hb'.flow hflow).close hscopes hsettled fun bs hbs => ?_
    change Flow (outside el.labelTypes outer (below (view chk st.tracker))) (place outer _)
    rw [hplace, hok.forward bs hbs]
    exact .refl _
  · rw [hhere]
    exact hext.trans (.inl ⟨rfl, hflow⟩)

private theorem exitScope_ok (hst : exitScope e.o st = .ok st') :
    EmitsTo chk base e slots st st' := by
  unfold exitScope at hst
  split at hst
  · cases hst
  next el outer hpcs =>
    obtain ⟨⟨el', tr₁, w₁⟩, hif, hst⟩ := bind_eq_ok.mp hst
    obtain ⟨w₂, hw₂, hst⟩ := bind_eq_ok.mp hst
    obtain ⟨tr₂, htr₂, hst⟩ := bind_eq_ok.mp hst
    cases hst
    obtain ⟨hstack, htracker⟩ := closeLoop_pcStack st el
    obtain ⟨hto, hsettled⟩ := closeIf_ok (closeLoop_ok h) (hstack.trans hpcs) hif
    obtain ⟨slots', hemits, hext⟩ := hto.trans fun slots' h' =>
      leaveScope_ok h' rfl hsettled (emitted_ok.mp hw₂) htr₂
    refine ⟨slots', hemits, ?_⟩
    rw [here, hstack, htracker] at hext
    exact hext

/-- An `end` keeps the invariant. -/
theorem stepEnd_ok {last : Bool} (hst : stepEnd e st last = .ok st') :
    EmitsTo chk base e slots st st' := by
  have hst := then_eq_ok hst
  obtain ⟨st₁, hst₁, hst⟩ := bind_eq_ok.mp hst
  have hst := then_eq_ok hst
  cases hst
  obtain ⟨n, hn⟩ := onEnd_ok e.o st₁
  rw [hn]
  exact (exitScope_ok h hst₁).counters _ n

end

end PsiServe.Typing
