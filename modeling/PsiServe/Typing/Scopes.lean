import PsiServe.Parser.Emitted
import PsiServe.Typing.Slots
import PsiServe.Typing.TypeStack

/-!
# Annotations of the parser's state

What the control stack and the type stack of the parser say about the position it is at:
the annotation of the code that comes next and, for each open scope, the annotation its
label is reached with.
-/

namespace PsiServe.Typing

open Base Wasm Bitcode PsiServe.Parser List

/-! ### Annotations -/

/-- The type stack, where operands are checked. -/
def view (chk : Bool) (tr : Tracker) : Option (List ValueType) :=
  if chk then some tr.state else none

/-- The type stack outside of the innermost scope. -/
def below (v : Option (List ValueType)) : Option (List ValueType) := v.map under

/-- Alternatives of the types on a stack. -/
def kindsOf (state : List ValueType) : List Kind := (values state).map kindOf

/-- Alternatives of the operands where they are known. -/
def opsOf : Option (List ValueType) → Option (List Kind)
  | none => none
  | some state => if Live state then some (kindsOf state) else none

/-- The open `try_table` scopes with clauses, each by the operands outside of it. -/
def tries : List PcElement → Option (List ValueType) → List (List Kind)
  | [], _ => []
  | el :: outer, v =>
    if el.isTryTable then (opsOf (below v)).getD [] :: tries outer (below v)
    else tries outer (below v)

/-- Annotation of a position between two instructions. -/
def place (pcs : List PcElement) (v : Option (List ValueType)) : Ann := ⟨tries pcs v, opsOf v⟩

/-- Annotation outside of a scope, with operands of given types on top. -/
def outside (ts : List ValueType) (outer : List PcElement) (out : Option (List ValueType)) : Ann :=
  ⟨tries outer out, (opsOf out).map (topKinds ts ++ ·)⟩

/-- An open scope with the annotations of its label and, for an `if`, of the `else`. -/
structure Scope where
  elem : PcElement
  label : Ann
  other : Ann

/-- The open scopes, innermost first. -/
def scopesOf : List PcElement → Option (List ValueType) → List Scope
  | [], _ => []
  | el :: outer, v =>
    ⟨el, outside el.labelTypes outer (below v), outside el.blockParams outer (below v)⟩ ::
      scopesOf outer (below v)

/-- The branches that wait for a scope to end, with the annotation each is to arrive at.
The first one of an `if` waits for its `else`. -/
def Scope.waits (sc : Scope) : List (Branch × Ann) :=
  match sc.elem.relocations with
  | .label _ => []
  | .branches bs =>
    if sc.elem.isIf then
      (bs.take 1).map (fun b => (b, sc.other)) ++ (bs.drop 1).map fun b => (b, sc.label)
    else bs.map fun b => (b, sc.label)

/-- A branch waits for one of the open scopes. -/
def Pending (pcs : List PcElement) (v : Option (List ValueType)) (b : Branch) (a : Ann) : Prop :=
  ∃ (n : Nat) (sc : Scope), (scopesOf pcs v)[n]? = some sc ∧ (b, a) ∈ sc.waits

variable {el : PcElement} {pcs : List PcElement} {n : Nat}

section

variable {outer : List PcElement} {v v' : Option (List ValueType)} {sc : Scope}

/-- Scopes depend only on what is outside of the innermost one. -/
theorem scopesOf_congr (h : below v' = below v) : scopesOf pcs v' = scopesOf pcs v := by
  cases pcs with
  | nil => rfl
  | cons el outer => rw [scopesOf, scopesOf, h]

/-- The open `try_table`s depend on the stack below the scope. -/
theorem tries_congr (h : below v' = below v) : tries pcs v' = tries pcs v := by
  cases pcs with
  | nil => rfl
  | cons el outer => rw [tries, tries, h]

/-- There is one entry for each open `try_table`. -/
theorem length_tries (pcs : List PcElement) (v : Option (List ValueType)) :
    (tries pcs v).length = (pcs.filter PcElement.isTryTable).length := by
  induction pcs generalizing v with
  | nil => rfl
  | cons el outer ih =>
    unfold tries
    rw [filter_cons]
    split
    · rw [length_cons, length_cons, ih]
    · exact ih _

private theorem length_scopesOf (pcs : List PcElement) (v : Option (List ValueType)) :
    (scopesOf pcs v).length = pcs.length := by
  induction pcs generalizing v with
  | nil => rfl
  | cons el outer ih => rw [scopesOf, length_cons, length_cons, ih]

/-- Element and label of an open scope. -/
theorem scopesOf_getElem? (h : (scopesOf pcs v)[n]? = some sc) :
    pcs[n]? = some sc.elem ∧ ∃ out outer, sc.label = outside sc.elem.labelTypes outer out ∧
      sc.other = outside sc.elem.blockParams outer out := by
  induction pcs generalizing n v with
  | nil => cases h
  | cons el outer ih =>
    cases n with
    | zero =>
      cases h
      exact ⟨rfl, below v, outer, rfl, rfl⟩
    | succ n => exact ih h

/-- Each element of the control stack has a scope. -/
theorem exists_scope (v : Option (List ValueType)) (h : pcs[n]? = some el) :
    ∃ sc, (scopesOf pcs v)[n]? = some sc ∧ sc.elem = el := by
  have hlt := (List.getElem?_eq_some_iff.mp h).1
  rw [← length_scopesOf pcs v] at hlt
  have hsc := getElem?_eq_getElem hlt
  exact ⟨_, hsc, Option.some.inj ((scopesOf_getElem? hsc).1.symm.trans h)⟩

/-- A label is reached after leaving the scopes up to its own. -/
theorem label_tries (h : (scopesOf pcs v)[n]? = some sc) : sc.label.tries =
      (tries pcs v).drop ((pcs.take (n + 1)).filter PcElement.isTryTable).length := by
  induction pcs generalizing n v with
  | nil => cases h
  | cons el outer ih =>
    cases n with
    | zero =>
      cases h
      rw [tries, take_succ_cons, filter_cons]
      split
      · rfl
      · rfl
    | succ n =>
      rw [ih h, tries, take_succ_cons, filter_cons]
      split
      · rfl
      · rfl

end

/-! ### Well-formed control stacks -/

/-- What holds of each element of the control stack. -/
structure ElemOk (el : PcElement) : Prop extends el.Sound where
  forward : ∀ bs, el.relocations = .branches bs → el.labelTypes = el.resultTypes
  if_ : el.isIf = true → el.isTryTable = false ∧ ∃ b bs, el.relocations = .branches (b :: bs)

/-- The type stack has a mark for each open scope, with as many types below it as the
scope's element says, and known types where the code is reachable. -/
def Nested : List PcElement → List ValueType → Prop
  | [], out => out = []
  | el :: outer, state => scopeTag ∈ state ∧ (Live state → anyType ∉ state) ∧
    el.operandDepth.toNat = (values (under state)).length ∧ Nested outer (under state)

/-- The types below the scopes of a function, and after it ended. -/
def Tracked (ft : FuncType) : List PcElement → List ValueType → Prop
  | [], state => state = ft.returnTypes.reverse
  | el :: outer, state => Nested (el :: outer) state

/-- A well-formed control stack over a type stack; the outermost scope is that of the
function. -/
structure StackOk (chk : Bool) (ft : FuncType) (pcs : List PcElement) (tr : Tracker) : Prop where
  elems : ∀ el ∈ pcs, ElemOk el
  last : ∀ el, pcs.getLast? = some el → el.resultTypes = ft.returnTypes ∧
    el.labelTypes = ft.returnTypes
  depth : chk = true → DepthOk tr
  tracked : chk = true → Tracked ft pcs tr.state

/-- A change of the operands of the innermost scope. -/
structure Retrack (tr tr' : Tracker) : Prop where
  under : under tr'.state = under tr.state
  scope : scopeTag ∈ tr.state → scopeTag ∈ tr'.state
  known : (Live tr.state → anyType ∉ tr.state) → Live tr'.state → anyType ∉ tr'.state
  depth : DepthOk tr → DepthOk tr'

variable {chk : Bool} {tr tr' : Tracker} {ft : FuncType}

section

variable {tr'' : Tracker}

/-- Two changes of the operands of a scope. -/
theorem Retrack.trans (h : Retrack tr tr') (h' : Retrack tr' tr'') : Retrack tr tr'' :=
  ⟨h'.under.trans h.under, fun hs => h'.scope (h.scope hs), fun hk => h'.known (h.known hk),
    fun hd => h'.depth (h.depth hd)⟩

/-- The stack below the scope stays. -/
theorem Retrack.below (h : chk = true → Retrack tr tr') :
    below (view chk tr') = below (view chk tr) := by
  cases chk with
  | false => rfl
  | true => exact congrArg some (h rfl).under

section

variable (h : StackOk chk ft pcs tr) (hne : pcs ≠ [])

include h hne

/-- The scopes are those of the type stack. -/
theorem StackOk.nested (hchk : chk = true) : Nested pcs tr.state := by
  have htracked := h.tracked hchk
  cases pcs with
  | nil => exact absurd rfl hne
  | cons el outer => exact htracked

/-- In reachable code the types of operands are known. -/
theorem StackOk.known (hchk : chk = true) :
    scopeTag ∈ tr.state ∧ (Live tr.state → anyType ∉ tr.state) := by
  have hnested := h.nested hne hchk
  cases pcs with
  | nil => exact absurd rfl hne
  | cons el outer => exact ⟨hnested.1, hnested.2.1⟩

/-- The operands of a scope change. -/
theorem StackOk.retrack (hre : chk = true → Retrack tr tr') : StackOk chk ft pcs tr' := by
  refine ⟨h.elems, h.last, fun hchk => (hre hchk).depth (h.depth hchk), fun hchk => ?_⟩
  cases pcs with
  | nil => exact absurd rfl hne
  | cons el outer =>
    obtain ⟨hscope, hknown, hdepth, houter⟩ := h.nested hne hchk
    have hre := hre hchk
    refine ⟨hre.scope hscope, hre.known hknown, ?_, ?_⟩
    · rw [hre.under]
      exact hdepth
    · rw [hre.under]
      exact houter

end

end

/-! ### Recording branches -/

/-- Elements of one scope that differ in the branches that wait. -/
structure Similar (el el' : PcElement) : Prop where
  depth : el'.operandDepth = el.operandDepth
  results : el'.resultTypes = el.resultTypes
  labels : el'.labelTypes = el.labelTypes
  params : el'.blockParams = el.blockParams
  tryTable : el'.isTryTable = el.isTryTable

section

variable {el' : PcElement}

/-- A similar element has the same `try_table`s. -/
theorem tries_set (hel : pcs[n]? = some el) (hsim : Similar el el')
    (v : Option (List ValueType)) : tries (pcs.set n el') v = tries pcs v := by
  induction pcs generalizing n v with
  | nil => cases hel
  | cons top outer ih =>
    cases n with
    | zero =>
      cases hel
      rw [set_cons_zero, tries, tries, hsim.tryTable]
    | succ n => rw [set_cons_succ, tries, tries, ih hel]

/-- A similar element has the same scope. -/
theorem scopesOf_set {v : Option (List ValueType)} {sc : Scope}
    (hsc : (scopesOf pcs v)[n]? = some sc) (hsim : Similar sc.elem el') (k : Nat) :
    (scopesOf (pcs.set n el') v)[k]? =
      if k = n then some { sc with elem := el' } else (scopesOf pcs v)[k]? := by
  induction pcs generalizing n k v with
  | nil => cases hsc
  | cons top outer ih =>
    cases n with
    | zero =>
      cases hsc
      cases k with
      | zero =>
        rw [set_cons_zero, scopesOf, hsim.labels, hsim.params]
        rfl
      | succ k => rfl
    | succ n =>
      have hsc : (scopesOf outer (below v))[n]? = some sc := hsc
      cases k with
      | zero =>
        rw [set_cons_succ, scopesOf, outside, outside, tries_set (scopesOf_getElem? hsc).1 hsim]
        rfl
      | succ k =>
        have := ih hsc k
        simp only [Nat.add_right_cancel_iff]
        exact this

private theorem Nested.set {state : List ValueType} (hel : pcs[n]? = some el)
    (hsim : Similar el el') (h : Nested pcs state) : Nested (pcs.set n el') state := by
  induction pcs generalizing n state with
  | nil => cases hel
  | cons top outer ih =>
    obtain ⟨hscope, hknown, hdepth, houter⟩ := h
    cases n with
    | zero =>
      cases hel
      exact ⟨hscope, hknown, by rw [hsim.depth]; exact hdepth, houter⟩
    | succ n => exact ⟨hscope, hknown, hdepth, ih hel houter⟩

/-- An element is replaced by a similar one. -/
theorem StackOk.set {chk : Bool} {ft : FuncType} {tr : Tracker} (h : StackOk chk ft pcs tr)
    (hel : pcs[n]? = some el) (hsim : Similar el el') (hok : ElemOk el') :
    StackOk chk ft (pcs.set n el') tr := by
  refine ⟨fun x hx => ?_, fun x hx => ?_, h.depth, fun hchk => ?_⟩
  · rcases mem_or_eq_of_mem_set hx with hx | rfl
    · exact h.elems x hx
    · exact hok
  · rw [getLast?_eq_getElem?, length_set, getElem?_set] at hx
    split at hx
    next hn =>
      split at hx
      · cases hx
        have hlast := h.last el (by rw [getLast?_eq_getElem?, ← hn]; exact hel)
        rw [hsim.results, hsim.labels]
        exact hlast
      · cases hx
    · refine h.last x ?_
      rw [getLast?_eq_getElem?]
      exact hx
  · have htracked := h.tracked hchk
    cases pcs with
    | nil => cases hel
    | cons top outer =>
      have hset := Nested.set hel hsim htracked
      cases n with
      | zero | succ n => exact hset

end

variable {st st' : State} {label depth count data : Nat} {sc : Scope} {ts : List Kind}
  {state pushes pops : List ValueType} {o : Options}

/-- The scope with one more branch that waits for its label. -/
theorem waits_append {bs : List Branch} {b : Branch} (hok : ElemOk sc.elem)
    (hbs : sc.elem.relocations = .branches bs) :
    ({ sc with elem := { sc.elem with relocations := .branches (bs ++ [b]) } } : Scope).waits =
      sc.waits ++ [(b, sc.label)] := by
  unfold Scope.waits
  rw [hbs]
  dsimp only
  split
  next hif =>
    -- an `if` waits itself, so the new branch is not the first
    obtain ⟨-, b₀, bs₀, hbranches⟩ := hok.if_ hif
    obtain rfl := Relocations.branches.inj (hbs.symm.trans hbranches)
    simp
  · rw [map_append]
    rfl

/-! ### Operands -/

/-- What is under a scope is part of the stack. -/
theorem under_suffix (state : List ValueType) : under state <:+ state := by
  induction state with
  | nil => exact suffix_rfl
  | cons t rest ih =>
    unfold under Tracker.belowSegment
    split
    · exact suffix_cons t rest
    · exact ih.trans (suffix_cons t rest)

/-- The alternatives of a part of the stack. -/
theorem kindsOf_suffix {xs ys : List ValueType} (h : xs <:+ ys) : kindsOf xs <:+ kindsOf ys :=
  (h.filter _).map _

/-- Operands are listed only where they are checked. -/
theorem chk_of_opsOf (h : opsOf (view chk tr) = some ts) : chk = true := by
  cases chk with
  | false => cases h
  | true => rfl

/-- In reachable code the operands are listed. -/
theorem opsOf_some (h : Live state) : opsOf (some state) = some (kindsOf state) := if_pos h

/-- In unreachable code they are not. -/
theorem opsOf_dead (h : ¬Live state) : opsOf (some state) = none :=
  if_neg h

/-- Operands that are listed are those of the stack. -/
theorem opsOf_eq_some (h : opsOf (some state) = some ts) : Live state ∧ ts = kindsOf state := by
  by_cases hlive : Live state
  · rw [opsOf_some hlive] at h
    exact ⟨hlive, (Option.some.inj h).symm⟩
  · rw [opsOf_dead hlive] at h
    cases h

/-- The operands outside of the open scopes are left alone by the innermost one. -/
theorem tries_suffix {kept : List Kind} (h : kept ∈ tries pcs (some state)) :
    kept <:+ kindsOf (under state) := by
  induction pcs generalizing state with
  | nil => cases h
  | cons el outer ih =>
    have houter : kept ∈ tries outer (some (under state)) → kept <:+ kindsOf (under state) :=
      fun hmem => (ih hmem).trans (kindsOf_suffix (under_suffix _))
    unfold tries at h
    split at h
    · rcases mem_cons.mp h with rfl | hmem
      · change (opsOf (some (under state))).getD [] <:+ _
        by_cases hlive : Live (under state)
        · rw [opsOf_some hlive]
          exact suffix_rfl
        · rw [opsOf_dead hlive]
          exact nil_suffix
      · exact houter hmem
    · exact houter h

/-- Operands of given types were replaced by others, whose types are known where those
before were. -/
def Exchanged (tr tr' : Tracker) (pops pushes : List ValueType) : Prop :=
  ∃ mid, Popped tr mid pops ∧ tr'.state = pushes.reverse ++ mid.state ∧
    (∀ t ∈ pushes, IsValue t ∧ (Live tr.state → anyType ∉ tr.state → t ≠ anyType)) ∧
    (DepthOk mid → DepthOk tr')

section

variable {mid : Tracker}

/-- Popping is an exchange for nothing. -/
theorem Popped.exchanged (h : Popped tr tr' pops) : Exchanged tr tr' pops [] :=
  ⟨tr', h, rfl, nofun, id⟩

/-- An exchange stays within the scope. -/
theorem Exchanged.retrack (h : Exchanged tr tr' pops pushes) : Retrack tr tr' := by
  obtain ⟨mid, hpopped, hstate, hplain, hdepth⟩ := h
  obtain ⟨popped, hsplit, hvalue, -⟩ := hpopped.split
  have hpush : ∀ t ∈ pushes.reverse, IsValue t :=
    fun t ht => (hplain t (mem_reverse.mp ht)).1
  refine ⟨?_, fun hscope => ?_, fun hknown hlive hany => ?_, fun hd => hdepth (hpopped.depth hd)⟩
  · rw [hstate, hsplit, under_values hpush, under_values hvalue]
  · rw [hsplit] at hscope
    rw [hstate]
    refine mem_append_right _ ((mem_append.mp hscope).resolve_left fun hmem => ?_)
    exact (hvalue _ hmem).1 rfl
  · rw [hstate, live_append hpush] at hlive
    have hlive : Live tr.state := by
      rw [hsplit, live_append hvalue]
      exact hlive
    rw [hstate] at hany
    rcases mem_append.mp hany with hany | hany
    · exact (hplain _ (mem_reverse.mp hany)).2 hlive (hknown hlive) rfl
    · refine hknown hlive ?_
      rw [hsplit]
      exact mem_append_right _ hany

/-- An exchange does not change what is reachable. -/
theorem Exchanged.live (h : Exchanged tr tr' pops pushes) : Live tr'.state ↔ Live tr.state := by
  obtain ⟨mid, hpopped, hstate, hplain, -⟩ := h
  obtain ⟨popped, hsplit, hvalue, -⟩ := hpopped.split
  rw [hstate, hsplit, live_append fun t ht => (hplain t (mem_reverse.mp ht)).1, live_append hvalue]

/-- Where the code is reachable, the operands of the types popped were on top, and those
outside of the innermost scope stay. -/
theorem Exchanged.ops {ts : List Kind} (h : Exchanged tr tr' pops pushes)
    (hknown : Live tr.state → anyType ∉ tr.state) (hops : opsOf (some tr.state) = some ts) :
    ∃ rest, ts = pops.map kindOf ++ rest ∧ opsOf (some tr'.state) = some (topKinds pushes ++ rest) ∧
      kindsOf (under tr.state) <:+ rest := by
  obtain ⟨hlive, rfl⟩ := opsOf_eq_some hops
  have hlive' : Live tr'.state := h.live.mpr hlive
  obtain ⟨mid, hpopped, hstate, hplain, -⟩ := h
  obtain ⟨popped, hsplit, hvalue, heq⟩ := hpopped.split
  obtain rfl := heq hlive (hknown hlive)
  have hpush : ∀ t ∈ pushes.reverse, IsValue t :=
    fun t ht => (hplain t (mem_reverse.mp ht)).1
  refine ⟨kindsOf mid.state, ?_, ?_, ?_⟩
  · unfold kindsOf
    rw [hsplit, values_append, values_of_all hvalue, map_append]
  · rw [opsOf_some hlive']
    unfold kindsOf topKinds
    rw [hstate, values_append, values_of_all hpush, map_append, map_reverse]
  · rw [hsplit, under_values hvalue]
    exact kindsOf_suffix (under_suffix _)

/-- An unreachable point stays within the scope. -/
theorem retrack_startUnreachable (h : scopeTag ∈ tr.state) : Retrack tr tr.startUnreachable := by
  obtain ⟨hstate, hdepth⟩ := startUnreachable_state h
  refine ⟨?_, fun _ => ?_, fun _ hlive => ?_, hdepth⟩
  · rw [hstate]
    rfl
  · rw [hstate]
    exact mem_cons_of_mem _ mem_cons_self
  · exact absurd mem_cons_self hlive

end

/-- Exchanging operands changes only the tracker. -/
theorem exchange_ok {next : State → Step} (h : st.exchange o pops pushes >>= next = .ok st') :
    ∃ tr', ((∀ t ∈ pops, Plain t) → (∀ t ∈ pushes, Plain t) →
      Exchanged st.tracker tr' pops pushes) ∧ next { st with tracker := tr' } = .ok st' := by
  obtain ⟨st₁, hst₁, h⟩ := bind_eq_ok.mp h
  obtain ⟨mid, hmid, hst₁⟩ := bind_eq_ok.mp hst₁
  obtain ⟨tr', htr', hst₁⟩ := bind_eq_ok.mp hst₁
  cases hst₁
  obtain ⟨hstate, hdepth⟩ := pushAll_state htr'
  refine ⟨tr', fun hpops hpushes => ⟨mid, popAll_popped hpops hmid, hstate, ?_, ?_⟩, h⟩
  · intro t ht
    exact ⟨(hpushes t ht).1, fun _ _ => (hpushes t ht).2.1⟩
  · exact hdepth fun t ht => (hpushes t ht).1

/-! ### Labels -/

/-- The operands a label is reached with: those of its types on those outside of its
scope. -/
theorem label_ops (hnested : Nested pcs state) (hlive : Live state)
    (h : (scopesOf pcs (some state))[n]? = some sc) :
    ∃ out, sc.label.ops = some (topKinds sc.elem.labelTypes ++ kindsOf out) ∧
      out <:+ under state ∧ sc.elem.operandDepth.toNat = (kindsOf out).length := by
  induction pcs generalizing n state with
  | nil => cases h
  | cons el outer ih =>
    obtain ⟨-, -, hdepth, houter⟩ := hnested
    cases n with
    | zero =>
      cases h
      refine ⟨under state, ?_, suffix_rfl, ?_⟩
      · change (opsOf (some (under state))).map _ = _
        rw [opsOf_some hlive.under]
        rfl
      · rw [hdepth, kindsOf, length_map]
    | succ n =>
      obtain ⟨out, hops, hout, hlen⟩ := ih houter hlive.under h
      exact ⟨out, hops, hout.trans (under_suffix _), hlen⟩

/-- The label of a branch that was checked and the operands it removes. -/
theorem computeDepthChange_ok (h : st.computeDepthChange o label = .ok (st', depth, count)) :
    ∃ el tr', st.pcStack[label]? = some el ∧ st' = { st with tracker := tr' } ∧
      depth = st.depthTo el ∧ count = el.labelTypes.length ∧
      (ElemOk el → Exchanged st.tracker tr' el.labelTypes.reverse el.labelTypes) := by
  obtain ⟨el, hel, h⟩ := bind_eq_ok.mp h
  obtain ⟨mid, hmid, h⟩ := bind_eq_ok.mp h
  obtain ⟨tr', htr', h⟩ := bind_eq_ok.mp h
  cases h
  have hel : st.pcStack[label]? = some el := State.target_ok.mp hel
  refine ⟨el, tr', hel, rfl, rfl, rfl, fun hok => ?_⟩
  have hplain : ∀ t ∈ el.labelTypes, Plain t := fun t ht => plain_of_isValueType (hok.labels t ht)
  obtain ⟨hstate, hdepth⟩ := pushAll_state htr'
  refine ⟨mid, popAll_popped (fun t ht => hplain t (mem_reverse.mp ht)) hmid, hstate, ?_, ?_⟩
  · intro t ht
    exact ⟨(hplain t ht).1, fun _ _ => (hplain t ht).2.1⟩
  · exact hdepth fun t ht => (hplain t ht).1

private theorem encodeDepthChange_ok (h : Writer.encodeDepthChange depth count = .ok data) :
    data % 2 ^ 24 = depth ∧ data / 2 ^ 24 = count := by
  unfold Writer.encodeDepthChange at h
  split at h
  · cases h
  · split at h
    · cases h
    · cases h
      omega

/-- A branch to a label finds the label's operands and removes those that lie between them
and the operands outside of the label's scope. -/
theorem label_branches (hs : StackOk chk ft pcs tr)
    (hsc : (scopesOf pcs (view chk tr))[label]? = some sc)
    (hdata : Writer.encodeDepthChange (tr.operandDepth - sc.elem.operandDepth).toNat
      sc.elem.labelTypes.length = .ok data) (hts : opsOf (view chk tr) = some ts)
    (hex : Exchanged tr tr' sc.elem.labelTypes.reverse pushes) :
    ∃ lab mid rest, ts = lab ++ mid ++ rest ∧ data % 2 ^ 24 = lab.length + mid.length ∧
      data / 2 ^ 24 = lab.length ∧ sc.label.ops = some (lab ++ rest) := by
  obtain rfl := chk_of_opsOf hts
  have hne : pcs ≠ [] := by
    rintro rfl
    cases hsc
  have hnested : Nested pcs tr.state := hs.nested hne rfl
  obtain ⟨hlive, hkinds⟩ := opsOf_eq_some hts
  obtain ⟨rest, hrest, -, hunder⟩ := hex.ops (hs.known hne rfl).2 hts
  obtain ⟨out, hops, hout, hlen⟩ := label_ops hnested hlive hsc
  obtain ⟨mid, hmid⟩ := (kindsOf_suffix hout).trans hunder
  obtain ⟨hdepth, hcount⟩ := encodeDepthChange_ok hdata
  have htotal : tr.operandDepth.toNat = ts.length := by
    rw [hs.depth rfl, hkinds, kindsOf, length_map]
  have htsum : ts.length = sc.elem.labelTypes.length + (mid.length + (kindsOf out).length) := by
    rw [hrest, ← hmid]
    simp only [length_append, length_map, length_reverse]
  refine ⟨topKinds sc.elem.labelTypes, mid, kindsOf out, ?_, ?_, ?_, hops⟩
  · rw [hrest, ← hmid, append_assoc, topKinds, map_reverse]
  · rw [hdepth, UInt32.toNat_sub_of_le, htotal, hlen, htsum, length_topKinds]
    · omega
    · rw [UInt32.le_iff_toNat_le, htotal, hlen, htsum]
      omega
  · rw [hcount, length_topKinds]

end PsiServe.Typing
