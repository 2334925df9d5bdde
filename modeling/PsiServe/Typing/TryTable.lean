import PsiServe.Typing.Closing

/-!
# Exception scopes

The step of the parser for `try_table` keeps the invariant of `PsiServe.Typing.Emission`
when its clauses deliver what their labels expect: the interpreter pushes an `i64` for an
exception reference and for payloads it has no case for, and the word of a clause has 24
bits for the tag.
-/

namespace PsiServe.Typing

open Base Wasm Bitcode PsiServe.Parser List UInt32

variable {chk : Bool} {base : Nat} {e : BodyEnv} {slots : List Slot} {st st' : State}
  {clauses : List CatchClause} {pushed : List ValueType} {out : List Writer.Clause}
  {pcs : List PcElement} {v : Option (List ValueType)} {c : CatchClause}

/-! ### Lists of pairs -/

section

variable {α β : Type} (f g : α → β) (xs : List α) (j : Nat)

private theorem getElem?_pairs_even : (xs.flatMap fun x => [f x, g x])[2 * j]? =
    (xs[j]?).map f := by
  induction xs generalizing j with
  | nil => rfl
  | cons x xs ih =>
    cases j with
    | zero => rfl
    | succ j => exact ih j

private theorem getElem?_pairs_odd : (xs.flatMap fun x => [f x, g x])[2 * j + 1]? =
    (xs[j]?).map g := by
  induction xs generalizing j with
  | nil => rfl
  | cons x xs ih =>
    cases j with
    | zero => rfl
    | succ j => exact ih j

private theorem length_pairs : (xs.flatMap fun x => [f x, g x]).length = 2 * xs.length := by
  induction xs with
  | nil => rfl
  | cons x xs ih =>
    have hcons : (x :: xs).length = xs.length + 1 := rfl
    rw [flatMap_cons, length_append, ih, hcons, mul_add]
    exact add_comm 2 _

end

/-! ### Clauses -/

/-- The handlers of clauses, each with its label. -/
def clauseWaits : Nat → List CatchClause → List (Branch × Nat)
  | _, [] => []
  | slot, c :: cs => (⟨slot, 0⟩, c.label) :: clauseWaits (slot + 2) cs

private theorem mem_clauseWaits {slot label : Nat} {b : Branch} :
    (b, label) ∈ clauseWaits slot clauses ↔
      ∃ k c, clauses[k]? = some c ∧ c.label = label ∧ b = ⟨slot + 2 * k, 0⟩ := by
  induction clauses generalizing slot with
  | nil =>
    constructor
    · intro h
      cases h
    · rintro ⟨k, c, hk, -⟩
      cases hk
  | cons c cs ih =>
    rw [clauseWaits, mem_cons, ih]
    constructor
    · rintro (h | ⟨k, c', hk, hl, rfl⟩)
      · cases h
        exact ⟨0, c, rfl, rfl, rfl⟩
      · refine ⟨k + 1, c', hk, hl, ?_⟩
        rw [mul_add, add_assoc, add_comm 2]
    · rintro ⟨k, c', hk, hl, rfl⟩
      cases k with
      | zero =>
        cases hk
        cases hl
        exact .inl rfl
      | succ k =>
        refine .inr ⟨k, c', hk, hl, ?_⟩
        rw [mul_add, add_assoc, add_comm 2]

private theorem handleClauses_eq (slot : Nat) (clauses : List CatchClause) (st : State) :
    handleClauses slot clauses st =
      foldSteps (fun st (w : Branch × Nat) => st.handleBranchTarget w.2 w.1) st
        (clauseWaits slot clauses) := by
  induction clauses generalizing slot st with
  | nil => rfl
  | cons c cs ih =>
    rw [handleClauses, clauseWaits, foldSteps]
    congr 1
    funext st'
    exact ih (slot + 2) st'

/-- A clause as it is emitted. -/
def clauseOf (st : State) (c : CatchClause) (el : PcElement) : Writer.Clause :=
  ⟨c.kind, c.tagIndex, st.depthTo el, st.countEhLeaves c.label⟩

private theorem checkCatch_ok {el : PcElement} (h : checkCatch pushed el = .ok ()) :
    pushed = el.labelTypes := by
  unfold checkCatch at h
  split at h
  next hnil => rw [hnil, require_ok.mp h]
  · have h := then_eq_ok h
    exact require_ok.mp h

private theorem emitClauses_ok (h : emitClauses e st clauses = .ok out) :
    Forall₂ (fun x c => ∃ el, st.pcStack[c.label]? = some el ∧
      catchTypes e c = .ok el.labelTypes ∧ x = clauseOf st c el) out clauses := by
  induction clauses generalizing out with
  | nil =>
    cases h
    exact .nil
  | cons c cs ih =>
    obtain ⟨x, xs, rfl, hx, hxs⟩ := bind_cons_inv h
    obtain ⟨pushed, hpushed, hx⟩ := bind_eq_ok.mp hx
    obtain ⟨el, hel, hx⟩ := bind_eq_ok.mp hx
    obtain ⟨_, hcheck, hx⟩ := bind_eq_ok.mp hx
    cases hx
    exact .cons ⟨el, State.target_ok.mp hel, checkCatch_ok hcheck ▸ hpushed, rfl⟩ (ih hxs)

/-! ### The opcode and its clauses -/

/-- A clause of a `try_table` annotated `a` passes on what `b` describes. -/
def ClauseFits (m : Module) (a : Ann) (kept : List Kind) (c : Writer.Clause) (b : Ann) : Prop :=
  c.ehLeaveCount < 2 ^ 32 ∧ c.ehLeaveCount ≤ a.tries.length ∧
    b.tries = a.tries.drop c.ehLeaveCount ∧
    ∀ ts, a.ops = some ts → c.tagIndex < 2 ^ 24 ∧ ∃ payload,
      CatchPushes m c.kind c.tagIndex payload ∧ c.depthChange ≤ ts.length ∧
      ts.drop c.depthChange <:+ kept ∧ b.ops = some (payload ++ ts.drop c.depthChange)

/-- The slots of clauses that go to labels. -/
def clauseSlots (pcs : List PcElement) (v : Option (List ValueType)) (clauses : List CatchClause) :
    List Slot :=
  clauses.flatMap fun c => [⟨none, []⟩, ⟨none, [labelAnn pcs v c.label]⟩]

/-- Annotation inside a `try_table`. -/
def insideTry (clauses : List CatchClause) (kept : List Kind) (a : Ann) : Ann :=
  if clauses = [] then a else ⟨kept :: a.tries, a.ops⟩

private theorem clauseSlots_plain {s : Slot} (h : s ∈ clauseSlots pcs v clauses) :
    s.ann = none ∧ s.targets.length ≤ 1 := by
  obtain ⟨c, -, hs⟩ := mem_flatMap.mp h
  rcases mem_cons.mp hs with rfl | hs
  · exact ⟨rfl, Nat.zero_le 1⟩
  · rw [mem_singleton.mp hs]
    exact ⟨rfl, le_refl 1⟩

/-- Instructions in the slots of clauses. -/
theorem clause_instr {i : Instr} (h : i ∈ out.flatMap Writer.Clause.slots) :
    ∃ data x, i = .tryTable data x := by
  obtain ⟨c, -, hi⟩ := mem_flatMap.mp h
  rcases mem_cons.mp hi with rfl | hi
  · exact ⟨_, _, rfl⟩
  · rw [mem_singleton.mp hi]
    exact ⟨_, _, rfl⟩

section

variable {m : Module} {fn : FnShape} {w w' : Writer} {cur : Ann} {kept : List Kind}

/-- The targets of clause slots are those of the clauses. -/
theorem clause_targets {n : Nat} {b : Branch} {a : Ann}
    (hlabels : ∀ c ∈ clauses, ∃ sc, (scopesOf pcs v)[c.label]? = some sc) :
    CodeOk.NewTarget n (⟨some cur, []⟩ :: clauseSlots pcs v clauses) b a ↔
      WaitsFor pcs v (clauseWaits (n + 2) clauses) b a := by
  constructor
  · rintro ⟨j, s, hslot, hs, ha⟩
    cases j with
    | zero =>
      cases hs
      cases ha
    | succ j =>
      have hs : (clauseSlots pcs v clauses)[j]? = some s := hs
      obtain ⟨k, rfl | rfl⟩ : ∃ k, j = 2 * k ∨ j = 2 * k + 1 := ⟨j / 2, by omega⟩
      · rw [clauseSlots, getElem?_pairs_even] at hs
        obtain ⟨c, -, rfl⟩ := Option.map_eq_some_iff.mp hs
        cases ha
      · rw [clauseSlots, getElem?_pairs_odd] at hs
        obtain ⟨c, hc, rfl⟩ := Option.map_eq_some_iff.mp hs
        obtain ⟨sc, hsc⟩ := hlabels c (mem_of_getElem? hc)
        obtain ⟨slot, entry⟩ := b
        cases entry with
        | succ entry => cases ha
        | zero =>
          cases ha
          refine ⟨c.label, mem_clauseWaits.mpr ⟨k, c, hc, rfl, ?_⟩, sc, hsc, (labelAnn_eq hsc).symm⟩
          rw [show slot = n + (2 * k + 1 + 1) from hslot]
          congr 1
          omega
  · rintro ⟨label, hmem, sc, hsc, rfl⟩
    obtain ⟨k, c, hc, rfl, rfl⟩ := mem_clauseWaits.mp hmem
    refine ⟨2 * k + 1 + 1, ⟨none, [labelAnn pcs v c.label]⟩, ?_, ?_, ?_⟩
    · change n + 2 + 2 * k = _
      omega
    · change (clauseSlots pcs v clauses)[2 * k + 1]? = _
      rw [clauseSlots, getElem?_pairs_odd, hc]
      rfl
    · rw [labelAnn_eq hsc]
      rfl

/-- The clauses of an emitted `try_table`. -/
theorem clauseOk_of_fits {code : List Instr} {k : Nat} {x : Writer.Clause} {c : CatchClause}
    {sc : Scope} (hlen : code.length = slots.length) (hx : out[k]? = some x)
    (hc : clauses[k]? = some c) (hsc : (scopesOf pcs v)[c.label]? = some sc)
    (hfits : ClauseFits m cur kept x sc.label) (data : UInt32) :
    ClauseOk m (ClauseIn (code ++ .tryTable data 0 :: out.flatMap Writer.Clause.slots)
        (slots ++ ⟨some cur, []⟩ :: clauseSlots pcs v clauses))
      (TargetIn (slots ++ ⟨some cur, []⟩ :: clauseSlots pcs v clauses)) cur kept
      (slots.length + 1 + 2 * k) := by
  obtain ⟨hleaves, hle, htries, hops⟩ := hfits
  have hcode : ∀ j, (code ++ .tryTable data 0 :: out.flatMap Writer.Clause.slots)[
      slots.length + 1 + j]? = (out.flatMap Writer.Clause.slots)[j]? := by
    intro j
    rw [getElem?_append_right (by omega), hlen,
      show slots.length + 1 + j - slots.length = j + 1 by omega]
    rfl
  have hslot : ∀ j, (slots ++ ⟨some cur, []⟩ :: clauseSlots pcs v clauses)[
      slots.length + 1 + j]? = (clauseSlots pcs v clauses)[j]? := by
    intro j
    rw [getElem?_append_right (by omega), show slots.length + 1 + j - slots.length = j + 1 by omega]
    rfl
  have htoNat : (ofNat x.ehLeaveCount).toNat = x.ehLeaveCount :=
    toNat_ofNat_of_lt' hleaves
  refine ⟨x.kind.toUInt32 <<< 24 ||| ofNat x.tagIndex &&& 0x00FFFFFF, x.depthChange,
    ofNat x.ehLeaveCount, sc.label, ⟨⟨0, ?_, ?_⟩, fun s hs => ?_⟩, ?_, ?_, ?_, ?_⟩
  · rw [hcode]
    exact (getElem?_pairs_even _ _ out k).trans (by rw [hx]; rfl)
  · rw [add_assoc _ (2 * k) 1, hcode]
    exact (getElem?_pairs_odd _ _ out k).trans (by rw [hx]; rfl)
  · rw [hslot, clauseSlots, getElem?_pairs_even, hc] at hs
    cases hs
    rfl
  · refine ⟨⟨none, [labelAnn pcs v c.label]⟩, sc.label, ?_, ?_, .refl _⟩
    · rw [add_assoc _ (2 * k) 1, hslot, clauseSlots, getElem?_pairs_odd, hc]
      rfl
    · rw [labelAnn_eq hsc]
      rfl
  · rw [htoNat]
    exact hle
  · rw [htoNat]
    exact htries
  · intro ts hts
    obtain ⟨htag, payload, hpushes, hrest⟩ := hops ts hts
    refine ⟨payload, ?_, hrest⟩
    rw [packByte_high, packByte_low, Nat.mod_eq_of_lt htag]
    exact hpushes

/-- Emit a `try_table` whose clauses go to labels. -/
theorem Building.tryTable
    (h : Building m fn base w slots cur pcs v []) (hw : w.emitTryTable out = .ok w')
    (hmany : clauses.length < 2 ^ 32) (hkept : ∀ ts, cur.ops = some ts → kept <:+ ts)
    (hclauses : Forall₂ (fun x c => ∃ sc, (scopesOf pcs v)[c.label]? = some sc ∧
      ClauseFits m cur kept x sc.label) out clauses) :
    Building m fn base w' (slots ++ ⟨some cur, []⟩ :: clauseSlots pcs v clauses)
      (insideTry clauses kept cur) pcs v (clauseWaits (w.opIndex + 2) clauses) := by
  have hslots : w.opIndex = slots.length := h.code.length
  have hlen := hclauses.length_eq
  have hcount : (ofNat out.length).toNat = clauses.length := by
    rw [toNat_ofNat_of_lt' (by rw [hlen]; exact hmany), hlen]
  refine h.appendAll hw ?_ (.append slots _ _ _ rfl) ?_ ?_ fun b a => ?_
  · rw [length_cons, length_cons, clauseSlots, length_pairs, ← hlen]
    exact congrArg (· + 1) (length_pairs _ _ out)
  · intro j s a i hs ha hi
    cases j with
    | succ j =>
      rw [(clauseSlots_plain (mem_of_getElem? hs)).1] at ha
      cases ha
    | zero =>
      cases hs
      cases ha
      cases hi
      change TryOk _ _ _ _ _ _ (ofNat out.length).toNat
      rw [hcount, TryOk, insideTry]
      by_cases hnil : clauses = []
      · subst hnil
        have : slots.length + 0 + 1 = (slots ++ ⟨some cur, []⟩ :: clauseSlots pcs v []).length := by
          rw [length_append]
          rfl
        rw [if_pos rfl, this]
        exact .last (.refl _)
      · rw [if_neg (mt length_eq_zero_iff.mp hnil), if_neg hnil]
        refine ⟨kept, ?_, hkept, fun k hk => ?_⟩
        · have : slots.length + 0 + 1 + 2 * clauses.length =
              (slots ++ ⟨some cur, []⟩ :: clauseSlots pcs v clauses).length := by
            rw [length_append, length_cons, clauseSlots, length_pairs]
            omega
          rw [this]
          exact .last (.refl _)
        · have hx := getElem?_eq_getElem (hlen ▸ hk)
          obtain ⟨c, hc, sc, hsc, hfits⟩ := getElem?_of_forall₂ hclauses hx
          exact clauseOk_of_fits h.code.length hx hc hsc hfits _
  · intro j s i hs hi
    cases j with
    | zero =>
      cases hs
      cases hi
      exact Nat.zero_le 1
    | succ j =>
      obtain ⟨data, x, rfl⟩ := clause_instr (mem_of_getElem? hi)
      exact (clauseSlots_plain (mem_of_getElem? hs)).2
  · rw [hslots]
    refine clause_targets fun c hc => ?_
    obtain ⟨k, hk⟩ := mem_iff_getElem?.mp hc
    obtain ⟨x, -, sc, hsc, -⟩ := getElem?_of_forall₂ hclauses.flip hk
    exact ⟨sc, hsc⟩

end

/-! ### The step -/

/-- Types a tag carries. -/
def payloadOf (m : Module) (tag : Nat) : List ValueType :=
  ((m.tagType tag).map FuncType.paramTypes).getD []

/-- The interpreter pushes for a clause what its label expects: the clause has no exception
reference, and the tag fits the word and has a payload of numbers. -/
def ClauseSound (m : Module) (c : CatchClause) : Prop :=
  c.tagIndex < 2 ^ 24 ∧
    (c.kind = 2 ∨ c.kind = 0 ∧ ∀ t ∈ payloadOf m c.tagIndex, IsPayloadType t)

instance (m : Module) (c : CatchClause) : Decidable (ClauseSound m c) :=
  inferInstanceAs (Decidable (_ ∧ (_ ∨ _ ∧ _)))

private theorem catchTypes_ok (hsound : ClauseSound e.m c) (h : catchTypes e c = .ok pushed) :
    CatchPushes e.m c.kind c.tagIndex (topKinds pushed) := by
  obtain ⟨params, hparams, h⟩ := bind_eq_ok.mp h
  cases h
  obtain ⟨-, hkind | ⟨hkind, hpayload⟩⟩ := hsound
  · rw [hkind]
    rw [payloadTypes, hkind] at hparams
    cases hparams
    exact .all c.tagIndex
  · rw [hkind]
    rw [payloadTypes, hkind] at hparams
    obtain ⟨ft, hft, rfl⟩ := tagParams_ok hparams
    rw [if_neg (by decide), append_nil]
    refine .tag hft ?_
    rw [payloadOf, hft] at hpayload
    exact hpayload

private theorem clauseFits_of_label {tr₁ : Tracker} {params : List ValueType} {sc : Scope}
    (hs : StackOk chk e.ft st.pcStack st.tracker) (hex : Exchanged st.tracker tr₁ params.reverse [])
    (hshort : st.pcStack.length < 2 ^ 32)
    (hsc : (scopesOf st.pcStack (view chk st.tracker))[c.label]? = some sc)
    (hsound : chk = true → Live st.tracker.state → ClauseSound e.m c)
    (htypes : catchTypes e c = .ok sc.elem.labelTypes) :
    ClauseFits e.m (here chk st) ((opsOf (view chk tr₁)).getD []) (clauseOf st c sc.elem)
      sc.label := by
  refine ⟨?_, countEhLeaves_le _, label_leaves hsc, fun ts hts => ?_⟩
  · refine (countEhLeaves_le (view chk st.tracker)).trans_lt ?_
    rw [length_tries]
    exact (length_filter_le _ _).trans_lt hshort
  · obtain rfl := chk_of_opsOf hts
    obtain ⟨hlive, rfl⟩ := opsOf_eq_some hts
    have hne : st.pcStack ≠ [] := by
      intro hnil
      rw [hnil] at hsc
      cases hsc
    obtain ⟨out, hops, hout, hlen⟩ := label_ops (hs.nested hne rfl) hlive hsc
    have htotal : st.tracker.operandDepth.toNat = (kindsOf st.tracker.state).length := by
      rw [hs.depth rfl, kindsOf, length_map]
    have hsuffix := kindsOf_suffix (hout.trans (under_suffix _))
    have hdepth : (clauseOf st c sc.elem).depthChange =
        (kindsOf st.tracker.state).length - (kindsOf out).length := by
      change (st.tracker.operandDepth - sc.elem.operandDepth).toNat = _
      rw [UInt32.toNat_sub_of_le, htotal, hlen]
      rw [le_iff_toNat_le, htotal, hlen]
      exact hsuffix.length_le
    have hsound := hsound rfl hlive
    refine ⟨hsound.1, topKinds sc.elem.labelTypes, catchTypes_ok hsound htypes, ?_, ?_, ?_⟩
    · rw [hdepth]
      exact Nat.sub_le _ _
    · change _ <:+ (opsOf (some tr₁.state)).getD []
      rw [hdepth, ← suffix_iff_eq_drop.mp hsuffix, opsOf_some (hex.live.mpr hlive)]
      refine kindsOf_suffix (List.IsSuffix.trans ?_ (under_suffix tr₁.state))
      rw [hex.retrack.under]
      exact hout
    · rw [hdepth, ← suffix_iff_eq_drop.mp hsuffix]
      exact hops

/-- A `try_table` keeps the invariant. -/
theorem stepTryTable_ok {bt : BlockType} (hbt : bt.Ok) (h : Emits chk base e slots st)
    (hne : st.pcStack ≠ []) (hshort : st.pcStack.length < 2 ^ 32) (hmany : clauses.length < 2 ^ 32)
    (hsound : chk = true → Live st.tracker.state → ∀ c ∈ clauses, ClauseSound e.m c)
    (hst : stepTryTable e st bt clauses = .ok st') : EmitsTo chk base e slots st st' := by
  have hst := then_eq_ok hst
  have hst := then_eq_ok hst
  obtain ⟨out, hout, hst⟩ := bind_eq_ok.mp hst
  obtain ⟨tr₁, hex, hst⟩ := exchange_ok hst
  obtain ⟨w, hw, hst⟩ := bind_eq_ok.mp hst
  obtain ⟨st₂, hst₂, hst⟩ := bind_eq_ok.mp hst
  obtain ⟨tr', n, rfl, hentered⟩ := enterScope_ok hst
  rw [handleClauses_eq] at hst₂
  have hclauses := (forall₂_and_left (p := (· ∈ clauses)) _ _).mpr
    ⟨fun _ => id, (emitClauses_ok hout).flip⟩
  have hex := hex (block_plain hbt) plain_nil
  have hs₁ := h.stack.retrack hne fun _ => hex.retrack
  have hinside := hex.outside h.stack hne
  have hbelow : below (view chk tr₁) = below (view chk st.tracker) :=
    Retrack.below fun _ => hex.retrack
  have hb : Building e.m (bodyShape e) base w
      (slots ++ ⟨some (here chk st), []⟩ :: clauseSlots st.pcStack (view chk st.tracker) clauses)
      (insideTry clauses ((opsOf (view chk tr₁)).getD []) (here chk st)) st.pcStack
      (view chk st.tracker) (clauseWaits (st.writer.opIndex + 2) clauses) := by
    refine h.building.tryTable (emitted_ok.mp hw) hmany (fun ts hts => ?_) (hclauses.imp ?_).flip
    · have hops : (opsOf (view chk tr₁)).map (topKinds bt.params ++ ·) = some ts :=
        (congrArg Ann.ops hinside).trans hts
      obtain ⟨rest, hrest, rfl⟩ := Option.map_eq_some_iff.mp hops
      rw [hrest]
      exact suffix_append _ _
    · rintro c x ⟨hc, el, hel, htypes, rfl⟩
      obtain ⟨sc, hsc, rfl⟩ := exists_scope (view chk st.tracker) hel
      refine ⟨sc, hsc, clauseFits_of_label h.stack hex hshort hsc ?_ htypes⟩
      exact fun hchk hlive => hsound hchk hlive c hc
  obtain ⟨hb₂, hrec, htracker⟩ :=
    hb.handleAll (s := { st with tracker := tr₁, writer := w }) h.stack hst₂
  have hb₂ := hb₂.congr hbelow
  rw [htracker] at hentered
  have hne₂ : st₂.pcStack ≠ [] := by
    rw [← length_pos_iff, hrec.length]
    exact length_pos_iff.mpr hne
  set el : PcElement :=
    { bt.element st₂.tracker.operandDepth with isTryTable := decide (clauses ≠ []) } with hel
  have helOk : ElemOk el :=
    ⟨⟨hbt.typesOr_valid, hbt.params, hbt.typesOr_valid, hbt.single_eq⟩, fun _ _ => rfl,
      fun h => by cases h⟩
  have hentered : Entered tr₁ tr' el.blockParams := hentered
  have hhere : place (el :: st₂.pcStack) (view chk tr') =
      insideTry clauses ((opsOf (view chk tr₁)).getD []) (here chk st) := by
    have hops : opsOf (view chk tr') = (here chk st).ops :=
      (hentered.ops (block_isValue hbt)).trans (congrArg Ann.ops hinside)
    have htries : tries st₂.pcStack (view chk tr₁) = (here chk st).tries :=
      (hrec.tries _).trans (congrArg Ann.tries hinside)
    have hbelow' : below (view chk tr') = view chk tr₁ := hentered.below (block_isValue hbt)
    rw [place, tries, hbelow', htries, hops, insideTry]
    by_cases hnil : clauses = []
    · rw [if_pos hnil, if_neg (by rw [hel]; simp [hnil])]
    · rw [if_neg hnil, if_pos (by rw [hel]; simp [hnil])]
  refine ⟨_, ⟨(hrec.stack _ _ _ hs₁).enter hne₂ helOk ?_ hentered, ?_⟩, .append slots
    ⟨some (here chk st), []⟩ (clauseSlots st.pcStack (view chk st.tracker) clauses) _ rfl⟩
  · rw [hel, htracker]
    rfl
  · unfold here
    rw [hhere]
    exact hb₂.enter_empty (hentered.scopesOf (block_isValue hbt)) rfl fun _ h => by cases h

end PsiServe.Typing
