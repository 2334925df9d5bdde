import Mathlib.Data.List.Forall2
import PsiServe.Typing.Branching

/-!
# Branch tables

The step of the parser for `br_table` keeps the invariant of `PsiServe.Typing.Emission`
when the labels of reachable tables have the same types; the parser compares only their
number and the last one.
-/

namespace PsiServe.Typing

open Base Wasm Bitcode PsiServe.Parser List

variable {chk : Bool} {base label default : Nat} {e : BodyEnv} {slots : List Slot} {st st' : State}
  {labels : List Nat} {cases : List Writer.BrCase} {table : List BrTableElem} {pcs : List PcElement}
  {v : Option (List ValueType)} {w w' : Writer}

/-! ### Entries -/

/-- Lists of related elements, by index. -/
theorem getElem?_of_forall₂ {α β : Type} {R : α → β → Prop} {xs : List α} {ys : List β} {k : Nat}
    {x : α} (h : Forall₂ R xs ys) (hx : xs[k]? = some x) : ∃ y, ys[k]? = some y ∧ R x y := by
  induction h generalizing k with
  | nil => cases hx
  | cons hxy _ ih =>
    cases k with
    | zero =>
      cases hx
      exact ⟨_, rfl, hxy⟩
    | succ k => exact ih hx

/-- The branches of a table from an entry on, each with its label. -/
def tableWaits (slot : Nat) : Nat → List Nat → List (Branch × Nat)
  | _, [] => []
  | entry, label :: labels => (⟨slot, entry⟩, label) :: tableWaits slot (entry + 1) labels

private theorem mem_tableWaits {slot entry : Nat} {b : Branch} :
    (b, label) ∈ tableWaits slot entry labels ↔
      ∃ k, labels[k]? = some label ∧ b = ⟨slot, entry + k⟩ := by
  induction labels generalizing entry with
  | nil =>
    constructor
    · intro h
      cases h
    · rintro ⟨k, hk, -⟩
      cases hk
  | cons l ls ih =>
    rw [tableWaits, mem_cons, ih]
    constructor
    · rintro (h | ⟨k, hk, hb⟩)
      · cases h
        exact ⟨0, rfl, rfl⟩
      · refine ⟨k + 1, hk, ?_⟩
        rw [hb, add_right_comm, add_assoc]
    · rintro ⟨k, hk, hb⟩
      cases k with
      | zero =>
        cases hk
        exact .inl (Prod.ext hb rfl)
      | succ k =>
        refine .inr ⟨k, hk, ?_⟩
        rw [hb, add_right_comm, add_assoc]

private theorem handleBranchTargets_eq (slot entry : Nat) (labels : List Nat) (st : State) :
    State.handleBranchTargets slot entry labels st =
      foldSteps (fun st (w : Branch × Nat) => st.handleBranchTarget w.2 w.1) st
        (tableWaits slot entry labels) := by
  induction labels generalizing entry st with
  | nil => rfl
  | cons label labels ih =>
    rw [State.handleBranchTargets, tableWaits, foldSteps]
    congr 1
    funext st'
    exact ih (entry + 1) st'

/-- The case of a label as it is emitted. -/
def caseOf (st : State) (label : Nat) (el : PcElement) : Writer.BrCase :=
  ⟨st.depthTo el, el.labelTypes.length, st.countEhLeaves label⟩

/-- The cases of a table are those of its labels. -/
theorem brCases_ok {polymorphic : Bool} {default : PcElement}
    (h : brCases st polymorphic default labels = .ok cases) :
    Forall₂ (fun c label => ∃ el, st.pcStack[label]? = some el ∧ c = caseOf st label el) cases
      labels := by
  induction labels generalizing cases with
  | nil =>
    cases h
    exact .nil
  | cons label labels ih =>
    obtain ⟨el, hel, h⟩ := bind_eq_ok.mp h
    obtain ⟨cs, hcs, h⟩ := bind_eq_ok.mp h
    cases h
    obtain ⟨el', hel', hel⟩ := bind_eq_ok.mp hel
    have hel := then_eq_ok hel
    have hel := then_eq_ok hel
    cases hel
    exact .cons ⟨el, State.target_ok.mp hel', rfl⟩ (ih hcs)

private theorem entries_ok (h : Writer.entries cases = .ok table) :
    Forall₂ (fun x c => ∃ data, Writer.encodeDepthChange c.depthChange c.resultCount = .ok data ∧
      x = ⟨0, data, c.ehLeaveCount⟩) table cases := by
  induction cases generalizing table with
  | nil =>
    cases h
    exact .nil
  | cons c cs ih =>
    obtain ⟨x, xs, rfl, hx, hxs⟩ := bind_cons_inv h
    obtain ⟨data, hdata, hret⟩ := bind_eq_ok.mp hx
    cases hret
    exact .cons ⟨data, hdata, rfl⟩ (ih hxs)

/-! ### The opcode and its data -/

/-- Annotation of a label. -/
def labelAnn (pcs : List PcElement) (v : Option (List ValueType)) (label : Nat) : Ann :=
  (((scopesOf pcs v)[label]?).map Scope.label).getD ⟨[], none⟩

/-- The annotation of a label is that of its scope. -/
theorem labelAnn_eq {sc : Scope} (h : (scopesOf pcs v)[label]? = some sc) :
    labelAnn pcs v label = sc.label := by
  rw [labelAnn, h]
  rfl

/-- Emit a branch table whose entries go to labels. -/
theorem Building.brTable {m : Module} {fn : FnShape} {cur cur' : Ann} {size count : Nat}
    (h : Building m fn base w slots cur pcs v [])
    (hw : w.appendAll (.brTable size table :: replicate count .brTableData) = .ok w')
    (hlen : table.length = labels.length)
    (hlabels : ∀ l ∈ labels, ∃ sc, (scopesOf pcs v)[l]? = some sc)
    (hok : ∃ b, Pops cur [.i32] b ∧ ∀ (k : Nat) (x : BrTableElem), table[k]? = some x →
      ∃ label, labels[k]? = some label ∧
        Branches b x.stackPop x.ehLeaveCount (labelAnn pcs v label)) :
    Building m fn base w'
      (slots ++ ⟨some cur, labels.map (labelAnn pcs v)⟩ :: replicate count ⟨none, []⟩) cur'
      pcs v (tableWaits w.opIndex 0 labels) := by
  have hslots : w.opIndex = slots.length := h.code.length
  refine h.appendAll hw ?_ (.append slots _ _ cur' rfl) ?_ ?_ ?_
  · rw [length_cons, length_cons, length_replicate, length_replicate]
  · intro j s a i hs ha hi
    cases j with
    | succ j =>
      obtain rfl := eq_of_mem_replicate (mem_of_getElem? hs)
      cases ha
    | zero =>
      cases hs
      cases ha
      cases hi
      obtain ⟨b, hpops, hcases⟩ := hok
      refine ⟨b, hpops, fun k x hx => ?_⟩
      obtain ⟨label, hlabel, hbranches⟩ := hcases k x hx
      refine ⟨labelAnn pcs v label, hbranches, ⟨some cur, labels.map (labelAnn pcs v)⟩,
        labelAnn pcs v label, ?_, ?_, .refl _⟩
      · rw [Nat.add_zero, getElem?_append_right (le_rfl), Nat.sub_self]
        rfl
      · rw [getElem?_map, hlabel]
        rfl
  · intro j s i hs hi
    cases j with
    | succ j =>
      obtain rfl := eq_of_mem_replicate (mem_of_getElem? hs)
      obtain rfl := eq_of_mem_replicate (mem_of_getElem? hi)
      rfl
    | zero =>
      cases hs
      cases hi
      change (labels.map _).length ≤ table.length
      rw [length_map, hlen]
  · intro b a
    constructor
    · rintro ⟨j, s, hslot, hs, ha⟩
      cases j with
      | succ j =>
        obtain rfl := eq_of_mem_replicate (mem_of_getElem? hs)
        cases ha
      | zero =>
        cases hs
        rw [getElem?_map] at ha
        obtain ⟨label, hlabel, rfl⟩ := Option.map_eq_some_iff.mp ha
        obtain ⟨sc, hsc⟩ := hlabels label (mem_of_getElem? hlabel)
        refine ⟨label, mem_tableWaits.mpr ⟨b.entry, hlabel, ?_⟩, sc, hsc, (labelAnn_eq hsc).symm⟩
        rw [zero_add, hslots]
        exact congrArg (Branch.mk · b.entry) hslot
    · rintro ⟨label, hmem, sc, hsc, rfl⟩
      obtain ⟨k, hk, rfl⟩ := mem_tableWaits.mp hmem
      refine ⟨0, _, hslots, rfl, ?_⟩
      rw [zero_add, getElem?_map, hk, ← labelAnn_eq hsc]
      rfl

private theorem emitBrTable_ok (h : w.emitBrTable cases = .ok w') :
    ∃ table size count, Writer.entries cases = .ok table ∧
      w.appendAll (.brTable size table :: replicate count .brTableData) = .ok w' := by
  obtain ⟨table, htable, h⟩ := bind_eq_ok.mp h
  obtain ⟨w₁, hw₁, h⟩ := bind_eq_ok.mp h
  split at h
  · cases h
    exact ⟨table, _, _, htable, hw₁⟩
  · cases h

/-! ### The step -/

/-- A `br_table` of labels of equal types keeps the invariant. -/
theorem stepBrTable_ok (h : Emits chk base e slots st) (hne : st.pcStack ≠ [])
    (hsame : chk = true → Live st.tracker.state → ∀ l ∈ labels, ∀ c d,
      st.pcStack[l]? = some c → st.pcStack[default]? = some d → c.labelTypes = d.labelTypes)
    (hst : stepBrTable e st labels default = .ok st') : EmitsTo chk base e slots st st' := by
  have hst := then_eq_ok hst
  obtain ⟨tr₁, hex₁, hst⟩ := exchange_ok hst
  obtain ⟨d, hd, hst⟩ := bind_eq_ok.mp hst
  obtain ⟨cases, hcases, hst⟩ := bind_eq_ok.mp hst
  obtain ⟨⟨st₂, depth, count⟩, hdepth, hst⟩ := bind_eq_ok.mp hst
  obtain ⟨w, hw, hst⟩ := bind_eq_ok.mp hst
  obtain ⟨st₃, htargets, hret⟩ := bind_eq_ok.mp hst
  cases hret
  obtain ⟨d', tr₂, hd', rfl, rfl, rfl, hex₂⟩ := computeDepthChange_ok hdepth
  obtain rfl := Option.some.inj ((State.target_ok.mp hd).symm.trans hd')
  obtain ⟨table, size, n, htable, hw⟩ := emitBrTable_ok (emitted_ok.mp hw)
  rw [handleBranchTargets_eq] at htargets
  have hex₁ := hex₁ (by decide) plain_nil
  have hs₁ := h.stack.retrack hne fun _ => hex₁.retrack
  have hex₂ := hex₂ (h.stack.elems d (mem_of_getElem? hd'))
  have hentries := entries_ok htable
  have hall := rel_append (brCases_ok hcases) (.cons ⟨d, hd', rfl⟩ .nil)
  -- in reachable code every label has the types of the default one
  have htypes : Live st.tracker.state → chk = true → ∀ l ∈ labels ++ [default], ∀ c,
      st.pcStack[l]? = some c → c.labelTypes = d.labelTypes := by
    intro hlive hchk l hl c hc
    rcases mem_append.mp hl with hl | hl
    · exact hsame hchk hlive l hl c d hc hd'
    · rw [mem_singleton.mp hl] at hc
      rw [Option.some.inj (hc.symm.trans hd')]
  have hb := h.building.congr (Retrack.below fun _ => hex₁.retrack)
  have hbr : Building e.m (bodyShape e) base w
      (slots ++ ⟨some (here chk st), (labels ++ [default]).map (labelAnn st.pcStack (view chk tr₁))⟩
        :: replicate n ⟨none, []⟩) (place st.pcStack (view chk tr₂.startUnreachable))
      st.pcStack (view chk tr₁) (tableWaits st.writer.opIndex 0 (labels ++ [default])) := by
    refine hb.brTable hw (hentries.length_eq.trans hall.length_eq) (fun l hl => ?_)
      ⟨place st.pcStack (view chk tr₁), hex₁.pops h.stack hne, fun k x hx => ?_⟩
    · obtain ⟨k, hk⟩ := mem_iff_getElem?.mp hl
      obtain ⟨c, -, el, hel, -⟩ := getElem?_of_forall₂ hall.flip hk
      obtain ⟨sc, hsc, -⟩ := exists_scope (view chk tr₁) hel
      exact ⟨sc, hsc⟩
    · obtain ⟨c, hc, data, hdata, rfl⟩ := getElem?_of_forall₂ hentries hx
      obtain ⟨label, hlabel, el, hel, rfl⟩ := getElem?_of_forall₂ hall hc
      obtain ⟨sc, hsc, rfl⟩ := exists_scope (view chk tr₁) hel
      refine ⟨label, hlabel, ?_⟩
      rw [labelAnn_eq hsc]
      have hex : ∀ ts, opsOf (view chk tr₁) = some ts →
          Exchanged tr₁ tr₂ sc.elem.labelTypes.reverse sc.elem.labelTypes := by
        intro ts hts
        have hlive : Live st.tracker.state := by
          obtain rfl := chk_of_opsOf hts
          exact hex₁.live.mp (opsOf_eq_some hts).1
        rw [htypes hlive (chk_of_opsOf hts) label (mem_of_getElem? hlabel) _ hel]
        exact hex₂
      exact branches_of_label (s := { st with tracker := tr₁ }) hs₁ hsc hdata hex
  obtain ⟨hb', hrec, htracker⟩ :=
    hbr.handleAll (s := { st with tracker := tr₂, writer := w }) hs₁ htargets
  have hst₃ : st₃.startUnreachable.tracker = tr₂.startUnreachable :=
    congrArg Tracker.startUnreachable htracker
  obtain ⟨hemits, hhere⟩ := Recorded.emits (s := st₃.startUnreachable) hrec hs₁ hne
    (hst₃ ▸ retrack_jump hs₁ hne fun _ => hex₂.retrack) hb' (by rw [hst₃])
  refine ⟨_, hemits, ?_⟩
  exact .append slots _ _ _ rfl

end PsiServe.Typing
