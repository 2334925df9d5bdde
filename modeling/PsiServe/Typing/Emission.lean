import PsiServe.Typing.Scopes

/-!
# Emitted code respects its annotations

The invariant of the parser while it emits the code of a function: the slots emitted so
far respect their annotations, the next position is annotated as the parser's state says,
and the branches whose targets are not known yet are exactly those the open scopes and the
instruction at hand wait with.
-/

namespace PsiServe.Typing

open Base Wasm Bitcode PsiServe.Parser List

/-! ### Code while an instruction is emitted -/

/-- Branches that were emitted and still have to be recorded, each with its label. -/
def WaitsFor (pcs : List PcElement) (v : Option (List ValueType)) (ws : List (Branch × Nat))
    (b : Branch) (a : Ann) : Prop :=
  ∃ label, (b, label) ∈ ws ∧ ∃ sc, (scopesOf pcs v)[label]? = some sc ∧ sc.label = a

/-- Emitted code whose next position is annotated `cur`. -/
structure Building (m : Module) (fn : FnShape) (base : Nat) (w : Writer) (slots : List Slot)
    (cur : Ann) (pcs : List PcElement) (v : Option (List ValueType)) (ws : List (Branch × Nat)) :
    Prop where
  offset : w.baseOffset = base
  code : CodeOk m fn base w.code slots cur fun b a => Pending pcs v b a ∨ WaitsFor pcs v ws b a
  loops : ∀ (n : Nat) (sc : Scope) (pos : Nat), (scopesOf pcs v)[n]? = some sc →
    sc.elem.relocations = .label pos → Reaches slots cur pos sc.label

variable {pcs : List PcElement}

namespace Building

variable {m : Module} {fn : FnShape} {base : Nat} {w w' : Writer} {slots : List Slot}
  {cur cur' : Ann} {v v' : Option (List ValueType)} {ws : List (Branch × Nat)} {i : Instr}

/-- The scopes are those outside of the innermost operands. -/
theorem congr (h : Building m fn base w slots cur pcs v ws) (hv : below v' = below v) :
    Building m fn base w slots cur pcs v' ws := by
  obtain ⟨hbase, hcode, hloops⟩ := h
  refine ⟨hbase, ?_, ?_⟩
  · unfold WaitsFor Pending
    rw [scopesOf_congr hv]
    exact hcode
  · rw [scopesOf_congr hv]
    exact hloops

/-- The annotation of the next position may be weakened. -/
theorem flow (h : Building m fn base w slots cur pcs v ws) (hflow : Flow cur cur') :
    Building m fn base w slots cur' pcs v ws :=
  ⟨h.offset, h.code.flow hflow, fun n sc pos hsc hpos =>
    (h.loops n sc pos hsc hpos).extend (.inl ⟨rfl, hflow⟩)⟩

section

variable (h : Building m fn base w slots cur pcs v [])

include h

/-- Between instructions only the open scopes wait. -/
theorem codeOk : CodeOk m fn base w.code slots cur (Pending pcs v) := by
  refine h.code.repend (fun b a hb => h.code.expects b a (.inl hb)) ?_
  rintro b a (hb | ⟨_, hmem, -⟩)
  · exact ⟨a, hb⟩
  · cases hmem

/-- After opcodes are appended, exactly their targets have to be recorded. -/
theorem extend {is : List Instr} {slots' : List Slot} {new : Branch → Ann → Prop}
    (hw : w' = { w with code := w.code ++ is }) (hext : Extends slots cur slots' cur')
    (hcode : CodeOk m fn base (w.code ++ is) slots' cur' fun b a =>
      (Pending pcs v b a ∨ WaitsFor pcs v [] b a) ∨ new b a)
    (hws : ∀ b a, new b a ↔ WaitsFor pcs v ws b a) :
    Building m fn base w' slots' cur' pcs v ws := by
  subst hw
  refine ⟨h.offset, hcode.repend ?_ ?_, fun n sc pos hsc hpos => ?_⟩
  · rintro b a (hb | hb)
    · exact hcode.expects b a (.inl (.inl hb))
    · exact hcode.expects b a (.inr ((hws b a).mpr hb))
  · rintro b a ((hb | ⟨_, hmem, -⟩) | hnew)
    · exact ⟨a, .inl hb⟩
    · cases hmem
    · exact ⟨a, .inr ((hws b a).mp hnew)⟩
  · exact (h.loops n sc pos hsc hpos).extend hext

/-- Emit an opcode with branch targets. -/
theorem emit {ts : List Ann} (hw : w.append i = .ok w')
    (hok : InstrOk m fn (fun _ _ _ _ => False) (fun k b => k = slots.length + 1 ∧ Flow b cur')
      (fun k n b => k = slots.length ∧ ∃ t, ts[n]? = some t ∧ Flow b t) slots.length cur i)
    (hfit : TargetsFit ts i)
    (hws : ∀ b a, b.slot = slots.length ∧ ts[b.entry]? = some a ↔ WaitsFor pcs v ws b a) :
    Building m fn base w' (slots ++ [⟨some cur, ts⟩]) cur' pcs v ws :=
  h.extend (Writer.append_ok hw) (.append slots _ [] cur' rfl) (h.code.emit hok hfit) hws

/-- Emit several opcodes whose targets are those to be recorded. -/
theorem appendAll {is : List Instr} {ss : List Slot} (hw : w.appendAll is = .ok w')
    (hlen : is.length = ss.length) (hext : Extends slots cur (slots ++ ss) cur')
    (hok : ∀ (j : Nat) (s : Slot) (a : Ann) (i : Instr), ss[j]? = some s → s.ann = some a →
      is[j]? = some i → InstrOk m fn (ClauseIn (w.code ++ is) (slots ++ ss))
        (Reaches (slots ++ ss) cur') (TargetIn (slots ++ ss)) (slots.length + j) a i)
    (hfit : ∀ (j : Nat) (s : Slot) (i : Instr), ss[j]? = some s → is[j]? = some i →
      TargetsFit s.targets i)
    (hws : ∀ b a, CodeOk.NewTarget slots.length ss b a ↔ WaitsFor pcs v ws b a) :
    Building m fn base w' (slots ++ ss) cur' pcs v ws :=
  h.extend (Writer.appendAll_ok hw) hext (h.code.append hlen hext hok hfit) hws

/-- Emit an opcode without branch targets. -/
theorem emitPlain (hw : w.append i = .ok w')
    (hok : InstrOk m fn (fun _ _ _ _ => False) (fun k b => k = slots.length + 1 ∧ Flow b cur')
      (fun _ _ _ => False) slots.length cur i) (hfit : TargetsFit [] i) :
    Building m fn base w' (slots ++ [⟨some cur, []⟩]) cur' pcs v [] := by
  refine h.emit hw (hok.mono (fun _ _ _ _ h => h) (fun _ _ h => h) fun _ _ _ h => h.elim) hfit ?_
  intro b a
  constructor
  · rintro ⟨-, ht⟩
    cases ht
  · rintro ⟨_, hmem, -⟩
    cases hmem

/-- Emit an opcode that branches to a label. -/
theorem emitTo {label : Nat} {sc : Scope} (hsc : (scopesOf pcs v)[label]? = some sc)
    (hw : w.append i = .ok w')
    (hok : InstrOk m fn (fun _ _ _ _ => False) (fun k b => k = slots.length + 1 ∧ Flow b cur')
      (fun k n b => k = slots.length ∧ n = 0 ∧ Flow b sc.label) slots.length cur i)
    (hfit : TargetsFit [sc.label] i) :
    Building m fn base w' (slots ++ [⟨some cur, [sc.label]⟩]) cur' pcs v
      [(⟨w.opIndex, 0⟩, label)] := by
  refine h.emit hw (hok.mono (fun _ _ _ _ h => h) (fun _ _ h => h) ?_) hfit ?_
  · rintro k n b ⟨rfl, rfl, hflow⟩
    exact ⟨rfl, sc.label, rfl, hflow⟩
  · have hlen : w.opIndex = slots.length := h.code.length
    rintro ⟨slot, entry⟩ a
    constructor
    · rintro ⟨hslot, ht⟩
      obtain rfl : slot = w.opIndex := hslot.trans hlen.symm
      cases entry with
      | succ n => cases ht
      | zero =>
        cases ht
        exact ⟨label, mem_singleton_self _, sc, hsc, rfl⟩
    · rintro ⟨l, hmem, sc', hsc', rfl⟩
      cases mem_singleton.mp hmem
      obtain rfl := Option.some.inj (hsc.symm.trans hsc')
      exact ⟨hlen, rfl⟩

end

end Building

/-! ### Recording branches -/

/-- Control stacks that differ in the branches that wait. -/
structure Recorded (pcs pcs' : List PcElement) : Prop where
  length : pcs'.length = pcs.length
  stack : ∀ chk ft tr, StackOk chk ft pcs tr → StackOk chk ft pcs' tr
  tries : ∀ v, tries pcs' v = tries pcs v

private theorem Recorded.refl (pcs : List PcElement) : Recorded pcs pcs :=
  ⟨rfl, fun _ _ _ h => h, fun _ => rfl⟩

private theorem Recorded.trans {pcs' pcs'' : List PcElement} (h : Recorded pcs pcs')
    (h' : Recorded pcs' pcs'') : Recorded pcs pcs'' :=
  ⟨h'.length.trans h.length, fun chk ft tr hs => h'.stack chk ft tr (h.stack chk ft tr hs),
    fun v => (h'.tries v).trans (h.tries v)⟩

namespace Building

variable {m : Module} {fn : FnShape} {base : Nat} {slots : List Slot} {cur : Ann}
  {v : Option (List ValueType)} {ws : List (Branch × Nat)} {s s' : State} {b : Branch} {label : Nat}
  {w : Writer} {pcs : List PcElement} {sc : Scope}

/-- Filling in a target changes one opcode. -/
theorem fixBranch_code {pos : Nat} (h : w.baseOffset = base) : (w.fixBranch b pos).code =
    w.code.modify b.slot (Instr.setPc b.entry (base + pos)) := by
  rw [← h]
  rfl

/-- A branch to a loop is filled in at once. -/
theorem fixLabel {pos : Nat} (h : Building m fn base w slots cur pcs v ((b, label) :: ws))
    (hsc : (scopesOf pcs v)[label]? = some sc) (hpos : sc.elem.relocations = .label pos) :
    Building m fn base (w.fixBranch b pos) slots cur pcs v ws := by
  have hexpects := h.code.expects b sc.label (.inr ⟨label, mem_cons_self, sc, hsc, rfl⟩)
  have hfix := h.code.fix hexpects (h.loops label sc pos hsc hpos)
  refine ⟨h.offset, ?_, h.loops⟩
  rw [fixBranch_code h.offset]
  refine hfix.repend ?_ ?_
  · rintro b' a (hb' | ⟨l, hmem, hl⟩)
    · exact h.code.expects b' a (.inl hb')
    · exact h.code.expects b' a (.inr ⟨l, mem_cons_of_mem _ hmem, hl⟩)
  · rintro b' a ⟨hb' | ⟨l, hmem, hl⟩, hne⟩
    · exact ⟨a, .inl hb'⟩
    · rcases mem_cons.mp hmem with heq | hmem
      · exact absurd (congrArg Prod.fst heq) hne
      · exact ⟨a, .inr ⟨l, hmem, hl⟩⟩

/-- A branch to the end of a scope is kept with the scope. -/
theorem record {bs : List Branch}
    (h : Building m fn base w slots cur pcs v ((b, label) :: ws))
    (hsc : (scopesOf pcs v)[label]? = some sc) (hok : ElemOk sc.elem)
    (hbs : sc.elem.relocations = .branches bs) :
    Building m fn base w slots cur
      (pcs.set label { sc.elem with relocations := .branches (bs ++ [b]) }) v ws := by
  have hset := scopesOf_set (n := label) hsc
    (⟨rfl, rfl, rfl, rfl, rfl⟩ : Similar sc.elem
      { sc.elem with relocations := .branches (bs ++ [b]) })
  have hwaits := waits_append (b := b) hok hbs
  have hold : ∀ n sc', n ≠ label → (scopesOf pcs v)[n]? = some sc' →
      (scopesOf (pcs.set label { sc.elem with relocations := .branches (bs ++ [b]) }) v)[n]? =
        some sc' := by
    intro n sc' hn hsc'
    rw [hset, if_neg hn]
    exact hsc'
  have hlabel := (hset label).trans (if_pos rfl)
  refine ⟨h.offset, h.code.repend ?_ ?_, ?_⟩
  · rintro b' a (⟨n, sc', hsc', hb'⟩ | ⟨l, hmem, sc', hsc', rfl⟩)
    · by_cases hn : n = label
      · rw [hn, hlabel] at hsc'
        cases hsc'
        rw [hwaits] at hb'
        rcases mem_append.mp hb' with hb' | hb'
        · exact h.code.expects b' a (.inl ⟨label, sc, hsc, hb'⟩)
        · cases mem_singleton.mp hb'
          exact h.code.expects _ _ (.inr ⟨label, mem_cons_self, sc, hsc, rfl⟩)
      · rw [hset, if_neg hn] at hsc'
        exact h.code.expects b' a (.inl ⟨n, sc', hsc', hb'⟩)
    · refine h.code.expects b' _ (.inr ⟨l, mem_cons_of_mem _ hmem, ?_⟩)
      by_cases hl : l = label
      · rw [hl, hlabel] at hsc'
        cases hsc'
        exact ⟨sc, hl ▸ hsc, rfl⟩
      · rw [hset, if_neg hl] at hsc'
        exact ⟨sc', hsc', rfl⟩
  · have hkeep : ∀ b' a, (b', a) ∈ sc.waits ++ [(b, sc.label)] → Pending
        (pcs.set label { sc.elem with relocations := .branches (bs ++ [b]) }) v b' a := by
      intro b' a hb'
      exact ⟨label, _, hlabel, hwaits ▸ hb'⟩
    rintro b' a (⟨n, sc', hsc', hb'⟩ | ⟨l, hmem, sc', hsc', rfl⟩)
    · by_cases hn : n = label
      · subst hn
        obtain rfl := Option.some.inj (hsc.symm.trans hsc')
        exact ⟨a, .inl (hkeep b' a (mem_append_left _ hb'))⟩
      · exact ⟨a, .inl ⟨n, sc', hold n sc' hn hsc', hb'⟩⟩
    · rcases mem_cons.mp hmem with heq | hws
      · cases heq
        exact ⟨sc.label, .inl (hkeep b sc.label
          (mem_append_right _ (mem_singleton_self _)))⟩
      · by_cases hl : l = label
        · subst hl
          exact ⟨sc.label, .inr ⟨l, hws, _, hlabel, rfl⟩⟩
        · exact ⟨sc'.label, .inr ⟨l, hws, sc', hold l sc' hl hsc', rfl⟩⟩
  · intro n sc' pos hsc' hpos
    by_cases hn : n = label
    · rw [hn, hlabel] at hsc'
      cases hsc'
      cases hpos
    · rw [hset, if_neg hn] at hsc'
      exact h.loops n sc' pos hsc' hpos

/-- Record or fill in a branch to a label. -/
theorem handleBranchTarget
    (h : Building m fn base s.writer slots cur s.pcStack v ((b, label) :: ws))
    (helems : ∀ el ∈ s.pcStack, ElemOk el) (hst : s.handleBranchTarget label b = .ok s') :
    Building m fn base s'.writer slots cur s'.pcStack v ws ∧
      Recorded s.pcStack s'.pcStack ∧ s'.tracker = s.tracker := by
  obtain ⟨el, hel, hst⟩ := bind_eq_ok.mp hst
  have hel := State.target_ok.mp hel
  obtain ⟨sc, hsc, rfl⟩ := exists_scope v hel
  have hok := helems sc.elem (mem_of_getElem? hel)
  split at hst
  next pos hpos =>
    cases hst
    exact ⟨h.fixLabel hsc hpos, .refl _, rfl⟩
  next bs hbs =>
    cases hst
    have hsim : Similar sc.elem { sc.elem with relocations := .branches (bs ++ [b]) } :=
      ⟨rfl, rfl, rfl, rfl, rfl⟩
    have hok' : ElemOk { sc.elem with relocations := .branches (bs ++ [b]) } := by
      refine ⟨⟨hok.results, hok.params, hok.labels, hok.label⟩, fun _ _ => hok.forward bs hbs,
        fun hif => ?_⟩
      obtain ⟨htry, b₀, bs₀, hbranches⟩ := hok.if_ hif
      obtain rfl := Relocations.branches.inj (hbs.symm.trans hbranches)
      exact ⟨htry, b₀, bs₀ ++ [b], rfl⟩
    refine ⟨h.record hsc hok hbs, ⟨length_set, ?_, tries_set hel hsim⟩, rfl⟩
    intro chk ft tr hs
    exact hs.set hel hsim hok'

/-- Record or fill in several branches. -/
theorem handleAll {chk : Bool} {ft : FuncType} {tr : Tracker}
    (h : Building m fn base s.writer slots cur s.pcStack v ws)
    (hs : StackOk chk ft s.pcStack tr)
    (hst : foldSteps (fun s (w : Branch × Nat) => s.handleBranchTarget w.2 w.1) s ws = .ok s') :
    Building m fn base s'.writer slots cur s'.pcStack v [] ∧
      Recorded s.pcStack s'.pcStack ∧ s'.tracker = s.tracker := by
  induction ws generalizing s with
  | nil =>
    cases hst
    exact ⟨h, .refl _, rfl⟩
  | cons w ws ih =>
    obtain ⟨st₁, hst₁, hst⟩ := bind_eq_ok.mp hst
    obtain ⟨hb, hrec, htracker⟩ := h.handleBranchTarget hs.elems hst₁
    obtain ⟨hb', hrec', htracker'⟩ := ih hb (hrec.stack _ _ _ hs) hst
    exact ⟨hb', hrec.trans hrec', htracker'.trans htracker⟩

end Building

/-! ### The parser between instructions -/

/-- A function as the code of its body sees it. -/
def bodyShape (e : BodyEnv) : FnShape := ⟨e.locals.map kindOf, topKinds e.ft.returnTypes⟩

/-- Annotation of the position the parser is at. -/
def here (chk : Bool) (st : State) : Ann := place st.pcStack (view chk st.tracker)

/-- The parser's state between two instructions of a body. -/
structure Emits (chk : Bool) (base : Nat) (e : BodyEnv) (slots : List Slot) (st : State) :
    Prop where
  stack : StackOk chk e.ft st.pcStack st.tracker
  building : Building e.m (bodyShape e) base st.writer slots (here chk st) st.pcStack
    (view chk st.tracker) []

/-- A step of the parser emits code that respects its annotations. -/
def EmitsTo (chk : Bool) (base : Nat) (e : BodyEnv) (slots : List Slot) (st st' : State) : Prop :=
  ∃ slots', Emits chk base e slots' st' ∧ Extends slots (here chk st) slots' (here chk st')

section

variable {chk : Bool} {base : Nat} {e : BodyEnv} {slots : List Slot} {st st' : State}
  {tr' : Tracker} {i : Instr} {pops pushes : List ValueType}

/-- One opcode without branch targets, with a change of the innermost operands. -/
theorem Emits.emit {w : Writer} (h : Emits chk base e slots st) (hne : st.pcStack ≠ [])
    (hre : chk = true → Retrack st.tracker tr') (hw : st.writer.append i = .ok w)
    (hok : InstrOk e.m (bodyShape e) (fun _ _ _ _ => False)
      (fun k b => k = slots.length + 1 ∧ Flow b (place st.pcStack (view chk tr')))
      (fun _ _ _ => False) slots.length (here chk st) i) (hfit : TargetsFit [] i) :
    EmitsTo chk base e slots st { st with tracker := tr', writer := w } := by
  refine ⟨slots ++ [⟨some (here chk st), []⟩], ⟨h.stack.retrack hne hre, ?_⟩, ?_⟩
  · exact (h.building.emitPlain hw hok hfit).congr (Retrack.below hre)
  · exact .append slots _ [] _ rfl

/-- The state after branches of an instruction were recorded. -/
theorem Recorded.emits {s : State} {cur : Ann} {pcs : List PcElement} {tr : Tracker}
    (hrec : Recorded pcs s.pcStack) (hs : StackOk chk e.ft pcs tr) (hne : pcs ≠ [])
    (hre : chk = true → Retrack tr s.tracker)
    (hb : Building e.m (bodyShape e) base s.writer slots cur s.pcStack (view chk tr) [])
    (hcur : cur = place pcs (view chk s.tracker)) :
    Emits chk base e slots s ∧ here chk s = cur := by
  have hhere : here chk s = cur := by
    rw [hcur, here, place, place, hrec.tries]
  refine ⟨⟨hrec.stack _ _ _ (hs.retrack hne hre), ?_⟩, hhere⟩
  rw [hhere]
  exact hb.congr (Retrack.below hre)

/-- An instruction that replaces operands by others. -/
theorem Emits.exchange (h : Emits chk base e slots st) (hne : st.pcStack ≠ [])
    (hst : { st with tracker := tr' }.emit i = .ok st')
    (hex : chk = true → Exchanged st.tracker tr' pops pushes)
    (hmoves : ∀ ts, opsOf (view chk st.tracker) = some ts →
      Moves e.m (bodyShape e) i (pops.map kindOf) (topKinds pushes))
    (hok : ∀ reach n a, Straight e.m (bodyShape e) reach n a i →
      InstrOk e.m (bodyShape e) (fun _ _ _ _ => False) reach (fun _ _ _ => False) n a i
      := by exact fun _ _ _ hs => hs)
    (hfit : TargetsFit [] i := by rfl) : EmitsTo chk base e slots st st' := by
  obtain ⟨w, hw, rfl⟩ := State.emit_ok hst
  have hre : chk = true → Retrack st.tracker tr' := fun hchk => (hex hchk).retrack
  refine h.emit hne hre hw (hok _ _ _ ?_) hfit
  refine ⟨place st.pcStack (view chk tr'), tries_congr (Retrack.below hre), ⟨rfl, .refl _⟩, ?_⟩
  intro ts hts
  cases chk with
  | false => cases hts
  | true =>
    obtain ⟨hscope, hknown⟩ := h.stack.known hne rfl
    obtain ⟨rest, rfl, hops, hrest⟩ := (hex rfl).ops hknown hts
    exact ⟨_, _, rest, hmoves _ hts, rfl, fun kept hkept => (tries_suffix hkept).trans hrest, hops⟩

end

end PsiServe.Typing
