import PsiServe.Parser.TrackOps
import PsiServe.Parser.WellFormed

/-!
# What an instruction does to the state of the parser

Once an opcode is emitted, only its branch target and, for a gas charge, its cost are
filled in later (`psizam/detail/bitcode_writer.hpp:465`,
`507–510`). The rest of it is in the code of the function when the body is parsed. The type
stack changes by the operations of `PsiServe.Parser.TrackOps`, and the scopes keep types
that are those of operands.
-/

namespace PsiServe.Bitcode

open Base List

/-- An opcode without what is filled in later. -/
def Instr.fixed : Instr → Instr
  | .if_ _ => .if_ 0
  | .else_ _ => .else_ 0
  | .br data _ => .br data 0
  | .brIf data _ stacksz => .brIf data 0 stacksz
  | .brTable size table => .brTable size (table.map fun e => { e with pc := 0 })
  | .catch_ data _ => .catch_ data 0
  | .catchAll _ => .catchAll 0
  | .tryTable data _ => .tryTable data 0
  | .gasCharge _ => .gasCharge 0
  | i => i

private theorem map_modify_of_eq {α β : Type} {f : α → β} {g : α → α} (h : ∀ a, f (g a) = f a)
    (l : List α) (n : Nat) : (l.modify n g).map f = l.map f := by
  apply ext_getElem?
  intro k
  rw [getElem?_map, getElem?_map, getElem?_modify]
  cases l[k]? with
  | none => rfl
  | some a =>
    by_cases hk : n = k
    · simp only [hk, Option.map_some, Option.map_eq_map, ↓reduceIte, h]
    · simp only [hk, Option.map_some, Option.map_eq_map, ↓reduceIte]

private theorem Instr.fixed_setPc (entry target : Nat) (i : Instr) :
    (i.setPc entry target).fixed = i.fixed := by
  cases i with
  | brTable size table =>
    change Instr.brTable size (map _ (table.modify entry _)) = .brTable size _
    rw [map_modify_of_eq]
    intro e
    rfl
  | _ => rfl

private theorem Instr.fixed_addCost (extra : Int) (i : Instr) :
    (i.addCost extra).fixed = i.fixed := by
  cases i with
  | _ => rfl

namespace Writer

/-- A later state of the writer: more opcodes, and the old ones with more filled in. -/
def Extends (w w' : Writer) : Prop := w.code.map Instr.fixed <+: w'.code.map Instr.fixed

variable {w w' w'' : Writer} {i : Instr} {b : Branch} {depth count : Nat}

private theorem Extends.refl (w : Writer) : w.Extends w := prefix_rfl

private theorem Extends.trans (h : w.Extends w') (h' : w'.Extends w'') : w.Extends w'' :=
  List.IsPrefix.trans h h'

private theorem extends_of_fixed_eq (h : w'.code.map Instr.fixed = w.code.map Instr.fixed) :
    w.Extends w' := ⟨[], by rw [append_nil, h]⟩

private theorem extends_append (h : w.append i = .ok w') : w.Extends w' := by
  rw [append_ok h, Extends, map_append]
  exact prefix_append _ _

private theorem extends_appendAll {is : List Instr} (h : w.appendAll is = .ok w') :
    w.Extends w' := by
  rw [appendAll_ok h, Extends, map_append]
  exact prefix_append _ _

private theorem extends_fixBranch (w : Writer) (b : Branch) (target : Nat) :
    w.Extends (w.fixBranch b target) :=
  extends_of_fixed_eq (map_modify_of_eq (Instr.fixed_setPc _ _) w.code _)

private theorem extends_fixBranches (w : Writer) (bs : List Branch) (target : Nat) :
    w.Extends (w.fixBranches bs target) := by
  induction bs generalizing w with
  | nil => exact .refl w
  | cons b bs ih => exact (extends_fixBranch w b target).trans (ih _)

private theorem extends_patchGasImmAddExtra (w : Writer) (handle : Option Nat) (extra : Int) :
    w.Extends (w.patchGasImmAddExtra handle extra) := by
  cases handle with
  | none => exact .refl w
  | some slot => exact extends_of_fixed_eq (map_modify_of_eq (Instr.fixed_addCost _) w.code _)

private theorem extends_emitBr (h : w.emitBr depth count = .ok (w', b)) : w.Extends w' := by
  obtain ⟨_, -, h⟩ := bind_eq_ok.mp h
  obtain ⟨w₁, hw₁, h⟩ := bind_eq_ok.mp h
  cases h
  exact extends_append hw₁

private theorem extends_emitBrIf {leaves : Nat} (h : w.emitBrIf depth count leaves = .ok (w', b)) :
    w.Extends w' := by
  obtain ⟨_, -, h⟩ := bind_eq_ok.mp h
  obtain ⟨w₁, hw₁, h⟩ := bind_eq_ok.mp h
  cases h
  exact extends_append hw₁

private theorem extends_emitBranch (h : w.emitBranch i = .ok (w', b)) : w.Extends w' := by
  obtain ⟨w₁, hw₁, h⟩ := bind_eq_ok.mp h
  cases h
  exact extends_append hw₁

private theorem extends_emitElse {b' : Branch} (h : w.emitElse b = .ok (w', b')) :
    w.Extends w' := by
  obtain ⟨w₁, hw₁, h⟩ := bind_eq_ok.mp h
  cases h
  exact (extends_append hw₁).trans (extends_fixBranch w₁ b _)

private theorem extends_emitBrTable {cases : List BrCase} (h : w.emitBrTable cases = .ok w') :
    w.Extends w' := by
  obtain ⟨_, -, h⟩ := bind_eq_ok.mp h
  obtain ⟨w₁, hw₁, h⟩ := bind_eq_ok.mp h
  split at h
  · cases h
    exact extends_appendAll hw₁
  · cases h

end Writer

end PsiServe.Bitcode

namespace PsiServe.Parser

open Base Wasm Bitcode List

/-- What was emitted in a state is there in a later one. -/
def State.Extends (st st' : State) : Prop := st.writer.Extends st'.writer

/-- The types of a scope are those of operands, and the single type kept for its label is the
first one, unless the scope is a loop. -/
structure PcElement.Sound (el : PcElement) : Prop where
  results : ∀ t ∈ el.resultTypes, IsValueType t
  params : ∀ t ∈ el.blockParams, IsValueType t
  labels : ∀ t ∈ el.labelTypes, IsValueType t
  label : el.labelResult =
    if el.isLoop = true then types.pseudo else el.labelTypes.headD types.pseudo

/-- The types of the scopes are sound, and unknown types come from unreachable code. -/
structure State.Sound (st : State) : Prop where
  known : Known st.tracker.state
  scopes : ∀ el ∈ st.pcStack, el.Sound

/-- What holds of an instruction whose types are those of operands. -/
def Op.Typed (e : BodyEnv) (op : Op) : Prop :=
  op.Ok ∧ ∀ i s, op = .plain i → plainSignature e i = .ok s → anyType ∉ s.pushes

/-- A later state: the type stack was changed by its operations, and the types stay sound if
`K` holds of those that are added. -/
structure State.Later (o : Options) (K : Prop) (st st' : State) : Prop where
  emitted : st.Extends st'
  ops : ∃ ops, runSteps (trackStep o) st.tracker ops = some st'.tracker
  sound : K → st.Sound → st'.Sound

/-- A step to a later state. -/
abbrev Advancing (o : Options) (K : Prop) (st : State) (x : Step) : Prop :=
  Relates (State.Later o K) st x

/-- A later state in which no scope was closed. -/
structure State.Grows (o : Options) (K : Prop) (st st' : State) : Prop
    extends State.Later o K st st' where
  scopes : st.pcStack.length ≤ st'.pcStack.length

/-- A step that closes no scope. -/
abbrev Growing (o : Options) (K : Prop) (st : State) (x : Step) : Prop :=
  Relates (State.Grows o K) st x

variable {e : BodyEnv} {st st' final : State} {x : Step} {i : Instr} {o : Options} {K : Prop}
  {pops pushes : List ValueType} {label slot type table : Nat} {el : PcElement} {labels : List Nat}
  {clauses : List CatchClause} {w : Writer} {tr : Tracker} {bt : BlockType} {bytes : List UInt8}
  {trace : Trace} {out : CodeOut}

private theorem later_trans (a b c : State) (h : a.Later o K b) (h' : b.Later o K c) :
    a.Later o K c := by
  obtain ⟨ops, hops⟩ := h.ops
  obtain ⟨ops', hops'⟩ := h'.ops
  exact ⟨h.emitted.trans h'.emitted, ⟨ops ++ ops', (runSteps_append hops ops').trans hops'⟩,
    fun hK hs => h'.sound hK (h.sound hK hs)⟩

private theorem grows_trans (a b c : State) (h : a.Grows o K b) (h' : b.Grows o K c) :
    a.Grows o K c :=
  ⟨later_trans a b c h.toLater h'.toLater, h.scopes.trans h'.scopes⟩

/-- One step of the parser after another. -/
theorem Growing.then {f : State → Step} (hx : Growing o K st x)
    (hf : ∀ st', Growing o K st' (f st')) : Growing o K st (x >>= f) :=
  Relates.andThen grows_trans hx hf

private theorem Growing.after (hx : Growing o K st' x) (h : st.Grows o K st') : Growing o K st x :=
  Relates.trans grows_trans h hx

/-! ### Parts of a step -/

private theorem State.Grows.write (h : st.writer.Extends w) : st.Grows o K
    { st with writer := w } :=
  ⟨⟨h, ⟨[], rfl⟩, fun _ hs => ⟨hs.known, hs.scopes⟩⟩, le_rfl⟩

/-- A change of the type stack, with what is known of the scopes. -/
theorem State.Grows.track (h : Tracks o (K ∧ ∀ el ∈ st.pcStack, el.Sound) st.tracker tr) :
    st.Grows o K { st with tracker := tr } :=
  ⟨⟨.refl _, h.ops, fun hK hs => ⟨h.known ⟨hK, hs.scopes⟩ hs.known, hs.scopes⟩⟩, le_rfl⟩

/-- The scopes are changed, and none of them is closed. -/
theorem State.Grows.rescope {pcs : List PcElement} (hlen : st.pcStack.length ≤ pcs.length)
    (h : K → st.Sound → ∀ el ∈ pcs, el.Sound) : st.Grows o K { st with pcStack := pcs } :=
  ⟨⟨.refl _, ⟨[], rfl⟩, fun hK hs => ⟨hs.known, h hK hs⟩⟩, hlen⟩

/-- The counters beside the code, the types and the scopes are changed. -/
theorem State.Later.same (hw : st'.writer = st.writer) (hpcs : st'.pcStack = st.pcStack)
    (htr : st'.tracker = st.tracker) : st.Later o K st' := by
  refine ⟨?_, ⟨[], congrArg some htr.symm⟩, fun _ hs => ⟨?_, ?_⟩⟩
  · rw [State.Extends, hw]
    exact .refl _
  · rw [htr]
    exact hs.known
  · rw [hpcs]
    exact hs.scopes

private theorem State.Grows.same (hw : st'.writer = st.writer) (hpcs : st'.pcStack = st.pcStack)
    (htr : st'.tracker = st.tracker) : st.Grows o K st' :=
  ⟨.same hw hpcs htr, le_of_eq (congrArg length hpcs.symm)⟩

private theorem anyType_not_mem {ts : List ValueType} (h : ∀ t ∈ ts, IsValueType t) :
    anyType ∉ ts :=
  fun hmem => absurd (h _ hmem) (by decide)

private theorem anyType_not_mem_params (ft : FuncType) : anyType ∉ ft.paramTypes :=
  anyType_not_mem fun t ht => .inl (ft.params_valid t ht)

private theorem growing_emit : Growing o K st (st.emit i) :=
  .bind fun _ hw => .ok (.write (Writer.extends_append (emitted_ok.mp hw)))

/-- An opcode is emitted after a change of the type stack. -/
theorem growing_emit_tracked (h : Tracks o K st.tracker tr) :
    Growing o K st ({ st with tracker := tr }.emit i) :=
  growing_emit.after (.track (h.mono And.left))

private theorem growing_exchange (h : K → anyType ∉ pushes) : Growing o K st
    (st.exchange o pops pushes) :=
  .bind fun _ hpop => .bind fun _ hpush =>
    .ok (.track (((Tracks.popAll hpop).trans (.pushAll hpush h)).mono And.left))

/-- Operands are only popped. -/
theorem growing_pops : Growing o K st
    (st.exchange o pops []) := growing_exchange fun _ => not_mem_nil

private theorem growing_emitEhLeaves : Growing o K st (st.emitEhLeaves label) :=
  .bind fun _ hw => .ok (.write (Writer.extends_appendAll (emitted_ok.mp hw)))

private theorem growing_onControl {o' : Options} : Growing o K st (st.onControl o') := by
  unfold State.onControl
  split
  · exact .ok (.same rfl rfl rfl)
  · exact .bind fun _ _ => .ok (.same rfl rfl rfl)

/-- A scope is entered. -/
theorem growing_enterScope (hel : K → el.Sound) : Growing o K st (st.enterScope o el) := by
  refine .bind fun tr htr => growing_onControl.after ?_
  have htracks : Tracks o K st.tracker tr :=
    (Tracks.pushScope _).trans (.pushAll htr fun hK => anyType_not_mem (hel hK).params)
  refine grows_trans _ _ _ (.track (htracks.mono And.left))
    (.rescope (Nat.le_succ _) fun hK hs => ?_)
  exact forall_mem_cons.mpr ⟨hel hK, hs.scopes⟩

private theorem growing_handleBranchTarget {b : Branch} :
    Growing o K st (st.handleBranchTarget label b) := by
  refine .bind fun el hel => ?_
  split
  · exact .ok (.write (Writer.extends_fixBranch _ _ _))
  · refine .ok (.rescope (le_of_eq length_set.symm) fun _ hs el' hel' => ?_)
    rcases mem_or_eq_of_mem_set hel' with hel' | rfl
    · exact hs.scopes el' hel'
    · have hsound := hs.scopes el (mem_of_getElem? (State.target_ok.mp hel))
      exact ⟨hsound.results, hsound.params, hsound.labels, hsound.label⟩

private theorem growing_handleBranchTargets {entry : Nat} :
    Growing o K st (State.handleBranchTargets slot entry labels st) := by
  induction labels generalizing st entry with
  | nil => exact .ok (.same rfl rfl rfl)
  | cons label labels ih => exact growing_handleBranchTarget.then fun _ => ih

/-- The clauses of a `try_table` are recorded. -/
theorem growing_handleClauses : Growing o K st (handleClauses slot clauses st) := by
  induction clauses generalizing st slot with
  | nil => exact .ok (.same rfl rfl rfl)
  | cons c cs ih => exact growing_handleBranchTarget.then fun _ => ih

/-- A branch is emitted where its depth was computed. -/
theorem grows_branch {x : State × Nat × Nat} (h : st.computeDepthChange o label = .ok x)
    (hw : x.1.writer.Extends w) : st.Grows o K { x.1 with writer := w } := by
  obtain ⟨el, hel, h⟩ := bind_eq_ok.mp h
  obtain ⟨mid, hmid, h⟩ := bind_eq_ok.mp h
  obtain ⟨tr, htr, h⟩ := bind_eq_ok.mp h
  cases h
  refine grows_trans _ _ _ (.track ((Tracks.popAll hmid).trans (.pushAll htr fun hK => ?_)))
    (.write hw)
  exact anyType_not_mem (hK.2 el (mem_of_getElem? (State.target_ok.mp hel))).labels

private theorem growing_startUnreachable (hx : Growing o K st x) :
    Growing o K st (x >>= fun st' => .ok st'.startUnreachable) :=
  hx.then fun _ => .ok (.track (.startUnreachable _))

/-- A branch to a label is emitted. -/
theorem growing_jumpTo : Growing e.o K st (jumpTo e st label) := by
  refine .bind fun x hx => .bind fun wb hwb => ?_
  exact (growing_startUnreachable growing_handleBranchTarget).after
    (grows_branch hx (Writer.extends_emitBr (emitted_ok.mp hwb)))

/-- What changes when a branch of an `if` is closed: more is emitted, the type stack changes by
its operations, and the scope keeps its types. -/
structure Reopens (o : Options) (el : PcElement) (tr : Tracker) (w : Writer)
    (x : PcElement × Tracker × Writer) : Prop where
  emitted : w.Extends x.2.2
  tracks : Tracks o el.Sound tr x.2.1
  sound : el.Sound → x.1.Sound

private theorem elseBranch_reopens {x : PcElement × Tracker × Writer}
    (h : elseBranch o el tr w = .ok x) : Reopens o el tr w x := by
  obtain ⟨tr₁, htr₁, h⟩ := bind_eq_ok.mp h
  obtain ⟨tr₂, htr₂, h⟩ := bind_eq_ok.mp h
  obtain ⟨tr₃, htr₃, h⟩ := bind_eq_ok.mp h
  have htracks : Tracks o el.Sound tr tr₃ :=
    (Tracks.popAll htr₁).trans ((Tracks.popScopeMulti htr₂ fun _ => not_mem_nil).trans
      ((Tracks.pushScope _).trans (.pushAll htr₃ fun hel => anyType_not_mem hel.params)))
  split at h
  · cases h
  · cases h
  · obtain ⟨wb, hwb, h⟩ := bind_eq_ok.mp h
    cases h
    exact ⟨Writer.extends_emitElse (emitted_ok.mp hwb), htracks,
      fun hel => ⟨hel.results, hel.params, hel.labels, hel.label⟩⟩

private theorem closeIf_reopens {x : PcElement × Tracker × Writer} (h : closeIf o el tr w = .ok x) :
    Reopens o el tr w x := by
  have hsame : Reopens o el tr w (el, tr, w) := ⟨.refl w, .refl tr, id⟩
  unfold closeIf at h
  split at h
  · have h := then_eq_ok h
    split at h
    · exact elseBranch_reopens h
    · cases h
      exact hsame
  · cases h
    exact hsame

private theorem extends_closeLoop (st : State) (el : PcElement) :
    st.writer.Extends (closeLoop st el).writer ∧ (closeLoop st el).tracker = st.tracker := by
  unfold closeLoop
  split
  · split
    · exact ⟨.refl _, rfl⟩
    · exact ⟨Writer.extends_patchGasImmAddExtra _ _ _, rfl⟩
  · exact ⟨.refl _, rfl⟩

private theorem extends_fixRelocations (w : Writer) (r : Relocations) : w.Extends
    (fixRelocations w r) := by
  cases r with
  | label pos => exact .refl w
  | branches bs => exact Writer.extends_fixBranches w bs _

private theorem advancing_exitScope : Advancing o K st (exitScope o st) := by
  unfold exitScope
  split
  · exact .error _
  next el outer hpcs =>
    refine .bind fun x hx => .bind fun w hw => .bind fun tr htr => .ok ?_
    obtain ⟨hloop, htracker⟩ := extends_closeLoop st el
    obtain ⟨hemitted, htracks, hsound⟩ := closeIf_reopens hx
    rw [htracker] at htracks
    have hleave : x.2.2.Extends w := by
      have hw := emitted_ok.mp hw
      split at hw
      · exact Writer.extends_append hw
      · cases hw
        exact .refl _
    have hclosed : Tracks o el.Sound st.tracker tr := htracks.trans
      (.popScopeMulti htr fun hel => anyType_not_mem (hsound hel).results)
    refine ⟨hloop.trans (hemitted.trans (hleave.trans (extends_fixRelocations w _))), hclosed.ops,
      fun _ hs => ?_⟩
    have hscopes := hs.scopes
    rw [hpcs, forall_mem_cons] at hscopes
    exact ⟨hclosed.known hscopes.1 hs.known, hscopes.2⟩

private theorem advancing_onEnd {o' : Options} : Advancing o K st (.ok (st.onEnd o')) := by
  unfold State.onEnd
  split
  · exact .ok (.same rfl rfl rfl)
  · exact .ok (.same rfl rfl rfl)

/-! ### Instructions -/

private theorem growing_exchange_emit (h : K → anyType ∉ pushes) :
    Growing o K st (st.exchange o pops pushes >>= fun st' => st'.emit i) :=
  (growing_exchange h).then fun _ => growing_emit

private theorem advancing_stepEnd {last : Bool} : Advancing e.o K st (stepEnd e st last) :=
  .bind fun _ _ => .andThen later_trans advancing_exitScope fun _ =>
    .bind fun _ _ => advancing_onEnd

private theorem growing_stepBr : Growing e.o K st (stepBr e st label) :=
  .bind fun _ _ => growing_emitEhLeaves.then fun _ => growing_jumpTo

private theorem growing_stepBrIf : Growing e.o K st (stepBrIf e st label) := by
  refine .bind fun _ _ => growing_pops.then fun st₁ => .bind fun x hx => .bind fun wb hwb => ?_
  exact growing_handleBranchTarget.after
    (grows_branch hx (Writer.extends_emitBrIf (emitted_ok.mp hwb)))

private theorem growing_stepBrTable {default : Nat} :
    Growing e.o K st (stepBrTable e st labels default) := by
  refine .bind fun _ _ => growing_pops.then fun st₁ => .bind fun target _ =>
    .bind fun cases _ => .bind fun x hx => .bind fun w hw => ?_
  exact (growing_startUnreachable growing_handleBranchTargets).after
    (grows_branch hx (Writer.extends_emitBrTable (emitted_ok.mp hw)))

/-- The types of a block. -/
theorem BlockType.Ok.typesOr_valid (hbt : bt.Ok) :
    ∀ t ∈ PcElement.typesOr bt.results bt.single, IsValueType t := by
  intro t ht
  unfold PcElement.typesOr at ht
  split at ht
  · exact hbt.results t ht
  split at ht
  · cases ht
  next hne =>
    rw [mem_singleton.mp ht]
    exact hbt.single.resolve_left hne

/-- The single type kept for the label of a block is the first one. -/
theorem BlockType.Ok.single_eq (hbt : bt.Ok) :
    bt.single = (PcElement.typesOr bt.results bt.single).headD types.pseudo := by
  cases hret : bt.results with
  | nil =>
    unfold PcElement.typesOr
    rw [if_neg (not_not.mpr rfl)]
    split
    next hsingle => exact hsingle
    · rfl
  | cons t ts => exact hbt.first t (by rw [hret]; rfl)

/-- Without a single type the list counts. -/
theorem typesOr_pseudo (ts : List ValueType) : PcElement.typesOr ts types.pseudo = ts := by
  unfold PcElement.typesOr
  split
  · rfl
  next h => rw [if_pos rfl, not_not.mp h]

/-- The label of a loop takes its parameters. -/
theorem BlockType.Ok.params_valid (hbt : bt.Ok) :
    ∀ t ∈ PcElement.typesOr bt.params types.pseudo, IsValueType t := by
  rw [typesOr_pseudo]
  exact hbt.params

section

variable (hbt : K → bt.Ok)

include hbt

private theorem growing_stepBlock : Growing e.o K st (stepBlock e st bt) :=
  growing_pops.then fun _ => growing_enterScope fun hK =>
    ⟨(hbt hK).typesOr_valid, (hbt hK).params, (hbt hK).typesOr_valid, (hbt hK).single_eq⟩

private theorem growing_stepLoop : Growing e.o K st (stepLoop e st bt) := by
  refine growing_pops.then fun st₁ => .bind fun w hw => ?_
  refine (growing_enterScope fun hK => ?_).after (grows_trans _ _ _
    (.write (Writer.extends_append (emitted_ok.mp hw))) (.same rfl rfl rfl))
  exact ⟨(hbt hK).typesOr_valid, (hbt hK).params, (hbt hK).params_valid, rfl⟩

private theorem growing_stepIf : Growing e.o K st (stepIf e st bt) := by
  refine .bind fun _ _ => .bind fun wb hwb => ?_
  refine (growing_pops.then fun _ => growing_enterScope fun hK => ?_).after
    (.write (Writer.extends_emitBranch (emitted_ok.mp hwb)))
  exact ⟨(hbt hK).typesOr_valid, (hbt hK).params, (hbt hK).typesOr_valid, (hbt hK).single_eq⟩

private theorem growing_stepTryTable : Growing e.o K st (stepTryTable e st bt clauses) := by
  refine .bind fun _ _ => .bind fun _ _ => .bind fun cs _ =>
    growing_pops.then fun st₁ => .bind fun w hw => ?_
  refine (growing_handleClauses.then fun _ => growing_enterScope fun hK => ?_).after
    (.write (Writer.extends_appendAll (emitted_ok.mp hw)))
  exact ⟨(hbt hK).typesOr_valid, (hbt hK).params, (hbt hK).typesOr_valid, (hbt hK).single_eq⟩

end

/-- The top scope is replaced by another one. -/
theorem grows_top {st₁ : State} {top : PcElement} {outer : List PcElement}
    (hpcs : st.pcStack = top :: outer) (hpcs₁ : st₁.pcStack = el :: outer)
    (h : Reopens o top st.tracker st.writer (el, st₁.tracker, st₁.writer)) :
    st.Grows o K st₁ := by
  refine ⟨⟨h.emitted, h.tracks.ops, fun _ hs => ?_⟩, ?_⟩
  · have hscopes := hs.scopes
    rw [hpcs, forall_mem_cons] at hscopes
    refine ⟨h.tracks.known hscopes.1 hs.known, ?_⟩
    rw [hpcs₁, forall_mem_cons]
    exact ⟨h.sound hscopes.1, hscopes.2⟩
  · rw [hpcs, hpcs₁]
    exact le_rfl

private theorem growing_stepElse : Growing e.o K st (stepElse e st) := by
  unfold stepElse
  split
  · exact .error _
  next top outer hpcs =>
    refine .bind fun _ _ => .bind fun x hx => ?_
    exact growing_onControl.after (grows_top hpcs rfl (elseBranch_reopens hx))

private theorem growing_catchBlock {params : List ValueType} (hparams : anyType ∉ params) :
    Growing e.o K st (catchBlock e st params i) := by
  unfold catchBlock
  split
  · exact .error _
  next top outer hpcs =>
    refine .bind fun tr₁ htr₁ => .bind fun tr₂ htr₂ => .bind fun tr₃ htr₃ => ?_
    split
    · exact .error _
    · refine .bind fun wb hwb => growing_onControl.after (grows_top hpcs rfl ⟨?_, ?_, ?_⟩)
      · exact Writer.extends_emitBranch (emitted_ok.mp hwb)
      · exact (Tracks.popAll htr₁).trans ((Tracks.popScopeMulti htr₂ fun _ => not_mem_nil).trans
          ((Tracks.pushScope _).trans (.pushAll htr₃ fun _ => hparams)))
      · exact fun h => ⟨h.results, h.params, h.labels, h.label⟩

private theorem tagParams_known {tag : Nat} {params : List ValueType}
    (h : tagParams e tag = .ok params) : anyType ∉ params := by
  have h := then_eq_ok h
  split at h
  · cases h
  · cases h
    exact anyType_not_mem_params _

private theorem growing_stepRethrow : Growing e.o K st (stepRethrow e st label) := by
  refine .bind fun _ _ => .bind fun _ _ => .bind fun x hx => ?_
  exact (growing_startUnreachable growing_emit).after (grows_branch hx (.refl _))

private theorem advancing_stepDelegate : Advancing e.o K st (stepDelegate e st label) := by
  refine .bind fun _ _ => .bind fun x hx => .bind fun st₁ hst₁ => ?_
  have hgrows : st.Grows e.o K st₁ :=
    grows_trans _ _ _ (grows_branch hx (.refl _)) (growing_emit st₁ hst₁)
  exact .trans later_trans hgrows.toLater
    (.andThen later_trans advancing_exitScope fun _ => advancing_onEnd)

private theorem growing_tailCallTo : Growing e.o K st (tailCallTo e st i) :=
  growing_emitEhLeaves.then fun _ => growing_emit.then fun _ => growing_jumpTo

/-- Operands of a call are exchanged for its results. -/
theorem growing_call (ft : FuncType) : Growing o K st (st.exchange o pops ft.returnTypes) :=
  growing_exchange fun _ => anyType_not_mem ft.returns_valid

private theorem growing_stepCallIndirect : Growing e.o K st (stepCallIndirect e st type table) := by
  refine .bind fun _ _ => ?_
  split
  · exact .error _
  · exact .bind fun _ _ => (growing_call _).then fun _ => .bind fun _ _ => growing_emit

private theorem growing_stepReturnCallIndirect :
    Growing e.o K st (stepReturnCallIndirect e st type table) := by
  refine .bind fun _ _ => ?_
  split
  · exact .error _
  · exact .bind fun _ _ => .bind fun _ _ => (growing_call _).then fun _ =>
      .bind fun _ _ => growing_tailCallTo

private theorem growing_stepDrop : Growing e.o K st (stepDrop e st) :=
  .bind fun _ _ => .bind fun _ hx => growing_emit_tracked (.popAny hx)

/-- An unknown result of a `select` comes from two unknown operands. -/
theorem growing_stepSelect : Growing e.o K st (stepSelect e st) := by
  refine .bind fun _ _ => .bind fun tr₁ htr₁ => .bind fun ⟨t₀, tr₂⟩ htr₂ =>
    .bind fun ⟨t₁, tr₃⟩ htr₃ => .bind fun _ _ => .bind fun _ _ => .bind fun tr₄ htr₄ => ?_
  have hpops : Tracks e.o K st.tracker tr₂ := (Tracks.pop htr₁).trans (.popAny htr₂)
  refine growing_emit_tracked (hpops.seq ((Tracks.popAny htr₃).trans
    (.push htr₄ fun hK _ ht => ?_)))
  have ht₁ : t₁ = anyType := by
    split at ht
    · exact ht
    next ht₀ => exact absurd ht ht₀
  exact (hpops.known hK.1 hK.2).dead_of_popAny (ht₁ ▸ htr₃)

/-- A typed `select` of an unknown type takes operands of that type. -/
theorem growing_stepTypedSelect {count : Nat} {t : ValueType} :
    Growing e.o K st (stepTypedSelect e st count t) := by
  refine .bind fun _ _ => .bind fun _ _ => .bind fun st₁ h => growing_emit.after ?_
  obtain ⟨_, hpop, h⟩ := bind_eq_ok.mp h
  obtain ⟨_, hpush, h⟩ := bind_eq_ok.mp h
  cases h
  obtain ⟨tr₁, htr₁, hpop⟩ := bind_eq_ok.mp hpop
  obtain ⟨tr₂, htr₂, hpop⟩ := bind_eq_ok.mp hpop
  obtain ⟨tr₃, htr₃, hpop⟩ := bind_eq_ok.mp hpop
  cases hpop
  obtain ⟨tr₄, htr₄, hpush⟩ := bind_eq_ok.mp hpush
  cases hpush
  have hpops : Tracks e.o K st.tracker tr₂ := (Tracks.pop htr₁).trans (.pop htr₂)
  refine .track (Tracks.mono (hpops.seq ((Tracks.pop htr₃).trans
    (.push htr₄ fun hK _ ht => ?_))) And.left)
  exact (hpops.known hK.1 hK.2).dead_of_pop (ht ▸ htr₃)

private theorem growing_stepRefIsNull : Growing e.o K st (stepRefIsNull e st) :=
  .bind fun _ _ => .bind fun _ hx => .bind fun _ _ => .bind fun _ hpush =>
    growing_emit_tracked ((Tracks.popAny hx).trans
      (.push hpush fun _ _ ht => absurd ht (by decide)))

/-- Only `end` and `delegate` close a scope. -/
theorem growing_step {last : Bool} {op : Op} (hend : op ≠ .end_)
    (hdelegate : ∀ l, op ≠ .delegate l) : Growing e.o (op.Typed e) st (step e st last op) := by
  cases op with
  | end_ => exact absurd rfl hend
  | delegate l => exact absurd rfl (hdelegate l)
  | unreachable => exact .bind fun _ _ => growing_startUnreachable growing_emit
  | nop => exact growing_emit
  | return_ => exact growing_stepBr
  | block bt => exact growing_stepBlock And.left
  | loop bt => exact growing_stepLoop And.left
  | if_ bt => exact growing_stepIf And.left
  | else_ => exact growing_stepElse
  | try_ bt => exact .bind fun _ _ => growing_stepBlock And.left
  | catch_ tag => exact .bind fun _ _ => .bind fun _ h => growing_catchBlock (tagParams_known h)
  | catchAll => exact .bind fun _ _ => growing_catchBlock not_mem_nil
  | throw_ tag =>
    exact .bind fun _ _ => .bind fun _ _ => .bind fun _ _ => growing_pops.then fun _ =>
      growing_startUnreachable growing_emit
  | rethrow label => exact growing_stepRethrow
  | throwRef =>
    exact .bind fun _ _ => .bind fun _ _ => growing_pops.then fun _ =>
      growing_startUnreachable growing_emit
  | br label => exact growing_stepBr
  | brIf label => exact growing_stepBrIf
  | brTable labels default => exact growing_stepBrTable
  | call func =>
    exact .bind fun _ _ => .bind fun ft _ => (growing_call ft).then fun _ => growing_emit
  | callIndirect type table => exact growing_stepCallIndirect
  | returnCall func =>
    exact .bind fun _ _ => .bind fun ft _ => .bind fun _ _ =>
      (growing_call ft).then fun _ => growing_tailCallTo
  | returnCallIndirect type table => exact growing_stepReturnCallIndirect
  | tryTable bt clauses => exact growing_stepTryTable fun h => h.1.1
  | drop => exact growing_stepDrop
  | select => exact growing_stepSelect
  | typedSelect count t => exact growing_stepTypedSelect
  | tableInit elem table =>
    exact .bind fun _ _ => .bind fun _ _ => .bind fun _ _ => .bind fun _ _ => .bind fun _ _ =>
      .bind fun _ _ => growing_exchange_emit fun _ => not_mem_nil
  | tableCopy dst src =>
    exact .bind fun _ _ => .bind fun _ _ => .bind fun _ _ => .bind fun _ _ => .bind fun _ _ =>
      growing_exchange_emit fun _ => not_mem_nil
  | refIsNull => exact growing_stepRefIsNull
  | plain i =>
    exact .bind fun _ _ => .bind fun s hs => growing_exchange_emit fun h => h.2 i s rfl hs

/-- Every instruction goes on to a later state. -/
theorem advancing_step (last : Bool) (op : Op) :
    Advancing e.o (op.Typed e) st (step e st last op) := by
  by_cases hend : op = .end_
  · rw [hend]
    exact advancing_stepEnd
  · by_cases hdelegate : ∃ l, op = .delegate l
    · obtain ⟨l, rfl⟩ := hdelegate
      exact advancing_stepDelegate
    · exact fun st' hst' =>
        (growing_step hend (fun l hl => hdelegate ⟨l, hl⟩) st' hst').toLater

/-! ### Bodies -/

/-- The scope of a function has its results. -/
theorem functionScope_types (ft : FuncType) : (functionScope ft).resultTypes = ft.returnTypes ∧
      (functionScope ft).labelTypes = ft.returnTypes := by
  have htypes : PcElement.typesOr (if 1 < ft.returnCount then ft.returnTypes else [])
      (if ft.returnCount ≠ 0 then ft.returnType else types.pseudo) = ft.returnTypes := by
    have hvalid := ft.returns_valid
    rw [FuncType.returnCount_eq, FuncType.returnType]
    rcases hret : ft.returnTypes with _ | ⟨t, _ | ⟨u, rest⟩⟩
    · rfl
    · rw [hret] at hvalid
      have ht : t ≠ types.pseudo := by
        rintro rfl
        exact absurd (hvalid _ mem_cons_self) (by decide)
      change PcElement.typesOr [] t = [t]
      rw [PcElement.typesOr, if_neg (not_not.mpr rfl), if_neg ht]
    · rw [if_pos (by simp), PcElement.typesOr, if_pos (cons_ne_nil _ _)]
  exact ⟨htypes, htypes⟩

/-- The scope of a function is sound. -/
theorem functionScope_sound (ft : FuncType) : (functionScope ft).Sound := by
  obtain ⟨hresults, hlabels⟩ := functionScope_types ft
  refine ⟨hresults ▸ ft.returns_valid, by simp [functionScope], hlabels ▸ ft.returns_valid, ?_⟩
  rw [hlabels]
  change (if ft.returnCount ≠ 0 then ft.returnType else types.pseudo) = _
  rw [FuncType.returnCount_eq, FuncType.returnType]
  cases ft.returnTypes with
  | nil => rfl
  | cons t ts => rfl

/-- An instruction of a body was parsed in the state recorded with it, up to the gas
count, and what it emitted is in the code of the body. -/
structure Recorded (e : BodyEnv) (final : State) (x : State × Op) : Prop where
  ok : x.2.Ok
  step : ∃ gas last st', step e { x.1 with gas := gas } last x.2 = .ok st' ∧ st'.Extends final

/-- Parsing goes on to later states, from instruction to instruction. -/
theorem parseCode_later {n : Nat} (hK : K → ∀ op : Op, op.Ok → op.Typed e)
    (h : parseCode e n bytes st = .ok (trace, final)) : st.Later e.o K final ∧
      ∀ x ∈ trace, Recorded e final x ∧ st.Later e.o K x.1 ∧ x.1.Later e.o K final := by
  have hrefl : ∀ st : State, st.Later e.o K st := fun _ => .same rfl rfl rfl
  induction n generalizing bytes st trace with
  | zero =>
    cases bytes with
    | cons b bytes => cases h
    | nil =>
      cases h
      exact ⟨hrefl _, forall_mem_nil _⟩
  | succ n ih =>
    cases bytes with
    | nil =>
      cases h
      exact ⟨hrefl _, forall_mem_nil _⟩
    | cons b bytes =>
      obtain ⟨⟨op, st', rest⟩, hnext, h⟩ := bind_eq_ok.mp h
      obtain ⟨⟨tail, final'⟩, htail, hret⟩ := bind_eq_ok.mp h
      cases hret
      obtain ⟨-, hop, -, gas, hst⟩ := next_ok hnext
      obtain ⟨hfinal, hall⟩ := ih htail
      have hgas : st.Later e.o K { st with gas := gas } := .same rfl rfl rfl
      have hstep := advancing_step _ op st' hst
      have hst' : st.Later e.o K st' := later_trans _ _ _ hgas
        ⟨hstep.emitted, hstep.ops, fun hk => hstep.sound (hK hk op hop)⟩
      have hwhole := later_trans _ _ _ hst' hfinal
      refine ⟨hwhole, forall_mem_cons.mpr ⟨?_, fun x hx => ?_⟩⟩
      · exact ⟨⟨hop, gas, _, st', hst, hfinal.emitted⟩, hrefl _, hwhole⟩
      · obtain ⟨hrec, hbefore, hafter⟩ := hall x hx
        exact ⟨hrec, later_trans _ _ _ hst' hbefore, hafter⟩

/-- In front of every instruction of a body the type stack is the result of operations, and others
lead from there to its end. -/
theorem parseCode_tracked {n : Nat} (h : parseCode e n bytes st = .ok (trace, final)) :
    ∀ x ∈ trace, ∃ before after, runSteps (trackStep e.o) st.tracker before = some x.1.tracker ∧
      runSteps (trackStep e.o) x.1.tracker after = some final.tracker := by
  intro x hx
  obtain ⟨-, hbefore, hafter⟩ := (parseCode_later (K := False) (fun h => h.elim) h).2 x hx
  obtain ⟨before, hbefore⟩ := hbefore.ops
  obtain ⟨after, hafter⟩ := hafter.ops
  exact ⟨before, after, hbefore, hafter⟩

private theorem parseFunctionBodyCode_recorded {localBytes : LocalBytes} {nested : Nat}
    (h : parseFunctionBodyCode e localBytes w nested bytes = .ok (trace, final)) :
    ∀ x ∈ trace, Recorded e final x := by
  obtain ⟨⟨trace', st⟩, hparse, h⟩ := bind_eq_ok.mp h
  have h := then_eq_ok h
  cases h
  intro x hx
  -- the prologue is charged outside of the code
  obtain ⟨⟨hok, hstep⟩, -⟩ := (parseCode_later (K := False) (fun h => h.elim) hparse).2 x hx
  exact ⟨hok, hstep⟩

/-! ### The code section -/

/-- What is in the slots of a body's opcodes once the function is finalized. -/
def Parsed.placed (q : Parsed) : List Instr :=
  if q.final.writer.opIndex < q.final.writer.size then q.final.writer.code
  else replicate q.final.writer.opIndex .unreachable

/-- A parsed body of the module and where its code is. -/
structure PlacedAt (m : Module) (code : List Instr) (x : Parsed × Nat) : Prop where
  env : x.1.env.m = m
  recorded : ∀ y ∈ x.1.trace, Recorded x.1.env x.1.final y
  code : x.1.placed <+: code.drop x.2

/-- The functions so far are where `functionPc` says. -/
structure Placed (m : Module) (out : CodeOut) : Prop where
  length : out.parsed.length = out.functionPc.length
  start : ∀ pc ∈ out.functionPc, out.functionPc.headD 0 ≤ pc
  stop : ∀ pc ∈ out.functionPc, pc ≤ out.code.length
  bodies : ∀ x ∈ out.parsed.zip out.functionPc, PlacedAt m out.code x

private theorem finalize_placed (q : Parsed) (ret : Instr) :
    q.placed <+: (finalize q.final.writer ret).1.drop (finalize q.final.writer ret).2 := by
  unfold Parsed.placed finalize
  split
  · exact prefix_append _ _
  · rw [append_assoc]
    change _ <+: (q.final.writer.code ++ _).drop q.final.writer.code.length
    rw [drop_left]
    exact prefix_append _ _

private theorem finalize_start_le (w : Writer) (ret : Instr) :
    (finalize w ret).2 ≤ (finalize w ret).1.length := by
  unfold finalize
  split
  · exact Nat.zero_le _
  · rw [append_assoc, length_append]
    exact Nat.le_add_right _ _

section

variable {m : Module} {out' : CodeOut} {f : Nat × FunctionBody}

private theorem PlacedAt.append {code : List Instr} {x : Parsed × Nat} (h : PlacedAt m code x)
    (more : List Instr) : PlacedAt m (code ++ more) x := by
  refine ⟨h.env, h.recorded, h.code.trans ?_⟩
  rw [drop_append]
  exact prefix_append _ _

private theorem headD_le_of_concat {pcs : List Nat} {n pc : Nat} (h : ∀ pc ∈ pcs, pcs.headD 0 ≤ pc)
    (hn : ∀ pc ∈ pcs, pc ≤ n) (hpc : pc ∈ pcs ++ [n]) : (pcs ++ [n]).headD 0 ≤ pc := by
  cases pcs with
  | nil => exact le_of_eq (mem_singleton.mp hpc).symm
  | cons first pcs =>
    rcases mem_append.mp hpc with hpc | hpc
    · exact h pc hpc
    · rw [mem_singleton.mp hpc]
      exact hn first mem_cons_self

private theorem Placed.append (h : Placed m out) (hwrite : writeFunction o m out f = .ok out') :
    Placed m out' := by
  obtain ⟨ft, q, usage, -, henv, ⟨localBytes, hparse⟩, hcode, hpcs, -, hparsed⟩ :=
    writeFunction_ok hwrite
  refine ⟨?_, ?_, ?_, ?_⟩
  · rw [hparsed, hpcs, length_append, length_append, h.length]
    rfl
  · rw [hpcs]
    intro pc hpc
    refine headD_le_of_concat h.start (fun pc' hpc' => ?_) hpc
    exact (h.stop pc' hpc').trans (Nat.le_add_right _ _)
  · rw [hpcs, hcode, length_append]
    refine forall_mem_append.mpr ⟨fun pc hpc => ?_, forall_mem_singleton.mpr ?_⟩
    · exact (h.stop pc hpc).trans (Nat.le_add_right _ _)
    · exact Nat.add_le_add_left (finalize_start_le _ _) _
  · rw [hparsed, hpcs, hcode, zip_append h.length]
    refine forall_mem_append.mpr ⟨fun x hx => (h.bodies x hx).append _, forall_mem_singleton.mpr ?_⟩
    · refine ⟨?_, parseFunctionBodyCode_recorded hparse, ?_⟩
      · rw [henv]
        rfl
      · rw [drop_length_add_append]
        exact finalize_placed q _

private theorem Placed.appendAll {fs : List (Nat × FunctionBody)} (h : Placed m out)
    (hwrite : foldSteps (writeFunction o m) out fs = .ok out') : Placed m out' := by
  induction fs generalizing out with
  | nil =>
    cases hwrite
    exact h
  | cons f fs ih =>
    obtain ⟨mid, hmid, hwrite⟩ := bind_eq_ok.mp hwrite
    exact ih (h.append hmid) hwrite

private theorem Placed.relative (h : Placed m out) :
    ∀ x ∈ out.relative.parsed.zip out.relative.functionPc, PlacedAt m out.relative.code x := by
  unfold CodeOut.relative
  rw [zip_map_right]
  intro x hx
  obtain ⟨⟨q, pc⟩, hmem, rfl⟩ := mem_map.mp hx
  have hplaced := h.bodies _ hmem
  refine ⟨hplaced.env, hplaced.recorded, ?_⟩
  have hle := h.start pc (of_mem_zip hmem).2
  change q.placed <+: (out.code.drop _).drop (pc - _)
  rw [drop_drop, Nat.add_sub_cancel' hle]
  exact hplaced.code

end

/-- Every function of a compiled program is where the program takes it to be. -/
theorem Compiled.placed {bodies : List FunctionBody} {p : Interp.Program}
    (h : Compiled o bodies out p) :
    ∀ x ∈ out.parsed.zip out.functionPc, PlacedAt p.module p.code x := by
  have hwritten := then_eq_ok h.written
  obtain ⟨out₁, hfold, hret⟩ := bind_eq_ok.mp hwritten
  have hempty : Placed p.module ⟨[], [], 0, 0, [], []⟩ :=
    ⟨rfl, fun _ h => absurd h not_mem_nil, fun _ h => absurd h not_mem_nil,
      fun _ h => absurd h not_mem_nil⟩
  rw [h.code, ← Except.ok.inj hret]
  exact (hempty.appendAll hfold).relative

end PsiServe.Parser
