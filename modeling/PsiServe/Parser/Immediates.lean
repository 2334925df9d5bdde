import PsiServe.Base.Packed
import PsiServe.Interp.ControlStep
import PsiServe.Parser.Emitted

/-!
# Immediates of the emitted opcodes

Indirect calls, `table.init` and `table.copy` have two indices in one word, and a clause of
`try_table` its kind and tag
(`psizam/detail/bitcode_writer.hpp:96–117`, `171–173`, `428–441`).
The interpreter takes the word apart again
(`interpret_visitor.hpp:107–131`, `3050–3069`, `3248–3269`).
-/

namespace PsiServe.Parser

open Base Wasm Bitcode List UInt32 Instr

variable {e : BodyEnv} {st st' st'' : State} {is code : List Instr}
  {table type pc elem n segments : Nat} {x : State × Op} {m : Module} {op : Op} {ft : FuncType}
  {i : Instr} {o : Options} {clauses : List CatchClause} {out : List Writer.Clause} {last : Bool}
  {bytes rest : List UInt8} {trace : Trace}

/-! ### What is decoded -/

/-- The interpreter takes `low` and `high` from a word. -/
def Halves (index : UInt32) (low high : Nat) : Prop :=
  (index &&& 0xFFFF).toNat = low ∧ (index >>> 16).toNat = high

/-- The word of an indirect call names the type and the table: the type by the first index
of an equal type. -/
def NamesCallee (m : Module) (index : UInt32) (type table : Nat) : Prop :=
  Halves index (m.typeAlias type) table ∧ m.types[(index &&& 0xFFFF).toNat]? = m.types[type]?

/-- The interpreter decodes from position `n` the indices that were checked for the
instruction. -/
def Decodes (m : Module) (code : List Instr) (n : Nat) : Op → Prop
  | .callIndirect type table =>
    ∃ index, code[n]? = some (.callIndirect index) ∧ NamesCallee m index type table
  | .returnCallIndirect type table =>
    ∃ index, code[n]? = some (.tailCallIndirect index) ∧ NamesCallee m index type table
  | .tableInit elem table =>
    ∃ index, code[n]? = some (.tableInit index) ∧ Halves index elem table
  | .tableCopy dst src =>
    ∃ index, code[n]? = some (.tableCopy index) ∧ Halves index dst src
  | .tryTable _ clauses =>
    ∃ count pc, code[n]? = some (.tryTable count pc) ∧ ∀ tryDepth, ∃ entries,
      Interp.readClauses code tryDepth (n + 1) count.toNat = some entries ∧
        entries.map (fun c => (c.kind, c.tagIndex)) = clauses.map fun c => (c.kind, c.tagIndex)
  | _ => True

/-- The indices of the instruction fit into their fields. -/
def Fits (m : Module) : Op → Prop
  | .callIndirect type table | .returnCallIndirect type table =>
    m.typeAlias type < 2 ^ 16 ∧ table < 2 ^ 16
  | .tableInit elem table => elem < 2 ^ 16 ∧ table < 2 ^ 16
  | .tableCopy dst src => dst < 2 ^ 16 ∧ src < 2 ^ 16
  | .tryTable _ clauses => ∀ c ∈ clauses, c.tagIndex < 2 ^ 24
  | _ => True

/-- Instructions with indices that are packed. -/
def hasPacked : Op → Bool
  | .callIndirect .. | .returnCallIndirect .. | .tableInit .. | .tableCopy .. | .tryTable .. => true
  | _ => false

/-- Slot of the opcode of an instruction: a tail call leaves its EH frames first. -/
def slotOf (x : State × Op) : Nat :=
  match x.2 with
  | .returnCallIndirect _ _ => x.1.writer.opIndex + x.1.countEhLeaves (x.1.pcStack.length - 1)
  | _ => x.1.writer.opIndex

private theorem halves_iff (low high : Nat) :
    Halves (ofNat low ||| ofNat high <<< 16) low high ↔ low < 2 ^ 16 ∧ high < 2 ^ 16 :=
  packHalves_eq_iff low high

private theorem namesCallee_iff (hft : e.m.types[type]? = some ft) :
    NamesCallee e.m (indirectIndex e type table) type table ↔
      e.m.typeAlias type < 2 ^ 16 ∧ table < 2 ^ 16 := by
  unfold NamesCallee indirectIndex
  rw [halves_iff, and_iff_left_iff_imp]
  rintro ⟨hlow, -⟩
  rw [packHalves_low, Nat.mod_eq_of_lt hlow, hft]
  exact Module.types_typeAlias e.m type ft hft

/-! ### What is emitted -/

/-- The opcodes are emitted by a step, up to what is filled in later. -/
def Puts (st : State) (is : List Instr) (st' : State) : Prop :=
  (st.writer.code ++ is).map fixed <+: st'.writer.code.map fixed

private theorem Puts.extend (h : Puts st is st') (h' : st'.Extends st'') :
    Puts st is st'' := h.trans h'

private theorem puts_emit {st₀ : State} (hw : st.writer = st₀.writer) (h : st.emit i = .ok st') :
    Puts st₀ [i] st' := by
  obtain ⟨w, hw', rfl⟩ := State.emit_ok h
  exact ⟨[], by rw [append_nil, Writer.append_ok hw', hw]⟩

private theorem exchange_writer {pops pushes : List ValueType}
    (h : st.exchange o pops pushes = .ok st') :
    st'.writer = st.writer ∧ st'.pcStack = st.pcStack := by
  obtain ⟨_, -, h⟩ := bind_eq_ok.mp h
  obtain ⟨_, -, h⟩ := bind_eq_ok.mp h
  cases h
  exact ⟨rfl, rfl⟩

private theorem puts_stepCallIndirect (h : stepCallIndirect e st type table = .ok st') :
    (∃ ft, e.m.types[type]? = some ft) ∧
      Puts st [.callIndirect (indirectIndex e type table)] st' := by
  have h := then_eq_ok h
  split at h
  · cases h
  next ft hft =>
    have h := then_eq_ok h
    obtain ⟨st₁, hst₁, h⟩ := bind_eq_ok.mp h
    have h := then_eq_ok h
    exact ⟨⟨ft, hft⟩, puts_emit (exchange_writer hst₁).1 h⟩

private theorem puts_tailCallTo (h : tailCallTo e st i = .ok st') :
    Puts st (replicate (st.countEhLeaves (st.pcStack.length - 1)) (.delegate 0) ++ [i]) st' := by
  obtain ⟨st₁, hst₁, h⟩ := bind_eq_ok.mp h
  obtain ⟨w, hw, hret⟩ := bind_eq_ok.mp hst₁
  cases hret
  obtain ⟨st₂, hst₂, h⟩ := bind_eq_ok.mp h
  have hleaves := Writer.appendAll_ok (emitted_ok.mp hw)
  have hemit := puts_emit rfl hst₂
  rw [Puts, hleaves, append_assoc] at hemit
  exact Puts.extend hemit (growing_jumpTo (K := False) st' h).emitted

private theorem puts_stepReturnCallIndirect (h : stepReturnCallIndirect e st type table = .ok st') :
    (∃ ft, e.m.types[type]? = some ft) ∧
      Puts st (replicate (st.countEhLeaves (st.pcStack.length - 1)) (.delegate 0) ++
        [.tailCallIndirect (indirectIndex e type table)]) st' := by
  have h := then_eq_ok h
  split at h
  · cases h
  next ft hft =>
    have h := then_eq_ok h
    have h := then_eq_ok h
    obtain ⟨st₁, hst₁, h⟩ := bind_eq_ok.mp h
    have h := then_eq_ok h
    obtain ⟨hwriter, hstack⟩ := exchange_writer hst₁
    have hputs := puts_tailCallTo h
    rw [Puts, State.countEhLeaves, hwriter, hstack] at hputs
    exact ⟨⟨ft, hft⟩, hputs⟩

private theorem puts_stepTableInit (h : stepTableInit e st elem table = .ok st') :
    Puts st [.tableInit (ofNat elem ||| ofNat table <<< 16)] st' := by
  have h := then_eq_ok h
  have h := then_eq_ok h
  have h := then_eq_ok h
  obtain ⟨_, -, h⟩ := bind_eq_ok.mp h
  have h := then_eq_ok h
  have h := then_eq_ok h
  obtain ⟨st₁, hst₁, h⟩ := bind_eq_ok.mp h
  exact puts_emit (exchange_writer hst₁).1 h

private theorem puts_stepTableCopy {dst src : Nat} (h : stepTableCopy e st dst src = .ok st') :
    Puts st [.tableCopy (ofNat dst ||| ofNat src <<< 16)] st' := by
  have h := then_eq_ok h
  have h := then_eq_ok h
  have h := then_eq_ok h
  have h := then_eq_ok h
  have h := then_eq_ok h
  obtain ⟨st₁, hst₁, h⟩ := bind_eq_ok.mp h
  exact puts_emit (exchange_writer hst₁).1 h

private theorem emitClauses_tags (h : emitClauses e st clauses = .ok out) :
    out.map (fun c => (c.kind, c.tagIndex)) = clauses.map fun c => (c.kind, c.tagIndex) := by
  induction clauses generalizing out with
  | nil =>
    cases h
    rfl
  | cons c cs ih =>
    obtain ⟨x, xs, rfl, hx, hxs⟩ := bind_cons_inv h
    obtain ⟨_, -, hx⟩ := bind_eq_ok.mp hx
    obtain ⟨_, -, hx⟩ := bind_eq_ok.mp hx
    have hx := then_eq_ok hx
    cases hx
    rw [map_cons, map_cons, ih hxs]

private theorem puts_stepTryTable {bt : BlockType} (h : stepTryTable e st bt clauses = .ok st') :
    ∃ out : List Writer.Clause,
      out.map (fun c => (c.kind, c.tagIndex)) = clauses.map (fun c => (c.kind, c.tagIndex)) ∧
      Puts st (.tryTable (ofNat out.length) 0 :: out.flatMap Writer.Clause.slots) st' := by
  have h := then_eq_ok h
  have h := then_eq_ok h
  obtain ⟨out, hout, h⟩ := bind_eq_ok.mp h
  obtain ⟨st₁, hst₁, h⟩ := bind_eq_ok.mp h
  obtain ⟨w, hw, h⟩ := bind_eq_ok.mp h
  refine ⟨out, emitClauses_tags hout, ?_⟩
  have hcode := Writer.appendAll_ok (emitted_ok.mp hw)
  rw [(exchange_writer hst₁).1] at hcode
  have hputs : Puts st (.tryTable (ofNat out.length) 0 :: out.flatMap Writer.Clause.slots)
      { st₁ with writer := w } := ⟨[], by rw [append_nil, hcode]⟩
  have hgrows :=
    (growing_handleClauses.then fun _ => growing_enterScope (K := False) (fun h => h.elim))
    st' h
  exact hputs.extend hgrows.emitted

/-! ### Decoding what was emitted -/

/-- Opcodes with two indices in one word. -/
def packsHalves : Instr → Bool
  | .callIndirect _ | .tailCallIndirect _ | .tableInit _ | .tableCopy _ => true
  | _ => false

private theorem eq_of_fixed {j : Instr} (h : i.fixed = j.fixed) (hj : packsHalves j = true) :
    i = j := by
  have hfixed : j.fixed = j := by
    cases j with
    | if_ | else_ | br | brIf | brTable | catch_ | catchAll | tryTable | gasCharge => cases hj
    | _ => rfl
  rw [hfixed] at h
  subst h
  cases i with
  | if_ | else_ | br | brIf | brTable | catch_ | catchAll | tryTable | gasCharge => cases hj
  | _ => rfl

private theorem fixed_eq_tryTable {data : UInt32} (h : i.fixed = (Instr.tryTable data pc).fixed) :
    ∃ pc', i = .tryTable data pc' := by
  cases i with
  | tryTable data' pc' =>
    obtain ⟨rfl, -⟩ := Instr.tryTable.inj h
    exact ⟨pc', rfl⟩
  | _ => cases h

/-- A part of the code from a position on, up to what is filled in later. -/
def Holds (code : List Instr) (n : Nat) (is : List Instr) : Prop :=
  is.map fixed <+: (code.drop n).map fixed

private theorem Holds.head (h : Holds code n (i :: is)) :
    (∃ i', code[n]? = some i' ∧ i'.fixed = i.fixed) ∧ Holds code (n + 1) is := by
  obtain ⟨rest, hrest⟩ := h
  cases hdrop : code.drop n with
  | nil =>
    rw [hdrop] at hrest
    cases hrest
  | cons i' tail =>
    rw [hdrop] at hrest
    obtain ⟨hi, htail⟩ := cons.inj hrest
    refine ⟨⟨i', ?_, hi.symm⟩, rest, ?_⟩
    · rw [← head?_drop, hdrop]
      rfl
    · rw [← tail_drop, hdrop]
      exact htail

private theorem Holds.skip {js : List Instr} (h : Holds code n (js ++ is)) :
    Holds code (n + js.length) is := by
  induction js generalizing n with
  | nil => exact h
  | cons j js ih =>
    have htail := ih (Holds.head h).2
    rw [add_assoc, add_comm 1] at htail
    exact htail

/-- The clauses that are read are those that were emitted, with their tags cut. -/
theorem Holds.readClauses (h : Holds code n (out.flatMap Writer.Clause.slots))
    (tryDepth : Nat) : ∃ entries, Interp.readClauses code tryDepth n out.length = some entries ∧
      entries.map (fun c => (c.kind, c.tagIndex)) =
        out.map fun c => (c.kind, c.tagIndex % 2 ^ 24) := by
  induction out generalizing n with
  | nil => exact ⟨[], rfl, rfl⟩
  | cons c cs ih =>
    obtain ⟨⟨i₁, hi₁, hfix₁⟩, hrest⟩ := Holds.head h
    obtain ⟨⟨i₂, hi₂, hfix₂⟩, hrest⟩ := Holds.head hrest
    obtain ⟨entries, hread, htags⟩ := ih hrest
    obtain ⟨x₁, rfl⟩ := fixed_eq_tryTable hfix₁
    obtain ⟨x₂, rfl⟩ := fixed_eq_tryTable hfix₂
    set word := c.kind.toUInt32 <<< 24 ||| ofNat c.tagIndex &&& 0x00FFFFFF with hword
    refine ⟨⟨(word >>> 24).toUInt8, (word &&& 0x00FFFFFF).toNat, x₂,
      if x₁ ≤ tryDepth then tryDepth - x₁ else tryDepth + 2 ^ 32 - x₁,
      (ofNat c.ehLeaveCount).toNat⟩ :: entries, ?_, ?_⟩
    · rw [length_cons, Interp.readClauses, hi₁, hi₂, hread]
    · rw [map_cons, map_cons, htags, hword, packByte_high, packByte_low]

private theorem Holds.word (h : Holds code n [i]) (hi : packsHalves i = true) :
    code[n]? = some i := by
  obtain ⟨⟨i', hi', hfix⟩, -⟩ := Holds.head h
  rw [hi', eq_of_fixed hfix hi]

/-- What is decoded from the word at a position. -/
theorem exists_word_iff {f : UInt32 → Instr} (hf : Function.Injective f) {P : UInt32 → Prop}
    {index : UInt32} (h : code[n]? = some (f index)) :
    (∃ index', code[n]? = some (f index') ∧ P index') ↔ P index := by
  constructor
  · rintro ⟨index', hindex, hP⟩
    obtain rfl := hf (Option.mem_unique h hindex)
    exact hP
  · intro hP
    exact ⟨index, h, hP⟩

private theorem map_cut_eq_iff :
    (out.map fun c => (c.kind, c.tagIndex % 2 ^ 24)) = (out.map fun c => (c.kind, c.tagIndex)) ↔
      ∀ c ∈ out, c.tagIndex < 2 ^ 24 := by
  rw [map_inj_left]
  refine forall₂_congr fun c _ => ?_
  rw [Prod.mk.injEq, eq_self, true_and]
  omega

/-- A `try_table` is decoded if the tags of its clauses fit. -/
theorem decodes_tryTable_iff {bt : BlockType} {clauses : List CatchClause}
    (hlen : clauses.length < 2 ^ 32)
    (htags : out.map (fun c => (c.kind, c.tagIndex)) = clauses.map fun c => (c.kind, c.tagIndex))
    (h : Holds code n (.tryTable (ofNat out.length) 0 :: out.flatMap Writer.Clause.slots)) :
    Decodes m code n (.tryTable bt clauses) ↔ Fits m (.tryTable bt clauses) := by
  obtain ⟨⟨i, hi, hfix⟩, hclauses⟩ := Holds.head h
  obtain ⟨pc, rfl⟩ := fixed_eq_tryTable hfix
  have hout : out.length = clauses.length := by
    have := congrArg length htags
    rwa [length_map, length_map] at this
  have hcount : (ofNat out.length).toNat = out.length :=
    toNat_ofNat_of_lt' (by rw [hout]; exact hlen)
  have hfits : Fits m (.tryTable bt clauses) ↔ ∀ c ∈ out, c.tagIndex < 2 ^ 24 := by
    have hl : (∀ c ∈ clauses, c.tagIndex < 2 ^ 24) ↔
        ∀ y ∈ clauses.map fun c => (c.kind, c.tagIndex), y.2 < 2 ^ 24 := by
      rw [forall_mem_map]
    rw [Fits, hl, ← htags, forall_mem_map]
  rw [hfits, ← map_cut_eq_iff, htags]
  constructor
  · rintro ⟨count, pc', hi', hread⟩
    obtain ⟨rfl, -⟩ := tryTable.inj (Option.some.inj (hi.symm.trans hi'))
    obtain ⟨entries, hentries, heq⟩ := hread 0
    obtain ⟨entries', hentries', hcut⟩ := hclauses.readClauses 0
    rw [hcount] at hentries
    obtain rfl := Option.some.inj (hentries.symm.trans hentries')
    rw [← hcut, heq]
  · intro hcut
    refine ⟨_, pc, hi, fun tryDepth => ?_⟩
    obtain ⟨entries, hentries, heq⟩ := hclauses.readClauses tryDepth
    rw [hcount]
    exact ⟨entries, hentries, heq.trans hcut⟩

/-- Where the parser put an instruction its indices are decoded if they fit. -/
theorem decodes_iff_fits (hop : x.2.Ok) (hstep : step e x.1 last x.2 = .ok st')
    (hcode : st'.writer.code.map fixed <+: (code.drop pc).map fixed) :
    Decodes e.m code (pc + slotOf x) x.2 ↔ Fits e.m x.2 := by
  obtain ⟨st, op⟩ := x
  have hholds : ∀ {is}, Puts st is st' → Holds code (pc + st.writer.opIndex) is := by
    intro is hputs
    have hall : Holds code pc (st.writer.code ++ is) := hputs.trans hcode
    exact hall.skip
  cases op with
  | callIndirect type table =>
    obtain ⟨⟨ft, hft⟩, hputs⟩ := puts_stepCallIndirect hstep
    exact (exists_word_iff (fun _ _ => callIndirect.inj) ((hholds hputs).word rfl)).trans
      (namesCallee_iff hft)
  | returnCallIndirect type table =>
    obtain ⟨⟨ft, hft⟩, hputs⟩ := puts_stepReturnCallIndirect hstep
    have hword := (hholds hputs).skip.word rfl
    rw [length_replicate, add_assoc] at hword
    exact (exists_word_iff (fun _ _ => tailCallIndirect.inj) hword).trans
      (namesCallee_iff hft)
  | tableInit elem table =>
    exact (exists_word_iff (fun _ _ => tableInit.inj)
      ((hholds (puts_stepTableInit hstep)).word rfl)).trans (halves_iff elem table)
  | tableCopy dst src =>
    exact (exists_word_iff (fun _ _ => tableCopy.inj)
      ((hholds (puts_stepTableCopy hstep)).word rfl)).trans (halves_iff dst src)
  | tryTable bt clauses =>
    obtain ⟨out, htags, hputs⟩ := puts_stepTryTable hstep
    exact decodes_tryTable_iff hop.2.1 htags (hholds hputs)
  | _ => exact .rfl

/-- Without a slot left, the opcodes of the body are replaced. -/
theorem not_decodes_of_unreachable (h : code[n]? = some .unreachable) (hop : hasPacked op = true) :
    ¬ Decodes m code n op := by
  cases op with
  | callIndirect | returnCallIndirect | tableInit | tableCopy =>
    rintro ⟨index, hindex, -⟩
    cases h.symm.trans hindex
  | tryTable =>
    rintro ⟨count, pc, hcount, -⟩
    cases h.symm.trans hcount
  | _ => cases hop

private theorem decodes_of_not_hasPacked (hop : hasPacked op = false) : Decodes m code n op := by
  cases op with
  | callIndirect | returnCallIndirect | tableInit | tableCopy | tryTable => cases hop
  | _ => exact trivial

private theorem Puts.opIndex_le (h : Puts st is st') :
    st.writer.opIndex + is.length ≤ st'.writer.opIndex := by
  have hlen := h.length_le
  rwa [length_map, length_map, length_append] at hlen

private theorem slotOf_lt (hop : hasPacked x.2 = true) (hstep : step e x.1 last x.2 = .ok st') :
    slotOf x < st'.writer.opIndex := by
  obtain ⟨st, op⟩ := x
  cases op with
  | callIndirect type table => exact (puts_stepCallIndirect hstep).2.opIndex_le
  | returnCallIndirect type table =>
    have hle := (puts_stepReturnCallIndirect hstep).2.opIndex_le
    rw [length_append, length_replicate] at hle
    exact hle
  | tableInit elem table => exact (puts_stepTableInit hstep).opIndex_le
  | tableCopy dst src => exact (puts_stepTableCopy hstep).opIndex_le
  | tryTable bt clauses =>
    obtain ⟨out, -, hputs⟩ := puts_stepTryTable hstep
    have hle := hputs.opIndex_le
    exact (Nat.lt_add_of_pos_right (Nat.succ_pos _)).trans_le hle
  | _ => cases hop

private theorem PlacedAt.decodes_iff {q : Parsed} (hplaced : PlacedAt m code (q, pc))
    (hx : x ∈ q.trace) : Decodes m code (pc + slotOf x) x.2 ↔
      (hasPacked x.2 = true → Fits m x.2 ∧ q.final.writer.opIndex < q.final.writer.size) := by
  obtain ⟨hok, gas, last, st', hstep, hfinal⟩ := hplaced.recorded x hx
  cases hop : hasPacked x.2 with
  | false => exact iff_of_true (decodes_of_not_hasPacked hop) nofun
  | true =>
    rw [forall_prop_of_true rfl]
    have hlt : slotOf x < q.final.writer.opIndex := by
      have hslot := slotOf_lt (x := ({ x.1 with gas := gas }, x.2)) hop hstep
      have hlen := List.IsPrefix.length_le hfinal
      rw [length_map, length_map] at hlen
      exact hslot.trans_le hlen
    have hcode := hplaced.code
    unfold Parsed.placed at hcode
    split at hcode
    next hroom =>
      have hall := decodes_iff_fits (x := ({ x.1 with gas := gas }, x.2)) hok hstep
        (List.IsPrefix.trans hfinal (hcode.map fixed))
      rw [hplaced.env] at hall
      rw [and_iff_left hroom]
      exact hall
    next hfull =>
      refine iff_of_false (not_decodes_of_unreachable ?_ hop) fun h => hfull h.2
      obtain ⟨rest, hrest⟩ := hcode
      rw [← getElem?_drop, ← hrest, getElem?_append_left (by rwa [length_replicate]),
        getElem?_replicate, if_pos hlt]

/-- In every compiled program and for every instruction of a body, the interpreter decodes
the indices that were checked exactly if they fit into their fields and the buffer of the
function has a slot left for the `return`. -/
theorem immediates_decoded_iff {o : Options} {bodies : List FunctionBody} {out : CodeOut}
    {p : Interp.Program} (h : Compiled o bodies out p) {q : Parsed} {pc : Nat}
    (hq : (q, pc) ∈ out.parsed.zip out.functionPc) {x : State × Op} (hx : x ∈ q.trace) :
    Decodes p.module p.code (pc + slotOf x) x.2 ↔
      (hasPacked x.2 = true → Fits p.module x.2 ∧ q.final.writer.opIndex < q.final.writer.size) :=
  (h.placed _ hq).decodes_iff hx

/-- A module with one table, one function and a number of element segments. -/
def segmentModule (segments : Nat) : Module where
  types := [.void]
  imports := []
  functions := [0]
  tables := [.funcs ⟨false, 0, 0⟩]
  memories := []
  globals := []
  tags := []
  elements := replicate segments types.funcref
  datacount := none

/-- An instance of the module. -/
def segmentProgram (segments : Nat) (out : CodeOut) : Interp.Program where
  module := segmentModule segments
  code := out.code
  functionPc := out.functionPc
  locals := [[]]
  functionCost := fun _ => 1
  functionStackSize := fun _ => 1
  hostSignature := fun _ => .void

/-- `table.init` of segment 1 into table 0. -/
def initOne : List UInt8 := [0x41, 0, 0x41, 0, 0x41, 0, 0xFC, 0x0C, 1, 0, 0x0B]

/-- With two segments the second is decoded. -/
theorem immediates_decoded_segment : ∃ out q x,
    writeCodeOut {} (segmentModule 2) [⟨[], initOne⟩] = .ok out ∧
    (q, 0) ∈ out.parsed.zip out.functionPc ∧ x ∈ q.trace ∧ x.2 = .tableInit 1 0 ∧
    Decodes (segmentModule 2) out.code (slotOf x) x.2 := by
  obtain ⟨out, q, x, hout, hq, hx, hop, hroom⟩ : ∃ out q x,
      writeCodeOut {} (segmentModule 2) [⟨[], initOne⟩] = .ok out ∧
      (q, 0) ∈ out.parsed.zip out.functionPc ∧ x ∈ q.trace ∧ x.2 = .tableInit 1 0 ∧
      q.final.writer.opIndex < q.final.writer.size :=
    ⟨_, _, _, rfl, .head _, .tail _ (.tail _ (.tail _ (.head _))), rfl, by decide +kernel⟩
  have hdecodes := (immediates_decoded_iff (p := segmentProgram 2 out) ⟨rfl, hout, rfl, rfl⟩ hq
    hx).mpr
  rw [zero_add, hop] at hdecodes
  refine ⟨out, q, x, hout, hq, hx, hop, ?_⟩
  rw [hop]
  exact hdecodes fun _ => ⟨⟨by decide, by decide⟩, hroom⟩

/-- `table.init` of segment 65536 into table 0, behind an `unreachable`. -/
def initWide : List UInt8 := [0x00, 0xFC, 0x0C, 0x80, 0x80, 0x04, 0x00, 0x0B]

private theorem stepTableInit_of_lt {st₁ : State} {t : ValueType}
    (hbounds : st.checkInBounds = .ok ())
    (hbulk : bulkEnabled e = .ok ()) (htables : e.m.tables ≠ [])
    (htable : tableElement e table "table.init table index out of range" = .ok t)
    (hlen : elem < e.m.elements.length) (helem : e.m.elements[elem]? = some t)
    (hpop : st.exchange e.o [types.i32, types.i32, types.i32] [] = .ok st₁)
    (hemit : st₁.emit (.tableInit (ofNat elem ||| ofNat table <<< 16)) = .ok st') :
    stepTableInit e st elem table = .ok st' :=
  bind_eq_ok.mpr ⟨(), hbounds, bind_eq_ok.mpr ⟨(), hbulk,
  bind_eq_ok.mpr ⟨(), require_ok.mpr htables,
    bind_eq_ok.mpr ⟨t, htable, bind_eq_ok.mpr ⟨(), require_ok.mpr hlen,
      bind_eq_ok.mpr ⟨(), require_ok.mpr helem, bind_eq_ok.mpr ⟨st₁, hpop, hemit⟩⟩⟩⟩⟩⟩⟩

private theorem next_of_step {byte : UInt8} (hnested : st.pcStack.length = 1)
    (hmax : 1 ≤ e.o.maxNestedStructures.toNat)
    (hdecode : decodeOp e.o e.m bytes = .ok ((byte, op), rest))
    (hstep : step e { st with gas := st.gas.onOpcode byte } rest.isEmpty op = .ok st') :
    next e st bytes = .ok (op, st', rest) :=
  bind_eq_ok.mpr ⟨(), require_ok.mpr (hnested ▸ hmax), bind_eq_ok.mpr ⟨_, hdecode,
    bind_eq_ok.mpr ⟨st', hstep, rfl⟩⟩⟩

private theorem parseCode_cons {b : UInt8} {final : State}
    (hnext : next e st (b :: bytes) = .ok (op, st', rest))
    (hrest : parseCode e n rest st' = .ok (trace, final)) :
    parseCode e (n + 1) (b :: bytes) st = .ok ((st, op) :: trace, final) :=
  bind_eq_ok.mpr ⟨_, hnext, bind_eq_ok.mpr ⟨_, hrest, rfl⟩⟩

private theorem writeFunction_of {out : CodeOut} {f : Nat × FunctionBody} {bytes : LocalBytes}
    {usage : Nat} (hft : m.types[f.1]? = some ft) (hcheck : f.2.check o ft = .ok ())
    (hbytes : LocalBytes.ofFunction o ft f.2.locals = .ok bytes)
    (hparse : parseFunctionBodyCode (f.2.env o m ft) bytes ⟨out.baseOffset, f.2.code.length, [], 0⟩
      out.nested f.2.code = .ok (trace, st))
    (husage : frameUsage o st.tracker = .ok usage) :
    ∃ out', writeFunction o m out f = .ok out' ∧
      out'.parsed = out.parsed ++ [⟨f.2.env o m ft, trace, st⟩] ∧
      ∃ pc, out'.functionPc = out.functionPc ++ [pc] := by
  unfold writeFunction
  rw [hft]
  exact ⟨_, bind_eq_ok.mpr ⟨(), hcheck, bind_eq_ok.mpr ⟨bytes, hbytes,
    bind_eq_ok.mpr ⟨_, hparse, bind_eq_ok.mpr ⟨usage, husage, rfl⟩⟩⟩⟩, rfl, _, rfl⟩

/-- The body in a module with a number of segments. -/
def wideEnv (segments : Nat) : BodyEnv :=
  FunctionBody.env {} (segmentModule segments) .void ⟨[], initWide⟩

/-- The parser in the body. -/
def wideState (state : List ValueType) (depth : UInt32) (code : List Instr) : State :=
  ⟨[functionScope .void], ⟨state, 0, 0, ⟨0, depth⟩, 0⟩, ⟨0, 8, code, 0⟩, ⟨[], 0⟩, 0⟩

/-- The body is accepted in every module with enough segments. -/
theorem parse_initWide (h : 65536 < segments) :
    ∃ st trace final, parseFunctionBodyCode (wideEnv segments) ⟨0, 0⟩ ⟨0, 8, [], 0⟩ 0 initWide =
      .ok (trace, final) ∧ (st, .tableInit 65536 0) ∈ trace := by
  have hlen : 65536 < (segmentModule segments).elements.length := by
    change _ < (replicate _ _).length
    rwa [length_replicate]
  have helem : (segmentModule segments).elements[65536]? = some types.funcref := by
    change (replicate _ _)[65536]? = _
    rw [getElem?_replicate, if_pos h]
  have hdead : next (wideEnv segments) (wideState [scopeTag] 0 []) initWide =
      .ok (.unreachable, wideState [unreachableTag, scopeTag] 1 [.unreachable],
        [0xFC, 0x0C, 0x80, 0x80, 0x04, 0x00, 0x0B]) := rfl
  have hinit : next (wideEnv segments)
      (wideState [unreachableTag, scopeTag] 1 [.unreachable])
      [0xFC, 0x0C, 0x80, 0x80, 0x04, 0x00, 0x0B] = .ok (.tableInit 65536 0,
        wideState [unreachableTag, scopeTag] 1 [.unreachable, .tableInit 65536],
        [0x0B]) := by
    have hmax : 1 ≤ ({} : Options).maxNestedStructures.toNat := by decide
    have hdecode : decodeOp {} (segmentModule segments) [0xFC, 0x0C, 0x80, 0x80, 0x04, 0x00, 0x0B] =
      .ok ((0xFC, .tableInit 65536 0), [0x0B]) := rfl
    refine next_of_step rfl hmax hdecode ?_
    exact stepTableInit_of_lt rfl rfl (cons_ne_nil _ _) rfl hlen helem rfl rfl
  obtain ⟨final, hend, hclosed⟩ : ∃ final, next (wideEnv segments)
      (wideState [unreachableTag, scopeTag] 1 [.unreachable, .tableInit 65536]) [0x0B] =
      .ok (.end_, final, []) ∧ final.pcStack = [] := ⟨_, rfl, rfl⟩
  exact ⟨_, _, _, bind_eq_ok.mpr ⟨_, parseCode_cons hdead (parseCode_cons hinit
    (parseCode_cons hend rfl)), bind_eq_ok.mpr ⟨(), require_ok.mpr hclosed, rfl⟩⟩,
    .tail _ (.head _)⟩

private theorem writeCodeOut_initWide (h : 65536 < segments) :
    ∃ out q x, writeCodeOut {} (segmentModule segments) [⟨[], initWide⟩] = .ok out ∧
      (q, 0) ∈ out.parsed.zip out.functionPc ∧ x ∈ q.trace ∧ x.2 = .tableInit 65536 0 := by
  obtain ⟨st, trace, final, hparse, hmem⟩ := parse_initWide h
  obtain ⟨out, hwrite, hparsed, pc, hpc⟩ : ∃ out', writeFunction {} (segmentModule segments)
      ⟨[], [], 0, 0, [], []⟩ (0, ⟨[], initWide⟩) = .ok out' ∧
      out'.parsed = [⟨wideEnv segments, trace, final⟩] ∧ ∃ pc, out'.functionPc = [pc] :=
    writeFunction_of rfl rfl rfl hparse rfl
  have hfold : foldSteps (writeFunction {} (segmentModule segments)) ⟨[], [], 0, 0, [], []⟩
      [(0, ⟨[], initWide⟩)] = .ok out := bind_eq_ok.mpr ⟨out, hwrite, rfl⟩
  refine ⟨out.relative, ⟨wideEnv segments, trace, final⟩, (st, .tableInit 65536 0),
    bind_eq_ok.mpr ⟨(), rfl, bind_eq_ok.mpr ⟨out, hfold, rfl⟩⟩, ?_, hmem, rfl⟩
  unfold CodeOut.relative
  rw [hparsed, hpc]
  change _ ∈ [_].zip [pc - pc]
  rw [Nat.sub_self]
  exact .head _

/-- With 65537 segments the last one is accepted, and segment 0 and table 1 are decoded. -/
theorem segment_index_overflows :
    ¬ ∀ (o : Options) (bodies : List FunctionBody) (out : CodeOut) (p : Interp.Program),
      Compiled o bodies out p → ∀ (q : Parsed) (pc : Nat),
      (q, pc) ∈ out.parsed.zip out.functionPc → ∀ x ∈ q.trace,
      Decodes p.module p.code (pc + slotOf x) x.2 := by
  intro h
  obtain ⟨out, q, x, hout, hq, hx, hop⟩ := writeCodeOut_initWide (Nat.lt_succ_self 65536)
  have hcompiled : Compiled {} [⟨[], initWide⟩] out (segmentProgram 65537 out) :=
    ⟨rfl, hout, rfl, rfl⟩
  have hdecodes := h {} _ out _ hcompiled q 0 hq x hx
  have hfits := ((hcompiled.placed _ hq).decodes_iff hx).mp hdecodes
  rw [hop] at hfits
  exact absurd (hfits rfl).1.1 (lt_irrefl _)

end PsiServe.Parser
