import PsiServe.Typing.Activation
import PsiServe.Typing.Body

/-!
# Programs the parser wrote

The functions of a code section one behind the other have an annotation that every opcode
respects, provided that each body does and that its buffer has a slot left for the `return`:
a full buffer is replaced by one that does not hold the code.
-/

namespace PsiServe.Typing

open Base Wasm Bitcode PsiServe.Parser Interp List

/-! ### Annotations of all functions -/

/-- Annotations of the slots of a function and of the `return` behind them. -/
def annsOf (fn : FnShape) (slots : List Slot) (cur : Ann) : List (Option (FnShape × Ann)) :=
  (slots.map Slot.ann ++ [some cur]).map (Option.map (Prod.mk fn))

/-- The annotation a list gives the positions of its entries. -/
def listAnn (anns : List (Option (FnShape × Ann))) : Annotation := fun n => (anns[n]?).join

/-- Code in which every annotated opcode respects its annotation. -/
structure Assembled (m : Module) (code : List Instr) (anns : List (Option (FnShape × Ann))) :
    Prop where
  length : anns.length = code.length
  ok : ∀ n fn a, listAnn anns n = some (fn, a) → ∃ i, code[n]? = some i ∧
    InstrOk m fn (ClauseAt code) (Goes (listAnn anns) fn) (GoesTo (listAnn anns) code fn)
      n a i

section

variable {m : Module} {fn fn' : FnShape} {slots : List Slot} {cur a : Ann} {n : Nat}
  {code new : List Instr} {anns anns' : List (Option (FnShape × Ann))}

private theorem listAnn_annsOf (fn : FnShape) (slots : List Slot) (cur : Ann) (n : Nat) :
    listAnn (annsOf fn slots cur) n = (annAt slots cur n).map (Prod.mk fn) := by
  unfold listAnn annsOf annAt
  rw [getElem?_map]
  by_cases hn : n = slots.length
  · have hmap : (slots.map Slot.ann).length = n := by rw [length_map, hn]
    rw [if_pos hn, getElem?_append_right (Nat.le_of_eq hmap), hmap, Nat.sub_self]
    rfl
  · rw [if_neg hn]
    by_cases hlt : n < slots.length
    · rw [getElem?_append_left (by rw [length_map]; exact hlt), getElem?_map,
        getElem?_eq_getElem hlt]
      rfl
    · rw [getElem?_eq_none (by rw [length_append, length_map]; simp; omega),
        getElem?_eq_none (Nat.le_of_not_lt hlt)]
      rfl

private theorem listAnn_append_left (h : listAnn anns n = some (fn, a)) :
    listAnn (anns ++ anns') n = some (fn, a) := by
  have hn : anns[n]? = some (some (fn, a)) := Option.join_eq_some_iff.mp h
  unfold listAnn
  rw [getElem?_of_isPrefix (prefix_append anns anns') hn]
  rfl

private theorem listAnn_append_right (n : Nat) :
    listAnn (anns ++ anns') (anns.length + n) = listAnn anns' n := by
  unfold listAnn
  rw [getElem?_append_right (Nat.le_add_right _ _), Nat.add_sub_cancel_left]

private theorem Goes.append_left (h : Goes (listAnn anns) fn n a) :
    Goes (listAnn (anns ++ anns')) fn n a := by
  obtain ⟨b, hb, hflow⟩ := h
  exact ⟨b, listAnn_append_left hb, hflow⟩

/-- What can be reached in a function can be reached in the program. -/
theorem Reaches.goes (h : Reaches slots cur n a) :
    Goes (listAnn (anns ++ annsOf fn slots cur)) fn (anns.length + n) a := by
  obtain ⟨b, hb, hflow⟩ := h
  refine ⟨b, ?_, hflow⟩
  rw [listAnn_append_right, listAnn_annsOf, hb]
  rfl

/-- Append a function whose branches are all resolved and the `return` behind it. -/
theorem Assembled.append {ret : Instr} (h : Assembled m code anns)
    (hcode : CodeOk m fn code.length new slots cur fun _ _ => False)
    (hret : InstrOk m fn (fun _ _ _ _ => False) (fun _ _ => False) (fun _ _ _ => False)
      slots.length cur ret) :
    Assembled m (code ++ (new ++ [ret])) (anns ++ annsOf fn slots cur) := by
  have hlen := hcode.length
  have hpre : code <+: code ++ (new ++ [ret]) := prefix_append _ _
  have hnew : ∀ k i, new[k]? = some i → (code ++ (new ++ [ret]))[anns.length + k]? = some i := by
    intro k i hi
    rw [h.length, getElem?_append_right (Nat.le_add_right _ _), Nat.add_sub_cancel_left]
    exact getElem?_of_isPrefix (prefix_append new [ret]) hi
  refine ⟨?_, fun n fn' a hann => ?_⟩
  · simp [annsOf, h.length, hlen]
  by_cases hn : n < anns.length
  · have hold : listAnn anns n = some (fn', a) := by
      unfold listAnn at hann ⊢
      rwa [getElem?_append_left hn] at hann
    obtain ⟨i, hi, hok⟩ := h.ok n fn' a hold
    refine ⟨i, getElem?_of_isPrefix hpre hi, hok.mono ?_ (fun k b => Goes.append_left) ?_⟩
    · rintro c d x l ⟨pc, hc, hc'⟩
      exact ⟨pc, getElem?_of_isPrefix hpre hc, getElem?_of_isPrefix hpre hc'⟩
    · rintro k entry b ⟨i, pc, hi, hpc, hgoes⟩
      exact ⟨i, pc, getElem?_of_isPrefix hpre hi, hpc, hgoes.append_left⟩
  · obtain ⟨k, rfl⟩ := Nat.exists_eq_add_of_le (Nat.le_of_not_lt hn)
    rw [listAnn_append_right, listAnn_annsOf] at hann
    obtain ⟨b, hb, hpair⟩ := Option.map_eq_some_iff.mp hann
    cases hpair
    by_cases hk : k = slots.length
    · subst hk
      obtain rfl := Option.some.inj ((annAt_length slots cur).symm.trans hb)
      refine ⟨ret, ?_, ?_⟩
      · rw [h.length, getElem?_append_right (Nat.le_add_right _ _), Nat.add_sub_cancel_left,
          getElem?_append_right (Nat.le_of_eq hlen), hlen, Nat.sub_self]
        rfl
      · exact hret.shift _ (fun _ _ _ _ h => h.elim) (fun _ _ h => h.elim) fun _ _ _ h => h.elim
    · rw [annAt, if_neg hk] at hb
      obtain ⟨s, hs, hsb⟩ := Option.bind_eq_some_iff.mp hb
      have hlt : k < new.length := by
        rw [hlen]
        exact (List.getElem?_eq_some_iff.mp hs).1
      have hi := getElem?_eq_getElem hlt
      refine ⟨new[k], hnew k _ hi, (hcode.ok k s _ new[k] hs hsb hi).shift _ ?_ ?_ ?_⟩
      · rintro c d x l ⟨⟨pc, hc, hc'⟩, -⟩
        exact ⟨pc, hnew _ _ hc, hnew _ _ hc'⟩
      · exact fun _ _ => Reaches.goes
      · rintro k' entry b' ⟨s', t, hs', ht, hflow⟩
        have hlt' : k' < new.length := by
          rw [hlen]
          exact (List.getElem?_eq_some_iff.mp hs').1
        have hi' := getElem?_eq_getElem hlt'
        obtain ⟨_, hpending⟩ | ⟨p, hp, hreach⟩ := hcode.targets k' entry s' t _ hs' ht hi'
        · exact hpending.elim
        · refine ⟨new[k'], _, hnew _ _ hi', hp, ?_⟩
          rw [← h.length]
          exact (hreach.flow hflow).goes

end

/-! ### One function -/

variable {chk : Bool} {o : Options}

section

variable {m : Module} {ft : FuncType} {body : FunctionBody}

/-- The parser at the start of a body. -/
theorem emits_start (chk : Bool) (e : BodyEnv) (localBytes : LocalBytes) (base size : Nat)
    (nested : Nat) :
    Emits chk base e []
        ⟨[functionScope e.ft], .initial localBytes, ⟨base, size, [], 0⟩, ⟨[], 0⟩, nested⟩ ∧
      here chk ⟨[functionScope e.ft], .initial localBytes, ⟨base, size, [], 0⟩, ⟨[], 0⟩, nested⟩ =
        entryAnn chk := by
  obtain ⟨hresults, hlabels⟩ := functionScope_types e.ft
  have hok : ElemOk (functionScope e.ft) :=
    ⟨functionScope_sound e.ft, fun _ _ => hlabels.trans hresults.symm, nofun⟩
  refine ⟨⟨⟨?_, ?_, fun _ => rfl, fun _ => ?_⟩, ⟨rfl, ?_, ?_⟩⟩, ?_⟩
  · exact forall_mem_singleton.mpr hok
  · intro el hel
    cases hel
    exact ⟨hresults, hlabels⟩
  · exact ⟨mem_singleton_self _, fun _ => (by decide : anyType ∉ [scopeTag]), rfl, rfl⟩
  · refine ⟨rfl, ?_, ?_, ?_, ?_⟩
    · intro n s a i hs
      cases hs
    · intro n s i hs
      cases hs
    · rintro b a (⟨n, sc, hsc, hb⟩ | ⟨_, hmem, -⟩)
      · cases n with
        | zero =>
          cases hsc
          cases hb
        | succ n => cases hsc
      · cases hmem
    · intro n entry s t i hs
      cases hs
  · intro n sc pos hsc hpos
    cases n with
    | zero =>
      cases hsc
      cases hpos
    | succ n => cases hsc
  · cases chk with
    | false => rfl
    | true => rfl

private theorem localTypes_valid (o : Options) (m : Module) (ft : FuncType) (body : FunctionBody) :
    ∀ t ∈ (body.env o m ft).locals, IsValueType t := by
  intro t ht
  rcases mem_append.mp ht with ht | ht
  · exact .inl (ft.params_valid t ht)
  · obtain ⟨l, -, hl⟩ := mem_flatMap.mp ht
    rw [eq_of_mem_replicate hl]
    exact l.type_valid

/-- The `return` behind a body finds the results. -/
theorem epilogue_ok {final : State} (usage : Nat) (n : Nat)
    (h : StackOk chk ft final.pcStack final.tracker) (hnil : final.pcStack = []) :
    InstrOk m (bodyShape (body.env o m ft)) (fun _ _ _ _ => False) (fun _ _ => False)
      (fun _ _ _ => False) n (here chk final) (epilogue ft body usage) := by
  rw [hnil] at h
  unfold here
  rw [hnil]
  refine ⟨rfl, fun ts hts => ?_⟩
  obtain rfl := chk_of_opsOf hts
  obtain ⟨-, rfl⟩ := opsOf_eq_some hts
  have hstate : final.tracker.state = ft.returnTypes.reverse := h.tracked rfl
  have hvalues : ∀ t ∈ ft.returnTypes.reverse, IsValue t := fun t ht =>
    isValue_of_isValueType (ft.returns_valid t (mem_reverse.mp ht))
  refine ⟨?_, ?_, ?_⟩
  · rw [kindsOf, hstate, values_of_all hvalues, map_reverse]
    rfl
  · change body.localsCount + ft.paramTypes.length =
      ((ft.paramTypes ++ localTypes body.locals).map kindOf).length
    simp [localTypes, FunctionBody.localsCount, add_comm]
  · change ft.returnCount % 2 ^ 16 = (topKinds ft.returnTypes).length
    have := ft.returns_le
    rw [length_topKinds, FuncType.returnCount_eq]
    omega

end

/-! ### All functions -/

/-- The conditions on a parsed body: those on its instructions, and that its buffer has a
slot left for the `return`. -/
def ParsedOk (chk : Bool) (p : Parsed) : Prop :=
  TraceOk chk p.env p.trace ∧ p.final.writer.opIndex < p.final.writer.size

instance (chk : Bool) (p : Parsed) : Decidable (ParsedOk chk p) :=
  inferInstanceAs (Decidable ((∀ x ∈ p.trace, _ ∧ (_ → _)) ∧ _))

/-- Bitcode of functions that has an annotation. -/
structure Linked (chk : Bool) (m : Module) (fs : List (Nat × FunctionBody)) (out : CodeOut)
    (anns : List (Option (FnShape × Ann))) : Prop where
  base : out.baseOffset = out.code.length
  start : (out.functionPc ++ [out.code.length]).headD 0 = 0
  code : Assembled m out.code anns
  pcs : out.functionPc.length = fs.length
  parsed : out.parsed.length = fs.length
  entries : ∀ (k type : Nat) (body : FunctionBody) (pc : Nat), fs[k]? = some (type, body) →
    out.functionPc[k]? = some pc → ∃ ft, m.types[type]? = some ft ∧ Goes (listAnn anns)
      ⟨(ft.paramTypes ++ localTypes body.locals).map kindOf, topKinds ft.returnTypes⟩ pc
      (entryAnn chk)
  owner : ∀ n fn a, listAnn anns n = some (fn, a) → ∃ (k : Nat) (p : Parsed) (pc : Nat),
    out.parsed[k]? = some p ∧ out.functionPc[k]? = some pc ∧ pc ≤ n ∧
      n ≤ pc + p.final.writer.opIndex ∧ fn = bodyShape p.env
  points : ∀ (k : Nat) (p : Parsed) (pc : Nat), out.parsed[k]? = some p →
    out.functionPc[k]? = some pc → ∀ x ∈ p.trace, Goes (listAnn anns) (bodyShape p.env)
      (pc + x.1.writer.opIndex) (here chk x.1)

variable {out : CodeOut}

section

variable {m : Module} {fs gs : List (Nat × FunctionBody)} {out' : CodeOut}
  {anns : List (Option (FnShape × Ann))} {f : Nat × FunctionBody}

/-- A parsed body has an annotation. -/
theorem parseFunctionBodyCode_ok {e : BodyEnv} {localBytes : LocalBytes} {base size nested : Nat}
    {bytes : List UInt8} {trace : Trace} {final : State}
    (hlocals : ∀ t ∈ e.locals, IsValueType t) (htrace : TraceOk chk e trace)
    (h : parseFunctionBodyCode e localBytes ⟨base, size, [], 0⟩ nested bytes = .ok (trace, final)) :
    ∃ slots, StackOk chk e.ft final.pcStack final.tracker ∧ final.pcStack = [] ∧
      CodeOk e.m (bodyShape e) base final.writer.code slots (here chk final) (fun _ _ => False) ∧
      Reaches slots (here chk final) 0 (entryAnn chk) ∧
      ∀ x ∈ trace, Reaches slots (here chk final) x.1.writer.opIndex (here chk x.1) := by
  obtain ⟨⟨trace', st⟩, hparse, h⟩ := bind_eq_ok.mp h
  obtain ⟨_, hnil, h⟩ := bind_eq_ok.mp h
  cases h
  have hnil := require_ok.mp hnil
  obtain ⟨hstart, hhere⟩ := emits_start chk e localBytes base size nested
  obtain ⟨slots, hemits, hext, hpoints⟩ :=
    parseCode_ok hlocals hstart nofun htrace hparse
  refine ⟨slots, hemits.stack, hnil, ?_, ?_, hpoints⟩
  · refine hemits.building.codeOk.repend (fun _ _ h => h.elim) ?_
    rintro b a ⟨n, sc, hsc, -⟩
    rw [hnil] at hsc
    cases hsc
  · rw [← hhere]
    exact (Reaches.last (.refl _)).extend hext

/-- The last entry of a list that was appended to. -/
theorem getElem?_concat {α : Type} {xs : List α} {x y : α} {k : Nat}
    (h : (xs ++ [x])[k]? = some y) : xs[k]? = some y ∨ k = xs.length ∧ y = x := by
  by_cases hk : k < xs.length
  · rw [getElem?_append_left hk] at h
    exact .inl h
  · rw [getElem?_append_right (Nat.le_of_not_lt hk), getElem?_singleton] at h
    split at h
    next hzero =>
      cases h
      exact .inr ⟨by omega, rfl⟩
    · cases h

/-- Write one more function. -/
theorem Linked.append (h : Linked chk m fs out anns) (hwrite : writeFunction o m out f = .ok out')
    (hok : ∀ p ∈ out'.parsed, ParsedOk chk p) : ∃ anns', Linked chk m (fs ++ [f]) out' anns' := by
  obtain ⟨ft, p, usage, hft, henv, ⟨localBytes, hparse⟩, hcode, hpcs, hbase, hparsed⟩ :=
    writeFunction_ok hwrite
  obtain ⟨htrace, hroom⟩ := hok p (by rw [hparsed]; simp)
  obtain ⟨slots, hstack, hnil, hbody, hentry, hpoints⟩ :=
    parseFunctionBodyCode_ok (henv ▸ localTypes_valid o m ft f.2) htrace hparse
  rw [finalize, if_pos hroom] at hcode hpcs
  have hpcs : out'.functionPc = out.functionPc ++ [out.code.length] := hpcs
  have hft' : p.env.ft = ft := by
    rw [henv]
    rfl
  rw [hft'] at hstack
  have hm : p.env.m = m := by
    rw [henv]
    rfl
  rw [hm, h.base] at hbody
  have hret : InstrOk m (bodyShape p.env) (fun _ _ _ _ => False) (fun _ _ => False)
      (fun _ _ _ => False) slots.length (here chk p.final) (epilogue ft f.2 usage) := by
    rw [henv]
    exact epilogue_ok usage slots.length hstack hnil
  have hall := h.code.append hbody hret
  rw [← hcode] at hall
  refine ⟨_, ?_, ?_, hall, ?_, ?_, ?_, ?_, ?_⟩
  · rw [hbase, h.base, hcode, length_append, length_append]
    rfl
  · rw [hpcs]
    have hstart := h.start
    cases hnone : out.functionPc with
    | nil =>
      rw [hnone] at hstart
      exact hstart
    | cons pc pcs =>
      rw [hnone] at hstart
      exact hstart
  · rw [hpcs, length_append, length_append, h.pcs]
    rfl
  · rw [hparsed, length_append, length_append, h.parsed]
    rfl
  · intro k type body pc hk hpc
    rw [hpcs] at hpc
    rcases getElem?_concat hk with hk | ⟨rfl, rfl⟩
    · have hlt := (List.getElem?_eq_some_iff.mp hk).1
      rw [getElem?_append_left (by rw [h.pcs]; exact hlt)] at hpc
      obtain ⟨ft', hft', hgoes⟩ := h.entries k type body pc hk hpc
      exact ⟨ft', hft', hgoes.append_left⟩
    · rw [← h.pcs, getElem?_concat_length] at hpc
      cases hpc
      refine ⟨ft, hft, ?_⟩
      have hgoes : Goes (listAnn (anns ++ annsOf (bodyShape p.env) slots (here chk p.final)))
          (bodyShape p.env) (anns.length + 0) (entryAnn chk) := hentry.goes
      have hshape : bodyShape p.env =
          ⟨(ft.paramTypes ++ localTypes body.locals).map kindOf, topKinds ft.returnTypes⟩ := by
        rw [henv]
        rfl
      rw [← hshape, ← h.code.length]
      exact hgoes
  · intro n fn a hann
    by_cases hn : n < anns.length
    · have hold : listAnn anns n = some (fn, a) := by
        unfold listAnn at hann ⊢
        rwa [getElem?_append_left hn] at hann
      obtain ⟨k, q, pc, hq, hpc, hrest⟩ := h.owner n fn a hold
      refine ⟨k, q, pc, ?_, ?_, hrest⟩
      · rw [hparsed]
        exact getElem?_of_isPrefix (prefix_append _ _) hq
      · rw [hpcs]
        exact getElem?_of_isPrefix (prefix_append _ _) hpc
    · obtain ⟨j, rfl⟩ := Nat.exists_eq_add_of_le (Nat.le_of_not_lt hn)
      rw [listAnn_append_right, listAnn_annsOf] at hann
      obtain ⟨b, hb, hpair⟩ := Option.map_eq_some_iff.mp hann
      cases hpair
      have hj : j ≤ p.final.writer.opIndex := by
        have hreach : Reaches slots (here chk p.final) j a := ⟨a, hb, .refl a⟩
        have hlen : p.final.writer.opIndex = slots.length := hbody.length
        rw [hlen]
        exact hreach.le
      refine ⟨fs.length, p, out.code.length, ?_, ?_, ?_, ?_, rfl⟩
      · rw [hparsed, ← h.parsed, getElem?_concat_length]
      · rw [hpcs, ← h.pcs, getElem?_concat_length]
      · rw [h.code.length]
        exact Nat.le_add_right _ _
      · rw [h.code.length]
        exact Nat.add_le_add_left hj _
  · intro k q pc hk hpc
    rw [hpcs] at hpc
    rw [hparsed] at hk
    rcases getElem?_concat hk with hk | ⟨rfl, rfl⟩
    · have hlt := (List.getElem?_eq_some_iff.mp hk).1
      rw [getElem?_append_left (by rw [h.pcs, ← h.parsed]; exact hlt)] at hpc
      intro x hx
      exact (h.points k q pc hk hpc x hx).append_left
    · rw [h.parsed, ← h.pcs, getElem?_concat_length] at hpc
      cases hpc
      intro x hx
      rw [← h.code.length]
      exact (hpoints x hx).goes

private theorem writeFunction_parsed (h : writeFunction o m out f = .ok out') :
    out.parsed <+: out'.parsed := by
  obtain ⟨_, p, _, _, _, _, _, _, _, hparsed⟩ := writeFunction_ok h
  rw [hparsed]
  exact prefix_append _ _

private theorem foldSteps_parsed (h : foldSteps (writeFunction o m) out gs = .ok out') :
    out.parsed <+: out'.parsed := by
  induction gs generalizing out with
  | nil =>
    cases h
    exact prefix_rfl
  | cons g gs ih =>
    obtain ⟨mid, hmid, h⟩ := bind_eq_ok.mp h
    exact (writeFunction_parsed hmid).trans (ih h)

/-- Write several functions. -/
theorem Linked.appendAll (h : Linked chk m fs out anns)
    (hwrite : foldSteps (writeFunction o m) out gs = .ok out')
    (hok : ∀ p ∈ out'.parsed, ParsedOk chk p) : ∃ anns', Linked chk m (fs ++ gs) out' anns' := by
  induction gs generalizing out fs anns with
  | nil =>
    cases hwrite
    exact ⟨anns, by rw [append_nil]; exact h⟩
  | cons g gs ih =>
    obtain ⟨mid, hmid, hwrite⟩ := bind_eq_ok.mp hwrite
    have hpre := foldSteps_parsed hwrite
    obtain ⟨anns₁, hlinked⟩ := h.append hmid fun p hp => hok p (hpre.subset hp)
    obtain ⟨anns', hall⟩ := ih hlinked hwrite
    refine ⟨anns', ?_⟩
    rw [append_assoc] at hall
    exact hall

private theorem linked_nil (chk : Bool) (m : Module) : Linked chk m [] ⟨[], [], 0, 0, [], []⟩
    [] := by
  refine ⟨rfl, rfl, ⟨rfl, nofun⟩, rfl, rfl, ?_, ?_, ?_⟩
  · intro k type body pc h
    cases h
  · intro n fn a h
    cases h
  · intro k p pc h
    cases h

private theorem Linked.relative (h : Linked chk m fs out anns) : out.relative = out := by
  have hstart : out.functionPc.headD 0 = 0 := by
    have := h.start
    cases hpcs : out.functionPc with
    | nil => rfl
    | cons pc pcs =>
      rw [hpcs] at this
      exact this
  unfold CodeOut.relative
  rw [hstart]
  simp

end

/-! ### Programs -/

/-- A program the parser wrote has an annotation: every annotated position belongs to a
function, and that of each instruction is annotated as the parser's state in front of it
says. -/
theorem compiled_typed {bodies : List FunctionBody} {p : Program} (h : Compiled o bodies out p)
    (hok : ∀ q ∈ out.parsed, ParsedOk chk q) :
    ∃ T : TypedProgram, T.toProgram = p ∧ T.chk = chk ∧
      (∀ n fn a, T.ann n = some (fn, a) → ∃ (k : Nat) (q : Parsed) (pc : Nat),
        out.parsed[k]? = some q ∧ out.functionPc[k]? = some pc ∧ pc ≤ n ∧
          n ≤ pc + q.final.writer.opIndex ∧ fn = bodyShape q.env) ∧
      ∀ (k : Nat) (q : Parsed) (pc : Nat), out.parsed[k]? = some q →
        out.functionPc[k]? = some pc → ∀ x ∈ q.trace,
        Goes T.ann (bodyShape q.env) (pc + x.1.writer.opIndex) (here chk x.1) := by
  obtain ⟨_, hlen, hwritten⟩ := bind_eq_ok.mp h.written
  obtain ⟨out₁, hfold, hret⟩ := bind_eq_ok.mp hwritten
  have hlen := require_ok.mp hlen
  have hrelative : out = out₁.relative := (Except.ok.inj hret).symm
  have hok₁ : ∀ q ∈ out₁.parsed, ParsedOk chk q := by
    rw [hrelative] at hok
    exact hok
  obtain ⟨anns, hlinked⟩ := (linked_nil chk p.module).appendAll hfold hok₁
  rw [hlinked.relative] at hrelative
  subst hrelative
  refine ⟨⟨p, chk, listAnn anns, ?_, ?_⟩, rfl, rfl, hlinked.owner, hlinked.points⟩
  · intro n fn a hann
    rw [h.code]
    exact hlinked.code.ok n fn a hann
  · intro f ft n hf hft hentry
    set k := f - p.module.importedFunctionsSize with hk
    have hpc : out.functionPc[k]? = some n := by
      unfold functionEntry at hentry
      rw [h.functionPc] at hentry
      split at hentry
      · cases hentry
      next pc hpc =>
        cases hentry
        exact hpc
    rw [Module.getFunctionType, if_neg (not_lt.mpr hf)] at hft
    cases htype : p.module.functions[k]? with
    | none =>
      rw [htype] at hft
      cases hft
    | some type =>
      rw [htype] at hft
      have hlt := (List.getElem?_eq_some_iff.mp htype).1
      rw [← hlen] at hlt
      have hbody := getElem?_eq_getElem hlt
      have hzip : (p.module.functions.zip bodies)[k]? = some (type, bodies[k]) :=
        getElem?_zip_eq_some.mpr ⟨htype, hbody⟩
      obtain ⟨ft', hft', hgoes⟩ := hlinked.entries k type _ n hzip hpc
      obtain rfl := Option.some.inj (hft'.symm.trans hft)
      have hlocals : p.locals[k]? = some bodies[k].locals := by
        rw [h.locals, getElem?_map, hbody]
        rfl
      rw [shape, ← hk, hlocals]
      exact hgoes

end PsiServe.Typing
