import PsiServe.Typing.Exception

/-!
# Steps of annotated code

A step from a state whose stacks fit the annotation of its position leads to a state whose
stacks fit the annotation of the next one. Proved over the steps on the stacks
(`PsiServe.Interp.StackStep`).
-/

namespace PsiServe.Typing

open Wasm Bitcode Interp List Control

namespace TypedProgram

variable {T : TypedProgram} {out k d : Control} {n : Nat} {fn : FnShape} {a b c : Ann} {i : Instr}
  {o : Outcome Control} {os' os rest : List Value} {base count f : Nat} {v : Value} {x : Kind}
  {results : List Kind} {af : ActivationFrame} {p : Program}

variable (T)

/-- An instruction of the program respects the annotations. -/
abbrev InstrAt (fn : FnShape) (n : Nat) (a : Ann) (i : Instr) : Prop :=
  InstrOk T.module fn (ClauseAt T.code) (Goes T.ann fn) (GoesTo T.ann T.code fn) n a i

/-- An instruction of the program is followed by the next one. -/
abbrev StraightAt (fn : FnShape) (n : Nat) (a : Ann) (i : Instr) : Prop :=
  Straight T.module fn (Goes T.ann fn) n a i

/-- A state at a position whose stacks fit an annotation. -/
structure At (out k : Control) (n : Nat) (fn : FnShape) (a : Ann) : Prop where
  pc : k.pc = .code n
  stackOk : T.Over out k
  acts : ∃ os, (T.chk = true → k.os = os) ∧
    T.Acts out fn a k.as k.lastOpIndex os k.ehStack k.ehCatches

variable {T}

/-- The stacks of a state split into those of its activation and those below. -/
theorem At.split (h : T.At out k n fn a) : ∃ os' eh' catches',
    T.Window fn a k.lastOpIndex k.os os' ∧
    T.EhSeg fn k.as.length k.lastOpIndex eh' catches' a.tries k.ehStack k.ehCatches ∧
    T.Below out fn.results k.as os' eh' catches' := by
  obtain ⟨os, hos, os', eh', catches', hwindow, heh, hbelow⟩ := h.acts
  refine ⟨os', eh', catches', fun hchk => ?_, heh, hbelow⟩
  rw [hos hchk]
  exact hwindow hchk

/-- Outside of all scopes, the EH and clause stacks are those below the activation. -/
theorem At.split_nil (h : T.At out k n fn a) (htries : a.tries = []) : ∃ os',
    T.Window fn a k.lastOpIndex k.os os' ∧
    T.Below out fn.results k.as os' k.ehStack k.ehCatches := by
  obtain ⟨os', eh', catches', hw, heh, hbelow⟩ := h.split
  rw [htries] at heh
  generalize k.ehStack = eh, k.ehCatches = catches at heh ⊢
  cases heh
  exact ⟨os', hw, hbelow⟩

/-- Where operands are checked, the annotation lists them. -/
theorem At.ops (h : T.At out k n fn a) (hchk : T.chk = true) : ∃ ts, a.ops = some ts := by
  obtain ⟨os', eh', catches', hw, -, -⟩ := h.split
  obtain ⟨ops, locals, -, ha, -⟩ := hw hchk
  exact ⟨_, ha⟩

/-- Dropping operands of the activation leaves those the execution started with. -/
theorem At.drop (h : T.At out k n fn a)
    (hops : T.chk = true → ∃ ts, a.ops = some ts ∧ count ≤ ts.length) :
    T.Over out { k with os := k.os.drop count } := by
  refine h.stackOk.of_os fun hchk => ?_
  obtain ⟨os', eh', catches', hw, -, hbelow⟩ := h.split
  obtain ⟨ops, locals, hos, ha, -⟩ := hw hchk
  obtain ⟨ts, hts, hle⟩ := hops hchk
  obtain rfl := Option.mem_unique ha hts
  rw [length_kinds] at hle
  rw [hos, append_assoc, drop_append_of_le_length hle]
  exact (hbelow.suffix.2.2.1 hchk).trans
    ((suffix_append locals os').trans (suffix_append (ops.drop count) _))

/-! ### Locals -/

private theorem local_index (ops locals os' : List Value) {i : Nat} (hi : i < locals.length) :
    (ops ++ locals ++ os').length - 1 - (os'.length + i) =
      ops.length + (locals.length - 1 - i) := by
  simp only [length_append]
  omega

private theorem local_kind {locals : List Value} {slots : List Kind} {i : Nat}
    (h : kinds locals = slots.reverse) (hi : slots[i]? = some x) :
    i < locals.length ∧ (kinds locals)[locals.length - 1 - i]? = some x := by
  have hlen : locals.length = slots.length := by
    rw [← length_kinds, h, length_reverse]
  obtain ⟨hlt, -⟩ := List.getElem?_eq_some_iff.mp hi
  refine ⟨hlen ▸ hlt, ?_⟩
  rw [h, hlen, getElem?_reverse (by omega), ← hi]
  congr 1
  omega

/-- Reading a local gives a value of its alternative. -/
theorem Window.getOperand {i : Nat} (h : T.Window fn a k.lastOpIndex k.os os')
    (hchk : T.chk = true)
    (hi : fn.slots[i]? = some x) (hv : k.getOperand i = some v) : v.kind = x := by
  obtain ⟨ops, locals, hos, -, hlocals, hbase⟩ := h hchk
  obtain ⟨hlt, hkind⟩ := local_kind hlocals hi
  unfold Control.getOperand Control.operandAt at hv
  split at hv
  · rw [hos, hbase, local_index ops locals os' hlt, append_assoc,
      getElem?_append_right (Nat.le_add_right _ _), Nat.add_sub_cancel_left,
      getElem?_append_left (by omega)] at hv
    rw [kinds, getElem?_map, hv] at hkind
    exact Option.some.inj hkind
  · cases hv

/-- Writing a value of the local's alternative keeps the window. -/
theorem Window.setOperand {i : Nat} (h : T.Window fn a k.lastOpIndex k.os os')
    (hv : T.chk = true → fn.slots[i]? = some v.kind) (hd : k.setOperand i v = some d) :
    T.Window fn a k.lastOpIndex d.os os' := by
  intro hchk
  obtain ⟨ops, locals, hos, hops, hlocals, hbase⟩ := h hchk
  obtain ⟨hlt, hkind⟩ := local_kind hlocals (hv hchk)
  unfold Control.setOperand at hd
  split at hd
  · cases hd
    refine ⟨ops, locals.set (locals.length - 1 - i) v, ?_, hops, ?_, hbase⟩
    · rw [hos, hbase, local_index ops locals os' hlt, append_assoc,
        set_append_right _ _ (Nat.le_add_right _ _), Nat.add_sub_cancel_left,
        set_append_left _ _ (by omega), append_assoc]
    · rw [← hlocals, kinds, map_set]
      apply ext_getElem?
      intro j
      rw [getElem?_set]
      split
      next heq =>
        subst heq
        rw [if_pos (by rw [length_map]; omega)]
        exact hkind.symm
      · rfl
  · cases hd

private theorem StepOk.withPop {f : Value → Control → Outcome Control} (hover : T.Over out k)
    (hf : ∀ v rest, k.os = v :: rest → T.StepOk out (f v { k with os := rest })) :
    T.StepOk out (k.withPop f) := by
  unfold Control.withPop
  split
  · exact hover
  next v rest hos => exact hf v rest hos

/-- The clauses read from the code are those the annotation was checked for. -/
theorem readClauses_ok {kept : List Kind} {clauses : Nat} {first : Nat}
    {entries : List EhCatchEntry} (hw : T.Window fn a k.lastOpIndex k.os os')
    (hclauses : ∀ j < clauses,
      ClauseOk T.module (ClauseAt T.code) (GoesTo T.ann T.code fn) a kept (first + 2 * j))
    (h : readClauses T.code k.os.length first clauses = some entries) :
    entries.length = clauses ∧ ∀ e ∈ entries, T.HandlerOk fn k.lastOpIndex kept a.tries e := by
  induction clauses generalizing first entries with
  | zero =>
    cases h
    exact ⟨rfl, nofun⟩
  | succ clauses ih =>
    unfold readClauses at h
    split at h
    next data depthChange leaves pc hc hc' =>
      split at h
      · cases h
      next rest hrest =>
        cases h
        obtain ⟨hlen, hall⟩ := ih (fun j hj => by
          have := hclauses (j + 1) (Nat.succ_lt_succ hj)
          rwa [show first + 2 * (j + 1) = first + 2 + 2 * j by omega] at this) hrest
        refine ⟨congrArg Nat.succ hlen, fun e he => ?_⟩
        rcases mem_cons.mp he with rfl | he
        · obtain ⟨data', x, leaves', b, ⟨pc', hd, hl⟩, htarget, hle, htries, hops⟩ :=
            hclauses 0 (Nat.succ_pos _)
          obtain ⟨rfl, rfl⟩ := Instr.tryTable.inj (Option.mem_unique hc hd)
          obtain ⟨rfl, rfl⟩ := Instr.tryTable.inj (Option.some.inj (hc'.symm.trans hl))
          refine ⟨hle, b, GoesTo.goes htarget hc' rfl, htries, fun hchk => ?_⟩
          obtain ⟨ops, locals, hos, ha, hlocals, hbase⟩ := hw hchk
          obtain ⟨payload, hpushes, hchange, hkept, hb⟩ := hops _ ha
          refine ⟨payload, _, hpushes, hb, hkept, ?_⟩
          have hslots : locals.length = fn.slots.length := by
            rw [← length_kinds, hlocals, length_reverse]
          rw [length_kinds] at hchange
          rw [hos, length_drop, length_kinds]
          simp only [length_append]
          rw [if_pos (by omega)]
          omega
        · exact hall e he
    · cases h

section

variable (h : T.Window fn a base os os')

include h

/-- Operands that are taken are there, in the right alternatives. -/
theorem Window.takes {takes rest : List Kind} (hchk : T.chk = true)
    (hops : a.ops = some (takes ++ rest)) :
    ∃ us vs locals, os = us ++ (vs ++ locals ++ os') ∧ kinds us = takes ∧ kinds vs = rest ∧
      kinds locals = fn.slots.reverse ∧ base = os'.length := by
  obtain ⟨ops, locals, rfl, hops', hlocals, hbase⟩ := h hchk
  obtain ⟨us, vs, rfl, hus, hvs⟩ := kinds_eq_append (Option.some.inj (hops'.symm.trans hops))
  refine ⟨us, vs, locals, ?_, hus, hvs, hlocals, hbase⟩
  simp only [append_assoc]

/-- The three topmost operands. -/
theorem Window.takes_three {x y z : Kind} {ts : List Kind} {u v w : Value}
    (hos : os = u :: v :: w :: rest) (hchk : T.chk = true) (ha : a.ops = some ([x, y, z] ++ ts)) :
    v.kind = y ∧ w.kind = z ∧ ∃ vs locals, rest = vs ++ locals ++ os' ∧ kinds vs = ts ∧
      kinds locals = fn.slots.reverse ∧ base = os'.length := by
  obtain ⟨us, vs, locals, hcat, hus, hvs, hlocals, hbase⟩ := h.takes hchk ha
  obtain ⟨u₁, us, rfl, -, hus⟩ := kinds_eq_cons hus
  obtain ⟨u₂, us, rfl, hu₂, hus⟩ := kinds_eq_cons hus
  obtain ⟨u₃, us, rfl, hu₃, hus⟩ := kinds_eq_cons hus
  obtain rfl : us = [] := map_eq_nil_iff.mp hus
  rw [hos] at hcat
  obtain ⟨-, rfl, rfl, hrest⟩ : u = u₁ ∧ v = u₂ ∧ w = u₃ ∧ rest = vs ++ locals ++ os' := by
    simpa only [cons_append, nil_append, cons.injEq] using hcat
  exact ⟨hu₂, hu₃, vs, locals, hrest, hvs, hlocals, hbase⟩

/-- Operands are replaced by results. -/
theorem Window.exchange {results : List Value}
    (hops : T.chk = true → ∃ takes rest, a.ops = some (takes ++ rest) ∧ takes.length = count ∧
      b.ops = some (kinds results ++ rest)) :
    T.Window fn b base (results ++ os.drop count) os' := by
  intro hchk
  obtain ⟨takes, rest, ha, rfl, hb⟩ := hops hchk
  obtain ⟨us, vs, locals, rfl, hus, rfl, hlocals, hbase⟩ := h.takes hchk ha
  refine ⟨results ++ vs, locals, ?_, ?_, hlocals, hbase⟩
  · rw [drop_left' (by rw [← hus, length_kinds])]
    simp only [append_assoc]
  · rw [kinds_append, hb]

/-- The topmost operand has the alternative of the annotation. -/
theorem Window.top {ts : List Kind} (hos : os = v :: rest) (hchk : T.chk = true)
    (ha : a.ops = some (x :: ts)) : v.kind = x := by
  obtain ⟨us, vs, locals, hcat, hus, -⟩ := h.takes hchk (show a.ops = some ([x] ++ ts) from ha)
  obtain ⟨u, us, rfl, hu, -⟩ := kinds_eq_cons hus
  rw [hos] at hcat
  rw [(cons.inj hcat).1, hu]

omit h in
private theorem Window.pop (h : T.Window fn a base (v :: os) os') (hpops : Pops a [x] b) :
    T.Window fn b base os os' ∧ (T.chk = true → v.kind = x) := by
  have hops : T.chk = true → ∃ rest, a.ops = some (x :: rest) ∧ b.ops = some rest := by
    intro hchk
    obtain ⟨ops, -, -, hops, -⟩ := h hchk
    obtain ⟨ts, hts, hb⟩ := hpops.2 _ hops
    exact ⟨ts, hops.trans (congrArg some hts), hb⟩
  constructor
  · change T.Window fn b base ([] ++ (v :: os).drop 1) os'
    apply h.exchange
    intro hchk
    obtain ⟨rest, ha, hb⟩ := hops hchk
    exact ⟨[x], rest, ha, rfl, hb⟩
  · intro hchk
    obtain ⟨rest, ha, -⟩ := hops hchk
    exact h.top rfl hchk ha

omit h in
/-- The state after popping one operand. -/
theorem At.pop (h : T.At out k n fn a) (hpops : Pops a [x] b) (hos : k.os = v :: rest) :
    T.At out { k with os := rest } n fn b ∧ (T.chk = true → v.kind = x) := by
  obtain ⟨os', eh', catches', hw, heh, hbelow⟩ := h.split
  rw [hos] at hw
  rw [← hpops.1] at heh
  have hacts : T.Acts out fn b k.as k.lastOpIndex rest k.ehStack k.ehCatches :=
    ⟨os', eh', catches', (hw.pop hpops).1, heh, hbelow⟩
  refine ⟨⟨h.pc, ?_, rest, fun _ => rfl, hacts⟩, (hw.pop hpops).2⟩
  exact h.stackOk.of_acts (d := { k with os := rest }) (fun _ => rfl) hacts rfl

/-- What a straight instruction does to the operands, where they are checked. -/
theorem Window.moves
    (hops : ∀ ts, a.ops = some ts → ∃ takes gives rest, Moves T.module fn i takes gives ∧
      ts = takes ++ rest ∧ Guarded a.tries rest ∧ b.ops = some (gives ++ rest))
    (hchk : T.chk = true) : ∃ takes gives rest, Moves T.module fn i takes gives ∧
      a.ops = some (takes ++ rest) ∧ Guarded a.tries rest ∧ b.ops = some (gives ++ rest) := by
  obtain ⟨ops, locals, -, ha, -⟩ := h hchk
  obtain ⟨takes, gives, rest, hmoves, hts, hguarded, hb⟩ := hops _ ha
  exact ⟨takes, gives, rest, hmoves, ha.trans (congrArg some hts), hguarded, hb⟩

omit h in
/-- A local is set to the topmost operand, which is popped. -/
theorem Window.popLocal {i : Nat} {pc : Pc} (hw : T.Window fn a k.lastOpIndex k.os os')
    (hos : k.os = v :: rest)
    (hops : T.chk = true → ∃ x ts, fn.slots[i]? = some x ∧ a.ops = some (x :: ts) ∧ b.ops = some ts)
    (hd : Control.setOperand { k with os := rest, pc := pc } i v = some d) :
    T.Window fn b k.lastOpIndex d.os os' := by
  have hpopped : T.Window fn b k.lastOpIndex ([] ++ k.os.drop 1) os' := by
    refine hw.exchange fun hchk => ?_
    obtain ⟨x, ts, -, ha, hb⟩ := hops hchk
    exact ⟨[x], ts, ha, rfl, hb⟩
  rw [hos] at hpopped
  refine Window.setOperand (k := { k with os := rest, pc := pc }) hpopped (fun hchk => ?_) hd
  obtain ⟨x, ts, hi, ha, -⟩ := hops hchk
  rw [hi, hw.top hos hchk ha]

/-- The operands of a call without its arguments. -/
theorem Window.dropArgs {ts : List ValueType}
    (hops : T.chk = true → ∃ rest, a.ops = some (topKinds ts ++ rest)) :
    T.Window fn ⟨a.tries, a.ops.map (drop ts.length)⟩ base (os.drop ts.length) os' := by
  rw [← nil_append (os.drop _)]
  refine h.exchange fun hchk => ?_
  obtain ⟨rest, ha⟩ := hops hchk
  refine ⟨_, rest, ha, length_topKinds _, ?_⟩
  rw [ha, Option.map_some, drop_left' (length_topKinds _)]
  rfl

end

/-- The activation below continues with the results. -/
theorem Below.resume {rest : List ActivationFrame} (hout : Depths out) (hover : T.Over out k)
    (h : T.Below out results (af :: rest) os' d.ehStack d.ehCatches) (has : d.as = rest)
    (hpc : ∀ n, d.pc = .code n → af.pc = .code n) (hbase : d.lastOpIndex = af.lastOpIndex)
    (hos : T.chk = true → ∃ vs, kinds vs = results ∧ d.os = vs ++ os')
    (hsame : bounds d = bounds k) : T.RunOk out d := by
  generalize hall : af :: rest = all, heh : d.ehStack = eh, hcatches : d.ehCatches = catches at h
  cases h with
  | entry hhalt =>
    obtain ⟨rfl, rfl⟩ := cons.inj hall
    refine ⟨?_, ?_, ?_⟩
    · refine hover.of_eq (has ▸ suffix_rfl) (heh ▸ suffix_rfl)
        (hcatches ▸ prefix_rfl) (fun hchk => ?_) hsame
      obtain ⟨vs, -, hvs⟩ := hos hchk
      exact hvs ▸ suffix_append _ _
    · intro fr hfr
      rw [heh] at hfr
      rw [has]
      exact hout fr hfr
    · intro n hn
      rw [hpc n hn] at hhalt
      cases hhalt
  | @caller _ _ _ _ os'' _ eh' _ catches' fn a b n hcode hann hresumes hwindow hseg hbelow =>
    obtain ⟨rfl, rfl⟩ := cons.inj hall
    have hwindow' : T.Window fn b d.lastOpIndex d.os os'' := by
      intro hchk
      obtain ⟨vs, hvs, hcat⟩ := hos hchk
      obtain ⟨ts, ha, -, hb⟩ := hresumes.2 hchk
      obtain ⟨ops, locals, rfl, hops, hlocals, hlen⟩ := hwindow hchk
      obtain rfl := Option.mem_unique ha hops
      refine ⟨vs ++ ops, locals, ?_, ?_, hlocals, hbase.trans hlen⟩
      · rw [hcat]
        simp only [append_assoc]
      · rw [kinds_append, hvs, hb]
    have hacts : T.Acts out fn b d.as d.lastOpIndex d.os d.ehStack d.ehCatches := by
      refine ⟨os'', eh', catches', hwindow', ?_, has ▸ hbelow⟩
      rw [has, hbase, heh, hcatches, hresumes.1]
      exact hseg
    refine .of_acts hout hover (fun n' hn' => ?_) (fun _ => rfl) hacts hsame
    obtain rfl := Pc.code.inj (hcode.symm.trans (hpc n' hn'))
    exact ⟨b, hann, .refl b⟩

private theorem kinds_setupLocals (p : Program) (f : Nat) : kinds (setupLocals p f) = ((localTypes
      ((p.locals[f - p.module.importedFunctionsSize]?).getD [])).map kindOf).reverse := by
  unfold setupLocals
  split
  next hnone =>
    rw [hnone]
    rfl
  next locals hsome =>
    rw [hsome, kinds, map_reverse, map_map, Option.getD_some]
    congr 2
    funext t
    exact kind_localInit t

/-- The locals and arguments of a function that is entered are its slots. -/
theorem kinds_entered {ft : FuncType} {args : List Value}
    (h : kinds args = topKinds ft.paramTypes) :
    kinds (setupLocals p f ++ args) = (shape p f ft).slots.reverse := by
  rw [kinds_append, kinds_setupLocals, h, shape, topKinds]
  simp only [map_append, reverse_append]

variable (T)

/-- A call at `a` of a function that continues at `b`. -/
def CallOk (f : Nat) (a b : Ann) : Prop :=
  b.tries = a.tries ∧ (T.chk = true → ∃ ft rest, T.module.getFunctionType f = some ft ∧
    a.ops = some (topKinds ft.paramTypes ++ rest) ∧ Guarded a.tries rest ∧
    b.ops = some (topKinds ft.returnTypes ++ rest))

/-- A tail call at `a` of a function that returns the results of its caller. -/
def TailCallOk (fn : FnShape) (f : Nat) (a : Ann) : Prop :=
  a.tries = [] ∧ (T.chk = true → ∃ ft rest, T.module.getFunctionType f = some ft ∧
    a.ops = some (topKinds ft.paramTypes ++ rest) ∧ topKinds ft.returnTypes = fn.results)

variable {T}

private theorem CallOk.of_type {ft : FuncType} (h : T.CallOk f a b) (hchk : T.chk = true)
    (hft : T.module.getFunctionType f = some ft) :
    ∃ rest, a.ops = some (topKinds ft.paramTypes ++ rest) ∧ Guarded a.tries rest ∧
      b.ops = some (topKinds ft.returnTypes ++ rest) := by
  obtain ⟨ft', rest, hft', hrest⟩ := h.2 hchk
  obtain rfl := Option.some.inj (hft.symm.trans hft')
  exact ⟨rest, hrest⟩

private theorem TailCallOk.of_type {ft : FuncType} (h : T.TailCallOk fn f a) (hchk : T.chk = true)
    (hft : T.module.getFunctionType f = some ft) :
    ∃ rest, a.ops = some (topKinds ft.paramTypes ++ rest) ∧
      topKinds ft.returnTypes = fn.results := by
  obtain ⟨ft', rest, hft', hrest⟩ := h.2 hchk
  obtain rfl := Option.some.inj (hft.symm.trans hft')
  exact ⟨rest, hrest⟩

/-- The state in which a call starts. -/
theorem At.call (h : T.At out k n fn a) (hok : T.StraightAt fn n a i)
    (hcalls : Calls T.toProgram k false i f d) :
    ∃ a' b, T.At out d n fn a' ∧ Goes T.ann fn (n + 1) b ∧ T.CallOk f a' b := by
  obtain ⟨b, htries, hgoes, hops⟩ := hok
  obtain ⟨os', eh', catches', hw, -, -⟩ := h.split
  cases hcalls with
  | call =>
    refine ⟨a, b, h, hgoes, htries, fun hchk => ?_⟩
    obtain ⟨takes, gives, rest, hmoves, ha, hguarded, hb⟩ := hw.moves hops hchk
    cases hmoves with
    | call hft => exact ⟨_, rest, hft, ha, hguarded, hb⟩
    | plain h | bulk h => cases h
  | @callIndirect _ slot rest _ ft hos hexpected hactual =>
    have hpops : Pops a [.i32] ⟨a.tries, a.ops.map tail⟩ := by
      refine ⟨rfl, fun ts hts => ?_⟩
      obtain ⟨takes, gives, rest, hmoves, rfl, -⟩ := hops ts hts
      cases hmoves with
      | callIndirect => exact ⟨_, rfl, by rw [hts]; rfl⟩
      | plain h | bulk h => cases h
    refine ⟨_, b, (h.pop hpops hos).1, hgoes, htries, fun hchk => ?_⟩
    obtain ⟨takes, gives, rest, hmoves, ha, hguarded, hb⟩ := hw.moves hops hchk
    cases hmoves with
    | callIndirect hft =>
      obtain rfl := Option.mem_unique hexpected hft
      exact ⟨ft, rest, hactual, by rw [ha]; rfl, hguarded, hb⟩
    | plain h | bulk h => cases h

/-- The frame of the caller may be replaced by one that returns the same results to the
same place. -/
theorem Below.replace {results' : List Kind} {bf : ActivationFrame}
    {rest : List ActivationFrame} {eh' : List EhFrame} {catches' : List EhCatchEntry}
    (h : T.Below out results (af :: rest) os' eh' catches') (hpc : bf.pc = af.pc)
    (hbase : bf.lastOpIndex = af.lastOpIndex) (hresults : T.chk = true → results' = results) :
    T.Below out results' (bf :: rest) os' eh' catches' := by
  generalize hall : af :: rest = all at h
  cases h with
  | entry hhalt =>
    obtain ⟨rfl, rfl⟩ := cons.inj hall
    exact .entry (hpc.trans hhalt)
  | caller hcode hann hresumes hwindow hseg hbelow =>
    obtain ⟨rfl, rfl⟩ := cons.inj hall
    refine .caller (hpc.trans hcode) hann ⟨hresumes.1, fun hchk => ?_⟩ (hbase ▸ hwindow)
      (hbase ▸ hseg) hbelow
    rw [hresults hchk]
    exact hresumes.2 hchk

/-- The state in which a tail call starts. -/
theorem At.tailCall (h : T.At out k n fn a)
    (hok : T.InstrAt fn n a i)
    (hcalls : Calls T.toProgram k true i f d) :
    ∃ a', T.At out d n fn a' ∧ T.TailCallOk fn f a' := by
  obtain ⟨os', eh', catches', hw, -, -⟩ := h.split
  cases hcalls with
  | tailCall =>
    refine ⟨a, h, hok.1, fun hchk => ?_⟩
    obtain ⟨ops, -, -, ha, -⟩ := hw hchk
    obtain ⟨ft, rest, hft, hts, hresults⟩ := hok.2 _ ha
    exact ⟨ft, rest, hft, ha.trans (congrArg some hts), hresults⟩
  | @tailCallIndirect _ slot rest _ ft hos hexpected hactual =>
    have hpops : Pops a [.i32] ⟨a.tries, a.ops.map tail⟩ := by
      refine ⟨rfl, fun ts hts => ?_⟩
      obtain ⟨ft', rest, -, rfl, -⟩ := hok.2 ts hts
      exact ⟨_, rfl, by rw [hts]; rfl⟩
    refine ⟨_, (h.pop hpops hos).1, hok.1, fun hchk => ?_⟩
    obtain ⟨ops, -, -, ha, -⟩ := hw hchk
    obtain ⟨ft', rest, hft', hts, hresults⟩ := hok.2 _ ha
    obtain rfl := Option.some.inj (hexpected.symm.trans hft')
    exact ⟨ft, rest, hactual, by rw [ha, hts]; rfl, hresults⟩

/-- Cutting the operands of the caller leaves those of the activations below it. -/
theorem Window.eat {ts : List ValueType} {rest : List Kind}
    (hw : T.Window fn a k.lastOpIndex k.os os') (hchk : T.chk = true)
    (ha : a.ops = some (topKinds ts ++ rest)) :
    (k.os.drop ts.length).drop ((k.os.drop ts.length).length - k.lastOpIndex) = os' ∧
      kinds (k.os.take ts.length) = topKinds ts := by
  obtain ⟨us, vs, locals, hos, hus, -, -, hbase⟩ := hw.takes hchk ha
  have hlen : us.length = ts.length := by rw [← length_kinds, hus, length_topKinds]
  rw [hos, ← hlen, drop_left, take_left]
  refine ⟨?_, hus⟩
  apply drop_left'
  simp only [length_append]
  omega

/-- A throw leaves no EH frame the execution started with. -/
def Stays (out k : Control) (i : Instr) : Prop :=
  ∀ tag, thrownTag k i = some tag → ThrowStays out tag k.ehStack k.ehCatches

/-- Operands of an instruction that works them off one element at a time. -/
theorem Moves.of_bulk {m : Module} {takes gives : List Kind} (hi : IsBulk i)
    (h : Moves m fn i takes gives) : takes = [.i32, .i32, .i32] ∧ gives = [] := by
  cases h with
  | bulk => exact ⟨rfl, rfl⟩
  | plain ho =>
    unfold IsBulk at hi
    split at hi
    · cases ho
    · cases ho
    · cases ho
    · exact hi.elim
  | nop | gasCharge _ | drop _ | select _ | getLocal _ | setLocal _ | teeLocal _ | call _
  | callIndirect _ => exact hi.elim

private theorem InstrOk.of_bulk (hi : IsBulk i)
    (h : T.InstrAt fn n a i) :
    T.StraightAt fn n a i := by
  unfold IsBulk at hi
  split at hi
  · exact h
  · exact h
  · exact h
  · exact hi.elim

private theorem InstrOk.of_calls (hcalls : Calls T.toProgram k false i f d)
    (h : T.InstrAt fn n a i) :
    T.StraightAt fn n a i := by
  cases hcalls with
  | call | callIndirect => exact h

private theorem InstrOk.slot {ts : List Kind} (hi : IsIndirect i)
    (h : T.InstrAt fn n a i)
    (hts : a.ops = some ts) : 1 ≤ ts.length := by
  unfold IsIndirect at hi
  split at hi
  · obtain ⟨b, -, -, hops⟩ := h
    obtain ⟨takes, gives, rest, hmoves, rfl, -⟩ := hops ts hts
    cases hmoves with
    | callIndirect => exact Nat.succ_le_succ (Nat.zero_le _)
    | plain h | bulk h => cases h
  · obtain ⟨ft, rest, -, rfl, -⟩ := h.2 ts hts
    exact Nat.succ_le_succ (Nat.zero_le _)
  · exact hi.elim

/-! ### Steps from a state that fits its annotation -/

section

variable (hout : Depths out) (h : T.At out k n fn a) {pc data leaves : Nat} {cur : ActivationFrame}
  {size src dst : Value}

include hout h

/-- Continue at another place with stacks that fit there. -/
theorem At.goes {eh' : List EhFrame} {catches' : List EhCatchEntry}
    (hgoes : Goes T.ann fn pc b)
    (hpc : d.pc = .code pc) (hwindow : T.Window fn b d.lastOpIndex d.os os')
    (heh : T.EhSeg fn d.as.length d.lastOpIndex eh' catches' b.tries d.ehStack d.ehCatches)
    (hbelow : T.Below out fn.results d.as os' eh' catches') (hsame : bounds d = bounds k) :
    T.RunOk out d :=
  .of_acts hout h.stackOk (Goes.of_pc hgoes hpc) (fun _ => rfl)
    ⟨os', eh', catches', hwindow, heh, hbelow⟩ hsame

/-- Continue with the next opcode. -/
theorem At.next (hgoes : Goes T.ann fn (n + 1) b) (htries : b.tries = a.tries)
    (hwindow : ∀ os', T.Window fn a k.lastOpIndex k.os os' →
      T.Window fn b k.lastOpIndex os os') :
    T.RunOk out { k with os := os, pc := k.pc.inc } := by
  obtain ⟨os', eh', catches', hw, heh, hbelow⟩ := h.split
  rw [← htries] at heh
  refine h.goes (d := { k with os := os, pc := k.pc.inc }) hout hgoes ?_ (hwindow os' hw) heh
    hbelow rfl
  rw [h.pc]
  rfl

/-- Operands are replaced by results and the next opcode follows. -/
theorem At.straight (hok : T.StraightAt fn n a i) (results : List Value)
    (count : Nat) (hos : os = results ++ k.os.drop count)
    (hmoves : ∀ {takes gives rest os'}, Moves T.module fn i takes gives → T.chk = true →
      T.Window fn a k.lastOpIndex k.os os' → a.ops = some (takes ++ rest) →
      takes.length = count ∧ kinds results = gives) :
    T.RunOk out { k with os := os, pc := k.pc.inc } := by
  obtain ⟨b, htries, hgoes, hops⟩ := hok
  subst hos
  refine h.next hout hgoes htries fun os' hw => hw.exchange fun hchk => ?_
  obtain ⟨takes, gives, rest, hm, ha, -, hb⟩ := hw.moves hops hchk
  obtain ⟨hlen, hres⟩ := hmoves hm hchk hw ha
  exact ⟨takes, rest, ha, hlen, hres ▸ hb⟩

/-! #### Instructions that continue with the next one -/

private theorem nop_ok (hok : T.StraightAt fn n a .nop) : T.StepOk out (.next k.advance) := by
  refine h.straight hout hok [] 0 rfl fun hmoves _ _ _ => ?_
  cases hmoves with
  | nop => exact ⟨rfl, rfl⟩
  | plain h | bulk h => cases h

private theorem drop_ok (hok : T.StraightAt fn n a .drop) :
    T.StepOk out (k.withPop fun _ k => .next k.advance) := by
  refine .withPop h.stackOk fun v rest hos => ?_
  refine At.straight (k := k) hout h hok [] 1 (by rw [hos]; rfl) fun hmoves _ _ _ => ?_
  cases hmoves with
  | drop x => exact ⟨rfl, rfl⟩
  | plain h | bulk h => cases h

private theorem select_ok (hok : T.StraightAt fn n a .select)
    (ho : visitControl T.toProgram k n .select = some o) : T.StepOk out o := by
  cases ho
  obtain ⟨b, htries, hgoes, hops⟩ := hok
  refine .withPop h.stackOk fun x xs hxs => ?_
  -- the state that a second pop finds empty
  have hover : T.Over out { k with os := k.os.drop 1 } := by
    refine h.drop fun hchk => ?_
    obtain ⟨os', eh', catches', hw, -, -⟩ := h.split
    obtain ⟨takes, gives, rest, hmoves, ha, -⟩ := hw.moves hops hchk
    cases hmoves with
    | select t =>
      refine ⟨_, ha, ?_⟩
      rw [length_append, length_cons]
      omega
    | plain h | bulk h => cases h
  rw [hxs] at hover
  refine .withPop hover fun y ys hys => ?_
  subst hys
  cases ys with
  | nil => trivial
  | cons z rest =>
    refine At.straight (k := k) hout h ⟨b, htries, hgoes, hops⟩ [if x.toUi32 = 0 then y else z] 3
      (by rw [hxs]; rfl) fun hmoves hchk hw ha => ?_
    cases hmoves with
    | select t =>
      refine ⟨rfl, ?_⟩
      obtain ⟨hy, hz, -⟩ := hw.takes_three hxs hchk ha
      rw [kinds, map_singleton, apply_ite Value.kind, hy, hz, ite_self]
    | plain h | bulk h => cases h

private theorem getLocal_ok {i : Nat} (hok : T.StraightAt fn n a (.getLocal i))
    (ho : visitControl T.toProgram k n (.getLocal i) = some o) : T.StepOk out o := by
  cases ho
  split
  · trivial
  next v hv =>
    refine h.straight hout hok [v] 0 rfl fun hmoves hchk hw _ => ?_
    cases hmoves with
    | getLocal hi => exact ⟨rfl, congrArg ([·]) (hw.getOperand hchk hi hv)⟩
    | plain h | bulk h => cases h

private theorem setLocal_ok {i : Nat} (hok : T.StraightAt fn n a (.setLocal i)) :
    T.StepOk out (k.withPop fun v k => .ofOption (k.advance.setOperand i v)) := by
  obtain ⟨b, htries, hgoes, hops⟩ := hok
  refine .withPop h.stackOk fun v rest hos => ?_
  cases hd : setOperand { k with os := rest, pc := k.pc.inc } i v with
  | none =>
    rw [advance, hd]
    trivial
  | some d =>
    rw [advance, hd]
    obtain ⟨os, rfl⟩ := setOperand_eq hd
    refine At.next (k := k) hout h hgoes htries fun os' hw => hw.popLocal hos (fun hchk => ?_) hd
    obtain ⟨takes, gives, ts, hmoves, ha, -, hb⟩ := hw.moves hops hchk
    cases hmoves with
    | setLocal hi => exact ⟨_, ts, hi, ha, hb⟩
    | plain h | bulk h => cases h

private theorem teeLocal_ok {i : Nat} (hok : T.StraightAt fn n a (.teeLocal i))
    (ho : visitControl T.toProgram k n (.teeLocal i) = some o) : T.StepOk out o := by
  cases ho
  obtain ⟨b, htries, hgoes, hops⟩ := hok
  refine .withPop h.stackOk fun v rest hos => ?_
  cases hd : setOperand { k with os := rest, pc := k.pc.inc } i v with
  | none =>
    rw [advance, hd]
    trivial
  | some d =>
    rw [advance, hd]
    obtain ⟨os, rfl⟩ := setOperand_eq hd
    refine At.next (k := k) hout h hgoes htries fun os' hw => ?_
    have htee : T.chk = true → ∃ ts, fn.slots[i]? = some v.kind ∧ a.ops = some (v.kind :: ts) ∧
        b.ops = some (v.kind :: ts) := by
      intro hchk
      obtain ⟨takes, gives, ts, hmoves, ha, -, hb⟩ := hw.moves hops hchk
      cases hmoves with
      | @teeLocal _ x hi =>
        obtain rfl := hw.top hos hchk ha
        exact ⟨ts, hi, ha, hb⟩
      | plain h | bulk h => cases h
    have hset : T.Window fn ⟨a.tries, b.ops.map tail⟩ k.lastOpIndex os os' := by
      refine hw.popLocal hos (fun hchk => ?_) hd
      obtain ⟨ts, hi, ha, hb⟩ := htee hchk
      exact ⟨_, ts, hi, ha, by rw [hb]; rfl⟩
    change T.Window fn b k.lastOpIndex ([v] ++ os.drop 0) os'
    refine hset.exchange fun hchk => ?_
    obtain ⟨ts, -, -, hb⟩ := htee hchk
    exact ⟨[], ts, by rw [hb]; rfl, rfl, hb⟩

/-! #### Branches -/

/-- Continue at a label without touching the stacks. -/
theorem At.jumpTo (hgoes : Goes T.ann fn pc a) : T.RunOk out { k with pc := .code pc } := by
  obtain ⟨os', eh', catches', hw, heh, hbelow⟩ := h.split
  exact h.goes (d := { k with pc := .code pc }) hout hgoes rfl hw heh hbelow rfl

/-- A branch removes operands and EH frames. -/
theorem At.branch (hbranches : Branches a data leaves b) (hgoes : Goes T.ann fn pc b) :
    T.StepOk out (.ofOption ((k.leaveEhFrames leaves).jump data pc)) := by
  obtain ⟨hle, htries, hops⟩ := hbranches
  obtain ⟨os', eh', catches', hw, heh, hbelow⟩ := h.split
  have hleft := heh.leaves hle
  rw [← htries] at hleft
  obtain ⟨eh₂, catches₂, heq⟩ := leaveEhFrames_eq leaves k
  rw [heq] at hleft ⊢
  unfold jump
  dsimp only
  split
  · refine h.goes (d := { k with
      ehStack := eh₂, ehCatches := catches₂, pc := .code pc, os := _ }) hout hgoes rfl ?_ hleft
      hbelow rfl
    intro hchk
    obtain ⟨ops, locals, hos, ha, hlocals, hbase⟩ := hw hchk
    obtain ⟨lab, mid, rest, hts, hdata, hcount, hb⟩ := hops _ ha
    obtain ⟨us, vs, rfl, hus, rfl⟩ := kinds_eq_append hts
    obtain ⟨ls, ms, rfl, rfl, rfl⟩ := kinds_eq_append hus
    refine ⟨ls ++ vs, locals, ?_, ?_, hlocals, hbase⟩
    · rw [length_kinds] at hdata hcount
      rw [length_kinds] at hdata
      rw [hdata, hcount, hos]
      simp only [append_assoc, take_left]
      rw [← append_assoc ls ms, drop_left' (by rw [length_append])]
    · rw [kinds_append]
      exact hb
  · trivial

private theorem if_ok (hpops : Pops a [.i32] b) (hnext : Goes T.ann fn (n + 1) b)
    (hpc : Goes T.ann fn pc b) (ho : visitControl T.toProgram k n (.if_ pc) = some o) :
    T.StepOk out o := by
  cases ho
  refine .withPop h.stackOk fun v rest hos => ?_
  have hat := (h.pop hpops hos).1
  split
  · exact hat.jumpTo hout hpc
  · exact hat.next hout hnext rfl fun _ hw => hw

private theorem brIf_ok (hpops : Pops a [.i32] b) (hnext : Goes T.ann fn (n + 1) b)
    (hbranches : Branches b data leaves c) (hpc : Goes T.ann fn pc c)
    (ho : visitControl T.toProgram k n (.brIf data pc leaves) = some o) : T.StepOk out o := by
  cases ho
  refine .withPop h.stackOk fun v rest hos => ?_
  have hat := (h.pop hpops hos).1
  split
  · split
    · exact hat.next hout hnext rfl fun _ hw => hw
    · exact hat.branch hout hbranches hpc
  · exact hat.stackOk

private theorem brTable_ok {size : Nat} {table : List BrTableElem} (hpops : Pops a [.i32] b)
    (hcases : ∀ (e : Nat) (x : BrTableElem), table[e]? = some x →
      ∃ c, Branches b x.stackPop x.ehLeaveCount c ∧ Goes T.ann fn x.pc c)
    (ho : visitControl T.toProgram k n (.brTable size table) = some o) : T.StepOk out o := by
  cases ho
  refine .withPop h.stackOk fun v rest hos => ?_
  have hat := (h.pop hpops hos).1
  split
  · trivial
  next x hx =>
    obtain ⟨c, hbranches, hgoes⟩ := hcases _ x hx
    exact hat.branch hout hbranches hgoes

private theorem delegate_ok {kept : List Kind} {tries : List (List Kind)}
    (htries : a.tries = kept :: tries) (hnext : Goes T.ann fn (n + 1) ⟨tries, a.ops⟩) :
    T.StepOk out (.next k.leaveEhFrame.advance) := by
  obtain ⟨os', eh', catches', hw, heh, hbelow⟩ := h.split
  rw [htries] at heh
  have hleft := heh.leave
  obtain ⟨eh₂, catches₂, heq⟩ := leaveEhFrames_eq 1 k
  change k.leaveEhFrame = _ at heq
  rw [heq] at hleft ⊢
  refine h.goes (d := { k with ehStack := eh₂, ehCatches := catches₂, pc := k.pc.inc }) hout
    hnext ?_ hw hleft hbelow rfl
  rw [h.pc]
  rfl

/-! #### `try_table`, throwing and returning -/

private theorem tryTable_ok {clauses : Nat}
    (hok : TryOk T.module (ClauseAt T.code) (Goes T.ann fn) (GoesTo T.ann T.code fn) n a clauses) :
    T.StepOk out (enterTryTable T.toProgram k n clauses) := by
  unfold TryOk at hok
  unfold enterTryTable
  split
  next hzero =>
    rw [if_pos hzero] at hok
    exact h.next hout hok rfl fun _ hw => hw
  next hne =>
    rw [if_neg hne] at hok
    obtain ⟨kept, hgoes, -, hclauses⟩ := hok
    split
    · trivial
    next entries hread =>
      obtain ⟨os', eh', catches', hw, heh, hbelow⟩ := h.split
      obtain ⟨rfl, hentries⟩ := readClauses_ok hw hclauses hread
      exact h.goes (d := { k with
        ehStack := ⟨k.callDepth, entries.length, k.ehCatches.length⟩ :: k.ehStack
        ehCatches := k.ehCatches ++ entries
        pc := .code (n + 1 + 2 * entries.length) }) hout hgoes rfl hw (.cons heh hentries) hbelow
        rfl

private theorem throwTag_ok {tag : Nat}
    (hok : ∀ ts, a.ops = some ts → ∃ ft rest, T.module.tagType tag = some ft ∧
      ts = topKinds ft.paramTypes ++ rest ∧ Guarded a.tries rest)
    (hstays : ThrowStays out tag k.ehStack k.ehCatches) :
    T.StepOk out (throwTag T.toProgram k tag) := by
  unfold throwTag
  split
  · trivial
  next ft hft =>
    dsimp only
    split
    · exact h.stackOk
    next hlen =>
      obtain ⟨os', eh', catches', hw, heh, hbelow⟩ := h.split
      have hops : T.chk = true → ∃ rest, a.ops = some (topKinds ft.paramTypes ++ rest) ∧
          Guarded a.tries rest := by
        intro hchk
        obtain ⟨ops, -, -, ha, -⟩ := hw hchk
        obtain ⟨ft', rest, hft', hts, hguarded⟩ := hok _ ha
        obtain rfl := Option.some.inj (hft.symm.trans hft')
        exact ⟨rest, ha.trans (congrArg some hts), hguarded⟩
      have hw' := hw.dropArgs fun hchk => (hops hchk).imp fun _ h => h.1
      apply dispatchException_ok (k := { k with os := k.os.drop ft.paramTypes.length }) hout
      · intro _
        refine ⟨ft, hft, ?_⟩
        rw [length_map, length_reverse, length_take]
        omega
      · rfl
      · refine h.drop fun hchk => ?_
        obtain ⟨rest, ha, -⟩ := hops hchk
        refine ⟨_, ha, ?_⟩
        rw [length_append, length_topKinds]
        exact Nat.le_add_right _ _
      · exact ⟨os', eh', catches', hw', heh, hbelow⟩
      · intro hchk
        obtain ⟨rest, ha, hguarded⟩ := hops hchk
        refine ⟨rest, ?_, hguarded⟩
        rw [ha, Option.map_some, drop_left' (length_topKinds _)]
      · exact Unwinds.refl _
      · exact fun _ => suffix_rfl
      · exact hstays

private theorem throwRef_ok
    (hok : ∀ ts, a.ops = some ts → ∃ rest, ts = .i32 :: rest ∧ Guarded a.tries rest)
    (hstays : ∀ tag, thrownTag k .throwRef = some tag →
      ThrowStays out tag k.ehStack k.ehCatches) :
    T.StepOk out (throwRef T.toProgram k) := by
  refine .withPop h.stackOk fun v rest hos => ?_
  have hover : T.Over out { k with os := k.os.drop 1 } := by
    refine h.drop fun hchk => ?_
    obtain ⟨ts, hts⟩ := h.ops hchk
    obtain ⟨rest, rfl, -⟩ := hok ts hts
    exact ⟨_, hts, Nat.succ_le_succ (Nat.zero_le _)⟩
  rw [hos] at hover
  split
  · exact hover
  · split
    · exact hover
    next exn hexn =>
      -- where operands are checked, no exception is kept
      have hchk : T.chk ≠ true := by
        intro hchk
        rw [h.stackOk.noExn hchk] at hexn
        cases hexn
      obtain ⟨os', eh', catches', -, heh, hbelow⟩ := h.split
      apply dispatchException_ok (k := { k with os := rest }) hout
      · exact fun h => absurd h hchk
      · rfl
      · exact hover
      · exact ⟨os', eh', catches', fun h => absurd h hchk, heh, hbelow⟩
      · exact fun h => absurd h hchk
      · exact Unwinds.refl _
      · exact fun _ => suffix_rfl
      · apply hstays
        rw [thrownTag, hos]
        dsimp only
        rw [hexn]
        rfl

private theorem return_ok (htries : a.tries = [])
    (hok : ∀ ts, a.ops = some ts → ts = fn.results ∧ data = fn.slots.length ∧
      count = fn.results.length) :
    T.StepOk out (k.applyPopCall data count) := by
  obtain ⟨os', hw, hbelow⟩ := h.split_nil htries
  unfold applyPopCall
  split
  · exact h.stackOk
  next af rest has =>
    split
    · rw [has] at hbelow
      refine Below.resume (d := { k with
        as := rest, pc := af.pc, lastOpIndex := af.lastOpIndex, os := _,
        remainingCallDepth := _ }) hout h.stackOk hbelow rfl (fun _ hn => hn) rfl (fun hchk => ?_)
        rfl
      obtain ⟨ops, locals, hos, ha, hlocals, -⟩ := hw hchk
      obtain ⟨hres, rfl, rfl⟩ := hok _ ha
      refine ⟨ops, hres, ?_⟩
      have hlen : locals.length = fn.slots.length := by
        rw [← length_kinds, hlocals, length_reverse]
      rw [← hres, length_kinds, ← hlen]
      rw [hos, append_assoc, take_left, ← append_assoc,
        drop_left' (by rw [length_append, add_comm])]
    · trivial

/-! #### Calls -/

private theorem callWasm_ok (hgoes : Goes T.ann fn (n + 1) b) (hcall : T.CallOk f a b)
    (hf : T.module.importedFunctionsSize ≤ f) :
    T.StepOk out (callWasm T.toProgram k f) := by
  obtain ⟨os', eh', catches', hw, heh, hbelow⟩ := h.split
  obtain ⟨b', hann, hflow⟩ := hgoes
  unfold callWasm
  rcases pushCall_cases T.toProgram k f k.pc.inc with ⟨ft, hft, -, hnext⟩ | ⟨t, ht⟩ | hundef
  · rw [hnext]
    have hw' := hw.dropArgs fun hchk => (hcall.of_type hchk hft).imp fun _ h => h.1
    have hresumes : T.Resumes (shape T.toProgram f ft).results
        ⟨a.tries, a.ops.map (drop ft.paramTypes.length)⟩ b' := by
      refine ⟨hflow.1.trans hcall.1, fun hchk => ?_⟩
      obtain ⟨rest, ha, hguarded, hb⟩ := hcall.of_type hchk hft
      refine ⟨rest, ?_, hguarded, hflow.2 _ hb⟩
      rw [ha, Option.map_some, drop_left' (length_topKinds _)]
    have hbelow' : T.Below out (shape T.toProgram f ft).results
        (⟨k.pc.inc, k.lastOpIndex, T.functionStackSize f⟩ :: k.as)
        (k.os.drop ft.paramTypes.length) k.ehStack k.ehCatches := by
      refine .caller ?_ hann hresumes hw' heh hbelow
      rw [h.pc]
      rfl
    refine RunOk.of_acts hout h.stackOk (fun m hm => T.typed.entry f ft m hf hft hm) (fun _ => rfl)
      ⟨k.os.drop ft.paramTypes.length, k.ehStack, k.ehCatches, fun hchk => ?_, .nil, hbelow'⟩
      rfl
    obtain ⟨rest, ha, -⟩ := hcall.of_type hchk hft
    obtain ⟨us, vs, locals, hos, hus, -⟩ := hw.takes hchk ha
    refine ⟨[], setupLocals T.toProgram f ++ us, ?_, ?_, kinds_entered hus, ?_⟩
    · have hus' : us.length = ft.paramTypes.length := by
        rw [← length_kinds, hus, length_topKinds]
      change setupLocals T.toProgram f ++ k.os = _
      rw [nil_append, append_assoc, hos, ← hus', drop_left]
    · rw [entryAnn, hchk]
      rfl
    · exact (length_drop).symm
  · rw [ht]
    exact h.stackOk
  · rw [hundef]
    trivial

private theorem callHost_ok (hlinked : T.chk = true → HostsLinked T.toProgram)
    (hgoes : Goes T.ann fn (n + 1) b) (hcall : T.CallOk f a b)
    (hf : f < T.module.importedFunctionsSize) (hd : callHost T.toProgram k f = .next d) :
    T.HostOk out d f false := by
  obtain ⟨ft, hft, -, rfl⟩ := callHost_next hd
  obtain ⟨os, hos, hacts⟩ := h.acts
  refine ⟨?_, ?_, hf, ft, _, k.as, hft, rfl, fun results hresults => ?_⟩
  · have hover : T.Over out { k with os := k.os.drop (T.hostSignature f).paramTypes.length } := by
      refine h.drop fun hchk => ?_
      obtain ⟨rest, ha, -⟩ := hcall.of_type hchk hft
      refine ⟨_, ha, ?_⟩
      rw [(hlinked hchk f ft hf hft).1, length_append, length_topKinds]
      exact Nat.le_add_right _ _
    exact hover.of_eq (hover.as.trans (suffix_cons _ _)) hover.eh hover.catches hover.os rfl
  · intro fr hfr
    exact Nat.le_succ_of_le ((hacts.depths hout).2 fr hfr)
  · have hnext : T.RunOk out { k with
        os := results ++ k.os.drop (T.hostSignature f).paramTypes.length
        pc := k.pc.inc } := by
      refine h.next hout hgoes hcall.1 fun os' hw => hw.exchange fun hchk => ?_
      obtain ⟨rest, ha, -, hb⟩ := hcall.of_type hchk hft
      refine ⟨_, rest, ha, ?_, ?_⟩
      · rw [(hlinked hchk f ft hf hft).1, length_topKinds]
      · rw [hresults hchk, hb]
    exact ⟨hnext.stackOk.congr rfl, hnext.depths, hnext.acts⟩

private theorem tailCallWasm_ok {rest : List ActivationFrame} (hcall : T.TailCallOk fn f a)
    (hf : T.module.importedFunctionsSize ≤ f) (has : k.as = cur :: rest) :
    T.StepOk out (tailCallWasm T.toProgram (k.refund cur) f) := by
  obtain ⟨os', hw, hbelow⟩ := h.split_nil hcall.1
  have hover : T.Over out (k.refund cur) := h.stackOk.congr rfl
  unfold tailCallWasm
  split
  next cur' rest' ft has' hft =>
    obtain ⟨rfl, rfl⟩ := cons.inj (has.symm.trans has')
    dsimp only
    split
    · exact hover
    · split
      · exact hover
      · split
        · trivial
        next d hd =>
          obtain ⟨-, rfl⟩ := eatOperands_eq hd
          rw [has] at hbelow
          refine RunOk.of_acts hout h.stackOk (fun m hm => T.typed.entry f ft m hf hft hm)
            (fun _ => rfl) ⟨os', k.ehStack, k.ehCatches, fun hchk => ?_, .nil,
              hbelow.replace rfl rfl fun hchk => ?_⟩ rfl
          · obtain ⟨rest, ha, -⟩ := hcall.of_type hchk hft
            obtain ⟨heat, hargs⟩ := hw.eat hchk ha
            refine ⟨[], setupLocals T.toProgram f ++ k.os.take ft.paramTypes.length, ?_, ?_,
              kinds_entered hargs, ?_⟩
            · change setupLocals T.toProgram f ++ (k.os.take ft.paramTypes.length ++ _) = _
              rw [nil_append, append_assoc]
              congr 2
            · rw [entryAnn, hchk]
              rfl
            · exact congrArg length heat
          · exact (hcall.of_type hchk hft).choose_spec.2
  · trivial

private theorem tailCallHost_ok {rest : List ActivationFrame} (hcall : T.TailCallOk fn f a)
    (hf : f < T.module.importedFunctionsSize) (has : k.as = cur :: rest)
    (hd : tailCallHost T.toProgram (k.refund cur) f = .next d) :
    T.HostOk out d f true := by
  obtain ⟨os', hw, hbelow⟩ := h.split_nil hcall.1
  obtain ⟨os, hos, hacts⟩ := h.acts
  obtain ⟨ft, hft, rfl⟩ := tailCallHost_next hd
  -- the operands of the activation are gone
  have hleft : T.chk = true → (k.os.drop ft.paramTypes.length).drop
      ((k.os.drop ft.paramTypes.length).length - k.lastOpIndex) = os' := by
    intro hchk
    obtain ⟨rest, ha, -⟩ := hcall.of_type hchk hft
    exact (hw.eat hchk ha).1
  have hos : T.chk = true → out.os <:+ (k.os.drop ft.paramTypes.length).drop
      ((k.os.drop ft.paramTypes.length).length - k.lastOpIndex) := by
    intro hchk
    rw [hleft hchk]
    exact hbelow.suffix.2.2.1 hchk
  have hover := h.stackOk.of_os hos
  refine ⟨hover.congr rfl, (hacts.depths hout).2, hf, ft, cur, rest, hft, has,
    fun results hresults => ?_⟩
  rw [has] at hbelow
  refine Below.resume hout h.stackOk hbelow rfl (fun _ hn => hn) rfl (fun hchk => ?_) rfl
  obtain ⟨rest, ha, hfn⟩ := hcall.of_type hchk hft
  refine ⟨results, (hresults hchk).trans hfn, ?_⟩
  rw [← hleft hchk]
  rfl

/-! #### One step -/

private theorem visitControl_ok (hcode : T.code[n]? = some i)
    (hok : T.InstrAt fn n a i)
    (hstays : Stays out k i) (ho : visitControl T.toProgram k n i = some o) : T.StepOk out o := by
  cases i with
  | unreachable =>
    cases ho
    exact h.stackOk
  | nop =>
    cases ho
    exact nop_ok hout h hok
  | if_ pc =>
    obtain ⟨b, hpops, hnext, htarget⟩ := hok
    exact if_ok hout h hpops hnext (GoesTo.goes htarget hcode rfl) ho
  | else_ _ | catch_ _ _ | catchAll _ =>
    cases ho
    exact h.jumpTo hout (GoesTo.goes hok hcode rfl)
  | br data pc =>
    cases ho
    obtain ⟨b, hbranches, htarget⟩ := hok
    exact h.branch hout hbranches (GoesTo.goes htarget hcode rfl)
  | brIf data pc leaves =>
    obtain ⟨b, c, hpops, hnext, hbranches, htarget⟩ := hok
    exact brIf_ok hout h hpops hnext hbranches (GoesTo.goes htarget hcode rfl) ho
  | brTable size table =>
    obtain ⟨b, hpops, hcases⟩ := hok
    refine brTable_ok hout h hpops (fun e x hx => ?_) ho
    obtain ⟨c, hbranches, htarget⟩ := hcases e x hx
    refine ⟨c, hbranches, GoesTo.goes htarget hcode ?_⟩
    rw [targetPc, hx]
    rfl
  | return_ data pc stacksz =>
    cases ho
    exact return_ok hout h hok.1 hok.2
  | throw_ tag =>
    cases ho
    exact throwTag_ok hout h hok (hstays tag rfl)
  | rethrow label =>
    cases ho
    exact h.stackOk
  | throwRef =>
    cases ho
    exact throwRef_ok hout h hok hstays
  | delegate label =>
    cases ho
    obtain ⟨kept, tries, htries, hnext⟩ := hok
    exact delegate_ok hout h htries hnext
  | tryTable data pc =>
    cases ho
    exact tryTable_ok hout h hok
  | drop =>
    cases ho
    exact drop_ok hout h hok
  | select => exact select_ok hout h hok ho
  | getLocal index => exact getLocal_ok hout h hok ho
  | setLocal index =>
    cases ho
    exact setLocal_ok hout h hok
  | teeLocal index => exact teeLocal_ok hout h hok ho
  | exit | error | brTableData => exact hok.elim
  | _ => cases ho

/-- One more element: the same opcode runs again on operands of the same alternatives. -/
theorem bulkMore_ok {src' dst' : Value} {left : UInt32} (hann : T.ann n = some (fn, a))
    (hok : T.StraightAt fn n a i) (hi : IsBulk i)
    (hos : k.os = size :: src :: dst :: rest) (hsrc : src' = src ∨ ∃ x, src' = .i32 x)
    (hdst : dst' = dst ∨ ∃ x, dst' = .i32 x) :
    T.RunOk out { k with os := .i32 left :: src' :: dst' :: rest } := by
  obtain ⟨b, -, -, hops⟩ := hok
  obtain ⟨os', eh', catches', hw, heh, hbelow⟩ := h.split
  refine h.goes (d := { k with os := .i32 left :: src' :: dst' :: rest }) hout
    ⟨a, hann, .refl a⟩ h.pc (fun hchk => ?_) heh hbelow rfl
  obtain ⟨takes, gives, ts, hmoves, ha, -, -⟩ := hw.moves hops hchk
  obtain ⟨rfl, rfl⟩ := Moves.of_bulk hi hmoves
  obtain ⟨hu₂, hu₃, vs, locals, rfl, hvs, hlocals, hbase⟩ := hw.takes_three hos hchk ha
  refine ⟨.i32 left :: src' :: dst' :: vs, locals, rfl, ?_, hlocals, hbase⟩
  have hsrc' : src'.kind = .i32 := by
    rcases hsrc with rfl | ⟨x, rfl⟩
    · exact hu₂
    · rfl
  have hdst' : dst'.kind = .i32 := by
    rcases hdst with rfl | ⟨x, rfl⟩
    · exact hu₃
    · rfl
  rw [ha, ← hvs]
  simp only [kinds, map_cons, hsrc', hdst']
  rfl

/-- A step from a state that fits the annotation of its position. -/
theorem stackStep_ok (hlinked : T.chk = true → HostsLinked T.toProgram)
    (hann : T.ann n = some (fn, a)) (hcode : T.code[n]? = some i)
    (hok : T.InstrAt fn n a i)
    (hstays : Stays out k i) (hstep : StackStep T.toProgram k n i o) : T.StepOk out o := by
  cases hstep with
  | control ho => exact visitControl_ok hout h hcode hok hstays ho
  | undefined => trivial
  | trap _ hpopped =>
    refine h.stackOk.of_eq (hpopped.as ▸ h.stackOk.as) (hpopped.ehStack ▸ h.stackOk.eh)
      (hpopped.ehCatches ▸ h.stackOk.catches) (fun hchk => ?_) (Prod.ext hpopped.ehExnStack
      (Prod.ext hpopped.asIndex hpopped.osIndex))
    rcases hpopped.os with heq | ⟨hi, v, hv⟩
    · exact heq ▸ h.stackOk.os hchk
    · have hover := (h.drop fun _ => (h.ops hchk).imp fun _ hts =>
        ⟨hts, InstrOk.slot hi hok hts⟩).os hchk
      rw [hv] at hover
      exact hover
  | plain ho _ hres =>
    refine h.straight hout (hok.straight ho) _ _ rfl fun hmoves _ _ _ => ?_
    obtain ⟨rfl, rfl⟩ := hmoves.of_plain ho
    exact ⟨rfl, hres⟩
  | charged cost =>
    refine h.straight hout hok [] 0 rfl fun hmoves _ _ _ => ?_
    cases hmoves with
    | gasCharge => exact ⟨rfl, rfl⟩
    | plain h | bulk h => cases h
  | bulkDone hi hos =>
    refine h.straight hout (InstrOk.of_bulk hi hok) [] 3 (by rw [hos]; rfl) fun hmoves _ _ _ => ?_
    obtain ⟨rfl, rfl⟩ := Moves.of_bulk hi hmoves
    exact ⟨rfl, rfl⟩
  | bulkMore left hi hos hsrc hdst =>
    exact bulkMore_ok hout h hann (InstrOk.of_bulk hi hok) hi hos hsrc hdst
  | call hcalls hf =>
    obtain ⟨a', b, hat, hgoes, hcall⟩ := h.call (InstrOk.of_calls hcalls hok) hcalls
    exact callWasm_ok hout hat hgoes hcall hf
  | hostCall hcalls hf he =>
    obtain ⟨a', b, hat, hgoes, hcall⟩ := h.call (InstrOk.of_calls hcalls hok) hcalls
    exact callHost_ok hout hat hlinked hgoes hcall hf he
  | hostCallTrap t hcalls hf he =>
    obtain ⟨a', b, hat, hgoes, hcall⟩ := h.call (InstrOk.of_calls hcalls hok) hcalls
    exact (callHost_ok hout hat hlinked hgoes hcall hf he).1
  | tailCall hcalls hf has =>
    obtain ⟨a', hat, hcall⟩ := h.tailCall hok hcalls
    exact tailCallWasm_ok hout hat hcall hf has
  | hostTailCall hcalls hf has he =>
    obtain ⟨a', hat, hcall⟩ := h.tailCall hok hcalls
    exact tailCallHost_ok hout hat hcall hf has he

end

end TypedProgram

end PsiServe.Typing
