import PsiServe.Typing.Activation

/-!
# Exceptions in annotated code

`dispatch_exception` walks down the EH frames of an execution
(`psizam/detail/interpret_visitor.hpp:3272–3362`). Each frame
belongs to an activation that is still on the call stack; the handler found in it starts
with the operands and EH frames its annotation promises.
-/

namespace PsiServe.Typing

open Wasm Bitcode Interp List

/-! ### Unwinding -/

/-- Unwinding the calls of `k` down to `as` restores the operand base `base`. -/
structure Unwinds (k : Control) (as : List ActivationFrame) (base : Nat) : Prop where
  suffix : as <:+ k.as
  top : as = k.as → base = k.lastOpIndex
  frame : ∀ af, af :: as <:+ k.as → base = af.lastOpIndex

variable {k : Control} {base tag : Nat} {as : List ActivationFrame} {catches : List EhCatchEntry}
  {e : EhCatchEntry} {payload : List UInt64}

/-- Nothing is unwound. -/
theorem Unwinds.refl (k : Control) : Unwinds k k.as k.lastOpIndex := by
  refine ⟨suffix_rfl, fun _ => rfl, fun af haf => ?_⟩
  have := haf.length_le
  rw [length_cons] at this
  omega

private theorem Unwinds.caller {af : ActivationFrame} {rest : List ActivationFrame}
    (h : Unwinds k (af :: rest) base) : Unwinds k rest af.lastOpIndex := by
  refine ⟨(suffix_cons af rest).trans h.suffix, ?_, ?_⟩
  · intro heq
    have := h.suffix.length_le
    rw [← heq, length_cons] at this
    omega
  · intro bf hbf
    have := suffix_of_suffix_length_le hbf h.suffix (le_rfl)
    rw [(cons.inj (this.eq_of_length rfl)).1]

private theorem lastOpIndex_unwindTo {l : List ActivationFrame} (hsuffix : as <:+ l)
    (htop : as = l → base = k.lastOpIndex) (hframe : ∀ af, af :: as <:+ l → base = af.lastOpIndex) :
    (Control.unwindTo as.length l k).lastOpIndex = base := by
  induction l generalizing k with
  | nil => exact (htop (suffix_nil.mp hsuffix)).symm
  | cons af rest ih =>
    unfold Control.unwindTo
    split
    next hlt =>
      have hrest : as <:+ rest := by
        rcases suffix_cons_iff.mp hsuffix with rfl | hrest
        · exact absurd hlt (lt_irrefl _)
        · exact hrest
      apply ih hrest
      · rintro rfl
        exact hframe af suffix_rfl
      · intro bf hbf
        exact hframe bf (hbf.trans (suffix_cons af rest))
    next hge => exact (htop (hsuffix.eq_of_length_le (Nat.le_of_not_lt hge))).symm

private theorem Unwinds.unwind (h : Unwinds k as base) : (k.unwindCallStackTo as.length).as = as ∧
      (k.unwindCallStackTo as.length).lastOpIndex = base := by
  constructor
  · rw [Control.unwindCallStackTo, as_unwindTo]
    exact (suffix_iff_eq_drop.mp h.suffix).symm
  · exact lastOpIndex_unwindTo h.suffix h.top h.frame

private theorem unwindCallStackTo_eq (k : Control) (depth : Nat) :
    (k.unwindCallStackTo depth).ehStack = k.ehStack ∧
      (k.unwindCallStackTo depth).ehCatches = k.ehCatches ∧
      (k.unwindCallStackTo depth).asIndex = k.asIndex ∧
      (k.unwindCallStackTo depth).osIndex = k.osIndex ∧
      (k.unwindCallStackTo depth).os = k.os ∧
      (k.unwindCallStackTo depth).ehExnStack = k.ehExnStack := by
  obtain ⟨heh, hcatches, hasIndex, hosIndex, hos, hexns, -⟩ := unwindTo_eq depth k.as k
  exact ⟨heh, hcatches, hasIndex, hosIndex, hos, hexns⟩

/-! ### Handlers -/

private theorem findCatch_catches {first count : Nat}
    (h : findCatch catches tag first count = some (some e)) :
    e.catches tag = true := by
  induction count generalizing first with
  | zero => cases h
  | succ count ih =>
    unfold findCatch at h
    split at h
    · cases h
    · split at h
      next hcatches =>
        cases h
        exact hcatches
      · exact ih h

/-- The clause found in a frame is one of its own. -/
theorem findCatch_mem {entries : List EhCatchEntry}
    (h : findCatch (catches ++ entries) tag catches.length entries.length = some (some e)) :
    e ∈ entries := by
  obtain ⟨j, hle, -, hj⟩ := findCatch_some h
  rw [getElem?_append_right hle] at hj
  exact mem_of_getElem? hj

private theorem kind_payloadValue {t : ValueType} (h : IsPayloadType t) (bits : UInt64) :
    (payloadValue t bits).kind = kindOf t := by
  rcases h with rfl | rfl | rfl | rfl
  · rfl
  · rfl
  · rfl
  · rfl

private theorem kinds_payloadValues {ts : List ValueType} (hts : ∀ t ∈ ts, IsPayloadType t)
    (hlen : payload.length = ts.length) :
    kinds (payloadValues ts payload) = ts.map kindOf := by
  induction ts generalizing payload with
  | nil =>
    rw [eq_nil_of_length_eq_zero hlen]
    rfl
  | cons t ts ih =>
    cases payload with
    | nil => cases hlen
    | cons b bs =>
      have htail := ih (forall_mem_cons.mp hts).2 (Nat.succ.inj hlen)
      rw [payloadValues, kinds, map_cons, map_cons, kind_payloadValue (hts t mem_cons_self)]
      exact congrArg _ htail

/-- Values a clause pushes for a caught exception, topmost first. -/
def caught (e : EhCatchEntry) (ts : List ValueType) (payload : List UInt64) (ref : Value) :
    List Value :=
  ((if e.kind = 0 ∨ e.kind = 1 then payloadValues ts payload else []) ++
    if e.kind = 1 ∨ e.kind = 3 then [ref] else []).reverse

namespace TypedProgram

variable {T : TypedProgram} {out : Control} {fn : FnShape} {a : Ann} {os os' : List Value}
  {eh : List EhFrame} {results kept : List Kind} {tag : Nat} {e : EhCatchEntry} {frame : EhFrame}

variable (T)

/-- The operands of an activation include those its scopes leave alone. -/
def Guards (a : Ann) : Prop := T.chk = true → ∃ ts, a.ops = some ts ∧ Guarded a.tries ts

/-- An activation of `k` that entered the topmost of the EH frames `eh`. -/
def Owned (out k : Control) (eh : List EhFrame) (catches : List EhCatchEntry) : Prop :=
  ∃ fn a as base os kept tries, a.tries = kept :: tries ∧
    T.Acts out fn a as base os eh catches ∧ T.Guards a ∧ Unwinds k as base ∧
    (T.chk = true → os <:+ k.os)

/-- The operands at the time of a throw cover what a handler continues with. -/
def PayloadOk (tag : Nat) (payload : List UInt64) : Prop :=
  T.chk = true → ∃ ft, T.module.tagType tag = some ft ∧ payload.length = ft.paramTypes.length

variable {T}

/-- Below an activation, the topmost EH frame is one the execution started with or belongs
to an activation that is still running. -/
theorem Below.owned (h : T.Below out results as os eh catches)
    (hunwinds : Unwinds k as base)
    (hos : T.chk = true → os <:+ k.os) : eh = out.ehStack ∨ T.Owned out k eh catches := by
  induction h generalizing base with
  | entry => exact .inl rfl
  | @caller results af rest os os' eh eh' catches catches' fn a b n _ _ hresumes hwindow heh
      hbelow ih =>
    have hcaller := hunwinds.caller
    cases htries : a.tries with
    | nil =>
      rw [htries] at heh
      cases heh
      apply ih hcaller
      intro hchk
      obtain ⟨ops, locals, hcat, -⟩ := hwindow hchk
      exact (hcat ▸ suffix_append _ _ : os' <:+ os).trans (hos hchk)
    | cons kept tries =>
      refine .inr ⟨fn, a, rest, af.lastOpIndex, os, kept, tries, htries,
        ⟨os', eh', catches', hwindow, heh, hbelow⟩, fun hchk => ?_, hcaller, hos⟩
      obtain ⟨ts, hts, hguarded, -⟩ := hresumes.2 hchk
      exact ⟨ts, hts, hguarded⟩

private theorem Acts.owned (h : T.Acts out fn a as base os eh catches) (hguards : T.Guards a)
    (hunwinds : Unwinds k as base) (hos : T.chk = true → os <:+ k.os) :
    eh = out.ehStack ∨ T.Owned out k eh catches := by
  cases htries : a.tries with
  | nil =>
    obtain ⟨os', eh', catches', hwindow, heh, hbelow⟩ := h
    rw [htries] at heh
    cases heh
    apply hbelow.owned hunwinds
    intro hchk
    obtain ⟨ops, locals, hcat, -⟩ := hwindow hchk
    exact (hcat ▸ suffix_append _ _ : os' <:+ os).trans (hos hchk)
  | cons kept tries =>
    exact .inr ⟨fn, a, as, base, os, kept, tries, htries, h, hguards, hunwinds, hos⟩

/-- The operands a handler finds once the others are cut off. -/
theorem Window.cut {rest : List Kind} {locals : List Value} {ops junk : List Value}
    (hkos : k.os = junk ++ (ops ++ locals ++ os')) (hkept : kept <:+ kinds ops)
    (hrest : rest <:+ kept) {depth : Nat}
    (hdepth : depth = os'.length + locals.length + rest.length) :
    ∃ left, kinds left = rest ∧ k.os.drop (k.os.length - depth) = left ++ locals ++ os' := by
  obtain ⟨mid, hover⟩ := hrest.trans hkept
  obtain ⟨us, left, hops, hus, hleft⟩ := kinds_eq_append hover.symm
  refine ⟨left, hleft, ?_⟩
  have hlen : left.length = rest.length := by rw [← hleft, length_kinds]
  rw [hkos, hops, show junk ++ (us ++ left ++ locals ++ os') =
    (junk ++ us) ++ (left ++ locals ++ os') by simp only [append_assoc]]
  apply drop_left'
  simp only [length_append]
  omega

private theorem kinds_caught {ft : FuncType} {pushes : List Kind}
    (hpushes : CatchPushes T.module e.kind e.tagIndex pushes) (hcatches : e.catches tag = true)
    (hft : T.module.tagType tag = some ft) (hlen : payload.length = ft.paramTypes.length)
    (ref : Value) :
    kinds (caught e ft.paramTypes payload ref) = pushes := by
  unfold caught
  generalize hkind : e.kind = kind at hpushes
  cases hpushes with
  | tag h hpayload =>
    have htag : e.tagIndex = tag := by
      unfold EhCatchEntry.catches at hcatches
      rw [if_pos (.inl hkind)] at hcatches
      exact of_decide_eq_true hcatches
    obtain rfl := Option.some.inj ((htag ▸ h).symm.trans hft)
    rw [if_pos (.inl rfl), if_neg (by decide), append_nil, topKinds,
      ← kinds_payloadValues hpayload hlen]
    exact map_reverse
  | all =>
    rfl

/-- A clause's handler continues in the activation that entered the `try_table`. -/
theorem enterHandler_ok (hout : Depths out) {tries : List (List Kind)}
    (hpayload : T.PayloadOk tag payload) (hover : T.Over out k) (htries : a.tries = kept :: tries)
    (hacts : T.Acts out fn a as base os k.ehStack k.ehCatches) (hguards : T.Guards a)
    (hunwinds : Unwinds k as base) (hos : T.chk = true → os <:+ k.os)
    (hdepth : frame.callDepth = as.length) (hhandler : T.HandlerOk fn base kept tries e)
    (hcatches : e.catches tag = true) :
    T.StepOk out (enterHandler T.toProgram k frame e tag payload) := by
  obtain ⟨hleaves, b, hgoes, hbtries, hbops⟩ := hhandler
  obtain ⟨os', eh', catches', hwindow, heh, hbelow⟩ := hacts
  rw [htries] at heh
  unfold enterHandler
  split
  next k₁ ft heat hft =>
    obtain ⟨-, rfl⟩ := eatOperands_eq heat
    obtain ⟨huas, hubase⟩ := hunwinds.unwind
    obtain ⟨hueh, hucatches, huasIndex, huosIndex, huos, huexns⟩ :=
      unwindCallStackTo_eq k frame.callDepth
    rw [← hdepth] at huas hubase
    generalize k.unwindCallStackTo frame.callDepth = u at *
    dsimp only
    -- the frame of the clause and those the label lies outside of are left in one go
    generalize hk₂ : ({ u with os := _, ehExnStack := _ } : Control) = k₂
    change T.RunOk out { k₂.leaveEhFrames (e.ehLeaveCount + 1) with pc := _ }
    have hseg : T.EhSeg fn as.length base eh' catches' b.tries
        (k₂.leaveEhFrames (e.ehLeaveCount + 1)).ehStack
        (k₂.leaveEhFrames (e.ehLeaveCount + 1)).ehCatches := by
      have hcons : T.EhSeg fn as.length base eh' catches' (kept :: tries) k₂.ehStack
          k₂.ehCatches := by
        rw [← hk₂]
        rw [hueh, hucatches]
        exact heh
      rw [hbtries]
      exact hcons.leaves (Nat.succ_le_succ hleaves)
    obtain ⟨eh₂, catches₂, hleave⟩ := leaveEhFrames_eq (e.ehLeaveCount + 1) k₂
    rw [hleave] at hseg ⊢
    subst hk₂
    have hexns : T.Over out { k with ehExnStack := if e.kind = 1 ∨ e.kind = 3 then
        u.ehExnStack ++ [⟨tag, payload⟩] else u.ehExnStack } := by
      refine { hover with exns := ?_, noExn := ?_ }
      · rw [huexns]
        split
        · exact hover.exns.trans (prefix_append _ _)
        · exact hover.exns
      · intro hchk
        obtain ⟨pushes, -, hpushes, -⟩ := hbops hchk
        generalize e.1 = kind at hpushes ⊢
        rw [if_neg (by cases hpushes <;> decide), huexns]
        exact hover.noExn hchk
    refine RunOk.of_acts hout hexns (Goes.of_pc hgoes rfl) (fun _ => rfl)
      ⟨os', eh', catches', ?_, ?_, ?_⟩ (Prod.ext rfl (Prod.ext huasIndex huosIndex))
    · intro hchk
      obtain ⟨ops, locals, hcat, haops, hlocals, hbase⟩ := hwindow hchk
      obtain ⟨pushes, rest, hpushes, hops, hrest, hdepthe⟩ := hbops hchk
      obtain ⟨ts, hts, hguarded⟩ := hguards hchk
      obtain rfl := Option.mem_unique haops hts
      have hkept : kept <:+ kinds ops := hguarded kept (htries ▸ mem_cons_self)
      obtain ⟨junk, hjunk⟩ := hos hchk
      rw [hcat] at hjunk
      have hslots : locals.length = fn.slots.length := by
        rw [← length_kinds, hlocals, length_reverse]
      obtain ⟨left, hleft, hcut⟩ := Window.cut hjunk.symm hkept hrest
        (hdepthe.trans (by rw [hbase, hslots]))
      obtain ⟨ft', hft', hlen⟩ := hpayload hchk
      obtain rfl := Option.some.inj (hft'.symm.trans hft)
      refine ⟨caught e ft'.paramTypes payload (.i64 (UInt64.ofNat u.ehExnStack.length)) ++ left,
        locals, ?_, ?_, hlocals, hubase.trans hbase⟩
      · change caught _ _ _ _ ++ u.os.drop (u.os.length - e.operandDepth) = _
        rw [huos, hcut, append_assoc, append_assoc, append_assoc]
      · rw [kinds_append, hleft, hops, kinds_caught hpushes hcatches hft hlen]
    · rw [huas, hubase]
      exact hseg
    · rw [huas]
      exact hbelow
  · trivial

/-- Frames an exception leaves before it reaches those the execution started with. -/
def ThrowStays (out : Control) (tag : Nat) (eh : List EhFrame) (catches : List EhCatchEntry) :
    Prop :=
  out.ehStack = [] ∨ out.ehStack.length + throwLeaves tag eh catches ≤ eh.length

private theorem ThrowStays.ne (h : ThrowStays out tag (frame :: eh) catches) :
    frame :: eh ≠ out.ehStack := by
  intro heq
  rcases h with hnil | hle
  · rw [hnil] at heq
    cases heq
  · rw [← heq] at hle
    have hpos : 0 < throwLeaves tag (frame :: eh) catches := by
      unfold throwLeaves
      split
      · exact Nat.lt_add_right _ Nat.one_pos
      · exact Nat.lt_add_right _ Nat.one_pos
    omega

private theorem ThrowStays.outer (h : ThrowStays out tag (frame :: eh) catches)
    (hmiss : findCatch catches tag frame.firstCatch frame.catchCount = some none) :
    ThrowStays out tag eh (catches.take frame.firstCatch) := by
  refine h.imp id fun hle => ?_
  rw [throwLeaves, hmiss, length_cons] at hle
  dsimp only at hle
  omega

/-- An exception ends in a handler whose annotation holds, or in a trap. -/
theorem dispatchException_ok (hout : Depths out) (hpayload : T.PayloadOk tag payload)
    (heh : k.ehStack = eh) (hover : T.Over out k)
    (hacts : T.Acts out fn a as base os k.ehStack k.ehCatches) (hguards : T.Guards a)
    (hunwinds : Unwinds k as base) (hos : T.chk = true → os <:+ k.os)
    (hstays : ThrowStays out tag eh k.ehCatches) :
    T.StepOk out (dispatchException T.toProgram tag payload eh k) := by
  induction eh generalizing k fn a as base os with
  | nil => exact hover
  | cons frame eh ih =>
    -- the activation that entered the topmost frame
    obtain ⟨fn, a, as, base, os, kept, tries, htries, hacts, hguards, hunwinds, hos⟩ :=
      (hacts.owned hguards hunwinds hos).resolve_left (heh ▸ hstays.ne)
    have howner := hacts
    obtain ⟨os', eh', catches', hwindow, hseg, hbelow⟩ := hacts
    rw [htries] at hseg
    generalize hcatches : k.ehCatches = catches at hseg hstays
    rw [heh] at hseg
    cases hseg with
    | @cons _ _ _ catches entries hseg hentries =>
      unfold dispatchException
      split
      · trivial
      next e hfind =>
        rw [hcatches] at hfind
        exact enterHandler_ok hout hpayload hover htries howner hguards hunwinds hos rfl
          (hentries e (findCatch_mem hfind)) (findCatch_catches hfind)
      next hfind =>
        rw [hcatches] at hfind
        rw [leaveEhFrame_cons heh, hcatches, take_left]
        have hunwinds₀ : Unwinds { k with ehStack := eh, ehCatches := catches } as base :=
          ⟨hunwinds.suffix, hunwinds.top, hunwinds.frame⟩
        obtain ⟨huas, hubase⟩ := hunwinds₀.unwind
        obtain ⟨hueh, hucatches, huasIndex, huosIndex, huos, huexns⟩ :=
          unwindCallStackTo_eq { k with ehStack := eh, ehCatches := catches } as.length
        generalize Control.unwindCallStackTo { k with ehStack := eh, ehCatches := catches }
          as.length = u at *
        have hacts : T.Acts out fn ⟨tries, a.ops⟩ as base os u.ehStack u.ehCatches := by
          rw [hueh, hucatches]
          exact ⟨os', eh', catches', hwindow, hseg, hbelow⟩
        obtain ⟨has, -, hehout, hcatchesout⟩ := hacts.suffix
        apply ih hueh _ hacts
        · intro hchk
          obtain ⟨ts, hts, hguarded⟩ := hguards hchk
          rw [htries] at hguarded
          exact ⟨ts, hts, (forall_mem_cons.mp hguarded).2⟩
        · have := Unwinds.refl u
          rw [huas, hubase] at this
          exact this
        · rw [huos]
          exact hos
        · have htake : (catches ++ entries).take catches.length = catches := take_left
          rw [hucatches, ← htake]
          exact hstays.outer hfind
        · apply hover.of_eq _ hehout hcatchesout _ (Prod.ext huexns (Prod.ext huasIndex huosIndex))
          · rw [huas]
            exact has
          · rw [huos]
            exact hover.os

end TypedProgram

end PsiServe.Typing
