import PsiServe.Bitcode.Writer
import PsiServe.Typing.Annotation

/-!
# Annotated code under construction

The slots a bitcode writer has filled so far, each with its annotation and, for every
branch target it has, the annotation control arrives with. A target is resolved or waits
to be filled in. `CodeOk` is what appending opcodes and filling in targets preserve.
-/

namespace PsiServe.Typing

open Wasm Bitcode Interp List

/-- Annotation of an emitted opcode and of its branch targets. Slots that hold data of the
opcode before them have no annotation of their own. -/
structure Slot where
  ann : Option Ann
  targets : List Ann

/-- Annotation of an emitted position, or of the one that comes next. -/
def annAt (slots : List Slot) (cur : Ann) (n : Nat) : Option Ann :=
  if n = slots.length then some cur else (slots[n]?).bind Slot.ann

/-- Control may continue at a position as an annotation describes. -/
def Reaches (slots : List Slot) (cur : Ann) (n : Nat) (a : Ann) : Prop :=
  ∃ b, annAt slots cur n = some b ∧ Flow a b

/-- Slots were appended, the first of them annotated as the position was before. -/
def Extends (slots : List Slot) (cur : Ann) (slots' : List Slot) (cur' : Ann) : Prop :=
  slots' = slots ∧ Flow cur cur' ∨
    ∃ s more a, slots' = slots ++ s :: more ∧ s.ann = some a ∧ Flow cur a

/-- The target `b` exists and passes on what `a` describes. -/
def Expects (slots : List Slot) (b : Branch) (a : Ann) : Prop :=
  ∃ s t, slots[b.slot]? = some s ∧ s.targets[b.entry]? = some t ∧ Flow t a

/-- Control may continue at a branch target of a slot. -/
def TargetIn (slots : List Slot) (n entry : Nat) (a : Ann) : Prop :=
  ∃ s t, slots[n]? = some s ∧ s.targets[entry]? = some t ∧ Flow a t

/-- The slots of a catch clause; the target is in the second of them. -/
def ClauseIn (code : List Instr) (slots : List Slot) (c : Nat) (data : UInt32)
    (depthChange : Nat) (leaves : UInt32) : Prop :=
  ClauseAt code c data depthChange leaves ∧ ∀ s, slots[c]? = some s → s.targets = []

/-- An opcode has the branch targets its slot lists. -/
def TargetsFit (ts : List Ann) : Instr → Prop
  | .if_ _ | .else_ _ | .br _ _ | .brIf _ _ _ | .catch_ _ _ | .catchAll _ | .tryTable _ _ =>
    ts.length ≤ 1
  | .brTable _ table => ts.length ≤ table.length
  | _ => ts = []

/-- Code emitted from `base` on: every opcode respects its annotation, and every branch
target is resolved or `pending`. -/
structure CodeOk (m : Module) (fn : FnShape) (base : Nat) (code : List Instr)
    (slots : List Slot) (cur : Ann) (pending : Branch → Ann → Prop) : Prop where
  length : code.length = slots.length
  ok : ∀ (n : Nat) (s : Slot) (a : Ann) (i : Instr), slots[n]? = some s → s.ann = some a →
    code[n]? = some i →
    InstrOk m fn (ClauseIn code slots) (Reaches slots cur) (TargetIn slots) n a i
  fit : ∀ (n : Nat) (s : Slot) (i : Instr), slots[n]? = some s → code[n]? = some i →
    TargetsFit s.targets i
  expects : ∀ b a, pending b a → Expects slots b a
  targets : ∀ (n e : Nat) (s : Slot) (t : Ann) (i : Instr), slots[n]? = some s →
    s.targets[e]? = some t → code[n]? = some i →
    (∃ a, pending ⟨n, e⟩ a) ∨ ∃ p, targetPc e i = some (base + p) ∧ Reaches slots cur p t

/-! ### Appending -/

variable {n : Nat} {a : Ann}

section

variable {slots slots' slots'' : List Slot} {cur cur' cur'' b : Ann}

/-- The next position has the current annotation. -/
theorem annAt_length (slots : List Slot) (cur : Ann) :
    annAt slots cur slots.length = some cur := if_pos rfl

/-- A written position has the annotation of its slot. -/
theorem annAt_of_lt (hn : n < slots.length) : annAt slots cur n = (slots[n]?).bind Slot.ann :=
  if_neg (ne_of_lt hn)

/-- Nothing behind the next position is reached. -/
theorem Reaches.le (h : Reaches slots cur n a) : n ≤ slots.length := by
  obtain ⟨b, hb, -⟩ := h
  by_contra hlt
  rw [annAt, if_neg (by omega), getElem?_eq_none (by omega)] at hb
  cases hb

/-- The annotation of a position may be strengthened. -/
theorem Reaches.flow (h : Reaches slots cur n b) (hflow : Flow a b) : Reaches slots cur n a := by
  obtain ⟨c, hc, hb⟩ := h
  exact ⟨c, hc, hflow.trans hb⟩

/-- The next position is reached. -/
theorem Reaches.last (hflow : Flow a cur) : Reaches slots cur slots.length a :=
  ⟨cur, annAt_length slots cur, hflow⟩

/-- No slots are added. -/
theorem Extends.refl (slots : List Slot) (cur : Ann) : Extends slots cur slots cur :=
  .inl ⟨rfl, .refl cur⟩

/-- Slots are added. -/
theorem Extends.append (slots : List Slot) (s : Slot) (more : List Slot) (cur' : Ann)
    (h : s.ann = some cur) : Extends slots cur (slots ++ s :: more) cur' :=
  .inr ⟨s, more, cur, rfl, h, .refl cur⟩

/-- Slots are added twice. -/
theorem Extends.trans (h : Extends slots cur slots' cur') (h' : Extends slots' cur' slots'' cur'') :
    Extends slots cur slots'' cur'' := by
  rcases h with ⟨rfl, hflow⟩ | ⟨s, more, a, rfl, hs, hflow⟩
  · rcases h' with ⟨rfl, hflow'⟩ | ⟨s, more, a, rfl, hs, hflow'⟩
    · exact .inl ⟨rfl, hflow.trans hflow'⟩
    · exact .inr ⟨s, more, a, rfl, hs, hflow.trans hflow'⟩
  · rcases h' with ⟨rfl, -⟩ | ⟨s', more', -, rfl, -⟩
    · exact .inr ⟨s, more, a, rfl, hs, hflow⟩
    · exact .inr ⟨s, more ++ s' :: more', a, by simp only [append_assoc,
        cons_append], hs, hflow⟩

/-- What could be reached before can be reached after. -/
theorem Reaches.extend (h : Reaches slots cur n a) (hext : Extends slots cur slots' cur') :
    Reaches slots' cur' n a := by
  have hle := h.le
  obtain ⟨b, hb, hflow⟩ := h
  rcases hext with ⟨rfl, hcur⟩ | ⟨s, more, c, rfl, hs, hcur⟩
  · by_cases hn : n = slots'.length
    · rw [annAt, if_pos hn] at hb
      cases hb
      exact ⟨cur', if_pos hn, hflow.trans hcur⟩
    · rw [annAt, if_neg hn] at hb
      exact ⟨b, (if_neg hn).trans hb, hflow⟩
  · have hlt : n < (slots ++ s :: more).length := by
      rw [length_append, length_cons]
      omega
    by_cases hn : n = slots.length
    · rw [annAt, if_pos hn] at hb
      cases hb
      refine ⟨c, ?_, hflow.trans hcur⟩
      rw [annAt_of_lt hlt, hn, getElem?_append_right (le_rfl), Nat.sub_self]
      exact hs
    · refine ⟨b, ?_, hflow⟩
      rw [annAt_of_lt hlt, getElem?_append_left (by omega)]
      rw [annAt, if_neg hn] at hb
      exact hb

/-- The entries of the first part of a list. -/
theorem getElem?_of_isPrefix {α : Type} {xs ys : List α} {i : Nat} {x : α} (h : xs <+: ys)
    (hx : xs[i]? = some x) : ys[i]? = some x := by
  obtain ⟨zs, rfl⟩ := h
  rw [getElem?_append_left (List.getElem?_eq_some_iff.mp hx).1]
  exact hx

private theorem getElem?_append_add {α : Type} (xs ys : List α) (j : Nat) :
    (xs ++ ys)[xs.length + j]? = ys[j]? := by
  rw [getElem?_append_right (Nat.le_add_right _ _), Nat.add_sub_cancel_left]

private theorem Expects.extend {br : Branch} (h : Expects slots br a) (hpre : slots <+: slots') :
    Expects slots' br a := by
  obtain ⟨s, t, hs, ht, hflow⟩ := h
  exact ⟨s, t, getElem?_of_isPrefix hpre hs, ht, hflow⟩

end

variable {m : Module} {fn : FnShape}

namespace CodeOk

variable {base : Nat} {code is : List Instr} {slots ss : List Slot} {cur cur' : Ann}
  {pending pending' : Branch → Ann → Prop}

/-- The targets of appended slots. -/
def NewTarget (n : Nat) (ss : List Slot) (b : Branch) (a : Ann) : Prop :=
  ∃ j s, b.slot = n + j ∧ ss[j]? = some s ∧ s.targets[b.entry]? = some a

section

variable (h : CodeOk m fn base code slots cur pending)

include h

/-- Which targets wait may be described differently. -/
theorem repend (hexpects : ∀ b a, pending' b a → Expects slots b a)
    (hkeep : ∀ b a, pending b a → ∃ a', pending' b a') :
    CodeOk m fn base code slots cur pending' := by
  refine ⟨h.length, h.ok, h.fit, hexpects, fun n e s t i hs ht hi => ?_⟩
  exact (h.targets n e s t i hs ht hi).imp (fun ⟨a, ha⟩ => hkeep _ a ha) id

/-- Appended opcodes respect their annotations; their targets wait. -/
theorem append (hlen : is.length = ss.length) (hext : Extends slots cur (slots ++ ss) cur')
    (hok : ∀ (j : Nat) (s : Slot) (a : Ann) (i : Instr), ss[j]? = some s → s.ann = some a →
      is[j]? = some i → InstrOk m fn (ClauseIn (code ++ is) (slots ++ ss))
        (Reaches (slots ++ ss) cur') (TargetIn (slots ++ ss)) (slots.length + j) a i)
    (hfit : ∀ (j : Nat) (s : Slot) (i : Instr), ss[j]? = some s → is[j]? = some i →
      TargetsFit s.targets i) :
    CodeOk m fn base (code ++ is) (slots ++ ss) cur'
      (fun b a => pending b a ∨ NewTarget slots.length ss b a) := by
  have hpre : slots <+: slots ++ ss := prefix_append slots ss
  have hold : ∀ n, n < code.length → (slots ++ ss)[n]? = slots[n]? :=
    fun n hn => getElem?_append_left (h.length ▸ hn)
  have hcases : ∀ n s i, (slots ++ ss)[n]? = some s → (code ++ is)[n]? = some i →
      slots[n]? = some s ∧ code[n]? = some i ∨
        ∃ j, n = slots.length + j ∧ ss[j]? = some s ∧ is[j]? = some i := by
    intro n s i hs hi
    by_cases hn : n < code.length
    · rw [hold n hn] at hs
      rw [getElem?_append_left hn] at hi
      exact .inl ⟨hs, hi⟩
    · obtain ⟨j, rfl⟩ := Nat.exists_eq_add_of_le (Nat.le_of_not_lt hn)
      rw [getElem?_append_add] at hi
      rw [h.length] at hs ⊢
      rw [getElem?_append_add] at hs
      exact .inr ⟨j, rfl, hs, hi⟩
  refine ⟨?_, ?_, ?_, ?_, ?_⟩
  · rw [length_append, length_append, h.length, hlen]
  · intro n s a i hs ha hi
    obtain ⟨hs, hi⟩ | ⟨j, rfl, hs, hi⟩ := hcases n s i hs hi
    · refine (h.ok n s a i hs ha hi).mono ?_ (fun _ _ hr => hr.extend hext) ?_
      · rintro c d x l ⟨⟨pc, hc, hc'⟩, hc''⟩
        refine ⟨⟨pc, getElem?_of_isPrefix (prefix_append code is) hc,
          getElem?_of_isPrefix (prefix_append code is) hc'⟩, fun s hs => ?_⟩
        obtain ⟨hlt, -⟩ := List.getElem?_eq_some_iff.mp hc
        rw [hold c hlt] at hs
        exact hc'' s hs
      · rintro k e b ⟨s, t, hs, ht⟩
        exact ⟨s, t, getElem?_of_isPrefix hpre hs, ht⟩
    · exact hok j s a i hs ha hi
  · intro n s i hs hi
    obtain ⟨hs, hi⟩ | ⟨j, rfl, hs, hi⟩ := hcases n s i hs hi
    · exact h.fit n s i hs hi
    · exact hfit j s i hs hi
  · rintro b a (hb | ⟨j, s, hj, hs, ht⟩)
    · exact (h.expects b a hb).extend hpre
    · refine ⟨s, a, ?_, ht, .refl a⟩
      rw [hj, getElem?_append_add]
      exact hs
  · intro n e s t i hs ht hi
    obtain ⟨hs, hi⟩ | ⟨j, rfl, hs, hi⟩ := hcases n s i hs hi
    · rcases h.targets n e s t i hs ht hi with ⟨a, ha⟩ | ⟨p, hp, hr⟩
      · exact .inl ⟨a, .inl ha⟩
      · exact .inr ⟨p, hp, hr.extend hext⟩
    · exact .inl ⟨t, .inr ⟨j, s, rfl, hs, ht⟩⟩

/-- The next position may be described differently. -/
theorem flow (hflow : Flow cur cur') : CodeOk m fn base code slots cur' pending := by
  have hext : Extends slots cur slots cur' := .inl ⟨rfl, hflow⟩
  refine ⟨h.length, fun n s a i hs ha hi => ?_, h.fit, h.expects, fun n e s t i hs ht hi => ?_⟩
  · exact (h.ok n s a i hs ha hi).mono (fun _ _ _ _ h => h) (fun _ _ hr => hr.extend hext)
      fun _ _ _ h => h
  · exact (h.targets n e s t i hs ht hi).imp id fun ⟨p, hp, hr⟩ => ⟨p, hp, hr.extend hext⟩

/-- One opcode that continues with the next position or at its targets. -/
theorem emit {i : Instr} {ts : List Ann}
    (hok : InstrOk m fn (fun _ _ _ _ => False) (fun k b => k = slots.length + 1 ∧ Flow b cur')
      (fun k e b => k = slots.length ∧ ∃ t, ts[e]? = some t ∧ Flow b t) slots.length cur i)
    (hfit : TargetsFit ts i) :
    CodeOk m fn base (code ++ [i]) (slots ++ [⟨some cur, ts⟩]) cur'
      (fun b a => pending b a ∨ b.slot = slots.length ∧ ts[b.entry]? = some a) := by
  have hnew : CodeOk m fn base (code ++ [i]) (slots ++ [⟨some cur, ts⟩]) cur'
      (fun b a => pending b a ∨ NewTarget slots.length [⟨some cur, ts⟩] b a) := by
    refine h.append rfl (.append slots _ [] cur' rfl) (fun j s a i' hs ha hi => ?_)
      fun j s i' hs hi => ?_
    · cases j with
      | succ j => cases hs
      | zero =>
        cases hs
        cases hi
        cases ha
        refine hok.mono (fun _ _ _ _ h => h.elim) ?_ ?_
        · rintro k b ⟨rfl, hflow⟩
          have hlen : (slots ++ [(⟨some cur, ts⟩ : Slot)]).length = slots.length + 1 :=
            length_append
          rw [← hlen]
          exact .last hflow
        · rintro k e b ⟨rfl, t, ht, hflow⟩
          exact ⟨⟨some cur, ts⟩, t, getElem?_concat_length .., ht, hflow⟩
    · cases j with
      | succ j => cases hs
      | zero =>
        cases hs
        cases hi
        exact hfit
  refine hnew.repend ?_ ?_
  · rintro b a (hb | ⟨hb, ht⟩)
    · exact hnew.expects b a (.inl hb)
    · exact hnew.expects b a (.inr ⟨0, _, hb, rfl, ht⟩)
  · rintro b a (hb | ⟨j, s, hj, hs, ht⟩)
    · exact ⟨a, .inl hb⟩
    · cases j with
      | succ j => cases hs
      | zero =>
        cases hs
        exact ⟨a, .inr ⟨hj, ht⟩⟩

end

/-! ### Filling in targets -/

end CodeOk

variable {i : Instr} {ts : List Ann}

/-- Filling in a target does not change what the opcode respects. -/
theorem InstrOk.setPc {clause : Nat → UInt32 → Nat → UInt32 → Prop}
    {reach : Nat → Ann → Prop} {target : Nat → Nat → Ann → Prop} (entry pc : Nat)
    (h : InstrOk m fn clause reach target n a i) :
    InstrOk m fn clause reach target n a (i.setPc entry pc) := by
  cases i with
  | brTable size table =>
    obtain ⟨b, hpops, hcases⟩ := h
    refine ⟨b, hpops, fun e x hx => ?_⟩
    rw [getElem?_modify] at hx
    obtain ⟨y, hy, rfl⟩ := Option.map_eq_some_iff.mp hx
    obtain ⟨c, hbranches, htarget⟩ := hcases e y hy
    refine ⟨c, ?_, htarget⟩
    split
    · exact hbranches
    · exact hbranches
  | _ => exact h

/-- Widening a gas charge does not change what it respects. -/
theorem InstrOk.addCost {clause : Nat → UInt32 → Nat → UInt32 → Prop}
    {reach : Nat → Ann → Prop} {target : Nat → Nat → Ann → Prop} (extra : Int)
    (h : InstrOk m fn clause reach target n a i) :
    InstrOk m fn clause reach target n a (i.addCost extra) := by
  cases i with
  | gasCharge c =>
    obtain ⟨b, htries, hreach, hops⟩ := h
    refine ⟨b, htries, hreach, fun ts hts => ?_⟩
    obtain ⟨takes, gives, rest, hmoves, hrest⟩ := hops ts hts
    refine ⟨takes, gives, rest, ?_, hrest⟩
    cases hmoves with
    | gasCharge => exact .gasCharge _
    | plain h | bulk h => cases h
  | _ => exact h

private theorem TargetsFit.setPc (entry pc : Nat) (h : TargetsFit ts i) :
    TargetsFit ts (i.setPc entry pc) := by
  cases i with
  | brTable size table =>
    change ts.length ≤ (table.modify entry _).length
    rw [length_modify]
    exact h
  | _ => exact h

/-- The filled in target of an opcode that has it; its other targets stay. -/
theorem targetPc_setPc {e entry pc : Nat} {t u : Ann} (hfit : TargetsFit ts i)
    (ht : ts[e]? = some t) (hu : ts[entry]? = some u) :
    targetPc e (i.setPc entry pc) = if e = entry then some pc else targetPc e i := by
  obtain ⟨he, -⟩ := List.getElem?_eq_some_iff.mp ht
  obtain ⟨hentry, -⟩ := List.getElem?_eq_some_iff.mp hu
  cases i with
  | brTable size table =>
    change ts.length ≤ table.length at hfit
    change ((table.modify entry _)[e]?).map _ = _
    rw [getElem?_modify, getElem?_eq_getElem (by omega)]
    split
    next heq =>
      rw [if_pos heq.symm]
      rfl
    next hne =>
      rw [if_neg (Ne.symm hne), targetPc, getElem?_eq_getElem (by omega)]
      rfl
  | if_ _ | else_ _ | br _ _ | brIf _ _ _ | catch_ _ _ | catchAll _ | tryTable _ _ =>
    change ts.length ≤ 1 at hfit
    rw [if_pos (by omega)]
    rfl
  | _ =>
    rw [hfit] at he
    exact absurd he (Nat.not_lt_zero e)

namespace CodeOk

variable {base pos : Nat} {code : List Instr} {slots : List Slot} {cur : Ann}
  {pending pending' : Branch → Ann → Prop}

section

variable (h : CodeOk m fn base code slots cur pending)

include h

/-- One opcode changes; what it respects and the targets it has stay. -/
theorem modify {slot : Nat} {f : Instr → Instr}
    (hclause : ∀ c d x l, ClauseIn code slots c d x l →
      ClauseIn (code.modify slot f) slots c d x l)
    (hok : ∀ {clause reach target n a i}, InstrOk m fn clause reach target n a i →
      InstrOk m fn clause reach target n a (f i))
    (hfit : ∀ {ts i}, TargetsFit ts i → TargetsFit ts (f i))
    (hexpects : ∀ b a, pending' b a → Expects slots b a)
    (htargets : ∀ n e s t i, slots[n]? = some s → s.targets[e]? = some t → code[n]? = some i →
      (∃ a, pending' ⟨n, e⟩ a) ∨ ∃ p, targetPc e (if slot = n then f i else i) = some (base + p) ∧
        Reaches slots cur p t) :
    CodeOk m fn base (code.modify slot f) slots cur pending' := by
  have hmod : ∀ n i, (code.modify slot f)[n]? = some i →
      ∃ i', code[n]? = some i' ∧ i = if slot = n then f i' else i' := by
    intro n i hi
    rw [getElem?_modify] at hi
    obtain ⟨i', hi', rfl⟩ := Option.map_eq_some_iff.mp hi
    refine ⟨i', hi', ?_⟩
    split
    · rfl
    · rfl
  refine ⟨?_, ?_, ?_, hexpects, ?_⟩
  · rw [length_modify]
    exact h.length
  · intro n s a i hs ha hi
    obtain ⟨i', hi', rfl⟩ := hmod n i hi
    have hi := (h.ok n s a i' hs ha hi').mono hclause (fun _ _ h => h) fun _ _ _ h => h
    split
    · exact hok hi
    · exact hi
  · intro n s i hs hi
    obtain ⟨i', hi', rfl⟩ := hmod n i hi
    split
    · exact hfit (h.fit n s i' hs hi')
    · exact h.fit n s i' hs hi'
  · intro n e s t i hs ht hi
    obtain ⟨i', hi', rfl⟩ := hmod n i hi
    exact htargets n e s t i' hs ht hi'

/-- Fill in one target. -/
theorem fix {b : Branch} {a : Ann} (hb : Expects slots b a) (hreach : Reaches slots cur pos a) :
    CodeOk m fn base (code.modify b.slot (Instr.setPc b.entry (base + pos))) slots cur
      (fun b' a => pending b' a ∧ b' ≠ b) := by
  obtain ⟨sb, tb, hsb, htb, hflow⟩ := hb
  refine h.modify ?_ (.setPc _ _) (.setPc _ _) (fun b' a' hb' => h.expects b' a' hb'.1) ?_
  · rintro c d x l ⟨⟨pc, hc, hc'⟩, hc''⟩
    -- the first slot of a clause has no target, so it is not the one filled in
    have hne : b.slot ≠ c := by
      rintro rfl
      rw [hc'' sb hsb] at htb
      cases htb
    refine ⟨⟨if b.slot = c + 1 then base + pos else pc, ?_, ?_⟩, hc''⟩
    · rw [getElem?_modify, hc]
      exact congrArg some (if_neg hne)
    · rw [getElem?_modify, hc']
      split
      · rfl
      · rfl
  · intro n e s t i hs ht hi
    by_cases hn : b.slot = n
    · subst hn
      obtain rfl := Option.mem_unique hsb hs
      rw [if_pos rfl, targetPc_setPc (h.fit _ _ i hs hi) ht htb]
      by_cases he : e = b.entry
      · subst he
        obtain rfl := Option.mem_unique htb ht
        exact .inr ⟨pos, if_pos rfl, hreach.flow hflow⟩
      · rw [if_neg he]
        refine (h.targets _ e _ t i hs ht hi).imp (fun ⟨a, ha⟩ => ⟨a, ha, ?_⟩) id
        exact fun heq => he (congrArg Branch.entry heq)
    · rw [if_neg hn]
      refine (h.targets n e s t i hs ht hi).imp (fun ⟨a, ha⟩ => ⟨a, ha, ?_⟩) id
      exact fun heq => hn (congrArg Branch.slot heq).symm

/-- Fill in several targets with one position. -/
theorem fixAll {bs : List Branch} (hbs : ∀ b ∈ bs, ∃ a, Expects slots b a ∧ Reaches slots cur pos a)
    :
    CodeOk m fn base
      (bs.foldl (fun code b => code.modify b.slot (Instr.setPc b.entry (base + pos))) code)
      slots cur (fun b a => pending b a ∧ b ∉ bs) := by
  induction bs generalizing code pending with
  | nil =>
    refine h.repend (fun b a hb => h.expects b a hb.1) fun b a hb => ⟨a, hb, ?_⟩
    exact not_mem_nil
  | cons b bs ih =>
    obtain ⟨a, ha, hreach⟩ := hbs b mem_cons_self
    have hrest := ih (h.fix ha hreach) (forall_mem_cons.mp hbs).2
    refine hrest.repend (fun b' a' hb' => h.expects b' a' hb'.1) ?_
    rintro b' a' ⟨⟨hb', hne⟩, hnotin⟩
    refine ⟨a', hb', ?_⟩
    rw [mem_cons]
    rintro (heq | hmem)
    · exact hne heq
    · exact hnotin hmem

/-- Widen a gas charge. -/
theorem addCost (slot : Nat) (extra : Int) :
    CodeOk m fn base (code.modify slot (Instr.addCost extra)) slots cur pending := by
  have hkeep : ∀ (n : Nat) (d : UInt32) (x : Nat), code[n]? = some (.tryTable d x) →
      (code.modify slot (Instr.addCost extra))[n]? = some (.tryTable d x) := by
    intro n d x hn
    rw [getElem?_modify, hn]
    split
    · rfl
    · rfl
  refine h.modify ?_ (.addCost extra) (fun {_ i} hfit => ?_) h.expects ?_
  · rintro c d x l ⟨⟨pc, hc, hc'⟩, hc''⟩
    exact ⟨⟨pc, hkeep c d x hc, hkeep (c + 1) l pc hc'⟩, hc''⟩
  · cases i with
    | _ => exact hfit
  · intro n e s t i hs ht hi
    have htarget := h.targets n e s t i hs ht hi
    split
    · cases i with
      | _ => exact htarget
    · exact htarget

end

end CodeOk

end PsiServe.Typing
