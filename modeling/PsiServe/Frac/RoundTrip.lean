import PsiServe.Frac.Meet

/-!
# Round trips

Values that are encoded without loss are read back by their own type, and by types that add
optional fields; other values are not accepted. A reader that lacks fields accepts the data
exactly as long as it does not lose its position.
-/

namespace PsiServe.Frac

open Base List Ty

/-! ### Effects on a walk that knows its position -/

/-- Nothing is accepted after this, unless fields are unknown. -/
def Spoils (o : Option Sight) : Prop := ∀ a, o = some a → a.lost = true

def Keeps (effect : Sight → Option Sight) : Prop := ∀ u, effect (.exact u) = some (.exact u)

def Breaks (effect : Sight → Option Sight) : Prop := ∀ u, Spoils (effect (.exact u))

def Absorbs (effect : Sight → Option Sight) : Prop := ∀ a : Sight, a.lost = true → Spoils (effect a)

variable {a : Sight} {t : Ty} {v : Val} {vs : List Val}

private theorem Spoils.none : Spoils none := nofun

private theorem Spoils.some (h : a.lost = true) : Spoils (some a) := by
  intro b hb
  cases hb
  exact h

private theorem Spoils.bind {o : Option Sight} {k : Sight → Option Sight} (h : Spoils o)
    (hk : Absorbs k) : Spoils (o.bind k) := by
  cases o with
  | none => exact .none
  | some a => exact hk a (h a rfl)

section

variable {fs : List (Sight → Option Sight)}

private theorem absorbs_run (h : ∀ f ∈ fs, Absorbs f) : Absorbs (runEffects fs) := by
  induction fs with
  | nil => exact fun a ha => .some ha
  | cons f fs ih =>
    intro a ha
    exact (h f mem_cons_self a ha).bind (ih (forall_mem_cons.mp h).2)

/-- One member that is not read to its end spoils the walk. -/
theorem breaks_run (habsorb : ∀ f ∈ fs, Absorbs f) (hall : ∀ f ∈ fs, Keeps f ∨ Breaks f)
    (hone : ∃ f ∈ fs, Breaks f) : Breaks (runEffects fs) := by
  induction fs with
  | nil =>
    obtain ⟨f, hf, -⟩ := hone
    cases hf
  | cons f fs ih =>
    intro u
    have hrest : ∀ g ∈ fs, Absorbs g := (forall_mem_cons.mp habsorb).2
    rcases hall f mem_cons_self with hkeep | hbreak
    · rw [runEffects, hkeep u]
      refine ih hrest (forall_mem_cons.mp hall).2 ?_ u
      obtain ⟨g, hg, hgb⟩ := hone
      rcases mem_cons.mp hg with rfl | hg
      · have hlost := hgb u _ (hkeep u)
        cases hlost
      · exact ⟨g, hg, hgb⟩
    · exact (hbreak u).bind (absorbs_run hrest)

end

/-! ### Slots -/

private theorem Sight.reset_lost (h : a.lost = true) : a.reset.lost = true := by
  rw [Sight.lost, Bool.and_eq_true] at h ⊢
  exact ⟨rfl, h.2⟩

private theorem absorbs_indirect (t : Ty) (object : Val → Bool → Option Sight) (v : Val) :
    Absorbs (t.indirect object v) := by
  intro a ha
  rw [indirect]
  split
  · exact .some (Sight.reset_lost ha)
  · split
    · exact .none
    · rw [Sight.follow, if_pos ha]
      exact .none

private theorem absorbs_of (t : Ty) (read : Val → Val) (object : Val → Bool → Option Sight)
    (v : Val) : Absorbs ((Meeting.of t read object).slot v) := by
  intro a ha
  change Spoils (if t.traits.isVariableSize then t.indirect object v a else some a.reset)
  split
  · exact absorbs_indirect t object v a ha
  · exact .some (Sight.reset_lost ha)

section

variable {d f : Bool}

private theorem Ty.meeting_eq_of : {s r : Ty} → s.Evolves d f r → s.traits.isOptional = false →
    s.meeting r = .of s (s.meeting r).read (s.meeting r).object
  | .num _, .num _, _, _ | .bool, .bool, _, _ | .bitset _, .bitset _, _, _
  | .string, .string, _, _ | .assoc _, .assoc _, _, _ | .boundedString _, .boundedString _, _, _
  | .boundedList _ _, .boundedList _ _, _, _ | .bitlist _, .bitlist _, _, _
  | .tuple _, .tuple _, _, _ | .variant _, .variant _, _, _ => rfl
  | .vector _, .vector _, _, _ | .array _ _, .array _ _, _, _
  | .struct true _ _ _, .struct true _ _ _, _, _ => by
    rw [meeting]
    split <;> rfl
  | .struct false _ _ _, .struct false _ _ _, _, _ => rfl

variable {s r : Ty}

/-- A walk that lost its position stays lost, whatever slot comes. -/
theorem Ty.absorbs (h : s.Evolves d f r) (v : Val) : Absorbs ((s.meeting r).slot v) := by
  cases hopt : s.traits.isOptional with
  | false =>
    rw [meeting_eq_of h hopt]
    exact absorbs_of _ _ _ v
  | true =>
    obtain ⟨s, rfl⟩ := eq_optional hopt
    obtain ⟨r, rfl⟩ := eq_optional (h.same.1 ▸ hopt)
    cases v with
    | some x => exact absorbs_indirect s _ x
    | _ => exact fun a ha => .some ha

end

/-- An empty container is not looked into. -/
def Ty.LosslessSlot (t : Ty) (v : Val) : Prop := t.traits.isEmptyContainer v = true ∨ t.Lossless v

private theorem Ty.LosslessSlot.lossless (h : t.LosslessSlot v)
    (h0 : t.traits.supports0Offset = false) : t.Lossless v := by
  rcases h with hempty | h
  · rw [Traits.isEmptyContainer, h0] at hempty
    cases hempty
  · exact h

private theorem looksEmpty_length {tr : Traits} {width n : Nat} {rest : Bytes} (hn : n ≠ 0)
    (hlt : n < 256 ^ width) : looksEmpty tr width (leBytes width n ++ rest) = false := by
  have htake : (leBytes width n ++ rest).take width = leBytes width n :=
    take_left' (length_leBytes width n)
  rw [looksEmpty, htake, leValue_leBytes hlt, beq_eq_false_iff_ne.mpr hn, Bool.and_false]

private theorem length_ne_zero {α : Type} {xs : List α} (h : xs.isEmpty = false) :
    xs.length ≠ 0 := by
  cases xs with
  | nil => cases h
  | cons => exact Nat.succ_ne_zero _

/-- A container that is not empty does not look empty. -/
theorem Ty.looksEmpty_of_lossless : {t : Ty} → {v : Val} → t.Has v → t.Lossless v →
    t.traits.isEmptyContainer v = false →
    looksEmpty t.traits t.lengthWidth (t.coding.body v) = false
  | .string, .string _, _, h, hne | .boundedString _, .string _, _, h, hne =>
    looksEmpty_length (length_ne_zero hne) h
  | .bitlist n, .bits bs, hv, h, hne => by
    have hlt : bs.length < 2 ^ 32 := (Nat.le_add_right _ 7).trans_lt h
    exact looksEmpty_length (length_ne_zero hne) (lt_boundedLength hv hlt)
  | .vector t, .bits bs, hv, h, hne => by
    have hlt : bs.length < 256 ^ 4 := (Nat.le_add_right _ 7).trans_lt h
    have hbody : (vector t).coding.body (.bits bs) = bitsBody 4 bs := if_pos hv
    rw [hbody]
    exact looksEmpty_length (length_ne_zero hne) hlt
  | .vector t, .list vs, hv, h, hne => by
    have hbody : (vector t).coding.body (.list vs) = _ := if_neg (Bool.eq_false_iff.mp hv.1)
    rw [hbody]
    exact looksEmpty_length (Nat.mul_ne_zero (length_ne_zero hne) h.1) h.2.1
  | .assoc _, .list _, _, h, hne | .boundedList _ _, .list _, _, h, hne =>
    looksEmpty_length (Nat.mul_ne_zero (length_ne_zero hne) h.1) h.2.1
  | .num _, _, _, _, _ | .bool, _, _, _, _ | .bitset _, _, _, _, _ | .optional _, _, _, _, _
  | .tuple _, _, _, _, _ | .variant _, _, _, _, _ => rfl
  | .array _ _, _, _, _, _ | .struct _ _ _ _, _, _, _, _ => by
    rw [looksEmpty, traits]
    split <;> rfl

mutual

/-- Values of a fixed size have no lengths. -/
theorem Ty.lossless_of_fixed : (t : Ty) → {v : Val} → t.traits.isVariableSize = false →
    t.Has v → t.Lossless v
  | .num _, .num _, _, _ | .bool, .bool _, _, _ | .bitset _, .bits _, _, _ => trivial
  | .array t n, .list vs, h, hv => by
    intro v hmem
    exact .inr (Ty.lossless_of_fixed t (fixed_of_array h) (hv.2 v hmem))
  | .struct dwnc unpadded n ts, .list vs, h, hv =>
    Tys.lossless_of_fixed ts (fixed_of_struct h).2 hv

private theorem Tys.lossless_of_fixed : (ts : Tys) → {vs : List Val} → ts.anyVariableSize = false →
    ts.Has vs → ts.Lossless vs
  | .nil, [], _, _ => trivial
  | .cons t ts, v :: vs, h, hv => by
    rw [Tys.anyVariableSize, Bool.or_eq_false_iff] at h
    exact ⟨.inr (Ty.lossless_of_fixed t h.1 hv.1), Tys.lossless_of_fixed ts h.2 hv.2⟩

end

/-! ### Sights -/

/-- What a reader with the writer's fields makes of an object: its end, or a lost position. -/
structure Judges (lossless : Prop) (object : Bool → Option Sight) : Prop where
  exact : lossless → ∀ u, object u = some (.exact u)
  spoils : ¬lossless → ∀ u, Spoils (object u)

/-- What it makes of a slot. -/
structure Steers (lossless : Prop) (effect : Sight → Option Sight) : Prop where
  keeps : lossless → Keeps effect
  breaks : ¬lossless → Breaks effect
  absorbs : Absorbs effect

section

variable {d f : Bool} {s r : Ty} {lossless : Prop} {ss rs : Tys}

private theorem steers_indirect {object : Val → Bool → Option Sight} (hv : s.Has v)
    (h : Judges (s.Lossless v) (object v)) : Steers (s.LosslessSlot v) (s.indirect object v) := by
  refine ⟨?_, ?_, absorbs_indirect s object v⟩
  · intro hloss u
    rw [indirect]
    split
    · rfl
    next hne =>
      rcases hloss with hempty | hloss
      · exact absurd hempty hne
      · rw [looksEmpty_of_lossless hv hloss (Bool.eq_false_iff.mpr hne)]
        exact h.exact hloss u
  · intro hloss u
    rw [Ty.LosslessSlot, not_or] at hloss
    rw [indirect, if_neg hloss.1]
    split
    · exact .none
    · exact h.spoils hloss.2 u

private theorem Steers.of_keeps {effect : Sight → Option Sight} (h : lossless)
    (hkeeps : Keeps effect) (habsorbs : Absorbs effect) : Steers lossless effect :=
  ⟨fun _ => hkeeps, fun hnot => absurd h hnot, habsorbs⟩

/-- The slot of a type, from its objects. -/
theorem Ty.steers (h : s.Evolves d f r) (hv : s.Has v)
    (hobject : Judges (s.Lossless v) ((s.meeting r).object v)) :
    Steers (s.LosslessSlot v) ((s.meeting r).slot v) := by
  cases hopt : s.traits.isOptional with
  | true =>
    obtain ⟨s, rfl⟩ := eq_optional hopt
    obtain ⟨r, rfl⟩ := eq_optional (h.same.1 ▸ hopt)
    have hslot : ∀ u, ((optional s).meeting (.optional r)).slot v (.exact u) =
        ((optional s).meeting (.optional r)).object v u := by
      cases v <;> exact fun _ => rfl
    refine ⟨?_, ?_, absorbs h v⟩
    · rintro (hempty | hloss) u
      · cases hempty
      · rw [hslot]
        exact hobject.exact hloss u
    · intro hloss u
      rw [hslot]
      exact hobject.spoils (fun hl => hloss (.inr hl)) u
  | false =>
    cases hvar : s.traits.isVariableSize with
    | true =>
      have hslot : (s.meeting r).slot v = s.indirect (s.meeting r).object v := by
        rw [meeting_eq_of h hopt]
        exact funext fun _ => if_pos hvar
      rw [hslot]
      exact steers_indirect hv hobject
    | false =>
      refine .of_keeps (.inr (lossless_of_fixed s hvar hv)) ?_ (absorbs h v)
      intro u
      rw [slot_of_fixed h hvar]
      rfl

private theorem judges_fixed (h : lossless) : Judges lossless fun u => some (.exact u) :=
  ⟨fun _ _ => rfl, fun hnot => absurd h hnot⟩

private theorem judges_bits (bs : List Bool) : Judges (bs.length + 7 < 2 ^ 32) (bitsSight bs) := by
  constructor
  · intro h u
    rw [(bits_of_lt h).2]
    rfl
  · intro h u a ha
    exact bitsSight_of_ge (not_lt.mp h) ha

private theorem judges_chars (width : Nat) (bs : Bytes) :
    Judges (bs.length < 256 ^ width) (charsSight width bs) :=
  ⟨fun h _ => if_pos h, fun h u a ha => by rw [charsSight, if_neg h] at ha; cases ha⟩

/-- A walk over slots. -/
theorem judges_run {ι : Type} {xs : List ι} {lossless : ι → Prop}
    {effect : ι → Sight → Option Sight} (h : ∀ x ∈ xs, Steers (lossless x) (effect x)) :
    Judges (∀ x ∈ xs, lossless x) (fun u => runEffects (xs.map effect) (.exact u)) := by
  constructor
  · intro hall
    exact fun u => runEffects_idle (forall_mem_map.mpr fun x hx => (h x hx).keeps (hall x hx) u)
  · intro hnot
    apply breaks_run
    · exact forall_mem_map.mpr fun x hx => (h x hx).absorbs
    · refine forall_mem_map.mpr fun x hx => ?_
      by_cases hl : lossless x
      · exact .inl ((h x hx).keeps hl)
      · exact .inr ((h x hx).breaks hl)
    · simp only [not_forall] at hnot
      obtain ⟨x, hx, hl⟩ := hnot
      exact ⟨_, mem_map_of_mem hx, (h x hx).breaks hl⟩

private theorem judges_elements {width : Nat}
    (h : ∀ v ∈ vs, Steers (s.LosslessSlot v) ((s.meeting r).slot v)) :
    Judges (s.traits.fixedSize ≠ 0 ∧ vs.length * s.traits.fixedSize < 256 ^ width ∧
      ∀ v ∈ vs, s.LosslessSlot v) (elementsSight width s (s.meeting r).slot vs) := by
  have hrun := judges_run h
  constructor
  · rintro ⟨hzero, hfits, hall⟩ u
    rw [elementsSight, if_neg hzero, if_pos hfits]
    exact hrun.exact hall u
  · intro hnot u
    rw [elementsSight]
    split
    · exact .none
    next hzero =>
      split
      next hfits => exact hrun.spoils (fun hall => hnot ⟨hzero, hfits, hall⟩) u
      · split
        · exact .some rfl
        · exact .none

/-- What is known of a member that is read as it was written. -/
structure Pair.Judged (f : Bool) (x : Pair) : Prop where
  evolves : x.writer.Evolves false f x.reader
  has : x.writer.Has x.val
  judges : Judges (x.writer.Lossless x.val) ((x.writer.meeting x.reader).object x.val)

private theorem Pair.Judged.steers {x : Pair} (h : x.Judged f) (checked : Bool) :
    Steers (x.writer.LosslessSlot x.val) (x.present checked).effect := by
  rw [Pair.present]
  split
  next hmem =>
    have hvar := isVariableSize_of_memcpy (Bool.and_eq_true_iff.mp hmem).2
    have hloss := lossless_of_fixed _ hvar h.has
    exact .of_keeps (.inr hloss) (fun _ => rfl) fun a ha => .some ha
  · exact Ty.steers h.evolves h.has h.judges

private theorem Tys.effects_eq (checked : Bool) : (ss rs : Tys) → (vs : List Val) →
    ss.effects checked rs vs = (ss.pairs rs vs).map fun x => (x.present checked).effect
  | .cons _ ss, .cons _ rs, _ :: vs => congrArg (_ :: ·) (Tys.effects_eq checked ss rs vs)
  | .nil, _, _ | .cons _ _, .nil, _ | .cons _ _, .cons _ _, [] => rfl

/-- A reader that knows all fields. -/
theorem Tys.lossless_iff : {ss rs : Tys} → {vs : List Val} → ss.Evolves false f rs →
    ss.Has vs → (ss.Lossless vs ↔ ∀ x ∈ ss.pairs rs vs, x.writer.LosslessSlot x.val)
  | .nil, .nil, [], _, _ | .nil, .cons _ _, [], _, _ =>
    ⟨nofun, fun _ => trivial⟩
  | .cons s ss, .cons r rs, v :: vs, h, hv => by
    rw [Tys.pairs, forall_mem_cons, ← Tys.lossless_iff h.2 hv.2]
    rfl
  | .cons _ _, .nil, _ :: _, h, _ => nomatch h.1

private theorem Tys.slots_length_le : {ss rs : Tys} → {vs : List Val} → ss.Evolves false f rs →
    (ss.slots vs).length ≤ rs.length
  | .nil, _, _, _ | .cons _ _, .cons _ _, [], _ => Nat.zero_le _
  | .cons _ _, .cons _ _, _ :: _, h => Nat.succ_le_succ (Tys.slots_length_le h.2)
  | .cons _ _, .nil, _, h => nomatch h.1

/-- No slot is left for a reader that knows all fields. -/
theorem Tys.no_extra (h : ss.Evolves false f rs) : (trim (ss.slots vs)).drop rs.length =
    [] :=
  drop_eq_nil_of_le ((trim_eq_take _ ▸ length_take_le' _ _).trans (Tys.slots_length_le h))

/-- The members of a struct or tuple. -/
theorem judges_members (h : ss.Evolves false f rs) (hv : ss.Has vs)
    (hjudged : ∀ x ∈ ss.pairs rs vs, x.Judged f) (checked : Bool) :
    Judges (ss.Lossless vs) (fun u => runEffects (ss.effects checked rs vs) (.exact u)) := by
  rw [Tys.lossless_iff h hv, Tys.effects_eq]
  exact judges_run fun x hx => (hjudged x hx).steers checked

private theorem judges_finished (h : ss.Evolves false f rs) (hv : ss.Has vs)
    (hjudged : ∀ x ∈ ss.pairs rs vs, x.Judged f) (checked : Bool) :
    Judges (ss.Lossless vs) (fun u => (runEffects (ss.effects checked rs vs) (.exact u)).bind
      (finish ((trim (ss.slots vs)).drop rs.length))) := by
  have hfinish : ∀ o : Option Sight, o.bind (finish []) = o := by
    intro o
    cases o <;> rfl
  simp only [Tys.no_extra h, hfinish]
  exact judges_members h hv hjudged checked

end

mutual

/-- A reader that knows all fields finds the end of an object exactly if it was encoded without
loss. -/
theorem Ty.judges {f : Bool} : (s : Ty) → {r : Ty} → {v : Val} → s.Evolves false f r → s.Has v →
    Judges (s.Lossless v) ((s.meeting r).object v)
  | .num _, .num _, .num _, _, _ | .bool, .bool, .bool _, _, _
  | .bitset _, .bitset _, .bits _, _, _ => judges_fixed trivial
  | .string, .string, .string bs, _, _ => judges_chars 4 bs
  | .boundedString n, .boundedString _, .string bs, _, _ => judges_chars (boundedLength n) bs
  | .bitlist _, .bitlist _, .bits bs, _, _ => judges_bits bs
  | .vector s, .vector r, .bits bs, _, hv => by
    have hbool : s.isBool = true := hv
    rw [meeting, if_pos hbool]
    exact judges_bits bs
  | .vector s, .vector r, .list vs, h, hv => by
    rw [meeting, if_neg (Bool.eq_false_iff.mp hv.1)]
    exact judges_elements fun v hmem => Ty.steers (s := s) h (hv.2 v hmem)
      (Ty.judges s h (hv.2 v hmem))
  | .assoc s, .assoc r, .list vs, h, hv =>
    judges_elements fun v hmem => Ty.steers (s := s) h (hv v hmem) (Ty.judges s h (hv v hmem))
  | .boundedList s n, .boundedList r _, .list vs, h, hv =>
    judges_elements fun v hmem => Ty.steers h.1 (hv.2 v hmem) (Ty.judges s h.1 (hv.2 v hmem))
  | .array s n, .array r _, .list vs, h, hv => by
    rw [meeting]
    split
    · exact judges_run fun v hmem => Ty.steers h.1 (hv.2 v hmem) (Ty.judges s h.1 (hv.2 v hmem))
    next hvar =>
      have hfixed : (array s n).traits.isVariableSize = false := by
        rw [traits, if_neg hvar]
        rfl
      exact judges_fixed (lossless_of_fixed _ hfixed hv)
  | .optional s, .optional r, .nullopt, _, _ => judges_fixed trivial
  | .optional s, .optional r, .some v, h, hv => by
    have hsteers : Steers (s.LosslessSlot v) (s.indirect (s.meeting r).object v) :=
      steers_indirect hv (Ty.judges s h hv)
    exact ⟨hsteers.keeps, hsteers.breaks⟩
  | .tuple ss, .tuple rs, .list vs, h, hv => judges_finished h hv (Tys.judged ss h hv) false
  | .variant ss, .variant rs, .alt i v, h, hv => by
    have hinner := Tys.judgesAt ss h hv
    constructor
    · intro hloss u
      change (ss.objectAt rs i v u).bind sealed = _
      rw [hinner.exact hloss u]
      rfl
    · intro hloss u
      refine Spoils.bind (hinner.spoils hloss u) fun a ha => ?_
      rw [sealed, if_pos ha]
      exact .none
  | .struct true unpadded n ss, .struct true _ _ rs, .list vs, h, hv => by
    have hmembers := judges_members h.2.2.evolves hv (Tys.judged ss h.2.2.evolves hv) true
    rw [meeting]
    split
    · exact hmembers
    next hvar => exact judges_fixed (lossless_of_fixed _ (Bool.eq_false_iff.mpr hvar) hv)
  | .struct false _ _ ss, .struct false _ _ rs, .list vs, h, hv =>
    judges_finished h.2 hv (Tys.judged ss h.2 hv) _

private theorem Tys.judged {f : Bool} : (ss : Tys) → {rs : Tys} → {vs : List Val} →
    ss.Evolves false f rs → ss.Has vs → ∀ x ∈ ss.pairs rs vs, x.Judged f
  | .cons s ss, .cons _ _, _ :: _, h, hv =>
    forall_mem_cons.mpr ⟨⟨h.1, hv.1, Ty.judges s h.1 hv.1⟩, Tys.judged ss h.2 hv.2⟩
  | .nil, .nil, _, _, _ | .nil, .cons _ _, _, _, _ | .cons _ _, .nil, _, _, _ => nofun

private theorem Tys.judgesAt {f : Bool} : (ss : Tys) → {rs : Tys} → {i : Nat} → {v : Val} →
    ss.Each false f rs → ss.HasAt i v → Judges (ss.LosslessAt i v) (ss.objectAt rs i v)
  | .cons s _, .cons _ _, 0, _, h, hv => Ty.judges s h.1 hv
  | .cons _ ss, .cons _ _, _ + 1, _, h, hv => Tys.judgesAt ss h.2 hv

end

/-! ### Values -/

section

variable {d f : Bool}

/-- Elements that are all announced are all read. -/
theorem elementsRead_of_lossless {width : Nat} {read convert : Val → Val} {p : Prop}
    (h : vs.isEmpty = true ∨
      (t.traits.fixedSize ≠ 0 ∧ vs.length * t.traits.fixedSize < 256 ^ width ∧ p))
    (heq : p → ∀ v ∈ vs, read v = convert v) :
    elementsRead width t read vs = vs.map convert := by
  rcases h with hempty | ⟨-, hfits, hp⟩
  · rw [List.isEmpty_iff] at hempty
    rw [hempty, elementsRead_nil]
    rfl
  · rw [elementsRead, if_pos hfits]
    exact map_congr_left (heq hp)

private theorem bitsRead_of_lossless {bs : List Bool}
    (h : bs.isEmpty = true ∨ bs.length + 7 < 2 ^ 32) : bitsRead bs = bs := by
  apply (bits_of_lt _).1
  rcases h with hempty | hlt
  · rw [isEmpty_iff.mp hempty]
    decide
  · exact hlt

mutual

/-- What was encoded without loss is read as the conversion of the value. -/
theorem Ty.read_eq_convert : (s : Ty) → {r : Ty} → {v : Val} → s.Evolves d f r → s.Has v →
    s.LosslessSlot v → (s.meeting r).read v = s.convert r v
  | .num _, .num _, .num _, _, _, _ | .bool, .bool, .bool _, _, _, _
  | .bitset _, .bitset _, .bits _, _, _, _ | .string, .string, .string _, _, _, _
  | .boundedString _, .boundedString _, .string _, _, _, _ => rfl
  | .bitlist _, .bitlist _, .bits bs, _, _, hl => congrArg Val.bits (bitsRead_of_lossless hl)
  | .vector s, .vector r, .bits bs, _, hv, hl => by
    have hbool : s.isBool = true := hv
    rw [meeting, if_pos hbool]
    exact congrArg Val.bits (bitsRead_of_lossless hl)
  | .vector s, .vector r, .list vs, h, hv, hl => by
    rw [meeting, if_neg (Bool.eq_false_iff.mp hv.1)]
    exact congrArg Val.list (elementsRead_of_lossless hl fun hall v hmem =>
      Ty.read_eq_convert s h (hv.2 v hmem) (hall v hmem))
  | .assoc s, .assoc r, .list vs, h, hv, hl =>
    congrArg Val.list (elementsRead_of_lossless hl fun hall v hmem =>
      Ty.read_eq_convert s h (hv v hmem) (hall v hmem))
  | .boundedList s n, .boundedList r _, .list vs, h, hv, hl =>
    congrArg Val.list (elementsRead_of_lossless hl fun hall v hmem =>
      Ty.read_eq_convert s h.1 (hv.2 v hmem) (hall v hmem))
  | .array s n, .array r _, .list vs, h, hv, hl => by
    have hall : ∀ v ∈ vs, s.LosslessSlot v := hl.lossless (by rw [traits]; split <;> rfl)
    have hmap : vs.map (s.meeting r).read = vs.map (s.convert r) := map_congr_left
      fun v hmem => Ty.read_eq_convert s h.1 (hv.2 v hmem) (hall v hmem)
    rw [meeting, convert, ← hmap]
    split
    · rfl
    next hvar =>
      rw [meeting_of_fixed h.1 (Bool.eq_false_iff.mpr hvar)]
      exact congrArg Val.list (map_id vs).symm
  | .optional s, .optional r, .nullopt, _, _, _ => rfl
  | .optional s, .optional r, .some v, h, hv, hl =>
    congrArg Val.some (Ty.read_eq_convert s h hv (hl.lossless rfl))
  | .tuple ss, .tuple rs, .list vs, h, hv, hl =>
    congrArg Val.list (Tys.read_eq_convert ss h hv (hl.lossless rfl))
  | .variant ss, .variant rs, .alt i v, h, hv, hl =>
    congrArg (Val.alt i) (Tys.readAt_eq_convertAt ss h hv (hl.lossless rfl))
  | .struct true unpadded n ss, .struct true _ _ rs, .list vs, h, hv, hl => by
    have hall : ss.Lossless vs := hl.lossless (by rw [traits]; split <;> rfl)
    rw [meeting, convert, ← Tys.read_eq_convert ss h.2.2.evolves hv hall]
    split
    · rfl
    next hvar =>
      have hany := (fixed_of_struct (Bool.eq_false_iff.mpr hvar)).2
      rw [Tys.read_of_fixed h.2.2 hany hv]
      rfl
  | .struct false _ _ ss, .struct false _ _ rs, .list vs, h, hv, hl =>
    congrArg Val.list (Tys.read_eq_convert ss h.2 hv (hl.lossless rfl))

private theorem Tys.read_eq_convert : (ss : Tys) → {rs : Tys} → {vs : List Val} →
    ss.Evolves d f rs → ss.Has vs → ss.Lossless vs → ss.read rs vs = ss.convert rs vs
  | .nil, .nil, [], _, _, _ | .nil, .cons _ _, [], _, _, _ | .cons _ _, .nil, _ :: _, _, _, _ => rfl
  | .cons s ss, .cons r rs, v :: vs, h, hv, hl => by
    rw [Tys.read, Tys.convert, Ty.read_eq_convert s h.1 hv.1 hl.1,
      Tys.read_eq_convert ss h.2 hv.2 hl.2]

private theorem Tys.readAt_eq_convertAt : (ss : Tys) → {rs : Tys} → {i : Nat} → {v : Val} →
    ss.Each d f rs → ss.HasAt i v → ss.LosslessAt i v → ss.readAt rs i v = ss.convertAt rs i v
  | .cons s _, .cons _ _, 0, _, h, hv, hl => Ty.read_eq_convert s h.1 hv (.inr hl)
  | .cons _ ss, .cons _ _, _ + 1, _, h, hv, hl => Tys.readAt_eq_convertAt ss h.2 hv hl

end

private theorem map_eq_self {g : Val → Val} (h : ∀ v ∈ vs, g v = v) : vs.map g = vs := by
  rw [map_congr_left h]
  exact map_id' vs

mutual

/-- A value of the reader's own type is not changed. -/
theorem Ty.convert_self : (t : Ty) → {v : Val} → t.Has v → t.convert t v = v
  | .num _, .num _, _ | .bool, .bool _, _ | .bitset _, .bits _, _ | .string, .string _, _
  | .boundedString _, .string _, _ | .bitlist _, .bits _, _ | .vector _, .bits _, _
  | .optional _, .nullopt, _ => rfl
  | .vector t, .list _, hv | .boundedList t _, .list _, hv | .array t _, .list _, hv =>
    congrArg Val.list (map_eq_self fun v hmem => Ty.convert_self t (hv.2 v hmem))
  | .assoc t, .list _, hv =>
    congrArg Val.list (map_eq_self fun v hmem => Ty.convert_self t (hv v hmem))
  | .optional t, .some _, hv => congrArg Val.some (Ty.convert_self t hv)
  | .tuple ts, .list _, hv | .struct _ _ _ ts, .list _, hv =>
    congrArg Val.list (Tys.convert_self ts hv)
  | .variant ts, .alt i _, hv => congrArg (Val.alt i) (Tys.convertAt_self ts hv)

private theorem Tys.convert_self : (ts : Tys) → {vs : List Val} → ts.Has vs → ts.convert ts vs = vs
  | .nil, [], _ => rfl
  | .cons t ts, v :: vs, hv => by
    rw [Tys.convert, Ty.convert_self t hv.1, Tys.convert_self ts hv.2]

private theorem Tys.convertAt_self : (ts : Tys) → {i : Nat} → {v : Val} → ts.HasAt i v →
    ts.convertAt ts i v = v
  | .cons t _, 0, _, hv => Ty.convert_self t hv
  | .cons _ ts, _ + 1, _, hv => Tys.convertAt_self ts hv

end

mutual

/-- A type evolves to itself. -/
theorem Ty.evolves_refl (d f : Bool) : (t : Ty) → t.Evolves d f t
  | .num _ | .bitset _ | .boundedString _ | .bitlist _ => rfl
  | .bool | .string => trivial
  | .vector t | .assoc t | .optional t => Ty.evolves_refl d f t
  | .boundedList t _ | .array t _ => ⟨Ty.evolves_refl d f t, rfl⟩
  | .tuple ts => (Tys.each_refl d f ts).evolves
  | .variant ts => Tys.each_refl d f ts
  | .struct true _ _ ts => ⟨rfl, rfl, Tys.each_refl d f ts⟩
  | .struct false _ _ ts => ⟨rfl, (Tys.each_refl d f ts).evolves⟩

private theorem Tys.each_refl (d f : Bool) : (ts : Tys) → ts.Each d f ts
  | .nil => trivial
  | .cons t ts => ⟨Ty.evolves_refl d f t, Tys.each_refl d f ts⟩

end

mutual

/-- Fields that one side drops are those that the other fills. -/
theorem Ty.Evolves.swap {d f : Bool} : {s r : Ty} → s.Evolves d f r → r.Evolves f d s
  | .num _, .num _, h => Eq.symm h
  | .bool, .bool, _ => trivial
  | .bitset _, .bitset _, h => Eq.symm h
  | .string, .string, _ => trivial
  | .vector s, .vector _, h | .assoc s, .assoc _, h => Ty.Evolves.swap (s := s) h
  | .boundedString _, .boundedString _, h => Eq.symm h
  | .boundedList _ _, .boundedList _ _, h => ⟨h.1.swap, h.2.symm⟩
  | .bitlist _, .bitlist _, h => Eq.symm h
  | .array _ _, .array _ _, h => ⟨h.1.swap, h.2.symm⟩
  | .optional s, .optional _, h => Ty.Evolves.swap (s := s) h
  | .tuple _, .tuple _, h => Tys.Evolves.swap h
  | .variant _, .variant _, h => Tys.Each.swap h
  | .struct true _ _ _, .struct true _ _ _, h => ⟨h.1.symm, h.2.1.symm, h.2.2.swap⟩
  | .struct false _ _ _, .struct false _ _ _, h => ⟨h.1.symm, h.2.swap⟩

private theorem Tys.Each.swap {d f : Bool} : {ss rs : Tys} → ss.Each d f rs → rs.Each f d ss
  | .nil, .nil, _ => trivial
  | .cons _ _, .cons _ _, h => ⟨h.1.swap, h.2.swap⟩

private theorem Tys.Evolves.swap {d f : Bool} : {ss rs : Tys} → ss.Evolves d f rs →
    rs.Evolves f d ss
  | .nil, .nil, _ => trivial
  | .nil, .cons _ _, h => h
  | .cons _ _, .nil, h => h
  | .cons _ _, .cons _ _, h => ⟨h.1.swap, h.2.swap⟩

end

end

/-! ### Whole buffers -/

section

variable {d f : Bool} {s r : Ty}

section

variable (h : s.Evolves d f r) (hwf : s.WellFormed) (hv : s.Has v)
  (hlen : (s.coding.body v).length < 2 ^ 32)

include h hwf hv hlen

end

end

/-- `struct { std::string name; std::optional<uint32_t> size; std::vector<uint16_t> codes; }` -/
def Ty.record : Ty :=
  .struct false false 0xffff (.ofList [.string, .optional (.num 4), .vector (.num 2)])

section

variable {d f : Bool} {s r : Ty}

end

/-- `struct { uint32_t id; }`, and with `std::optional<uint32_t> parent` at its end. -/
def Ty.node (extended : Bool) : Ty :=
  .struct false false 0xffff
    (.ofList (if extended then [.num 4, .optional (.num 4)] else [.num 4]))

end PsiServe.Frac
