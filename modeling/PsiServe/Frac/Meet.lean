import PsiServe.Frac.Evolve

/-!
# The reader meets the writer's data

The decoder of a reader's type (`fracpack.hpp:313–439,2194–2387`), given the encoding of a value
of a writer's type, accepts it, reads it and keeps track of its position as the meeting of the
two types says.
-/

namespace PsiServe.Frac

open Base List Ty Tys Coding

/-! ### Copied objects -/

variable {v : Val} {t s r : Ty} {n width : Nat} {d f : Bool}

private theorem Ty.length_body_of_fixed (hvar : t.traits.isVariableSize = false) (h : t.Has v) :
    (t.coding.body v).length = t.traits.fixedSize := by
  have hlen := fixedLen_slot t h
  rw [inline_of_fixed hvar] at hlen
  exact hlen

private theorem Ty.length_raw (h : (t.isBitwise || t.traits.isMemcpy) = true) (hv : t.Has v) :
    (t.raw v).length = t.traits.fixedSize := by
  rw [raw_eq_body t h hv, length_body_of_fixed (isVariableSize_of_copied h) hv]

mutual

/-- Copying the bytes of an object back gives the object. -/
theorem Ty.ofRaw_raw : ∀ (t : Ty) {v : Val}, (t.isBitwise || t.traits.isMemcpy) = true →
    t.Has v → t.ofRaw (t.raw v) = v
  | .num n, .num v, _, hv => congrArg Val.num (leValue_leBytes hv)
  | .bool, .bool b, _, _ => rfl
  | .array t n, .list vs, h, hv => by
    obtain ⟨rfl, hv⟩ := hv
    obtain ⟨-, helem⟩ := copied_of_array h
    exact congrArg Val.list (splitRaw_flatMap fun v hmem =>
      ⟨Ty.length_raw helem (hv v hmem), Ty.ofRaw_raw t helem (hv v hmem)⟩)
  | .struct dwnc unpadded n ts, .list vs, h, hv => by
    obtain ⟨-, -, hbitwise⟩ := bitwise_of_struct h
    exact congrArg Val.list (Tys.ofRaw_raw ts hbitwise hv)
  | .bitset _, _, h, _ | .string, _, h, _ | .vector _, _, h, _ | .assoc _, _, h, _
  | .boundedString _, _, h, _ | .boundedList _ _, _, h, _ | .bitlist _, _, h, _
  | .optional _, _, h, _ | .tuple _, _, h, _ | .variant _, _, h, _ => by cases h

private theorem Tys.ofRaw_raw : ∀ (ts : Tys) {vs : List Val}, ts.allBitwise = true → ts.Has vs →
    ts.ofRaw (ts.raw vs) = vs
  | .nil, [], _, _ => rfl
  | .cons t ts, v :: vs, h, hv => by
    rw [Tys.allBitwise, Bool.and_eq_true] at h
    have hcopied : (t.isBitwise || t.traits.isMemcpy) = true := by rw [h.1, Bool.true_or]
    rw [Tys.raw, Tys.ofRaw, ← Ty.length_raw hcopied hv.1, take_left, drop_left,
      Ty.ofRaw_raw t hcopied hv.1, Tys.ofRaw_raw ts h.2 hv.2]

end

/-! ### Containers -/

private theorem Ty.Evolves.lengthWidth : {s r : Ty} → s.Evolves d f r →
    r.lengthWidth = s.lengthWidth
  | .boundedString _, .boundedString _, h => by cases h; rfl
  | .boundedList _ _, .boundedList _ _, h => by
    obtain ⟨h, rfl⟩ := h
    rw [Ty.lengthWidth, Ty.lengthWidth, Ty.listLength, Ty.listLength, h.same.1]
  | .bitlist _, .bitlist _, h => by cases h; rfl
  | .num _, .num _, _ | .bool, .bool, _ | .bitset _, .bitset _, _ | .string, .string, _
  | .vector _, .vector _, _ | .assoc _, .assoc _, _ | .array _ _, .array _ _, _
  | .optional _, .optional _, _ | .tuple _, .tuple _, _ | .variant _, .variant _, _
  | .struct true _ _ _, .struct true _ _ _, _
  | .struct false _ _ _, .struct false _ _ _, _ => rfl

/-- The length of a container stands in its encoding. -/
theorem Ty.lengthWidth_le (h : s.traits.supports0Offset = true) (v : Val) :
    s.lengthWidth ≤ (s.coding.body v).length := by
  cases s with
  | string | boundedString _ => simp [lengthWidth, coding, of, charsBody]
  | vector s =>
    simp only [lengthWidth, coding, of, bitsBody]
    split <;> simp
  | assoc _ | boundedList _ _ => simp [lengthWidth, coding, of]
  | bitlist n => simp [lengthWidth, coding, of, bitsBody]
  | array _ _ | struct _ _ _ _ =>
    rw [traits] at h
    split at h <;> cases h
  | _ => cases h

/-- Nothing is read of no elements. -/
theorem elementsRead_nil (width : Nat) (t : Ty) (read : Val → Val) :
    elementsRead width t read [] = [] := by
  rw [elementsRead]
  split <;> simp

/-- An empty container is read as such. -/
theorem Ty.read_of_empty : {s r : Ty} → {v : Val} → s.Evolves d f r → s.Has v →
    s.traits.isEmptyContainer v = true → (s.meeting r).read v = r.cleared
  | .string, .string, .string [], _, _, _
  | .boundedString _, .boundedString _, .string [], _, _, _
  | .bitlist _, .bitlist _, .bits [], _, _, _ => by
    rfl
  | .vector s, .vector r, .bits [], h, hv, _ => by
    have hbool : s.isBool = true := hv
    have hsame : s.isBool = r.isBool := (Ty.Evolves.same (s := s) h).2.2
    rw [meeting, if_pos hbool, cleared, ← hsame, if_pos hbool]
    rfl
  | .vector s, .vector r, .list [], h, hv, _ => by
    have hbool : ¬s.isBool = true := Bool.eq_false_iff.mp hv.1
    have hsame : s.isBool = r.isBool := (Ty.Evolves.same (s := s) h).2.2
    rw [meeting, if_neg hbool, cleared, ← hsame, if_neg hbool]
    exact congrArg Val.list (elementsRead_nil _ _ _)
  | .assoc _, .assoc _, .list [], _, _, _
  | .boundedList _ _, .boundedList _ _, .list [], _, _, _ => by
    exact congrArg Val.list (elementsRead_nil _ _ _)
  | .array _ _, _, _, _, _, he | .struct _ _ _ _, _, _, _, _, he => by
    rw [traits] at he
    split at he <;> cases he

/-! ### One type -/

/-- The reader meets the objects and slots of the writer as the meeting says. -/
structure Met (s r : Ty) (v : Val) : Prop where
  object : Reads r.unpacker (s.coding.body v) ((s.meeting r).read v) ((s.meeting r).object v)
  slot : Embeds r.unpacker (s.coding.slot v) ((s.meeting r).read v) ((s.meeting r).slot v)

/-- Only what fits into a buffer is read. -/
theorem Reads.of_lt {p : Unpacker} {body : Bytes} {object : Bool → Option Sight}
    (h : body.length < 2 ^ 32 → Reads p body v object) : Reads p body v object := by
  intro m src unknown pos stop hm hat hend hsrc hstop
  exact h (by omega) hm hat hend hsrc hstop

section

/-- A type of a fixed size is read as it is. -/
theorem Ty.meeting_of_fixed : {s r : Ty} → s.Evolves d f r → s.traits.isVariableSize = false →
    s.meeting r = .fixed s
  | .bool, .bool, _, _ | .num _, .num _, _, _ | .bitset _, .bitset _, _, _ => by rw [meeting]
  | .array s n, .array r _, _, hvar => by
    rw [meeting, if_neg (Bool.eq_false_iff.mp (fixed_of_array hvar))]
  | .struct true _ _ _, .struct true _ _ _, _, hvar => by
    rw [meeting, if_neg (Bool.eq_false_iff.mp hvar)]

/-- A slot of a fixed size makes the position known. -/
theorem Ty.slot_of_fixed (h : s.Evolves d f r) (hvar : s.traits.isVariableSize = false) (v : Val) :
    (s.meeting r).slot v = fun a => some a.reset := by
  funext a
  rw [meeting_of_fixed h hvar]
  exact if_neg (Bool.eq_false_iff.mp hvar)

/-- The slot of an object of a fixed size. -/
theorem Met.of_fixed (h : s.Evolves d f r) (hvar : s.traits.isVariableSize = false)
    (hobject : Reads r.unpacker (s.coding.body v) v (some ∘ .exact)) : Met s r v := by
  have hopt' : r.traits.isOptional = false := by
    rw [← h.same.1]
    exact isOptional_of_fixed hvar
  have hvar' : r.traits.isVariableSize = false := by rw [← h.same.1, hvar]
  constructor
  · rw [meeting_of_fixed h hvar]
    exact hobject
  · rw [inline_of_fixed hvar, slot_of_fixed h hvar, meeting_of_fixed h hvar]
    rw [unpacker_eq_base hopt'] at hobject ⊢
    exact embeds_inline hobject hvar'

/-- The slot of an object behind an offset. -/
theorem Met.of_variable (h : s.Evolves d f r) (hhas : s.Has v)
    (hvar : s.traits.isVariableSize = true) (hopt : s.traits.isOptional = false)
    {read : Val → Val} {object : Val → Bool → Option Sight}
    (hmeeting : s.meeting r = .of s read object)
    (hobject : Reads r.unpacker (s.coding.body v) (read v) (object v)) : Met s r v := by
  have hs := h.same.1.symm
  have hwidth := h.lengthWidth
  have hempty : s.traits.isEmptyContainer v = true → read v = r.cleared := by
    intro he
    rw [← read_of_empty h hhas he, hmeeting]
    rfl
  have hslot : (s.meeting r).slot v = s.indirect object v := by
    funext a
    rw [hmeeting, Meeting.of]
    rw [hvar]
    rfl
  have hopt' : r.traits.isOptional = false := by rw [hs, hopt]
  constructor
  · rw [hmeeting]
    exact hobject
  · rw [hslot, hmeeting]
    change Embeds r.unpacker (s.coding.slot v) (read v) (s.indirect object v)
    rw [unpacker_eq_base hopt', s.coding_eq_of hopt, hs, hwidth]
    cases hv : s.traits.isEmptyContainer v with
    | true =>
      have heffect : s.indirect object v = _ := funext fun _ => if_pos hv
      have h0 : s.traits.supports0Offset = true := (Bool.and_eq_true_iff.mp hv).1
      rw [slot_of_empty hvar hv, heffect, hempty hv]
      exact embeds_empty hvar h0
    | false =>
      have heffect : s.indirect object v = _ := funext fun _ => if_neg (by rw [hv]; decide)
      rw [slot_of_pointer hvar hv, heffect]
      exact embeds_pointer hobject hvar fun h0 => lengthWidth_le h0 v

/-- The slot of an optional with a value is that of an object behind an offset. -/
theorem Coding.optionalSlot_some (t : Ty) (x : Val) : optionalSlot t.traits t.coding (.some x) =
      if t.traits.isEmptyContainer x then .word 0 else .pointer (t.coding.body x) := by
  rcases t.traits_cases with ht | ht | ht | ⟨size, isMemcpy, ht⟩
  · rw [t.coding_eq_of (by rw [ht]; rfl), ht]
    rfl
  · rw [t.coding_eq_of (by rw [ht]; rfl), ht]
    rfl
  · rw [ht]
    rfl
  · rw [ht]
    rfl

/-- The slot of an optional. -/
theorem Met.optional (h : s.Evolves d f r) (hv : (Ty.optional s).Has v)
    (hmet : ∀ x, s.Has x → Met s r x) : Met (.optional s) (.optional r) v := by
  have hslot : Embeds (.optional r.unpacker) (optionalSlot s.traits s.coding v)
      ((Meeting.optional s (s.meeting r)).read v) ((Meeting.optional s (s.meeting r)).slot v) ∧
      IsOptionalSlot (optionalSlot s.traits s.coding v) := by
    cases v with
    | nullopt =>
      exact ⟨fun _ _ _ _ _ _ hfits hle _ _ _ hw => steps_nullopt hfits hle hw, .inr (.inl rfl)⟩
    | some x =>
      have hs := h.same.1.symm
      have helem := Ty.embeddedVariable_eq r
      rw [hs, h.lengthWidth] at helem
      rw [optionalSlot_some]
      cases hx : s.traits.isEmptyContainer x with
      | true =>
        have h0 : s.traits.supports0Offset = true := (Bool.and_eq_true_iff.mp hx).1
        have heffect : (Meeting.optional s (s.meeting r)).slot (.some x) = _ :=
          funext fun _ => if_pos hx
        have hread : (Meeting.optional s (s.meeting r)).read (.some x) = _ :=
          congrArg Val.some (Ty.read_of_empty h hv hx)
        rw [heffect, hread]
        exact ⟨embeds_some_empty helem h0, .inl rfl⟩
      | false =>
        have heffect : (Meeting.optional s (s.meeting r)).slot (.some x) = _ :=
          funext fun _ => if_neg (by rw [hx]; decide)
        rw [heffect]
        refine ⟨fun m skip src endFixed endHeap hm hfits hle => ?_, .inr (.inr ⟨_, rfl⟩)⟩
        refine steps_some hfits hle ?_ (.inr ⟨_, rfl⟩)
        rw [helem]
        exact steps_pointer hfits hle (hmet x hv).object hm fun h0 => Ty.lengthWidth_le h0 x
    | _ => exact hv.elim
  constructor
  · have hobject : (Meeting.optional s (s.meeting r)).object v =
        fun u => (Meeting.optional s (s.meeting r)).slot v (.exact u) := by
      cases v <;> rfl
    rw [Ty.meeting, hobject]
    exact reads_optional hslot.1 hslot.2
  · exact hslot.1

private theorem Sight.reset_of_known {a : Sight} (h : a.known = true) : a.reset = a := by
  cases a
  cases h
  rfl

variable {vs : List Val}

private theorem Ty.fixedLen_slots (hhas : ∀ v ∈ vs, s.Has v) :
    fixedLen (vs.map s.coding.slot) = vs.length * s.traits.fixedSize := by
  rw [← length_map (f := s.coding.slot)]
  apply fixedLen_of_forall
  exact forall_mem_map.mpr fun v hv => fixedLen_slot s (hhas v hv)

/-- A container whose elements are unpacked one by one. Only elements of a fixed size can be
too many for the length. -/
theorem reads_elements (h : s.Evolves d f r) (hhas : ∀ v ∈ vs, s.Has v)
    (hmet : ∀ v ∈ vs, Met s r v)
    (hover : vs.length * s.traits.fixedSize < 2 ^ 32 →
      256 ^ width ≤ vs.length * s.traits.fixedSize → s.traits.isVariableSize = false) :
    Reads (.container width r.unpacker)
      (leBytes width (vs.length * s.traits.fixedSize) ++ layout (vs.map s.coding.slot))
      (.list (elementsRead width s (s.meeting r).read vs))
      (elementsSight width s (s.meeting r).slot vs) := by
  have hsame : r.unpacker.traits = s.traits := by rw [unpacker_traits, h.same.1]
  have hlen := fixedLen_slots hhas
  have hembeds : ∀ v ∈ vs, Embeds r.unpacker (s.coding.slot v) ((s.meeting r).read v)
      ((s.meeting r).slot v) := fun v hv => (hmet v hv).slot
  by_cases hzero : s.traits.fixedSize = 0
  · have hsight : elementsSight width s (s.meeting r).slot vs = _ := funext fun _ => if_pos hzero
    rw [hsight]
    exact reads_container_zero (by rw [hsame, hzero])
  by_cases hfits : vs.length * s.traits.fixedSize < 256 ^ width
  · have hsight : elementsSight width s (s.meeting r).slot vs = _ :=
      funext fun _ => (if_neg hzero).trans (if_pos hfits)
    rw [hsight, elementsRead, if_pos hfits]
    rw [← hsame] at hzero hfits hlen ⊢
    exact reads_container hembeds hlen hzero hfits
  · apply Reads.of_lt
    intro hlt
    rw [length_append, length_layout, hlen] at hlt
    have hvar := hover (by omega) (by omega)
    have hsight : elementsSight width s (s.meeting r).slot vs = _ :=
      funext fun _ => (if_neg hzero).trans (if_neg hfits)
    rw [hsight, elementsRead, if_neg hfits]
    rw [← hsame] at hzero hfits ⊢
    refine reads_container_overflow hembeds ?_ ?_ ?_ hzero (by omega)
    · intro v hv
      rw [hsame]
      exact fixedLen_slot s (hhas v hv)
    · exact forall_mem_map.mpr fun v _ => ⟨_, inline_of_fixed hvar v⟩
    · intro v hv a ha
      rw [slot_of_fixed h hvar]
      exact congrArg some (Sight.reset_of_known ha)

private theorem Ty.fixedSize_pos : {t : Ty} → t.WellFormed → t.traits.isMemcpy = true →
    0 < t.traits.fixedSize
  | .num _, hwf, _ => hwf.1
  | .array t n, hwf, h => by
    obtain ⟨helem, -, hn⟩ := hwf
    have hvar := fixed_of_array (isVariableSize_of_memcpy h)
    rw [array_traits hvar] at h ⊢
    exact Nat.mul_pos (fixedSize_pos helem h) (hn h)
  | .struct dwnc unpadded n ts, hwf, h => by
    obtain ⟨rfl, hvar⟩ := fixed_of_struct (isVariableSize_of_memcpy h)
    obtain ⟨-, rfl, -⟩ := bitwise_of_struct h
    rw [fixedStruct_traits hvar]
    exact hwf.2.2.2 rfl

/-- A container whose elements are copied. -/
theorem reads_copied_elements (h : s.Evolves d f r) (hwf : s.WellFormed)
    (hmem : s.traits.isMemcpy = true) (hhas : ∀ v ∈ vs, s.Has v)
    (hfit : vs.length * s.traits.fixedSize < 2 ^ 32 →
      vs.length * s.traits.fixedSize < 256 ^ width) :
    Reads (.bytes width s.traits.fixedSize (.list []) fun bs =>
        .list (splitRaw s.ofRaw s.traits.fixedSize (bs.length / s.traits.fixedSize) bs))
      (leBytes width (vs.length * s.traits.fixedSize) ++ layout (vs.map s.coding.slot))
      (.list (elementsRead width s (s.meeting r).read vs))
      (elementsSight width s (s.meeting r).slot vs) := by
  have hcopied := copied_of_memcpy hmem
  have hvar := isVariableSize_of_copied hcopied
  have hpos := fixedSize_pos hwf hmem
  have hlen : (vs.flatMap s.raw).length = vs.length * s.traits.fixedSize := by
    rw [← layout_eq_raw hmem hhas, length_layout, heapOf_map hvar, fixedLen_slots hhas]
    rfl
  apply Reads.of_lt
  intro hlt
  rw [layout_eq_raw hmem hhas, length_append, hlen] at hlt
  have hfits := hfit (by omega)
  have hsight : elementsSight width s (s.meeting r).slot vs = some ∘ .exact := by
    funext u
    rw [elementsSight, if_neg (by omega), if_pos (by omega)]
    refine runEffects_idle (forall_mem_map.mpr fun v hv => ?_)
    rw [slot_of_fixed h hvar]
    rfl
  have hread : elementsRead width s (s.meeting r).read vs =
      splitRaw s.ofRaw s.traits.fixedSize ((vs.flatMap s.raw).length / s.traits.fixedSize)
        (vs.flatMap s.raw) := by
    rw [elementsRead, if_pos (by omega), hlen, Nat.mul_div_cancel _ hpos,
      splitRaw_flatMap fun v hv =>
        ⟨length_raw hcopied (hhas v hv), ofRaw_raw s hcopied (hhas v hv)⟩,
      meeting_of_fixed h hvar]
    exact map_id vs
  rw [hsight, hread, layout_eq_raw hmem hhas, ← hlen]
  exact reads_bytes (by rw [hlen]; exact hfits) (by rw [hlen, Nat.mul_mod_left])

end

/-! ### Members -/

/-- A member of the writer that the reader knows. -/
structure Pair where
  writer : Ty
  reader : Ty
  val : Val

/-- What is known of such a member. -/
structure Pair.Good (d f : Bool) (x : Pair) : Prop where
  evolves : x.writer.Evolves d f x.reader
  has : x.writer.Has x.val
  met : Met x.writer x.reader x.val

/-- The member in the reader's walk. -/
def Pair.present (checked : Bool) (x : Pair) : Present where
  reader := x.reader.unpacker
  slot := x.writer.coding.slot x.val
  val := (x.writer.meeting x.reader).read x.val
  effect := if checked && x.writer.traits.isMemcpy then some
    else (x.writer.meeting x.reader).slot x.val

def Tys.pairs : Tys → Tys → List Val → List Pair
  | .cons s ss, .cons r rs, v :: vs => ⟨s, r, v⟩ :: ss.pairs rs vs
  | _, _, _ => []

/-- The slot of an optional, whatever it holds. -/
theorem Coding.isOptionalSlot (t : Ty) (v : Val) :
    IsOptionalSlot (optionalSlot t.traits t.coding v) := by
  cases v with
  | some x =>
    rw [optionalSlot_some]
    split
    · exact .inl rfl
    · exact .inr (.inr ⟨_, rfl⟩)
  | _ => exact .inr (.inl rfl)

/-- Whether a member has a value shows in its slot. -/
theorem Ty.marked {w : Val} {effect : Sight → Option Sight} (hsame : r.traits = s.traits)
    (hv : s.Has v) (hw : s.traits.isOptional = true → w.hasValue = v.hasValue) :
    Present.Marked ⟨r.unpacker, s.coding.slot v, w, effect⟩ := by
  have htr : r.unpacker.traits = s.traits := by rw [unpacker_traits, hsame]
  constructor
  · intro hopt
    rw [htr] at hopt
    obtain ⟨u, rfl⟩ := eq_optional hopt
    refine ⟨isOptionalSlot u v, (hw rfl).trans ?_⟩
    change v.hasValue = (optionalSlot u.traits u.coding v != .word 1)
    cases v with
    | nullopt => rfl
    | some x =>
      rw [optionalSlot_some]
      split <;> rfl
    | _ => exact hv.elim
  · intro hopt
    rw [htr] at hopt
    rw [s.coding_eq_of hopt]
    exact slot_of_ne_nullopt v

namespace Pair.Good

variable {x : Pair}

private theorem marked (h : x.Good d f) (checked : Bool) : (x.present checked).Marked := by
  obtain ⟨s, r, v⟩ := x
  refine Ty.marked h.evolves.same.1.symm h.has fun hopt => ?_
  obtain ⟨s, rfl⟩ := eq_optional hopt
  obtain ⟨r, rfl⟩ := eq_optional (h.evolves.same.1 ▸ hopt)
  cases v <;> rfl

private theorem embeds (h : x.Good d f) :
    Embeds (x.present false).reader (x.present false).slot (x.present false).val
      (x.present false).effect := h.met.slot

private theorem checks (h : x.Good d f) :
    Checks (x.present true).reader (x.present true).slot (x.present true).val
      (x.present true).effect := by
  obtain ⟨s, r, v⟩ := x
  have hsame : r.unpacker.traits = s.traits := by rw [unpacker_traits, h.evolves.same.1]
  cases hvar : s.traits.isVariableSize with
  | true =>
    have hmem : s.traits.isMemcpy = false := by
      rw [Bool.eq_false_iff]
      intro hmem
      rw [isVariableSize_of_memcpy hmem] at hvar
      cases hvar
    have heffect : (Pair.present true ⟨s, r, v⟩).effect = (s.meeting r).slot v :=
      if_neg (by rw [hmem]; decide)
    rw [heffect]
    intro m src endFixed endHeap hm hfits hle w stop a hw
    rw [Unpacker.checked, if_pos (by rw [← hvar, ← hsame]; rfl)]
    exact h.met.slot hm hfits hle hw
  | false =>
    have heq : s = r := h.evolves.eq_of_fixed hvar
    subst heq
    have hmeeting := meeting_of_fixed h.evolves hvar
    have hslot : (Pair.present true ⟨s, s, v⟩).slot = .inline (s.coding.body v) :=
      inline_of_fixed hvar v
    have hval : (Pair.present true ⟨s, s, v⟩).val = v := by
      change (s.meeting s).read v = v
      rw [hmeeting]
      rfl
    rw [hslot, hval]
    cases hmem : s.traits.isMemcpy with
    | true =>
      have hcopied := copied_of_memcpy hmem
      have heffect : (Pair.present true ⟨s, s, v⟩).effect = some := if_pos (by rw [hmem]; rfl)
      have hchecks : Checks (.memcpy s.traits s.ofRaw) (.inline (s.coding.body v)) _ some :=
        checks_memcpy hvar hmem (length_body_of_fixed hvar h.has)
      rw [← raw_eq_body s hcopied h.has, ofRaw_raw s hcopied h.has,
        ← unpacker_of_memcpy hmem, raw_eq_body s hcopied h.has] at hchecks
      rw [heffect]
      exact hchecks
    | false =>
      have heffect : (Pair.present true ⟨s, s, v⟩).effect = fun a => some a.reset := by
        rw [← slot_of_fixed h.evolves hvar v]
        exact if_neg (by rw [hmem]; decide)
      have hobject := h.met.object
      rw [hmeeting] at hobject
      rw [heffect]
      exact checks_fixed (by rw [← hvar, ← hsame]; rfl) (by rw [← hmem, ← hsame]; rfl) hobject

end Pair.Good

/-- How the members of a writer and a reader that may have trimmed or unknown fields at their
end fall apart: those that the reader finds, those that are missing, and slots the reader does
not know. -/
structure Split (ss rs : Tys) (vs : List Val) (xs : List Pair) (absent : List Unpacker)
    (extra : List Slot) : Prop where
  readers : rs.unpackers = xs.map (·.reader.unpacker) ++ absent
  missing : ∀ p ∈ absent, p.traits.isOptional = true
  read : ss.read rs vs = xs.map (fun x => (x.writer.meeting x.reader).read x.val) ++
    absent.map fun _ => .nullopt
  slots : trim (ss.slots vs) = xs.map (fun x => x.writer.coding.slot x.val) ++ extra
  drop : (trim (ss.slots vs)).drop rs.length = extra
  unknown : ∀ s ∈ extra, IsOptionalSlot s
  one : absent ≠ [] → extra = []
  effects : ∀ checked a, runEffects (ss.effects checked rs vs) a =
    runEffects (xs.map fun x => (x.present checked).effect) a

private theorem Tys.optional_unpackers {ts : Tys} (h : ts.AllOptional) :
    ∀ p ∈ ts.unpackers, p.traits.isOptional = true := by
  cases ts with
  | nil => simp [unpackers]
  | cons t ts =>
    refine forall_mem_cons.mpr ⟨?_, optional_unpackers h.2⟩
    rw [unpacker_traits]
    exact h.1

private theorem Tys.nothings_eq (ts : Tys) : ts.nothings = ts.unpackers.map fun _ => .nullopt := by
  cases ts with
  | nil => rfl
  | cons _ ts => exact congrArg (Val.nullopt :: ·) ts.nothings_eq

private theorem Tys.optional_slots : {ts : Tys} → ts.AllOptional → (vs : List Val) →
    ∀ s ∈ ts.slots vs, IsOptionalSlot s
  | .nil, _, _ | .cons _ _, _, [] => nofun
  | .cons t ts, h, v :: vs => by
    refine forall_mem_cons.mpr ⟨?_, optional_slots h.2 vs⟩
    obtain ⟨u, rfl⟩ := eq_optional h.1
    exact isOptionalSlot u v

/-- Only an optional without a value has the slot that says so. -/
theorem Ty.eq_nullopt (hv : t.Has v) (h : t.coding.slot v = .word 1) :
    (∃ u, t = .optional u) ∧ v = .nullopt := by
  cases hopt : t.traits.isOptional with
  | false =>
    rw [t.coding_eq_of hopt] at h
    exact absurd h (slot_of_ne_nullopt v)
  | true =>
    obtain ⟨u, rfl⟩ := eq_optional hopt
    refine ⟨⟨u, rfl⟩, ?_⟩
    cases v with
    | nullopt => rfl
    | some x =>
      change optionalSlot u.traits u.coding (.some x) = .word 1 at h
      rw [optionalSlot_some] at h
      split at h <;> cases h
    | _ => exact hv.elim

/-- The members of an evolved struct fall apart. -/
theorem Tys.split {d f : Bool} : {ss rs : Tys} → {vs : List Val} → ss.Evolves d f rs →
    ss.Has vs → (∀ x ∈ ss.pairs rs vs, x.Good d f) →
    ∃ xs absent extra, Split ss rs vs xs absent extra ∧ ∀ x ∈ xs, x.Good d f
  | .nil, .nil, [], _, _, _ =>
    ⟨[], [], [], ⟨rfl, nofun, rfl, rfl, rfl, nofun, fun _ => rfl,
      fun _ _ => rfl⟩, nofun⟩
  | .nil, .cons r rs, [], h, _, _ =>
    ⟨[], _, [], ⟨rfl, optional_unpackers h.2, (cons r rs).nothings_eq, rfl, rfl,
      nofun, fun _ => rfl, fun _ _ => rfl⟩, nofun⟩
  | .cons s ss, .nil, v :: vs, h, _, _ =>
    ⟨[], [], trim ((cons s ss).slots (v :: vs)), ⟨rfl, nofun, rfl, rfl, rfl,
      fun x hx => optional_slots h.2 _ x (mem_of_mem_take (trim_eq_take _ ▸ hx)),
      fun hne => absurd rfl hne, fun _ _ => rfl⟩, nofun⟩
  | .cons s ss, .cons r rs, v :: vs, h, hv, hgood => by
    have hhead : Pair.Good d f ⟨s, r, v⟩ := hgood _ mem_cons_self
    obtain ⟨xs, absent, extra, hsplit, hxs⟩ :=
      split h.2 hv.2 (forall_mem_cons.mp hgood).2
    by_cases htrim : ((trim (ss.slots vs)).isEmpty && s.coding.slot v == .word 1) = true
    · rw [Bool.and_eq_true, List.isEmpty_iff, beq_iff_eq] at htrim
      obtain ⟨hrest, hslot⟩ := htrim
      obtain ⟨⟨s, rfl⟩, rfl⟩ := eq_nullopt hv.1 hslot
      have hnone : xs = [] ∧ extra = [] := by
        have hslots := hsplit.slots
        rw [hrest] at hslots
        obtain ⟨h₁, h₂⟩ := append_eq_nil_iff.mp hslots.symm
        exact ⟨map_eq_nil_iff.mp h₁, h₂⟩
      obtain ⟨rfl, rfl⟩ := hnone
      obtain ⟨r, rfl⟩ := eq_optional (h.1.same.1 ▸ rfl : r.traits.isOptional = true)
      have hslots : trim ((cons (.optional s) ss).slots (.nullopt :: vs)) = [] := by
        rw [slots, trim, hrest]
        rfl
      refine ⟨[], (optional r).unpacker :: absent, [], ⟨?_, ?_, ?_, hslots, ?_,
        nofun, fun _ => rfl, ?_⟩, nofun⟩
      · exact congrArg ((optional r).unpacker :: ·) hsplit.readers
      · exact forall_mem_cons.mpr ⟨rfl, hsplit.missing⟩
      · rw [read, meeting, hsplit.read]
        rfl
      · rw [hslots]
        rfl
      · intro checked a
        rw [effects, meeting, runEffects]
        have heffect : (if checked && (optional s).traits.isMemcpy then some
            else (Meeting.optional s (s.meeting r)).slot .nullopt) a = some a := by
          split <;> rfl
        rw [heffect]
        exact hsplit.effects checked a
    · have hslots : trim ((cons s ss).slots (v :: vs)) =
          s.coding.slot v :: trim (ss.slots vs) := by
        rw [slots, trim, if_neg htrim]
      refine ⟨⟨s, r, v⟩ :: xs, absent, extra, ⟨?_, hsplit.missing, ?_, ?_, ?_, hsplit.unknown,
        hsplit.one, ?_⟩, ?_⟩
      · exact congrArg (r.unpacker :: ·) hsplit.readers
      · exact congrArg ((s.meeting r).read v :: ·) hsplit.read
      · rw [hslots, hsplit.slots]
        rfl
      · rw [hslots]
        exact hsplit.drop
      · intro checked a
        exact congrArg (Option.bind _) (funext fun b => hsplit.effects checked b)
      · exact forall_mem_cons.mpr ⟨hhead, hxs⟩

/-- After trimming the last slot has a value. -/
theorem lastHasValue_trim (ss : List Slot) : lastHasValue true (trim ss) = true := by
  induction ss with
  | nil => rfl
  | cons s ss ih =>
    rw [trim]
    split
    · rfl
    next h =>
      cases hss : trim ss with
      | nil =>
        rw [hss] at h
        simpa [lastHasValue] using h
      | cons t ts =>
        rw [hss] at ih
        exact ih

section

variable (checked : Bool) (xs : List Pair)

private theorem map_present_reader : (xs.map (Pair.present checked)).map Present.reader =
    xs.map (·.reader.unpacker) := map_map

private theorem map_present_slot : (xs.map (Pair.present checked)).map Present.slot =
    xs.map fun x => x.writer.coding.slot x.val := map_map

private theorem map_present_val : (xs.map (Pair.present checked)).map Present.val =
    xs.map fun x => (x.writer.meeting x.reader).read x.val := map_map

private theorem map_present_effect : (xs.map (Pair.present checked)).map Present.effect =
    xs.map fun x => (x.present checked).effect := map_map

end

section

variable {ss rs : Tys} {vs : List Val} {xs : List Pair} {absent : List Unpacker} {extra : List Slot}
  {width : Nat}

private theorem fixedLen_pairs (h : ∀ x ∈ xs, x.Good d f) :
    fixedLen (xs.map fun x => x.writer.coding.slot x.val) =
      ((xs.map (·.reader.unpacker)).map fun p => p.traits.fixedSize).sum := by
  induction xs with
  | nil => rfl
  | cons x xs ih =>
    have hx := h x mem_cons_self
    rw [map_cons, fixedLen, ih (forall_mem_cons.mp h).2, map_cons,
      map_cons, sum_cons, fixedLen_slot _ hx.has, unpacker_traits,
      hx.evolves.same.1]

private theorem Tys.fixedSize_eq_sum (ts : Tys) :
    ts.fixedSize = (ts.unpackers.map fun p => p.traits.fixedSize).sum := by
  cases ts with
  | nil => rfl
  | cons t ts =>
    rw [fixedSize, ts.fixedSize_eq_sum, unpackers, map_cons, sum_cons, unpacker_traits]

/-- A tuple, or a struct that may end with optionals. -/
theorem Split.reads_trimmed {byValue : Mode → Bool} (h : Split ss rs vs xs absent extra)
    (hgood : ∀ x ∈ xs, x.Good d f) (hfits : fixedLen (trim (ss.slots vs)) < 256 ^ width) :
    Reads (.trimmed width byValue rs.unpackers) (headed width (trim (ss.slots vs)))
      (.list (ss.read rs vs)) (fun u => (runEffects (ss.effects false rs vs) (.exact u)).bind
        (finish ((trim (ss.slots vs)).drop rs.length))) := by
  have hlast := lastHasValue_trim (ss.slots vs)
  rw [h.drop, h.read, h.readers]
  rw [h.slots] at hlast hfits ⊢
  simp only [h.effects]
  rw [← map_present_slot false] at hlast hfits ⊢
  rw [← map_present_reader false, ← map_present_val false, ← map_present_effect]
  refine Frac.reads_trimmed ?_ ?_ h.missing h.unknown h.one hlast hfits
  · exact forall_mem_map.mpr fun y hy => (hgood y hy).marked false
  · exact forall_mem_map.mpr fun y hy => (hgood y hy).embeds

private theorem checks_pairs (hgood : ∀ x ∈ xs, x.Good d f) :
    ∀ x ∈ xs.map (Pair.present true), Checks x.reader x.slot x.val x.effect :=
  forall_mem_map.mpr fun y hy => (hgood y hy).checks

private theorem Tys.getLast_unpackers : (ts : Tys) → ts.hasTrailingOptionals = false →
    ∀ p, ts.unpackers.getLast? = some p → p.traits.isOptional = false
  | .nil, _, p, hp => by cases hp
  | .cons t .nil, h, p, hp => by
    cases hp
    exact (congrArg Traits.isOptional (unpacker_traits t)).trans h
  | .cons t (.cons u us), h, p, hp => by
    apply getLast_unpackers (.cons u us) h p
    rw [← hp, unpackers, unpackers, unpackers, getLast?_cons_cons]

/-- A struct whose members are all present. -/
theorem Split.reads_untrimmed (h : Split ss rs vs xs absent extra)
    (hgood : ∀ x ∈ xs, x.Good d f)
    (hrs : rs.hasTrailingOptionals = false) (hfits : fixedLen (trim (ss.slots vs)) < 256 ^ width) :
    Reads (.untrimmed (some width) rs.fixedSize rs.unpackers)
      (headed width (trim (ss.slots vs))) (.list (ss.read rs vs))
      (fun u => (runEffects (ss.effects true rs vs) (.exact u)).bind
        (finish ((trim (ss.slots vs)).drop rs.length))) := by
  have habsent : absent = [] := by
    cases hlast : absent.getLast? with
    | none => exact getLast?_eq_none_iff.mp hlast
    | some p =>
      have hp := getLast_unpackers rs hrs p (by
        rw [h.readers, getLast?_append, hlast]
        rfl)
      rw [h.missing p (mem_of_getLast? hlast)] at hp
      cases hp
  have hreaders := h.readers
  rw [habsent, append_nil] at hreaders
  have hread := h.read
  rw [habsent, map_nil, append_nil] at hread
  have hsize := fixedLen_pairs hgood
  rw [← hreaders, ← fixedSize_eq_sum, ← map_present_slot true] at hsize
  rw [h.drop, hread, hreaders]
  rw [h.slots] at hfits ⊢
  simp only [h.effects]
  rw [← map_present_slot true] at hfits ⊢
  rw [← map_present_reader true, ← map_present_val true, ← map_present_effect]
  refine Frac.reads_untrimmed (checks_pairs hgood) h.unknown hsize ⟨?_, hfits⟩
  rw [fixedLen_append, hsize]
  exact Nat.le_add_right _ _

/-- Members that are all there, in a struct that does not change. -/
structure Whole (ss rs : Tys) (vs : List Val) : Prop where
  readers : rs.unpackers = (ss.pairs rs vs).map (·.reader.unpacker)
  read : ss.read rs vs = (ss.pairs rs vs).map fun x => (x.writer.meeting x.reader).read x.val
  slots : ss.slots vs = (ss.pairs rs vs).map fun x => x.writer.coding.slot x.val
  effects : ∀ checked, ss.effects checked rs vs =
    (ss.pairs rs vs).map fun x => (x.present checked).effect

private theorem Tys.whole : {ss rs : Tys} → {vs : List Val} → ss.Each d f rs → ss.Has vs →
    Whole ss rs vs
  | .nil, .nil, [], _, _ => ⟨rfl, rfl, rfl, fun _ => rfl⟩
  | .cons s ss, .cons r rs, v :: vs, h, hv => by
    obtain ⟨h₁, h₂, h₃, h₄⟩ := whole h.2 hv.2
    exact ⟨congrArg (r.unpacker :: ·) h₁, congrArg ((s.meeting r).read v :: ·) h₂,
      congrArg (s.coding.slot v :: ·) h₃, fun checked => congrArg (_ :: ·) (h₄ checked)⟩

private theorem Whole.reads_untrimmed (h : Whole ss rs vs)
    (hgood : ∀ x ∈ ss.pairs rs vs, x.Good d f) :
    Reads (.untrimmed none rs.fixedSize rs.unpackers) (layout (ss.slots vs))
      (.list (ss.read rs vs)) (fun u => runEffects (ss.effects true rs vs) (.exact u)) := by
  have hsize := fixedLen_pairs hgood
  rw [← h.readers, ← fixedSize_eq_sum, ← map_present_slot true] at hsize
  have hnone : ∀ s ∈ ([] : List Slot), IsOptionalSlot s := nofun
  have hheader : HeaderFits none rs.fixedSize
      (fixedLen (((ss.pairs rs vs).map (Pair.present true)).map Present.slot ++ [])) := by
    rw [append_nil]
    exact hsize
  have hreads := Frac.reads_untrimmed (checks_pairs hgood) hnone hsize hheader
  rw [append_nil, map_present_slot, map_present_reader, map_present_val,
    map_present_effect, ← h.readers, ← h.read, ← h.slots, ← h.effects] at hreads
  have hfinish : ∀ u, (runEffects (ss.effects true rs vs) (.exact u)).bind (finish []) =
      runEffects (ss.effects true rs vs) (.exact u) := by
    intro u
    cases runEffects (ss.effects true rs vs) (.exact u) <;> rfl
  simp only [hfinish] at hreads
  exact hreads

private theorem Tys.fixed_pairs : {ss rs : Tys} → {vs : List Val} → ss.anyVariableSize = false →
    ∀ x ∈ ss.pairs rs vs, x.writer.traits.isVariableSize = false
  | .cons s ss, .cons r rs, v :: vs, h => by
    rw [anyVariableSize, Bool.or_eq_false_iff] at h
    exact forall_mem_cons.mpr ⟨h.1, fixed_pairs h.2⟩
  | .nil, _, _, _ | .cons _ _, .nil, _, _ | .cons _ _, .cons _ _, [], _ => nofun

/-- A struct of a fixed size whose members are checked one by one. -/
theorem Whole.reads_fixedStruct {tr : Traits} (h : Whole ss rs vs)
    (hgood : ∀ x ∈ ss.pairs rs vs, x.Good d f) (hvar : ss.anyVariableSize = false)
    (htr : tr.fixedSize = rs.fixedSize) :
    Reads (.fixedStruct tr rs.unpackers) (layout (ss.slots vs)) (.list (ss.read rs vs))
      (some ∘ .exact) := by
  have hfixed : ∀ x ∈ ss.pairs rs vs, x.writer.traits.isVariableSize = false :=
    fixed_pairs hvar
  have hsize := fixedLen_pairs hgood
  rw [← h.readers, ← fixedSize_eq_sum, ← map_present_slot true, ← htr] at hsize
  have hinline : ∀ s ∈ ((ss.pairs rs vs).map (Pair.present true)).map Present.slot, s.IsInline := by
    rw [map_present_slot]
    exact forall_mem_map.mpr fun x hx => ⟨_, inline_of_fixed (hfixed x hx) _⟩
  have hidle : ∀ x ∈ (ss.pairs rs vs).map (Pair.present true), ∀ a : Sight, a.known = true →
      x.effect a = some a := by
    refine forall_mem_map.mpr fun y hy a ha => ?_
    rw [Pair.present]
    split
    · rfl
    · rw [slot_of_fixed (hgood y hy).evolves (hfixed y hy)]
      exact congrArg some (Sight.reset_of_known ha)
  have hreads := Frac.reads_fixedStruct (checks_pairs hgood) hinline hidle hsize
  rw [map_present_slot, map_present_reader, map_present_val, ← h.readers, ← h.read,
    ← h.slots] at hreads
  exact hreads

end

/-! ### All types -/

/-- The length of a bounded container holds its number of bytes. -/
theorem lt_boundedLength (hk : k ≤ n) (h : k < 2 ^ 32) : k < 256 ^ boundedLength n := by
  unfold boundedLength
  split
  · omega
  · split
    · omega
    · split <;> omega

/-- The header of a struct holds the size of its fixed region. -/
theorem lt_headerLength (hk : k ≤ n) (h : k < 2 ^ 32) : k < 256 ^ headerLength n := by
  unfold headerLength
  split
  · omega
  · split <;> omega

/-- Trimming makes a fixed region no longer. -/
theorem fixedLen_trim_le (ss : List Slot) : fixedLen (trim ss) ≤ fixedLen ss := by
  have happend := fixedLen_append (ss.take (trim ss).length) (ss.drop (trim ss).length)
  rw [take_append_drop, ← trim_eq_take] at happend
  omega

/-- Members of a fixed size are read as they are. -/
theorem Tys.read_of_fixed {d f : Bool} : {ss rs : Tys} → {vs : List Val} → ss.Each d f rs →
    ss.anyVariableSize = false → ss.Has vs → ss.read rs vs = vs
  | .nil, .nil, [], _, _, _ => rfl
  | .cons s ss, .cons r rs, v :: vs, h, hvar, hv => by
    rw [anyVariableSize, Bool.or_eq_false_iff] at hvar
    rw [read, read_of_fixed h.2 hvar.2 hv.2, meeting_of_fixed h.1 hvar.1]
    rfl

private theorem reads_chars {bs : Bytes} (hfits : bs.length < 2 ^ 32 → bs.length < 256 ^ width) :
    Reads (.bytes width 1 (.string []) .string) (charsBody width bs) (.string bs)
      (charsSight width bs) := by
  apply Reads.of_lt
  intro hlt
  rw [charsBody, length_append] at hlt
  have hlen := hfits (by omega)
  have hsight : charsSight width bs = some ∘ .exact := by
    funext u
    exact if_pos hlen
  rw [hsight]
  exact reads_bytes hlen (Nat.mod_one _)

section

variable {vs : List Val} {v : Val} {bs : List Bool} {ss rs : Tys} {unpadded : Bool}

/-- An object that is copied as it is. -/
theorem Met.copied (h : s.Evolves d f r) (hmem : s.traits.isMemcpy = true) (hv : s.Has v) :
    Met s r v := by
  have hcopied := copied_of_memcpy hmem
  have hvar := isVariableSize_of_copied hcopied
  obtain rfl := h.eq_of_fixed hvar
  have hreads : Reads (.memcpy s.traits s.ofRaw) (s.coding.body v) _ (some ∘ .exact) :=
    reads_memcpy (length_body_of_fixed hvar hv)
  rw [← raw_eq_body s hcopied hv, ofRaw_raw s hcopied hv, raw_eq_body s hcopied hv,
    ← unpacker_of_memcpy hmem] at hreads
  exact Met.of_fixed h hvar hreads

private theorem Met.vector (h : s.Evolves d f r) (hwf : s.WellFormed) (hbool : s.isBool = false)
    (hvs : ∀ v ∈ vs, s.Has v) (hmet : ∀ v ∈ vs, Met s r v) :
    Met (.vector s) (.vector r) (.list vs) := by
  have hbool' : ¬r.isBool = true := by rw [← h.same.2.2, hbool]; decide
  have hbool₀ := Bool.eq_false_iff.mp hbool
  have hbody : (Ty.vector s).coding.body (.list vs) =
      leBytes 4 (vs.length * s.traits.fixedSize) ++ layout (vs.map s.coding.slot) := if_neg hbool₀
  refine Met.of_variable (d := d) (f := f) h ⟨hbool, hvs⟩ rfl rfl (if_neg hbool₀) ?_
  rw [hbody, Ty.unpacker, if_neg hbool']
  cases hmem : s.traits.isMemcpy with
  | true =>
    have hvar := Ty.isVariableSize_of_memcpy hmem
    obtain rfl := h.eq_of_fixed hvar
    rw [if_pos hmem]
    exact reads_copied_elements h hwf hmem hvs fun hlt => hlt
  | false =>
    rw [if_neg (by rw [← h.same.1, hmem]; decide)]
    exact reads_elements h hvs hmet fun hlt hge => absurd hlt (not_lt.mpr hge)

private theorem Met.assoc (h : s.Evolves d f r) (hvs : ∀ v ∈ vs, s.Has v)
    (hmet : ∀ v ∈ vs, Met s r v) : Met (.assoc s) (.assoc r) (.list vs) := by
  refine Met.of_variable (d := d) (f := f) h hvs rfl rfl rfl ?_
  exact reads_elements h hvs hmet fun hlt hge => absurd hlt (not_lt.mpr hge)

private theorem Met.boundedList (h : s.Evolves d f r) (hwf : s.WellFormed) (hlen : vs.length ≤ n)
    (hvs : ∀ v ∈ vs, s.Has v) (hmet : ∀ v ∈ vs, Met s r v) :
    Met (.boundedList s n) (.boundedList r n) (.list vs) := by
  have hlength : r.listLength n = s.listLength n := by
    rw [Ty.listLength, Ty.listLength, h.same.1]
  refine Met.of_variable (d := d) (f := f) ⟨h, rfl⟩ ⟨hlen, hvs⟩ rfl rfl rfl ?_
  rw [Ty.unpacker, hlength]
  cases hmem : s.traits.isMemcpy with
  | true =>
    have hvar := Ty.isVariableSize_of_memcpy hmem
    obtain rfl := h.eq_of_fixed hvar
    rw [if_pos hmem]
    refine reads_copied_elements h hwf hmem hvs fun hlt => ?_
    rw [Ty.listLength, if_pos hmem]
    exact lt_boundedLength (Nat.mul_le_mul_right _ hlen) hlt
  | false =>
    rw [if_neg (by rw [← h.same.1, hmem]; decide)]
    refine reads_elements h hvs hmet fun hlt hge => ?_
    -- four bytes are reserved for each element
    cases hvar : s.traits.isVariableSize with
    | false => rfl
    | true =>
      have hsize := Ty.fixedSize_of_variable hvar
      rw [Ty.listLength, if_neg (by rw [hmem]; decide), hsize] at hge
      rw [hsize] at hlt
      exact absurd (lt_boundedLength (Nat.mul_le_mul_right 4 hlen) hlt) (not_lt.mpr hge)

private theorem Met.array (h : s.Evolves d f r) (hvs : ∀ v ∈ vs, s.Has v)
    (hmet : ∀ v ∈ vs, Met s r v) : Met (.array s vs.length) (.array r vs.length) (.list vs) := by
  have hev : (Ty.array s vs.length).Evolves d f (.array r vs.length) := ⟨h, rfl⟩
  have hsize : fixedLen (vs.map s.coding.slot) = r.unpacker.traits.fixedSize * vs.length := by
    rw [Ty.fixedLen_slots hvs, Ty.unpacker_traits, h.same.1, mul_comm]
  have hreads : ∀ tr, Reads (.array tr r.unpacker vs.length) (layout (vs.map s.coding.slot))
      (.list (vs.map (s.meeting r).read))
      (fun u => runEffects (vs.map (s.meeting r).slot) (.exact u)) := fun _ =>
    reads_array (fun v hv => (hmet v hv).slot) hsize
  cases hvar : s.traits.isVariableSize with
  | true =>
    have htr : (Ty.array s vs.length).traits = .offset := by rw [Ty.traits, if_pos hvar]
    have hmem : ¬r.traits.isMemcpy = true := by
      intro hmem
      rw [h.same.1, Ty.isVariableSize_of_memcpy hmem] at hvar
      cases hvar
    refine Met.of_variable hev ⟨rfl, hvs⟩ (by rw [htr]; rfl) (by rw [htr]; rfl) (if_pos hvar) ?_
    rw [Ty.unpacker, if_neg hmem]
    exact hreads _
  | false =>
    obtain rfl := h.eq_of_fixed hvar
    have htr := Ty.array_traits hvar vs.length
    cases hmem : s.traits.isMemcpy with
    | true => exact Met.copied hev (by rw [htr, hmem]; rfl) ⟨rfl, hvs⟩
    | false =>
      have hidle : (fun u => runEffects (vs.map (s.meeting s).slot) (.exact u)) =
          some ∘ .exact := by
        funext u
        refine runEffects_idle (forall_mem_map.mpr fun v hv => ?_)
        rw [Ty.slot_of_fixed h hvar]
        rfl
      have hid : vs.map (s.meeting s).read = vs := by
        rw [Ty.meeting_of_fixed h hvar]
        exact map_id vs
      refine Met.of_fixed hev (by rw [htr]; rfl) ?_
      rw [Ty.unpacker, if_neg (by rw [hmem]; decide)]
      rw [hidle, hid] at hreads
      exact hreads _

private theorem Met.bitlist (hlen : bs.length ≤ n) : Met (.bitlist n) (.bitlist n) (.bits bs) := by
  have hcount : u32 (bs.length % 256 ^ boundedLength n) = announcedBits bs := by
    unfold boundedLength u32 announcedBits u32
    split
    · rw [Nat.mod_eq_of_lt (by omega : bs.length < 256 ^ 1)]
    · split
      · rw [Nat.mod_eq_of_lt (by omega : bs.length < 256 ^ 2)]
      · split <;> omega
  refine Met.of_variable (s := .bitlist n) (d := false) (f := false) rfl hlen rfl rfl rfl ?_
  refine reads_bits hcount ?_
  exact decide_eq_true ((announcedBits_le bs).trans hlen)

private theorem Met.vector_bool (h : s.Evolves d f r) (hbool : s.isBool = true) :
    Met (.vector s) (.vector r) (.bits bs) := by
  have hbody : (Ty.vector s).coding.body (.bits bs) = bitsBody 4 bs := if_pos hbool
  refine Met.of_variable (d := d) (f := f) h hbool rfl rfl (if_pos hbool) ?_
  rw [hbody, Ty.unpacker, if_pos (by rw [← h.same.2.2, hbool])]
  exact reads_bits (Nat.mod_mod _ _) rfl

private theorem Met.variant {p : Unpacker} {i : Nat} (h : ss.Each d f rs) (hv : ss.HasAt i v)
    (hp : rs.unpackers[i]? = some p) (hi : i < 128)
    (hreads : Reads p (ss.bodyAt i v) (ss.readAt rs i v) (ss.objectAt rs i v)) :
    Met (.variant ss) (.variant rs) (.alt i v) := by
  exact Met.of_variable (d := d) (f := f) h hv rfl rfl rfl (reads_variant hp hi hreads)

private theorem Met.tuple (h : ss.Evolves d f rs) (hwf : (Ty.tuple ss).WellFormed) (hvs : ss.Has vs)
    (hgood : ∀ x ∈ ss.pairs rs vs, x.Good d f) :
    Met (.tuple ss) (.tuple rs) (.list vs) := by
  have hle := fixedLen_trim_le (ss.slots vs)
  have hlt := hwf.2
  rw [fixedLen_slots ss hvs] at hle
  obtain ⟨xs, absent, extra, hsplit, hxs⟩ := split h hvs hgood
  exact Met.of_variable (d := d) (f := f) h hvs rfl rfl rfl (hsplit.reads_trimmed hxs (by omega))

/-- A struct that does not change. -/
theorem Met.struct_fixed (h : ss.Each d f rs) (hvs : ss.Has vs)
    (hgood : ∀ x ∈ ss.pairs rs vs, x.Good d f) :
    Met (.struct true unpadded n ss) (.struct true unpadded n rs) (.list vs) := by
  have hev : (struct true unpadded n ss).Evolves d f (.struct true unpadded n rs) :=
    ⟨rfl, rfl, h⟩
  have hwhole := whole h hvs
  cases hvar : (struct true unpadded n ss).traits.isVariableSize with
  | true =>
    have htr := struct_traits hvar
    refine Met.of_variable hev hvs hvar (by rw [htr]; rfl) (if_pos hvar) ?_
    rw [struct_unpacker (by rw [← hev.same.1, hvar])]
    exact hwhole.reads_untrimmed hgood
  | false =>
    have hany := (fixed_of_struct hvar).2
    obtain rfl := h.eq_of_fixed hany
    cases hmem : (struct true unpadded n ss).traits.isMemcpy with
    | true => exact Met.copied hev hmem hvs
    | false =>
      have hsize := congrArg Traits.fixedSize (fixedStruct_traits hany unpadded n)
      have hreads := hwhole.reads_fixedStruct hgood hany hsize
      rw [read_of_fixed h hany hvs] at hreads
      refine Met.of_fixed hev hvar ?_
      rw [unpacker, if_neg (by rw [hmem]; decide), hvar]
      exact hreads

/-- A struct that may grow. -/
theorem Met.struct_extensible {unpadded' : Bool} {n' : Nat}
    (hn : headerLength n = headerLength n')
    (h : ss.Evolves d f rs) (hwf : (struct false unpadded n ss).WellFormed) (hvs : ss.Has vs)
    (hgood : ∀ x ∈ ss.pairs rs vs, x.Good d f) :
    Met (.struct false unpadded n ss) (.struct false unpadded' n' rs) (.list vs) := by
  obtain ⟨-, hlt, hmax, -⟩ := hwf
  have hle := fixedLen_trim_le (ss.slots vs)
  rw [fixedLen_slots ss hvs] at hle
  have hfits : fixedLen (trim (ss.slots vs)) < 256 ^ headerLength n' := by
    rw [← hn]
    exact lt_headerLength (hle.trans (hmax rfl)) (by omega)
  obtain ⟨xs, absent, extra, hsplit, hxs⟩ := split h hvs hgood
  have hbody : (struct false unpadded n ss).coding.body (.list vs) =
      headed (headerLength n') (trim (ss.slots vs)) := by
    rw [← hn]
    rfl
  refine Met.of_variable (d := d) (f := f) ⟨hn, h⟩ hvs rfl rfl rfl ?_
  rw [hbody, struct_unpacker rfl, if_neg (by decide)]
  cases htrail : rs.hasTrailingOptionals with
  | true => exact hsplit.reads_trimmed hxs hfits
  | false => exact hsplit.reads_untrimmed hxs htrail hfits

end

mutual

/-- The reader of an evolved type meets every value of the writer's type. -/
theorem Ty.met {d f : Bool} : (s : Ty) → {r : Ty} → {v : Val} → s.Evolves d f r → s.WellFormed →
    s.Has v → Met s r v
  | .num _, .num _, .num _, h, _, hv => Met.copied h rfl hv
  | .bool, .bool, .bool _, h, _, hv => Met.of_fixed h rfl (reads_bool hv)
  | .bitset n, .bitset _, .bits bs, h, _, hv => by
    have hlen : bs.length = n := hv
    have hreads : Reads (bitset n).unpacker (packBits bs) (.bits (unpackBits n (packBits bs)))
        (some ∘ .exact) := reads_memcpy (by rw [length_packBits, hlen]; rfl)
    rw [← hlen, unpackBits_packBits, hlen] at hreads
    cases h
    exact Met.of_fixed (d := d) (f := f) rfl rfl hreads
  | .string, .string, .string bs, h, _, hv => by
    exact Met.of_variable h hv rfl rfl rfl (reads_chars fun hlt => hlt)
  | .boundedString n, .boundedString _, .string bs, h, _, hv => by
    cases h
    exact Met.of_variable (d := d) (f := f) rfl hv rfl rfl rfl (reads_chars (lt_boundedLength hv))
  | .bitlist n, .bitlist _, .bits bs, h, _, hv => by
    cases h
    exact Met.bitlist hv
  | .vector s, .vector r, .bits bs, h, _, hv => Met.vector_bool h hv
  | .vector s, .vector r, .list vs, h, hwf, hv =>
    Met.vector h hwf hv.1 hv.2 fun v hmem => Ty.met s h hwf (hv.2 v hmem)
  | .assoc s, .assoc r, .list vs, h, hwf, hv =>
    Met.assoc h hv fun v hmem => Ty.met s h hwf (hv v hmem)
  | .boundedList s n, .boundedList r _, .list vs, h, hwf, hv => by
    obtain ⟨h, rfl⟩ := h
    exact Met.boundedList h hwf.1 hv.1 hv.2 fun v hmem => Ty.met s h hwf.1 (hv.2 v hmem)
  | .array s _, .array r _, .list vs, h, hwf, hv => by
    obtain ⟨h, rfl⟩ := h
    obtain ⟨rfl, hvs⟩ := hv
    exact Met.array h hvs fun v hmem => Ty.met s h hwf.1 (hvs v hmem)
  | .optional s, .optional r, v, h, hwf, hv =>
    Met.optional h hv fun x hx => Ty.met s h hwf hx
  | .tuple ss, .tuple rs, .list vs, h, hwf, hv =>
    Met.tuple h hwf hv (Tys.met ss h hwf.1 hv)
  | .variant ss, .variant rs, .alt i v, h, hwf, hv => by
    obtain ⟨p, hp, hi, hreads⟩ := Tys.metAt ss h hwf.1 hv
    exact Met.variant h hv hp (lt_trans hi hwf.2.2) hreads
  | .struct true _ _ ss, .struct true _ _ rs, .list vs, h, hwf, hv => by
    obtain ⟨rfl, rfl, h⟩ := h
    exact Met.struct_fixed h hv (Tys.met ss h.evolves hwf.1 hv)
  | .struct false _ _ ss, .struct false _ _ rs, .list vs, h, hwf, hv =>
    Met.struct_extensible h.1 h.2 hwf hv (Tys.met ss h.2 hwf.1 hv)

private theorem Tys.met {d f : Bool} : (ss : Tys) → {rs : Tys} → {vs : List Val} →
    ss.Evolves d f rs → ss.WellFormed → ss.Has vs → ∀ x ∈ ss.pairs rs vs, x.Good d f
  | .cons s ss, .cons _ _, _ :: _, h, hwf, hv =>
    forall_mem_cons.mpr ⟨⟨h.1, hv.1, Ty.met s h.1 hwf.1 hv.1⟩, Tys.met ss h.2 hwf.2 hv.2⟩
  | .nil, .nil, _, _, _, _ | .nil, .cons _ _, _, _, _, _ | .cons _ _, .nil, _, _, _, _ => nofun

private theorem Tys.metAt {d f : Bool} : (ss : Tys) → {rs : Tys} → {i : Nat} → {v : Val} →
    ss.Each d f rs → ss.WellFormed → ss.HasAt i v →
    ∃ p, rs.unpackers[i]? = some p ∧ i < ss.length ∧
      Reads p (ss.bodyAt i v) (ss.readAt rs i v) (ss.objectAt rs i v)
  | .cons s ss, .cons r rs, 0, v, h, hwf, hv =>
    ⟨r.unpacker, rfl, Nat.succ_pos _, (Ty.met s h.1 hwf.1 hv).object⟩
  | .cons s ss, .cons r rs, i + 1, v, h, hwf, hv => by
    obtain ⟨p, hp, hi, hreads⟩ := Tys.metAt ss h.2 hwf.2 hv
    exact ⟨p, hp, Nat.succ_lt_succ hi, hreads⟩

end

/-- A whole buffer has to be met to its end. -/
def kept (a : Sight) : Option Sight := if a.lost then none else some a

end PsiServe.Frac
