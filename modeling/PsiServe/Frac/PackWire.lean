import Mathlib.Data.List.Forall2
import PsiServe.Frac.Pack

/-!
# Packing writes the wire format

The stream with its two passes and patched offsets (`Pack`) writes exactly the bytes of the
wire format (`Wire`), and `packed_size` is their number, as long as positions fit `uint32_t`.
-/

namespace PsiServe.Frac

open Base List Packer Coding Ty

variable {n : Nat} {ss : List Slot} {advance : Packer → Nat} {items : List (Packer × Val)}
  {tr : Traits} {body : Val → Bytes} {v : Val} {pack : Val → Stream → Stream}

/-- A number below `2 ^ 32` does not wrap. -/
theorem u32_of_lt (h : n < 2 ^ 32) : u32 n = n := Nat.mod_eq_of_lt h

/-- A difference that is not negative does not wrap. -/
theorem sub32_of_le {a b : Nat} (h : b ≤ a) (ha : a < 2 ^ 32) : sub32 a b = a - b := by
  unfold sub32
  omega

private theorem Stream.written_of_lt {s : Stream} (h : s.length < 2 ^ 32) : s.written = s.length :=
  u32_of_lt h

/-- Patching four bytes in the middle of a stream. -/
theorem Stream.rewriteRaw_middle {pre old mid : Bytes} (h : old.length = 4) (v : Nat) :
    Stream.rewriteRaw (pre ++ old ++ mid) pre.length v = pre ++ leBytes 4 v ++ mid := by
  have htake : (pre ++ old ++ mid).take pre.length = pre := by
    rw [append_assoc, take_left]
  have hdrop : (pre ++ old ++ mid).drop (pre.length + 4) = mid := by
    rw [← h, ← length_append, drop_left]
  rw [Stream.rewriteRaw, htake, hdrop]

/-! ### One member -/

/-- A packer handles a value as a member with a given slot: it first writes as many bytes as
the slot has, and then turns them into the slot, wherever it stands and whatever was written
after it. The position of the slot matters only if it is an offset. -/
structure PacksSlot (item : Packer × Val) (s : Slot) : Prop where
  size : s.fixedLen = item.1.traits.fixedSize
  prepares : ∃ room : Bytes, room.length = s.fixedLen ∧
    (∀ st : Stream, st.length + s.fixedLen < 2 ^ 32 →
      item.1.embeddedFixedPack item.2 st = st ++ room) ∧
    ∀ (pre mid : Bytes) (pos : Nat), (pos = pre.length ∨ ∃ bs, s = .inline bs) →
      pre.length + s.fixedLen + mid.length + s.heap.length < 2 ^ 32 →
      item.1.embeddedVariablePack item.2
        (item.1.embeddedFixedRepack item.2 pos (pre.length + s.fixedLen + mid.length)
          (pre ++ room ++ mid)) =
      pre ++ s.bytes (s.fixedLen + mid.length) ++ mid ++ s.heap
  heapSize : s.heap.length < 2 ^ 32 → item.1.embeddedVariablePackedSize item.2 = s.heap.length
  trimmed : s = .word 1 ↔ (item.1.traits.isOptional && !item.2.hasValue) = true

/-- A packer writes an object. -/
structure PacksBody (p : Packer) (v : Val) (body : Bytes) : Prop where
  pack : ∀ s : Stream, s.length + body.length < 2 ^ 32 → p.pack v s = s ++ body
  size : body.length < 2 ^ 32 → p.packedSize v = body.length

/-! ### All members -/

/-- The two passes over members, from any point of the second pass. -/
theorem packMembers_step (h : Forall₂ PacksSlot items ss)
    (hadv : (∀ x ∈ items, advance x.1 = slotSize x.1) ∨ ∀ s ∈ ss, ∃ bs, s = .inline bs) :
    ∃ room : Bytes, room.length = fixedLen ss ∧
      (∀ s : Stream, s.length + fixedLen ss < 2 ^ 32 → fixedPackAll items s = s ++ room) ∧
      ∀ (pre mid : Bytes) (pos : Nat), (pos = pre.length ∨ ∀ s ∈ ss, ∃ bs, s = .inline bs) →
        pre.length + fixedLen ss + mid.length + (heapOf ss).length < 2 ^ 32 →
        variablePackAll advance items pos (pre ++ room ++ mid) =
          pre ++ fixedOf (fixedLen ss + mid.length) ss ++ mid ++ heapOf ss := by
  induction h with
  | nil => exact ⟨[], rfl, by simp [fixedPackAll], by simp [variablePackAll, fixedOf, heapOf]⟩
  | @cons item s items ss hitem _ ih =>
    obtain ⟨p, v⟩ := item
    obtain ⟨room, hroom, hfixed, hvar⟩ := hitem.prepares
    obtain ⟨room', hroom', hfixed', hvar'⟩ := ih (by
      rcases hadv with hadv | hadv
      · exact .inl (forall_mem_cons.mp hadv).2
      · exact .inr (forall_mem_cons.mp hadv).2)
    refine ⟨room ++ room', by simp [fixedLen, hroom, hroom'], ?_, ?_⟩
    · intro st hst
      rw [fixedLen] at hst
      rw [fixedPackAll, hfixed st (by omega), hfixed' _ (by
        rw [length_append, hroom]; omega), append_assoc]
    · intro pre mid pos hpos hlen
      simp only [fixedLen, heapOf, length_append] at hlen
      -- the head sees the rest of the fixed region as part of what follows it
      have hwritten : Stream.written (pre ++ (room ++ room') ++ mid) =
          pre.length + s.fixedLen + (room' ++ mid).length := by
        rw [Stream.written_of_lt]
        · simp only [length_append, hroom]; omega
        · simp only [length_append, hroom, hroom']; omega
      have hhead := hvar pre (room' ++ mid) pos (by
        rcases hpos with hpos | hpos
        · exact .inl hpos
        · exact .inr (hpos s mem_cons_self)) (by
        simp only [length_append, hroom']; omega)
      have htail := hvar' (pre ++ s.bytes (s.fixedLen + (room' ++ mid).length)) (mid ++ s.heap)
        (u32 (pos + advance p)) (by
          rcases hadv with hadv | hadv
          · rcases hpos with hpos | hpos
            · left
              have hadv := hadv (p, v) mem_cons_self
              rw [hpos, hadv, slotSize, ← hitem.size, u32_of_lt (by omega), length_append,
                Slot.length_bytes]
            · exact .inr (forall_mem_cons.mp hpos).2
          · exact .inr (forall_mem_cons.mp hadv).2) (by
        simp only [length_append, Slot.length_bytes]; omega)
      rw [variablePackAll, hwritten]
      simp only [append_assoc] at hhead htail ⊢
      rw [hhead, htail, fixedOf, heapOf]
      have hdist : s.fixedLen + (room' ++ mid).length = fixedLen (s :: ss) + mid.length := by
        rw [length_append, hroom', fixedLen]; omega
      have hnext : fixedLen (s :: ss) + mid.length + s.heap.length - s.fixedLen =
          fixedLen ss + (mid ++ s.heap).length := by
        rw [length_append, fixedLen]; omega
      rw [hdist, hnext]
      simp only [append_assoc]

/-- Members are written as a fixed region and its heap. -/
theorem packMembers_eq (h : Forall₂ PacksSlot items ss)
    (hadv : (∀ x ∈ items, advance x.1 = slotSize x.1) ∨ ∀ s ∈ ss, ∃ bs, s = .inline bs) {s : Stream}
    (hlen : s.length + (layout ss).length < 2 ^ 32) :
    packMembers advance items s = s ++ layout ss := by
  rw [length_layout] at hlen
  obtain ⟨room, -, hfixed, hvar⟩ := packMembers_step h hadv
  have hstep := hvar s [] s.length (.inl rfl) (by simp; omega)
  rw [packMembers, hfixed s (by omega), Stream.written_of_lt (by omega)]
  simp only [append_nil, length_nil, add_zero] at hstep
  rw [hstep, layout, append_assoc]

/-! ### Members of one kind -/

/-- Some bytes are appended to a stream. -/
def Writes (write : Stream → Stream) (bytes : Bytes) : Prop :=
  ∀ s : Stream, s.length + bytes.length < 2 ^ 32 → write s = s ++ bytes

/-- The number of bytes written to an empty stream. -/
theorem u32_length_pack {write : Stream → Stream} {bytes : Bytes}
    (hpack : Writes write bytes)
    (hlen : bytes.length < 2 ^ 32) : u32 (write []).length = bytes.length := by
  rw [hpack [] (by simpa using hlen), nil_append, u32_of_lt hlen]

/-- A type that uses the default implementation for members. -/
theorem PacksSlot.of_base {ps es : Val → Nat} (hopt : tr.isOptional = false)
    (hsize : ((of tr body).slot v).fixedLen = tr.fixedSize)
    (hpack : Writes (pack v) (body v))
    (hes : ((of tr body).slot v).heap.length < 2 ^ 32 →
      es v = ((of tr body).slot v).heap.length) :
    PacksSlot
      ({ base tr pack with packedSize := ps, embeddedVariablePackedSize := es }, v)
      ((of tr body).slot v) where
  size := hsize
  heapSize := hes
  trimmed := by simp [base, hopt, slot_of_ne_nullopt]
  prepares := by
    cases hvar : tr.isVariableSize with
    | false =>
      rw [slot_of_fixed hvar]
      refine ⟨body v, rfl, ?_, ?_⟩
      · intro s hs
        simp only [base, hvar, Bool.false_eq_true, if_false]
        exact hpack s hs
      · intro pre mid pos _ _
        simp [base, hvar, Slot.bytes, Slot.heap]
    | true =>
      cases hv : tr.isEmptyContainer v with
      | true =>
        rw [slot_of_empty hvar hv]
        refine ⟨leBytes 4 0, length_leBytes 4 0, ?_, ?_⟩
        · intro s _
          simp [base, hvar, Stream.writeRaw]
        · intro pre mid pos _ _
          simp [base, hvar, hv, Slot.bytes, Slot.heap]
      | false =>
        rw [slot_of_pointer hvar hv]
        refine ⟨leBytes 4 0, length_leBytes 4 0, ?_, ?_⟩
        · intro s _
          simp [base, hvar, Stream.writeRaw]
        · intro pre mid pos hpos hlen
          obtain rfl : pos = pre.length := by simpa using hpos
          simp only [Slot.fixedLen, Slot.heap] at hlen
          simp only [base, hvar, hv, Bool.not_false, Bool.and_true, if_true, Slot.fixedLen,
            Slot.bytes, Slot.heap]
          rw [Stream.rewriteRaw_middle (length_leBytes 4 0), sub32_of_le (by omega) (by omega),
            hpack _ (by simp only [length_append, length_leBytes]; omega)]
          congr 4
          omega

/-- The default size of a member is what `pack` writes after the fixed region. -/
theorem Packer.base_heapSize
    (hpack : Writes (pack v) (body v))
    (hlen : ((of tr body).slot v).heap.length < 2 ^ 32) :
    (base tr pack).embeddedVariablePackedSize v = ((of tr body).slot v).heap.length := by
  cases hvar : tr.isVariableSize with
  | false => simp [base, hvar, slot_of_fixed hvar, Slot.heap]
  | true =>
    cases hv : tr.isEmptyContainer v with
    | true => simp [base, hvar, hv, slot_of_empty hvar hv, Slot.heap]
    | false =>
      rw [slot_of_pointer hvar hv, Slot.heap] at hlen ⊢
      simp only [base, hvar, hv, Bool.not_false, Bool.and_true, if_true]
      exact u32_length_pack hpack hlen

variable {width : Nat} {elem : Packer} {s : Slot} {t : Ty} {vs : List Val} {c : Coding} {x : Val}

/-- The default size of an object is what `pack` writes. -/
theorem PacksBody.of_base {body : Bytes}
    (hpack : Writes (pack v) body) :
    PacksBody (base tr pack) v body where
  pack := hpack
  size := u32_length_pack hpack

private theorem Packer.base_variable (tr : Traits) (pack : Val → Stream → Stream)
    (body : Val → Bytes) (v : Val) (hvar : tr.isVariableSize = true) :
    (∀ s, (base tr pack).embeddedVariablePack v s =
      if tr.isEmptyContainer v then s else pack v s) ∧
    (of tr body).slot v =
      if tr.isEmptyContainer v then .word 0 else .pointer (body v) := by
  cases hv : tr.isEmptyContainer v <;> simp [base, of, hvar, hv]

/-- A packer and the encoding of a type agree on a value. -/
structure Packs (p : Packer) (c : Coding) (v : Val) : Prop where
  body : PacksBody p v (c.body v)
  slot : PacksSlot (p, v) (c.slot v)
  /-- What an optional around the value relies on. -/
  indirect : p.traits.isOptional = false → p.traits.isVariableSize = true →
    (∀ s, p.embeddedVariablePack v s = if p.traits.isEmptyContainer v then s else p.pack v s) ∧
      c.slot v = if p.traits.isEmptyContainer v then .word 0 else .pointer (c.body v)

/-- A type with the default sizes. -/
theorem Packs.of_base (hopt : tr.isOptional = false)
    (hsize : ((of tr body).slot v).fixedLen = tr.fixedSize)
    (hpack : Writes (pack v) (body v)) :
    Packs (base tr pack) (.of tr body) v where
  body := .of_base hpack
  slot := .of_base hopt hsize hpack (base_heapSize hpack)
  indirect _ hvar := base_variable _ _ body v hvar

/-- A type of a fixed size with constant sizes. -/
theorem Packs.of_fixed {size : Nat} {isMemcpy : Bool} (hsize : (body v).length = size)
    (hpack : Writes (pack v) (body v)) :
    Packs { base (.fixed size isMemcpy) pack with
        packedSize := fun _ => size, embeddedVariablePackedSize := fun _ => 0 }
      (.of (.fixed size isMemcpy) body) v where
  body := ⟨hpack, fun _ => hsize.symm⟩
  slot := .of_base rfl hsize hpack fun _ => rfl
  indirect _ hvar := base_variable _ _ body v hvar

/-- A container of bytes behind a length. -/
theorem Packs.of_bytes {length : Val → Nat} {content : Val → Bytes}
    (hbody : body v = leBytes width (length v) ++ content v) :
    Packs (.bytes width length content) (.of .container body) v := by
  have hlength : (body v).length = width + (content v).length := by simp [hbody]
  have hpack : Writes (fun s => s.writeRaw width (length v) ++ content v) (body v) := by
    intro s _
    dsimp only
    rw [hbody, Stream.writeRaw, append_assoc]
  have hsize : (body v).length < 2 ^ 32 → u32 (width + u32 (content v).length) =
      (body v).length := by
    intro hlen
    rw [hlength] at hlen ⊢
    rw [u32_of_lt (by omega : (content v).length < 2 ^ 32), u32_of_lt hlen]
  refine ⟨⟨hpack, hsize⟩, .of_base rfl (fixedLen_slot_of rfl v) hpack ?_,
    fun _ _ => base_variable .container (bytes width length content).pack body v rfl⟩
  intro hlen
  cases hv : v.isEmpty with
  | true =>
    have hslot : (of .container body).slot v = .word 0 := slot_of_empty rfl hv
    rw [hslot]
    rfl
  | false =>
    have hslot : (of .container body).slot v = .pointer (body v) :=
      slot_of_pointer rfl hv
    rw [hslot] at hlen ⊢
    exact hsize hlen

/-! ### Optionals -/

/-- An optional that holds nothing. -/
theorem packsSlot_nullopt (elem : Packer) : PacksSlot (.optional elem, .nullopt)
    (.word 1) where
  size := rfl
  prepares := ⟨leBytes 4 1, length_leBytes 4 1, fun _ _ => rfl, by
    intro pre mid pos _ _
    simp [Packer.optional, Packer.optionalVariablePack, Packer.optionalFixedRepack, Slot.bytes,
      Slot.heap]⟩
  heapSize _ := rfl
  trimmed := by simp [Packer.optional, Traits.optional, Val.hasValue]

/-- An optional that holds a value which is behind a pointer of its own. -/
theorem packsSlot_some_variable (h : Packs elem c x) (hopt : elem.traits.isOptional = false)
    (hvar : elem.traits.isVariableSize = true) (hsize : elem.traits.fixedSize = 4) :
    PacksSlot (.optional elem, .some x) (c.slot x) := by
  obtain ⟨hpack, hslot⟩ := h.indirect hopt hvar
  refine ⟨h.slot.size.trans hsize, ?_, ?_, ?_⟩
  · obtain ⟨room, hroom, hfixed, hvars⟩ := h.slot.prepares
    refine ⟨room, hroom, fun s hs => ?_, fun pre mid pos hpos hlen => ?_⟩
    · rw [← hfixed s hs]
      simp [Packer.optional, Packer.optionalFixedPack, hopt, hvar]
    · rw [← hvars pre mid pos hpos hlen, hpack]
      simp [Packer.optional, Packer.optionalFixedRepack, Packer.optionalVariablePack, hopt, hvar]
  · intro hlen
    change u32 (Packer.optionalVariablePack elem (.some x) []).length = _
    rw [Packer.optionalVariablePack]
    cases hv : elem.traits.isEmptyContainer x with
    | true =>
      rw [hslot, hv]
      rfl
    | false =>
      rw [hslot, hv] at hlen ⊢
      exact u32_length_pack h.body.pack hlen
  · have hne := h.slot.trimmed
    simp only [hopt, Bool.false_and, Bool.false_eq_true] at hne
    simp [hne, Packer.optional, Traits.optional, Val.hasValue]

/-- An optional that holds a value it has to point to itself. -/
theorem packsSlot_some_pointer (h : Packs elem c x)
    (hptr : (!elem.traits.isOptional && elem.traits.isVariableSize) = false)
    (hempty : elem.traits.supports0Offset = false) :
    PacksSlot (.optional elem, .some x) (.pointer (c.body x)) := by
  have hv : elem.traits.isEmptyContainer x = false := by simp [Traits.isEmptyContainer, hempty]
  refine ⟨rfl, ⟨leBytes 4 1, length_leBytes 4 1, ?_, ?_⟩, ?_, ?_⟩
  · intro s _
    simp [Packer.optional, Packer.optionalFixedPack, hptr, Stream.writeRaw]
  · intro pre mid pos hpos hlen
    obtain rfl : pos = pre.length := by simpa using hpos
    simp only [Slot.fixedLen, Slot.heap] at hlen
    simp only [Packer.optional, Packer.optionalFixedRepack, Packer.optionalVariablePack, hptr, hv,
      Bool.false_eq_true, if_false, Slot.fixedLen, Slot.bytes, Slot.heap]
    rw [Stream.rewriteRaw_middle (length_leBytes 4 1), sub32_of_le (by omega) (by omega),
      h.body.pack _ (by simp only [length_append, length_leBytes]; omega)]
    congr 4
    omega
  · intro hlen
    change u32 (Packer.optionalVariablePack elem (.some x) []).length = _
    simp only [Packer.optionalVariablePack, hv, Bool.false_eq_true, if_false]
    exact u32_length_pack h.body.pack hlen
  · simp [Packer.optional, Traits.optional, Val.hasValue]

/-- An optional on its own is its slot and what that points to. -/
theorem packsBody_optional (h : PacksSlot (.optional elem, v) s) :
    PacksBody (.optional elem) v (layout [s]) := by
  have hlayout : layout [s] = s.bytes s.fixedLen ++ s.heap := by
    simp [layout, fixedOf, heapOf, fixedLen]
  have hpack : Writes ((optional elem).pack v) (layout [s]) := by
    intro st hlen
    rw [hlayout, length_append, Slot.length_bytes] at hlen
    obtain ⟨room, hroom, hfixed, hvar⟩ := h.prepares
    have hfixed := hfixed st (by omega)
    have hvar := hvar st [] st.length (.inl rfl) (by simp; omega)
    simp only [append_nil, length_nil, add_zero] at hvar
    change optionalVariablePack elem v (optionalFixedRepack elem v st.written
      (optionalFixedPack elem v st).written (optionalFixedPack elem v st)) = _
    rw [show optionalFixedPack elem v st = st ++ room from hfixed,
      Stream.written_of_lt (by omega), Stream.written_of_lt (by
        rw [length_append, hroom]; omega), length_append, hroom, hlayout,
      ← append_assoc]
    exact hvar
  exact ⟨hpack, u32_length_pack hpack⟩

/-! ### Objects copied as they are -/

/-- Slots that all hold their bytes. -/
theorem fixedOf_map_inline (f : Val → Bytes) (vs : List Val) (distance : Nat) :
    fixedOf distance (vs.map fun v => .inline (f v)) = vs.flatMap f := by
  induction vs generalizing distance with
  | nil => rfl
  | cons v vs ih => rw [map_cons, fixedOf, ih, flatMap_cons, Slot.bytes]

/-- Elements of a fixed size stand one after the other. -/
theorem layout_map_fixed (h : t.traits.isVariableSize = false) (vs : List Val) :
    layout (vs.map t.coding.slot) = vs.flatMap t.coding.body := by
  have hslot : t.coding.slot = fun v => .inline (t.coding.body v) := funext (inline_of_fixed h)
  rw [layout, heapOf_map h, append_nil, hslot, fixedOf_map_inline]

/-- What is copied as it is has a fixed size. -/
theorem Ty.isVariableSize_of_copied : ∀ {t : Ty}, (t.isBitwise || t.traits.isMemcpy) = true →
    t.traits.isVariableSize = false
  | .num _, _ | .bool, _ | .bitset _, _ => rfl
  | .array t n, h => by
    rw [traits]
    split
    next hvar =>
      have helem := isVariableSize_of_copied (t := t) (by
        rw [isBitwise, traits, if_pos hvar] at h
        change (t.isBitwise || false) = true at h
        rw [Bool.or_false] at h
        rw [h]
        rfl)
      rw [hvar] at helem
      cases helem
    · rfl
  | .struct _ _ _ _, h => by
    rw [traits] at h ⊢
    split
    next hvar =>
      rw [if_pos hvar] at h
      cases h
    · rfl

/-- A type that `is_memcpy` takes passes the test for copying. -/
theorem Ty.copied_of_memcpy (h : t.traits.isMemcpy = true) :
    (t.isBitwise || t.traits.isMemcpy) = true := by rw [h, Bool.or_true]

/-- What is copied has a fixed size. -/
theorem Ty.isVariableSize_of_memcpy (h : t.traits.isMemcpy = true) :
    t.traits.isVariableSize = false :=
  isVariableSize_of_copied (copied_of_memcpy h)

/-- Bitwise members have a fixed size. -/
theorem Tys.anyVariableSize_of_bitwise : ∀ {ts : Tys}, ts.allBitwise = true →
    ts.anyVariableSize = false
  | .nil, _ => rfl
  | .cons t ts, h => by
    rw [Tys.allBitwise, Bool.and_eq_true] at h
    rw [Tys.anyVariableSize, isVariableSize_of_copied (by rw [h.1]; rfl),
      Tys.anyVariableSize_of_bitwise h.2]
    rfl

/-- The elements of a copied array are copied. -/
theorem Ty.copied_of_array
    (h : ((array t n).isBitwise || (array t n).traits.isMemcpy) = true) :
    t.traits.isVariableSize = false ∧ (t.isBitwise || t.traits.isMemcpy) = true := by
  have hvar := fixed_of_array (isVariableSize_of_copied h)
  refine ⟨hvar, ?_⟩
  rw [isBitwise, traits, if_neg (by rw [hvar]; decide)] at h
  exact h

/-- The members of a copied struct are bitwise. -/
theorem Ty.bitwise_of_struct {dwnc unpadded : Bool} {ts : Tys}
    (h : (struct dwnc unpadded n ts).traits.isMemcpy = true) :
    dwnc = true ∧ unpadded = true ∧ ts.allBitwise = true := by
  obtain ⟨rfl, hvar⟩ := fixed_of_struct (isVariableSize_of_memcpy h)
  rw [fixedStruct_traits hvar] at h
  exact ⟨rfl, Bool.and_eq_true_iff.mp h⟩

mutual

/-- An object in memory has the bytes of its encoding. -/
theorem Ty.raw_eq_body : ∀ (t : Ty) {v : Val}, (t.isBitwise || t.traits.isMemcpy) = true →
    t.Has v → t.raw v = t.coding.body v
  | .num _, _, _, _ => rfl
  | .bool, _, _, _ => rfl
  | .array t n, .list vs, h, hv => by
    obtain ⟨hvar, helem⟩ := copied_of_array h
    change vs.flatMap t.raw = layout (vs.map t.coding.slot)
    rw [layout_map_fixed hvar]
    exact flatMap_congr fun v hmem => Ty.raw_eq_body t helem (hv.2 v hmem)
  | .struct dwnc unpadded maxFixedSize ts, .list vs, h, hv => by
    obtain ⟨rfl, -, hbitwise⟩ := bitwise_of_struct h
    change ts.raw vs = layout (ts.slots vs)
    rw [layout, Tys.heapOf_slots (Tys.anyVariableSize_of_bitwise hbitwise), append_nil,
      ← Tys.raw_eq_slots ts hbitwise hv]

private theorem Tys.raw_eq_slots : ∀ (ts : Tys) {vs : List Val}
    {distance : Nat}, ts.allBitwise = true → ts.Has vs → ts.raw vs = fixedOf distance (ts.slots vs)
  | .nil, [], _, _, _ => rfl
  | .cons t ts, v :: vs, distance, h, hv => by
    rw [Tys.allBitwise, Bool.and_eq_true] at h
    have hcopied : (t.isBitwise || t.traits.isMemcpy) = true := by rw [h.1]; rfl
    have hvar := Ty.isVariableSize_of_copied hcopied
    rw [Tys.raw, Tys.slots, fixedOf, Ty.raw_eq_body t hcopied hv.1, Tys.raw_eq_slots ts h.2 hv.2]
    congr 1
    rw [Ty.inline_of_fixed hvar]
    rfl

end

/-! ### Members that are present -/

section

variable (h : Forall₂ PacksSlot items ss)

include h

private theorem numPresent_eq (i n : Nat) :
    numPresent i n items = if (trim ss).isEmpty then n else i + (trim ss).length := by
  induction h generalizing i n with
  | nil => rfl
  | @cons item s items ss hitem _ ih =>
    rw [numPresent, ih, trim]
    by_cases hs : s = .word 1
    · simp only [hitem.trimmed.mp hs, if_true, hs, beq_self_eq_true, Bool.and_true]
      split
      · rfl
      · simp only [isEmpty_cons, Bool.false_eq_true, if_false, length_cons]
        omega
    · have htrim := mt hitem.trimmed.mpr hs
      simp only [htrim, Bool.false_eq_true, if_false, beq_eq_false_iff_ne.mpr hs, Bool.and_false,
        isEmpty_cons, length_cons]
      split
      next hempty =>
        rw [List.isEmpty_iff] at hempty
        simp [hempty]
      · omega

private theorem membersFixedSize_eq : membersFixedSize items = fixedLen ss := by
  induction h with
  | nil => rfl
  | @cons item s items ss hitem _ ih =>
    rw [membersFixedSize, fixedLen, ih, hitem.size]

private theorem totalSize_eq (hlen : (heapOf ss).length < 2 ^ 32) :
    totalSize items = (layout ss).length := by
  rw [length_layout]
  induction h with
  | nil => rfl
  | @cons item s items ss hitem _ ih =>
    obtain ⟨p, v⟩ := item
    rw [heapOf, length_append] at hlen ⊢
    rw [totalSize, fixedLen, ih (by omega), hitem.size, hitem.heapSize (by omega)]
    dsimp only
    omega

/-- The members that are present are those of the trimmed slots. -/
theorem present_eq : Forall₂ PacksSlot (items.take (numPresent 0 0 items)) (trim ss) := by
  have hn : numPresent 0 0 items = (trim ss).length := by
    rw [numPresent_eq h]
    split
    next hempty =>
      rw [List.isEmpty_iff] at hempty
      rw [hempty]
      rfl
    · exact zero_add _
  have htake := forall₂_take (trim ss).length h
  rwa [← trim_eq_take, ← hn] at htake

private theorem committedSize_eq (tentative committed : Nat)
    (hlen : tentative + (layout (trim ss)).length < 2 ^ 32)
    (hheap : ∀ s ∈ ss, s.heap.length < 2 ^ 32) :
    committedSize tentative committed items =
      if (trim ss).isEmpty then committed else tentative + (layout (trim ss)).length := by
  induction h generalizing tentative committed with
  | nil => rfl
  | @cons item s items ss hitem _ ih =>
    have hheap' : ∀ s ∈ ss, s.heap.length < 2 ^ 32 := fun x hx =>
      hheap x (mem_cons_of_mem s hx)
    have hs := hitem.heapSize (hheap s mem_cons_self)
    have hsize := hitem.size
    rw [committedSize, hs, ← hsize]
    rw [trim] at hlen ⊢
    cases hempty : (trim ss).isEmpty && s == .word 1 with
    | true =>
      -- everything from here on is an empty optional
      rw [Bool.and_eq_true, beq_iff_eq] at hempty
      obtain ⟨hnone, rfl⟩ := hempty
      rw [hitem.trimmed.mp rfl]
      have hnil := isEmpty_iff.mp hnone
      by_cases hfit : u32 (tentative + Slot.fixedLen (.word 1) + (Slot.heap (.word 1)).length) +
          (layout (trim ss)).length < 2 ^ 32
      · rw [if_pos rfl, ih _ _ hfit hheap', if_pos hnone]
        rfl
      · rw [hnil] at hfit
        simp only [layout, fixedOf, heapOf, append_nil, length_nil, add_zero, u32] at hfit
        omega
    | false =>
      rw [hempty] at hlen
      simp only [Bool.false_eq_true, if_false, length_layout, fixedLen, heapOf,
        length_append] at hlen
      rw [u32_of_lt (by omega), ih _ _ (by rw [length_layout]; omega) hheap']
      simp only [Bool.false_eq_true, if_false, isEmpty_cons, length_layout, fixedLen, heapOf,
        length_append]
      split
      next hnone =>
        have hnil := isEmpty_iff.mp hnone
        rw [hnone, Bool.true_and, beq_eq_false_iff_ne] at hempty
        have htrim := mt hitem.trimmed.mpr hempty
        rw [if_neg htrim, hnil]
        simp only [fixedLen, heapOf, length_nil]
        omega
      · omega

end

/-! ### Every type -/

private theorem Ty.packer_traits (t : Ty) : t.packer.traits = t.traits := by
  cases t <;> rw [packer] <;> try rfl
  case vector t =>
    split
    · rfl
    · split <;> rfl
  case boundedList | array => split <;> rfl
  case struct dwnc unpadded maxFixedSize ts =>
    split
    · rfl
    · split
      next hvar => exact (struct_traits hvar).symm
      · rfl

/-- What is trimmed has no heap. -/
theorem heap_le_trim (h : s ∈ ss) : s.heap.length ≤ (layout (trim ss)).length := by
  rw [length_layout]
  induction ss with
  | nil => cases h
  | cons t ss ih =>
    rw [trim]
    cases hempty : (trim ss).isEmpty && t == .word 1 with
    | true =>
      rw [Bool.and_eq_true, beq_iff_eq, List.isEmpty_iff] at hempty
      rcases mem_cons.mp h with rfl | h
      · rw [hempty.2]
        exact Nat.zero_le _
      · exact hempty.1 ▸ ih h
    | false =>
      simp only [Bool.false_eq_true, if_false, fixedLen, heapOf, length_append]
      rcases mem_cons.mp h with rfl | h
      · omega
      · have := ih h
        omega

/-- Members after a header of their size. -/
theorem packPresent_eq (h : Forall₂ PacksSlot items ss) {s : Stream}
    (hlen : s.length + (headed width (trim ss)).length < 2 ^ 32) :
    packPresent width items s = s ++ headed width (trim ss) := by
  rw [headed, length_append, length_leBytes] at hlen
  have hpresent := present_eq h
  have hfixed : fixedLen (trim ss) < 2 ^ 32 := by
    rw [length_layout] at hlen
    omega
  rw [packPresent, membersFixedSize_eq hpresent, u32_of_lt hfixed,
    packMembers_eq hpresent (.inl fun _ _ => rfl) (by
      rw [Stream.writeRaw, length_append, length_leBytes]; omega),
    Stream.writeRaw, headed, append_assoc]

private theorem packs_elements (h : ∀ v ∈ vs, Packs t.packer t.coding v) :
    Forall₂ PacksSlot (vs.map fun x => (t.packer, x)) (vs.map t.coding.slot) := by
  rw [forall₂_map_left_iff, forall₂_map_right_iff, forall₂_same]
  exact fun v hv => (h v hv).slot

/-- Elements of one type after a length. -/
theorem packs_container (h : ∀ v ∈ vs, Packs t.packer t.coding v)
    (hadv : advance t.packer = slotSize t.packer ∨ t.traits.isVariableSize = false)
    (hbody : body (.list vs) = leBytes width (vs.length * t.traits.fixedSize) ++
      layout (vs.map t.coding.slot)) :
    Packs (.container width advance t.packer) (.of .container body) (.list vs) := by
  have hitems := packs_elements h
  have hsize : fixedLen (vs.map t.coding.slot) = vs.length * t.traits.fixedSize := by
    apply fixedLen_map
    intro v hv
    rw [(h v hv).slot.size, t.packer_traits]
  apply Packs.of_base rfl (fixedLen_slot_of rfl _)
  intro s hlen
  rw [hbody, length_append, length_leBytes] at hlen
  have hfixed : vs.length * t.traits.fixedSize < 2 ^ 32 := by
    rw [length_layout, hsize] at hlen
    omega
  simp only [Val.elems, t.packer_traits]
  rw [u32_of_lt hfixed, packMembers_eq hitems _ (by
      rw [Stream.writeRaw, length_append, length_leBytes]; omega),
    hbody, Stream.writeRaw, append_assoc]
  rcases hadv with hadv | hadv
  · left
    exact forall_mem_map.mpr fun _ _ => hadv
  · right
    exact forall_mem_map.mpr fun v _ => ⟨_, inline_of_fixed hadv v⟩

/-- The step between the offsets of a vector is right where it is used. -/
theorem container_advance (t : Ty) :
    4 = slotSize t.packer ∨ t.traits.isVariableSize = false := by
  cases hvar : t.traits.isVariableSize with
  | true => exact .inl (by rw [slotSize, t.packer_traits, fixedSize_of_variable hvar])
  | false => exact .inr rfl

/-- Elements that are copied are laid out as they are in memory. -/
theorem layout_eq_raw (hmem : t.traits.isMemcpy = true) (h : ∀ v ∈ vs, t.Has v) :
    layout (vs.map t.coding.slot) = vs.flatMap t.raw := by
  have hcopied := copied_of_memcpy hmem
  rw [layout_map_fixed (isVariableSize_of_copied hcopied)]
  exact flatMap_congr fun v hv => (raw_eq_body t hcopied (h v hv)).symm

/-- An optional of a type. -/
theorem packs_optional (hv : (optional t).Has v)
    (h : ∀ x, t.Has x → Packs t.packer t.coding x) :
    Packs (.optional t.packer) (.optional t.traits t.coding) v := by
  have hslot : PacksSlot (.optional t.packer, v) (optionalSlot t.traits t.coding v) := by
    cases v with
    | nullopt => exact packsSlot_nullopt t.packer
    | some x =>
      have hx := h x hv
      have htr := t.packer_traits
      rw [optionalSlot, Bool.and_comm]
      cases hptr : !t.traits.isOptional && t.traits.isVariableSize with
      | true =>
        rw [Bool.and_eq_true, Bool.not_eq_true'] at hptr
        apply packsSlot_some_variable hx <;> rw [htr]
        · exact hptr.1
        · exact hptr.2
        · exact fixedSize_of_variable hptr.2
      | false =>
        apply packsSlot_some_pointer hx <;> rw [htr]
        · exact hptr
        · obtain ht | ht | ht | ⟨size, m, ht⟩ := t.traits_cases <;> rw [ht] at hptr ⊢ <;>
            first | rfl | cases hptr
    | _ => exact hv.elim
  exact ⟨packsBody_optional hslot, hslot, fun h => by cases h⟩

/-- A tag, the size of the content, the content. -/
theorem packs_variant {alternatives : List Packer} {p : Packer} {i : Nat} {content : Bytes}
    (hp : alternatives[i]? = some p) (h : PacksBody p v content)
    (hbody : body (.alt i v) = UInt8.ofNat i :: (leBytes 4 content.length ++ content)) :
    Packs (.variant alternatives) (.of .offset body) (.alt i v) := by
  apply Packs.of_base rfl (fixedLen_slot_of rfl _)
  intro s hlen
  simp only [hbody, length_cons, length_append, length_leBytes] at hlen
  have htagged : (s.writeRaw 1 i).length = s.length + 1 := by simp [Stream.writeRaw]
  have hopened : ((s.writeRaw 1 i).writeRaw 4 0).length = s.length + 5 := by simp [Stream.writeRaw]
  simp only [packAlternative, hp]
  rw [h.pack _ (by rw [hopened]; omega)]
  have hclosed : ((s.writeRaw 1 i).writeRaw 4 0 ++ content).length =
      s.length + 5 + content.length := by rw [length_append, hopened]
  rw [Stream.written_of_lt (by omega), Stream.written_of_lt (by omega),
    Stream.written_of_lt (by omega), hclosed, hopened, sub32_of_le (by omega) (by omega),
    Nat.add_sub_cancel_left, Stream.writeRaw, Stream.rewriteRaw_middle (length_leBytes 4 0), hbody]
  simp [Stream.writeRaw, leBytes]

/-- A struct of a variable size. -/
theorem packs_variableStruct {members : List Packer} {header : Nat} {trailing : Bool}
    {es : List Slot} (h : Forall₂ PacksSlot (members.zip vs) ss)
    (hes : es = if trailing then trim ss else ss) (hbody : body (.list vs) = headed header es) :
    Packs (.variableStruct header trailing members) (.of .offset body) (.list vs) := by
  have hlength : (body (.list vs)).length = header + (layout es).length := by
    rw [hbody, headed, length_append, length_leBytes]
  have hpack : Writes ((variableStruct header trailing members).pack (.list vs))
      (body (.list vs)) := by
    intro s hlen
    cases trailing with
    | true =>
      obtain rfl : es = trim ss := hes
      rw [hbody] at hlen ⊢
      exact packPresent_eq h hlen
    | false =>
      obtain rfl : es = ss := hes
      change packMembers slotSize (members.zip vs)
        (s.writeRaw header (membersFixedSize (members.zip vs))) = _
      rw [membersFixedSize_eq h, packMembers_eq h (.inl fun _ _ => rfl) (by
          rw [Stream.writeRaw, length_append, length_leBytes]; omega),
        hbody, headed, Stream.writeRaw, append_assoc]
  have hsize : (body (.list vs)).length < 2 ^ 32 →
      (variableStruct header trailing members).packedSize (.list vs) =
        (body (.list vs)).length := by
    intro hlen
    rw [hlength] at hlen ⊢
    cases trailing with
    | true =>
      obtain rfl : es = trim ss := hes
      change u32 (header + committedSize 0 0 (members.zip vs)) = _
      rw [committedSize_eq h 0 0 (by omega) fun _ hs => (heap_le_trim hs).trans_lt (by omega)]
      split
      next hempty =>
        rw [isEmpty_iff.mp hempty] at hlen ⊢
        exact u32_of_lt hlen
      · rw [zero_add, u32_of_lt hlen]
    | false =>
      obtain rfl : es = ss := hes
      change u32 (header + totalSize (members.zip vs)) = _
      have hheap : (heapOf es).length < 2 ^ 32 := by
        rw [length_layout] at hlen
        omega
      rw [totalSize_eq h hheap, u32_of_lt hlen]
  refine ⟨⟨hpack, hsize⟩, .of_base rfl (fixedLen_slot_of rfl _) hpack ?_,
    fun _ _ => base_variable .offset
      (variableStruct header trailing members).pack body _ rfl⟩
  intro hlen
  exact hsize hlen

/-- Without trailing optionals nothing is trimmed. -/
theorem Tys.trim_slots : ∀ {ts : Tys} {vs : List Val}, ts.Has vs →
    Forall₂ PacksSlot (ts.packers.zip vs) (ts.slots vs) →
    ts.hasTrailingOptionals = false → trim (ts.slots vs) = ts.slots vs
  | .nil, [], _, _, _ => rfl
  | .cons t .nil, [v], _, hitems, h => by
    cases hitems with
    | cons hitem _ =>
      have hne : t.coding.slot v ≠ .word 1 := by
        intro hs
        have htrim := hitem.trimmed.mp hs
        rw [t.packer_traits] at htrim
        rw [Tys.hasTrailingOptionals] at h
        rw [h] at htrim
        cases htrim
      simp [Tys.slots, trim, hne]
  | .cons t (.cons u ts), v :: w :: vs, hv, hitems, h => by
    cases hitems with
    | cons _ hitems =>
      have ih : trim (Tys.slots (.cons u ts) (w :: vs)) = Tys.slots (.cons u ts) (w :: vs) :=
        Tys.trim_slots hv.2 hitems h
      rw [Tys.slots, trim, ih]
      simp [Tys.slots]

mutual

/-- `pack` writes the encoding of every value, and `packed_size` is its length. -/
theorem Ty.packs : ∀ (t : Ty) {v : Val}, t.Has v → Packs t.packer t.coding v
  | .num n, v, _ => Packs.of_fixed (length_leBytes n _) fun _ _ => rfl
  | .bool, v, _ => Packs.of_base rfl rfl fun _ _ => rfl
  | .bitset n, .bits bs, h => by
    exact Packs.of_fixed (by rw [Val.bitList, length_packBits, h]) fun _ _ => rfl
  | .string, v, _ => Packs.of_bytes rfl
  | .vector t, .bits bs, h => by
    rw [Ty.Has] at h
    rw [packer, if_pos h]
    exact Packs.of_bytes (by simp only [if_pos h]; rfl)
  | .vector t, .list vs, h => by
    rw [packer, if_neg (by simp [h.1])]
    split
    next hmem =>
      apply Packs.of_bytes
      simp only [h.1, Bool.false_eq_true, if_false, Val.elems, layout_eq_raw hmem h.2]
    · refine packs_container (fun v hv => Ty.packs t (h.2 v hv)) (container_advance t) ?_
      simp only [h.1, Bool.false_eq_true, if_false, Val.elems]
  | .assoc t, .list vs, h => by
    exact packs_container (fun v hv => Ty.packs t (h v hv)) (container_advance t) rfl
  | .boundedString n, v, _ => Packs.of_bytes rfl
  | .boundedList t n, .list vs, h => by
    rw [packer]
    split
    next hmem =>
      apply Packs.of_bytes
      simp only [Val.elems, layout_eq_raw hmem h.2]
    · exact packs_container (fun v hv => Ty.packs t (h.2 v hv)) (.inl rfl) rfl
  | .bitlist n, v, _ => Packs.of_bytes rfl
  | .array t n, .list vs, h => by
    have hslot := fixedLen_slot (.array t n) h
    have hraw := raw_eq_body (.array t n) (v := .list vs)
    rw [packer]
    split
    next hmem =>
      have htr := array_traits (isVariableSize_of_memcpy hmem) n
      rw [coding, htr, slot_of_fixed rfl] at hslot
      rw [coding, htr]
      refine Packs.of_fixed hslot fun s _ => ?_
      rw [hraw (by rw [htr, Traits.fixed, hmem, Bool.or_true]) h]
      rfl
    · have hitems := packs_elements fun v hv => Ty.packs t (h.2 v hv)
      exact Packs.of_base (isOptional_array t n) hslot fun s hlen =>
        packMembers_eq hitems (.inl fun _ _ => rfl) hlen
  | .optional t, v, h => packs_optional h fun _ hx => Ty.packs t hx
  | .tuple ts, .list vs, h =>
    Packs.of_base rfl (fixedLen_slot_of rfl _) fun _ hlen =>
      packPresent_eq (Tys.packs ts h) hlen
  | .variant ts, .alt i v, h => by
    obtain ⟨p, hp, hbody⟩ := Tys.packsAt ts h
    exact packs_variant hp hbody rfl
  | .struct dwnc unpadded maxFixedSize ts, .list vs, h => by
    have hslot := fixedLen_slot (.struct dwnc unpadded maxFixedSize ts) h
    have hraw := raw_eq_body (.struct dwnc unpadded maxFixedSize ts) (v := .list vs)
    have hitems := Tys.packs ts h
    rw [packer]
    cases hvar : !dwnc || ts.anyVariableSize with
    | true =>
      have htr : (struct dwnc unpadded maxFixedSize ts).traits = .offset := by
        rw [Ty.traits, if_pos hvar]
      rw [coding, htr, if_neg (by simp [Traits.offset]), if_pos (by rfl)]
      cases dwnc with
      | true => exact packs_variableStruct hitems rfl rfl
      | false =>
        apply packs_variableStruct hitems rfl
        cases htrail : ts.hasTrailingOptionals with
        | true => rfl
        | false =>
          simp only [Bool.false_eq_true, if_false, Val.elems, Tys.trim_slots h hitems htrail,
            Bool.not_false, Bool.and_false]
    | false =>
      rw [Bool.or_eq_false_iff, Bool.not_eq_false'] at hvar
      obtain ⟨rfl, hmembers⟩ := hvar
      have htr := fixedStruct_traits hmembers unpadded maxFixedSize
      rw [coding, htr, slot_of_fixed rfl] at hslot
      rw [htr] at hraw
      rw [coding, htr]
      split
      next hmem =>
        refine Packs.of_fixed hslot fun s _ => ?_
        rw [hraw (by rw [hmem, Bool.or_true]) h]
        rfl
      · refine Packs.of_fixed hslot fun s hlen => ?_
        simp only [if_true, Val.elems, length_layout, Tys.heapOf_slots hmembers] at hlen ⊢
        rw [layout, Tys.heapOf_slots hmembers, append_nil]
        exact Tys.packEach_eq ts h hmembers (by simpa using hlen)

/-- Members are packed into their slots. -/
theorem Tys.packs : ∀ (ts : Tys) {vs : List Val}, ts.Has vs →
    Forall₂ PacksSlot (ts.packers.zip vs) (ts.slots vs)
  | .nil, [], _ => .nil
  | .cons t ts, _ :: _, h => .cons (Ty.packs t h.1).slot (Tys.packs ts h.2)

private theorem Tys.packEach_eq : ∀ (ts : Tys) {vs : List Val}, ts.Has vs →
    ts.anyVariableSize = false →
    ∀ {s : Stream} {distance : Nat}, s.length + fixedLen (ts.slots vs) < 2 ^ 32 →
      packEach (ts.packers.zip vs) s = s ++ fixedOf distance (ts.slots vs)
  | .nil, [], _, _, s, _, _ => (append_nil s).symm
  | .cons t ts, v :: vs, h, hvar, s, distance, hlen => by
    rw [Tys.anyVariableSize, Bool.or_eq_false_iff] at hvar
    have hslot := inline_of_fixed hvar.1 v
    rw [Tys.slots, fixedLen, hslot, Slot.fixedLen] at hlen
    rw [Tys.packers, zip_cons_cons, packEach, (Ty.packs t h.1).body.pack s (by omega),
      Tys.packEach_eq ts h.2 hvar.2 (by rw [length_append]; omega), Tys.slots, fixedOf, hslot,
      Slot.bytes, append_assoc]

private theorem Tys.packsAt : ∀ (ts : Tys) {i : Nat} {v : Val}, ts.HasAt i v →
    ∃ p, ts.packers[i]? = some p ∧ PacksBody p v (ts.bodyAt i v)
  | .cons t _, 0, _, h => ⟨t.packer, rfl, (Ty.packs t h).body⟩
  | .cons _ ts, i + 1, _, h => Tys.packsAt ts (i := i) h

end

end PsiServe.Frac
