import PsiServe.Pssz.Decode
import PsiServe.Pssz.Size

/-!
# Reading pSSZ back

`from_pssz` on what `to_pssz` wrote. Sizes are never stored, so a value is found only where the
sizes known at compile time put it: between two positions of the buffer that the enclosing value
derives from them. If the structs in a value have no padding these are the right ones, and then the
value is read back unless it has a vector of elements without a size or a bit list of 2 GiB.
-/

namespace PsiServe.Pssz

open Base Ssz
open List hiding tails
open Frac (Val splitRaw splitRaw_flatMap)

variable {F : Format} {t elem : Ty} {v : Val} {ts : Tys} {vs : List Val} {size : Nat}

mutual

/-- No vector in a value has elements of size 0, and its bit lists are shorter than 2 GiB. -/
def Readable : Ty → Val → Prop
  | .bitlist _, v => (v.bitList.length + 8) / 8 < 2 ^ 31
  | .vector elem, v | .boundedList elem _, v =>
    psszFixedSize elem ≠ some 0 ∧ ∀ x ∈ v.elems, Readable elem x
  | .array elem _, v => ∀ x ∈ v.elems, Readable elem x
  | .optional elem, v =>
    match v with
    | .some x => Readable elem x
    | _ => True
  | .struct _ _ members, v => ReadableMembers members v.elems
  | _, _ => True

def ReadableMembers : Tys → List Val → Prop
  | .cons t ts, v :: vs => Readable t v ∧ ReadableMembers ts vs
  | _, _ => True

end

/-! ### Bytes in a buffer -/

/-- Bytes that stand between two positions of a buffer. -/
structure Placed (src : Bytes) (pos stop : Nat) (bs : Bytes) : Prop where
  found : At src pos bs
  stop_eq : stop = pos + bs.length
  stop_le : stop ≤ src.length
  small : src.length < 2 ^ 32

namespace Placed

variable {src bs xs ys : Bytes} {pos stop : Nat}

private theorem left (h : Placed src pos stop (xs ++ ys)) : Placed src pos
    (pos + xs.length) xs := by
  have h₁ := h.stop_eq
  have h₂ := h.stop_le
  rw [length_append] at h₁
  exact ⟨h.found.left, rfl, by omega, h.small⟩

/-- The second of two parts. -/
theorem right (h : Placed src pos stop (xs ++ ys)) : Placed src (pos + xs.length) stop ys := by
  have h₁ := h.stop_eq
  rw [length_append] at h₁
  exact ⟨h.found.right, by omega, h.stop_le, h.small⟩

section

variable (h : Placed src pos stop bs)

include h

private theorem sub32_eq : sub32 stop pos = bs.length := by
  have h₁ := h.stop_eq
  have h₂ := h.stop_le
  have h₃ := h.small
  rw [sub32]
  omega

private theorem fetch_eq : fetch src pos bs.length = .ok bs := by
  rw [fetch, h.found.window_eq, if_pos rfl]

/-- Positions in a buffer do not wrap around. -/
theorem wrap_stop : stop % 2 ^ 32 = stop :=
  Nat.mod_eq_of_lt (h.stop_le.trans_lt h.small)

private theorem wrap_pos : pos % 2 ^ 32 = pos := by
  have h₁ := h.stop_eq
  have h₂ := h.stop_le
  have h₃ := h.small
  exact Nat.mod_eq_of_lt (by omega)

end

/-- The data as a whole. -/
theorem whole (h : bs.length < 2 ^ 32) : Placed bs 0 bs.length bs :=
  ⟨prefix_refl _, (zero_add _).symm, le_rfl, h⟩

end Placed

/-! ### Tables in a buffer -/

section

variable {w : Nat} {src : Bytes} {pos stop : Nat} {ps : List Part}

private theorem readOffsets_eq {sh : List (Option Nat)} (h : pos + headLen w sh ≤ src.length) :
    readOffsets w src pos sh = .ok (offsets w src pos sh) := by
  induction sh generalizing pos with
  | nil => rfl
  | cons x sh ih =>
    cases x with
    | some n =>
      rw [headLen, ← add_assoc] at h
      exact ih h
    | none =>
      rw [headLen, ← add_assoc] at h
      have hlen : (window src pos (pos + w)).length = w := by
        rw [length_window (by omega), Nat.add_sub_cancel_left]
      rw [readOffsets, fetch, if_pos hlen, ok_bind, ih h]
      rfl

private theorem readOffsets_inline (n size pos : Nat) :
    readOffsets w src pos (replicate n (some size)) = .ok [] := by
  induction n generalizing pos with
  | zero => rfl
  | succ n ih => exact ih (pos + size)

/-- The first parts of a table are found, if the last object among them ends the table. -/
theorem Placed.table_left {qs : List Part} (h : Placed src pos stop (table w (ps ++ qs)))
    (hfit : (table w (ps ++ qs)).length < 256 ^ w)
    (hlast : none ∉ ps.map Part.shape ∨ tails qs = []) :
    ∃ offs, readOffsets w src pos (ps.map Part.shape) = .ok offs ∧
      Forall₂
        (fun p r => (Placed src r.1 r.2 p.bytes ∧ p.bytes.length < 256 ^ w) ∧
          pos ≤ r.1 ∧ r.2 ≤ stop)
        ps (ranges w pos stop (ps.map Part.shape) offs) := by
  have hpart : ∀ p ∈ ps, p.bytes.length < 256 ^ w := fun p hp =>
    (length_le_of_mem_table (mem_append_left qs hp)).trans_lt hfit
  have hstop := h.stop_eq
  have hhead := h.left.found
  have htail := h.right.found
  rw [heads_append] at hhead
  rw [length_heads, Base.tails_append] at htail
  rw [length_table, Base.tails_append, length_append, map_append, headLen_append] at hfit hstop
  rw [map_append, headLen_append] at hhead htail
  have hend : none ∈ ps.map Part.shape →
      pos + (headLen w (ps.map Part.shape) + headLen w (qs.map Part.shape)) + (tails ps).length =
        stop := by
    intro hvar
    rw [hlast.resolve_left fun hnone => hnone hvar, length_nil] at hstop
    omega
  have hspans := spans_starts hhead.left htail.left hend le_rfl (show _ ≤ stop by omega) (by omega)
  have hle := h.stop_le
  refine ⟨_, (readOffsets_eq (by omega)).trans
    (congrArg _ (offsets_heads hhead.left (by omega))), ?_⟩
  rw [ranges, forall₂_map_right_iff]
  refine ((forall₂_and_left _ _).mpr ⟨hpart, hspans⟩).imp fun p r ⟨hp, hat, heq, hlo, hhi⟩ => ?_
  have hplaced : Placed src r.1 r.2 p.bytes := ⟨hat, heq, hhi.trans hle, h.small⟩
  rw [wrap32, hplaced.wrap_pos, hplaced.wrap_stop]
  exact ⟨⟨hplaced, hp⟩, hlo, hhi⟩

end

/-! ### Elements -/

section

variable {decode : Nat → Nat → Read Val} {vs : List Val} {r : Nat × Nat} {rs : List (Nat × Nat)}

private theorem cons_iff {x : Read Val} {y : Read (List Val)} :
    (do return (← x) :: (← y)) = (.ok (v :: vs) : Read (List Val)) ↔ x = .ok v ∧ y = .ok vs := by
  constructor
  · intro h
    obtain ⟨_, _, hcons, hx, hy⟩ := bind_cons_inv h
    cases hcons
    exact ⟨hx, hy⟩
  · rintro ⟨rfl, rfl⟩
    rfl

private theorem fromPsszEach_iff {Q : Val → Prop}
    (h : Forall₂ (fun v r => decode r.1 r.2 = .ok v ↔ Q v) vs rs) :
    fromPsszEach decode rs = .ok vs ↔ ∀ v ∈ vs, Q v := by
  induction h with
  | nil => exact iff_of_true rfl (by simp)
  | cons hv _ ih => exact cons_iff.trans (by rw [hv, ih, forall_mem_cons])

private theorem decodeWithin_eq {pos stop : Nat} (hlo : pos ≤ r.1) (hhi : r.2 ≤ stop)
    (hle : r.1 ≤ r.2) : decodeWithin decode pos stop r.1 r.2 = decode r.1 r.2 := by
  have hcheck : (decide (pos ≤ r.1) && decide (r.2 ≤ stop) && decide (r.1 ≤ r.2)) = true := by
    simp [hlo, hhi, hle]
  rw [decodeWithin, hcheck]
  rfl

end

/-! ### Copied values -/

private theorem sizeof_of_fixed (h : psszFixedSize t = some size) : sizeof t = size := by
  rw [sizeof, h]
  rfl

private theorem ofRaw_raw (hbit : t.bitwise = true) (h : Has t v) : ofRaw t (raw t v) = v := by
  induction t, hbit using Ty.bitwise_induction generalizing v with
  | bool =>
    cases v with
    | bool b => rfl
    | _ => exact h.elim
  | array elem n hbit _ ih =>
    cases v with
    | list vs =>
      obtain ⟨rfl, hall⟩ := h
      obtain ⟨size, hsize, _⟩ := fixedSize_of_bitwise hbit
      rw [ofRaw, raw, sizeof_of_fixed hsize]
      exact congrArg Val.list (splitRaw_flatMap fun x hx =>
        ⟨length_raw hbit hsize (hall x hx), ih (hall x hx)⟩)
    | _ => exact h.elim
  | _ =>
    cases v with
    | num k => exact congrArg Val.num (leValue_leBytes h)
    | _ => exact h.elim

private theorem splitRaw_raw (hbit : t.bitwise = true) (h : ∀ v ∈ vs, Has t v) :
    splitRaw (ofRaw t) (sizeof t) vs.length (vs.flatMap (raw t)) = vs := by
  obtain ⟨size, hsize, _⟩ := fixedSize_of_bitwise hbit
  rw [sizeof_of_fixed hsize]
  exact splitRaw_flatMap fun v hv => ⟨length_raw hbit hsize (h v hv), ofRaw_raw hbit (h v hv)⟩

private theorem readable_of_bitwise (hbit : t.bitwise = true) (v : Val) : Readable t v := by
  induction t, hbit using Ty.bitwise_induction generalizing v with
  | array elem n _ _ ih => exact fun x _ => ih x
  | _ => trivial

private theorem ofRawMembers_rawMembers (hbit : ts.toList.all Ty.bitwise = true)
    (h : HasMembers ts vs) : ofRawMembers ts (rawMembers ts vs) = vs ∧ ReadableMembers ts vs := by
  induction ts, vs, h using HasMembers.induction with
  | nil => exact ⟨rfl, trivial⟩
  | cons t ts v vs hv _ ih =>
    have hbit : t.bitwise = true ∧ ts.toList.all Ty.bitwise = true := Bool.and_eq_true_iff.mp hbit
    obtain ⟨size, hsize, _⟩ := fixedSize_of_bitwise hbit.1
    have hlen : sizeof t = (raw t v).length := by
      rw [sizeof_of_fixed hsize, length_raw hbit.1 hsize hv]
    obtain ⟨hrest, hread⟩ := ih hbit.2
    rw [rawMembers, ofRawMembers, hlen, take_left, drop_left, hrest, ofRaw_raw hbit.1 hv]
    exact ⟨rfl, readable_of_bitwise hbit.1 v, hread⟩

/-! ### Sizes known at compile time -/

/-- Without padding a value of a fixed size has that size. -/
theorem length_of_fixed (h : Has t v) (hunpadded : Unpadded t v)
    (hsize : psszFixedSize t = some size) : (toPssz F t v).length = size :=
  ((counts t h).1 hunpadded).trans (psszCount_of_fixed hsize)

private theorem shape_elems (h : ∀ v ∈ vs, Has elem v) (hunpadded : ∀ v ∈ vs, Unpadded elem v) :
    (vs.map fun x => part (psszFixedSize elem) (toPssz F elem x)).map Part.shape =
      replicate vs.length (psszFixedSize elem) := by
  rw [map_map, eq_replicate_iff, length_map]
  refine ⟨rfl, fun x hx => ?_⟩
  obtain ⟨v, hv, rfl⟩ := mem_map.mp hx
  exact shape_part fun n hn => length_of_fixed (h v hv) (hunpadded v hv) hn

/-- Members are of the shapes that the reader expects. -/
theorem shape_members (h : HasMembers ts vs) (hunpadded : UnpaddedMembers ts vs) :
    (toPsszMembers F ts vs).map Part.shape = fieldShape ts := by
  induction ts, vs, h using HasMembers.induction with
  | nil => rfl
  | cons t ts v vs hv _ ih =>
    rw [toPsszMembers, map_cons, ih hunpadded.2, fieldShape,
      shape_part fun n hn => length_of_fixed hv hunpadded.1 hn]

private theorem countP_pos_of_not_fixed (h : allFieldsFixed ts = false) :
    0 < (fieldShape ts).countP (· = none) := by
  induction ts using Tys.list_induction with
  | nil => cases h
  | cons t ts ih =>
    rw [allFieldsFixed, Bool.and_eq_false_iff] at h
    rw [fieldShape, countP_cons]
    rcases h with h | h
    · rw [Option.isSome_eq_false_iff.mp h |> Option.isNone_iff_eq_none.mp]
      exact Nat.succ_pos _
    · exact (ih h).trans_le (Nat.le_add_right _ _)

private theorem minEncodedSize_of_fixed (hsize : psszFixedSize t = some size) :
    minEncodedSize t = size := by
  cases t with
  | struct definitionWillNotChange n members =>
    rw [psszFixedSize] at hsize
    split at hsize
    next hfixed =>
      rw [minEncodedSize, if_pos (Bool.and_eq_true_iff.mp hfixed).2]
      exact Option.some.inj hsize
    · cases hsize
  | bitlist => cases hsize
  | _ =>
    rw [minEncodedSize, hsize]
    · rfl
    all_goals simp

/-- A value whose optional has no selector is not empty. -/
theorem length_pos_of_no_selector (h : Has t v) (hunpadded : Unpadded t v)
    (hsel : optionalNeedsSelector t = false) : 0 < (toPssz F t v).length := by
  have hmin : minEncodedSize t ≠ 0 := by
    intro hzero
    rw [optionalNeedsSelector, hzero] at hsel
    cases hsel
  cases hsize : psszFixedSize t with
  | some size =>
    rw [length_of_fixed h hunpadded hsize, ← minEncodedSize_of_fixed hsize]
    exact Nat.pos_of_ne_zero hmin
  | none =>
    cases t with
    | bitlist maxN =>
      rw [toPssz, bitlistBytes, length_packBits, length_append, length_singleton]
      omega
    | struct definitionWillNotChange n members =>
      cases v with
      | list vs =>
        cases definitionWillNotChange with
        | false =>
          rw [toPssz, if_neg (by simp [copied]), length_append]
          rw [if_neg Bool.false_ne_true, length_leBytes]
          exact F.headerBytes_pos.trans_le (Nat.le_add_right _ _)
        | true =>
          have hvar : allFieldsFixed members = false := by
            rw [psszFixedSize] at hsize
            split at hsize
            · cases hsize
            next hnot => simpa using hnot
          -- at least one member has an offset
          have hslots := countP_pos_of_not_fixed hvar
          rw [toPssz, if_neg (by simp [copied, hvar]), length_append, length_table_eq_sum,
            show (Val.list vs).elems = vs from rfl, countP_toPsszMembers h]
          have := Nat.mul_pos F.offsetBytes_pos hslots
          omega
      | _ => exact h.elim
    | _ =>
      rw [minEncodedSize, hsize] at hmin
      · exact absurd rfl hmin
      all_goals simp

/-! ### Reading back what was written -/

/-- A check that passes. -/
theorem check_true {α : Type} {p : Bool} (message : String) (f : Unit → Read α) (hp : p = true) :
    (check p message >>= f) = f () := by
  rw [hp]
  rfl

/-- A value of this type that stands in a buffer is read back when it is readable. -/
def ReadsBack (F : Format) (t : Ty) : Prop :=
  ∀ ⦃v : Val⦄ ⦃src : Bytes⦄ ⦃pos stop : Nat⦄, Has t v → Unpadded t v →
    Placed src pos stop (toPssz F t v) → (toPssz F t v).length < 256 ^ F.offsetBytes →
    (fromPssz F t src pos stop = .ok v ↔ Readable t v)

section

variable {src : Bytes} {pos stop k : Nat} {v : Val} {x : Read (List Val)} {members : Tys}
  {definitionWillNotChange : Bool}

private theorem fromPsszCopy_eq (message : String) (hk : k < 256 ^ size)
    (h : Placed src pos stop (leBytes size k)) :
    fromPsszCopy size message src pos stop = .ok k := by
  have hfetch := h.fetch_eq
  have hspan := h.sub32_eq
  rw [length_leBytes] at hfetch hspan
  rw [fromPsszCopy, check_true _ _ (by rw [hspan]; simp), hfetch, ok_bind, leValue_leBytes hk]
  rfl

private theorem reads_bool {b : UInt8} (hb : b ≤ 1)
    (h : Placed src pos stop (toPssz F .bool (.bool b))) :
    fromPssz F .bool src pos stop = .ok (.bool b) := by
  have hbyte : toPssz F .bool (.bool b) = [b] := by
    rcases eq_zero_or_one hb with rfl | rfl <;> rfl
  rw [hbyte] at h
  have hfetch := h.fetch_eq
  have hspan := h.sub32_eq
  rw [length_singleton] at hfetch hspan
  rw [fromPssz, check_true _ _ (by rw [hspan]; rfl), hfetch, ok_bind,
    check_true _ _ (by simpa using hb)]
  rfl

private theorem reads_bitlist {maxN : Nat} {bs : List Bool} (hbound : bs.length ≤ maxN)
    (h : Placed src pos stop (bitlistBytes bs)) :
    fromPsszBitlist maxN src pos stop = .ok (.bits bs) ↔ (bs.length + 8) / 8 < 2 ^ 31 := by
  obtain ⟨hne, hlog, hbits⟩ := packBits_delimited bs
  have hlen : (bitlistBytes bs).length = (bs.length + 8) / 8 := by
    rw [bitlistBytes, length_packBits, length_append, length_singleton]
  have hstop := h.stop_eq
  have hfetch := h.fetch_eq
  rw [hlen] at hstop hfetch
  have hspan : stop - pos = (bs.length + 8) / 8 := by omega
  rw [fromPsszBitlist, check_true _ _ (by simp; omega), hspan, check_bind_eq_ok, decide_eq_true_eq]
  refine and_iff_left_of_imp fun _ => ?_
  rw [hfetch, ok_bind, bitlistBytes, check_true _ _ (by simpa using hne), hlog,
    check_true _ _ (by simpa using hbound), hbits]
  rfl

private theorem reads_string {cs : Bytes} (h : Placed src pos stop cs) :
    fromPsszString src pos stop = .ok (.string cs) := by
  have hstop := h.stop_eq
  have hle := h.stop_le
  have hwindow := h.found.window_eq
  rw [← hstop] at hwindow
  rw [fromPsszString, hwindow, if_pos (by simp; omega)]

/-- A value wrapped by a constructor. -/
theorem wrap_iff {α : Type} {x : Read α} {a : α} {f : α → Val} (hf : f.Injective) :
    (do return f (← x)) = (.ok (f a) : Read Val) ↔ x = .ok a := by
  constructor
  · intro h
    obtain ⟨y, hy, h⟩ := bind_eq_ok.mp h
    rw [← hf (Except.ok.inj h), hy]
  · rintro rfl
    rfl

/-- A list is returned exactly if its elements are. -/
theorem list_iff : (do return Val.list (← x)) = (.ok (.list vs) : Read Val) ↔ x = .ok vs :=
  wrap_iff fun _ _ => Val.list.inj

private theorem bounded_list_iff {n : Nat} (message : String) (hlen : vs.length ≤ n) : (do
      let vs ← x
      check (vs.length ≤ n) message
      return Val.list vs) = (.ok (.list vs) : Read Val) ↔ x = .ok vs := by
  constructor
  · intro h
    obtain ⟨ys, hy, h⟩ := bind_eq_ok.mp h
    obtain ⟨_, h⟩ := check_bind_eq_ok.mp h
    cases h
    exact hy
  · rintro rfl
    rw [ok_bind, check_true _ _ (decide_eq_true hlen)]
    rfl

private theorem reads_nullopt (h : Placed src pos stop (toPssz F (.optional elem) .nullopt)) :
    fromPssz F (.optional elem) src pos stop = .ok .nullopt := by
  change Placed src pos stop (if optionalNeedsSelector elem then [0] else []) at h
  rw [fromPssz]
  by_cases hsel : optionalNeedsSelector elem = true
  · rw [if_pos hsel] at h ⊢
    have hspan := h.sub32_eq
    have hfetch := h.fetch_eq
    rw [length_singleton] at hspan hfetch
    rw [check_true _ _ (by rw [hspan]; rfl), hfetch, ok_bind, headD_cons, if_pos rfl, hspan]
    rfl
  · rw [if_neg hsel] at h ⊢
    exact if_pos h.sub32_eq

section

variable (ih : ReadsBack F elem)

include ih

section

variable (hhas : ∀ v ∈ vs, Has elem v) (hunpadded : ∀ v ∈ vs, Unpadded elem v)

include hhas hunpadded

/-- The elements of a table are found in their ranges. -/
theorem ReadsBack.elems (h : Placed src pos stop (table F.offsetBytes
      (vs.map fun x => part (psszFixedSize elem) (toPssz F elem x)))) (hfit : (table F.offsetBytes
      (vs.map fun x => part (psszFixedSize elem) (toPssz F elem x))).length < 256 ^ F.offsetBytes) :
    ∃ offs, readOffsets F.offsetBytes src pos (replicate vs.length (psszFixedSize elem)) =
        .ok offs ∧
      Forall₂
        (fun v r => (fromPssz F elem src r.1 r.2 = .ok v ↔ Readable elem v) ∧
          decodeWithin (fromPssz F elem src) pos stop r.1 r.2 = fromPssz F elem src r.1 r.2)
        vs (ranges F.offsetBytes pos stop (replicate vs.length (psszFixedSize elem)) offs) := by
  rw [← append_nil (map _ vs)] at h hfit
  obtain ⟨offs, hoffs, hranges⟩ := h.table_left hfit (.inr rfl)
  rw [shape_elems hhas hunpadded] at hoffs hranges
  refine ⟨offs, hoffs, ?_⟩
  rw [forall₂_map_left_iff] at hranges
  have hmem : ∀ v ∈ vs, Has elem v ∧ Unpadded elem v := fun v hv => ⟨hhas v hv, hunpadded v hv⟩
  refine ((forall₂_and_left _ _).mpr ⟨hmem, hranges⟩).imp ?_
  rintro v r ⟨⟨hv, hu⟩, ⟨hplaced, hlen⟩, hlo, hhi⟩
  rw [bytes_part] at hplaced hlen
  have hle := hplaced.stop_eq
  exact ⟨ih hv hu hplaced hlen, decodeWithin_eq hlo hhi (by omega)⟩

private theorem ReadsBack.array (h : Placed src pos stop (toPssz F (.vector elem) (.list vs)))
    (hfit : (toPssz F (.vector elem) (.list vs)).length < 256 ^ F.offsetBytes) :
    fromPsszArray F elem (fromPssz F elem src) src pos stop vs.length = .ok vs ↔
      ∀ v ∈ vs, Readable elem v := by
  rw [toPssz, Val.elems] at h hfit
  have hspan := h.sub32_eq
  rw [fromPsszArray]
  by_cases hbit : elem.bitwise = true
  · obtain ⟨size, hsize, _⟩ := fixedSize_of_bitwise hbit
    have hsizeof := sizeof_of_fixed hsize
    rw [if_pos hbit] at h hspan ⊢
    have hfetch := h.fetch_eq
    rw [length_flatMap_raw hbit hsize hhas] at hspan hfetch
    rw [check_true _ _ (by rw [hsizeof, hspan]; simp), hsizeof, hfetch, ok_bind, ← hsizeof,
      splitRaw_raw hbit hhas]
    exact iff_of_true rfl fun v _ => readable_of_bitwise hbit v
  · rw [if_neg hbit] at h hfit hspan ⊢
    obtain ⟨offs, hoffs, hall⟩ := ih.elems hhas hunpadded h hfit
    have hread := fromPsszEach_iff (hall.imp fun _ _ h => h.1)
    rw [length_table, shape_elems hhas hunpadded, headLen_replicate] at hspan
    cases hsize : psszFixedSize elem with
    | some size =>
      rw [hsize] at hspan hoffs hread
      obtain rfl := Except.ok.inj ((readOffsets_inline _ _ _).symm.trans hoffs)
      dsimp only
      rw [check_true _ _ (by rw [hspan]; simp)]
      exact hread
    | none =>
      rw [hsize] at hspan hoffs hread
      rw [check_true _ _ (by rw [hspan]; simp), hoffs, ok_bind]
      exact hread

omit hhas hunpadded in
omit ih in
/-- Elements of a fixed size fill a vector as they fill an array. -/
theorem fromPsszVector_eq {decode : Nat → Nat → Read Val}
    (hsize : psszFixedSize elem = some size) (hpos : 0 < size) (hspan : sub32 stop pos = k * size) :
    fromPsszVector F elem decode src pos stop = fromPsszArray F elem decode src pos stop k := by
  have hzero : psszFixedSize elem ≠ some 0 := by
    rw [hsize]
    exact fun h => Nat.ne_of_gt hpos (Option.some.inj h)
  rw [fromPsszVector, fromPsszArray, if_neg hzero, hspan, sizeof_of_fixed hsize, hsize]
  dsimp only
  rw [Nat.mul_div_cancel _ hpos, Nat.mul_mod_left, check_true _ _ (by simp),
    check_true _ _ (by simp), check_true _ _ (by simp), check_true _ _ (by simp)]

private theorem ReadsBack.vector (h : Placed src pos stop (toPssz F (.vector elem) (.list vs)))
    (hfit : (toPssz F (.vector elem) (.list vs)).length < 256 ^ F.offsetBytes) :
    fromPsszVector F elem (fromPssz F elem src) src pos stop = .ok vs ↔
      psszFixedSize elem ≠ some 0 ∧ ∀ v ∈ vs, Readable elem v := by
  have hspan := h.sub32_eq
  by_cases hzero : psszFixedSize elem = some 0
  · rw [fromPsszVector, if_pos hzero]
    exact ⟨fun h => (nomatch h), fun h => absurd hzero h.1⟩
  rw [and_iff_right hzero]
  cases hsize : psszFixedSize elem with
  | some size =>
    have hpos : 0 < size := Nat.pos_of_ne_zero fun hz => hzero (by rw [hsize, hz])
    have hlen : (toPssz F (.array elem vs.length) (.list vs)).length = vs.length * size :=
      length_of_fixed (t := .array elem vs.length) ⟨rfl, hhas⟩ hunpadded
        (congrArg (Option.map _) hsize)
    rw [fromPsszVector_eq hsize hpos (hspan.trans hlen)]
    exact ih.array hhas hunpadded h hfit
  | none =>
    have hbit : ¬elem.bitwise = true := by
      intro hbit
      obtain ⟨size, hsome, _⟩ := fixedSize_of_bitwise hbit
      cases hsize.symm.trans hsome
    rw [toPssz, Val.elems, if_neg hbit] at h hfit hspan
    obtain ⟨offs, hoffs, hall⟩ := ih.elems hhas hunpadded h hfit
    have hheads := h.left.found
    rw [length_table, shape_elems hhas hunpadded, headLen_replicate, hsize,
      Option.getD_none] at hspan hfit
    rw [shape_elems hhas hunpadded, headLen_replicate, hsize, Option.getD_none] at hheads
    rw [hsize] at hoffs hall
    rw [fromPsszVector, if_neg hzero, if_neg hbit, hsize]
    cases vs with
    | nil =>
      rw [if_pos (by rw [hspan]; simp [tails])]
      exact iff_of_true rfl (by simp)
    | cons v vs =>
      have hw := F.offsetBytes_pos
      have hspan_le : (v :: vs).length * F.offsetBytes ≤ sub32 stop pos := by omega
      have hone : F.offsetBytes ≤ sub32 stop pos :=
        (Nat.le_mul_of_pos_left _ (Nat.succ_pos _)).trans hspan_le
      -- the first offset is the length of the offset table
      have hfirst : fetch src pos F.offsetBytes =
          .ok (leBytes F.offsetBytes ((v :: vs).length * F.offsetBytes)) := by
        have hword := hheads.left.window_eq
        rw [length_leBytes] at hword
        rw [fetch, hword, if_pos (length_leBytes _ _)]
      rw [if_neg (by omega), check_true _ _ (by simpa using hone), hfirst, ok_bind,
        leValue_leBytes (by omega), check_true _ _ (by simpa using hspan_le),
        Nat.mul_div_cancel _ hw, check_true _ _ (by simpa using hspan_le), hoffs, ok_bind]
      exact fromPsszEach_iff (hall.imp fun _ _ h => by rw [h.2, h.1])

end

/-- An optional is told apart from an empty one by its selector or by its length. -/
theorem ReadsBack.optional (hhas : Has elem v) (hunpadded : Unpadded elem v)
    (h : Placed src pos stop (toPssz F (.optional elem) (.some v)))
    (hfit : (toPssz F (.optional elem) (.some v)).length < 256 ^ F.offsetBytes) :
    fromPssz F (.optional elem) src pos stop = .ok (.some v) ↔ Readable elem v := by
  rw [toPssz] at h hfit
  rw [fromPssz]
  by_cases hsel : optionalNeedsSelector elem = true
  · rw [if_pos hsel] at h hfit ⊢
    rw [length_append, length_singleton] at hfit
    have hspan := h.sub32_eq
    have hfetch := h.left.fetch_eq
    have hrest := h.right
    rw [length_singleton] at hfetch hrest
    rw [check_true _ _ (by rw [hspan]; simp), hfetch, ok_bind, headD_cons,
      if_neg (by decide), check_true _ _ (by rfl), hrest.wrap_pos]
    rw [← ih hhas hunpadded hrest (by omega)]
    exact wrap_iff fun _ _ => Val.some.inj
  · rw [if_neg hsel] at h hfit ⊢
    have hspan := h.sub32_eq
    rw [nil_append] at h hfit hspan
    have hpos := length_pos_of_no_selector (F := F) hhas hunpadded (by simpa using hsel)
    rw [if_neg (by omega), ← ih hhas hunpadded h hfit]
    exact wrap_iff fun _ _ => Val.some.inj

end

private theorem reads_copied (hcopied : copied definitionWillNotChange size members = true)
    (hhas : HasMembers members vs)
    (h : Placed src pos stop (toPssz F (.struct definitionWillNotChange size members) (.list vs))) :
    fromPssz F (.struct definitionWillNotChange size members) src pos stop = .ok (.list vs) ∧
      ReadableMembers members vs := by
  obtain ⟨⟨_, hlayout⟩, _⟩ := by simpa only [copied, Bool.and_eq_true] using hcopied
  obtain ⟨hbit, hsum⟩ := Bool.and_eq_true_iff.mp hlayout
  obtain ⟨hlen, _⟩ := copied_members hbit (eq_of_beq hsum) hhas
  obtain ⟨hback, hreadable⟩ := ofRawMembers_rawMembers hbit hhas
  rw [toPssz, if_pos hcopied] at h
  have hspan := h.sub32_eq
  have hfetch := h.fetch_eq
  rw [show (Val.list vs).elems = vs from rfl, hlen] at hspan hfetch
  refine ⟨?_, hreadable⟩
  rw [fromPssz, if_pos hcopied, check_true _ _ (by rw [hspan]; simp), hfetch, ok_bind, hback]
  rfl

/-- A struct that is not copied is read from the ranges that the offsets of its fixed region
give. -/
theorem fromPssz_struct {base : Nat} {offs : List Nat}
    (hcopied : ¬copied definitionWillNotChange size members = true)
    (hbase : base = pos + if definitionWillNotChange then 0 else F.headerBytes)
    (hle : base + fixedHeaderSize F members ≤ stop)
    (hstop : stop ≤ src.length) (hsmall : src.length < 2 ^ 32)
    (hoffs : readOffsets F.offsetBytes src base (fieldShape members) = .ok offs) :
    fromPssz F (.struct definitionWillNotChange size members) src pos stop =
      (do return Val.list (← fromPsszMembers F members src
        (ranges F.offsetBytes base stop (fieldShape members) offs))) := by
  rw [fromPssz, if_neg hcopied]
  have hwrap : ∀ n, n ≤ stop → n % 2 ^ 32 = n := fun n hn => Nat.mod_eq_of_lt (by omega)
  cases definitionWillNotChange with
  | true =>
    rw [if_pos rfl, add_zero] at hbase
    subst hbase
    rw [if_pos rfl, pure_bind]
    dsimp only
    rw [hwrap _ hle, check_true _ _ (decide_eq_true hle), hoffs, ok_bind]
  | false =>
    rw [if_neg Bool.false_ne_true] at hbase
    subst hbase
    have hspan : sub32 stop pos = stop - pos := by
      rw [sub32]
      omega
    have hfetch : fetch src pos F.headerBytes = .ok (window src pos (pos + F.headerBytes)) := by
      rw [fetch, if_pos]
      rw [length_window (by omega), Nat.add_sub_cancel_left]
    rw [if_neg Bool.false_ne_true, check_true _ _ (by rw [hspan]; simp; omega), hfetch, ok_bind,
      pure_bind, hwrap (pos + _) (by omega)]
    dsimp only
    rw [hwrap _ hle, check_true _ _ (decide_eq_true hle), hoffs, ok_bind]

end

mutual

/-- A value is read back exactly if it is readable. -/
theorem readsBack : ∀ t : Ty, ReadsBack F t
  | .bool => by
    intro v src pos stop hhas _ h _
    cases v with
    | bool b => exact iff_of_true (reads_bool hhas h) trivial
    | _ => exact hhas.elim
  | .num _ | .uint256 | .bitvector _ => by
    intro v src pos stop hhas _ h _
    cases v with
    | num k =>
      rw [fromPssz, fromPsszCopy_eq _ hhas h]
      exact iff_of_true rfl trivial
    | _ => exact hhas.elim
  | .bitset n => by
    intro v src pos stop hhas _ h _
    cases v with
    | num k =>
      have hk : k % 2 ^ n = k := Nat.mod_eq_of_lt hhas
      have hbytes : toPssz F (.bitset n) (.num k) = leBytes ((n + 7) / 8) k := congrArg _ hk
      rw [hbytes] at h
      rw [fromPssz, fromPsszCopy_eq _ (hhas.trans_le (two_pow_le_256_pow n)) h, ok_bind, hk]
      exact iff_of_true rfl trivial
    | _ => exact hhas.elim
  | .bitlist maxN => by
    intro v src pos stop hhas _ h _
    cases v with
    | bits bs => exact reads_bitlist hhas h
    | _ => exact hhas.elim
  | .string => by
    intro v src pos stop hhas _ h _
    cases v with
    | string cs => exact iff_of_true (reads_string h) trivial
    | _ => exact hhas.elim
  | .boundedString n => by
    intro v src pos stop hhas _ h _
    cases v with
    | string cs =>
      have hspan := h.sub32_eq
      rw [fromPssz, check_true _ _ (by rw [hspan]; exact decide_eq_true hhas)]
      exact iff_of_true (reads_string h) trivial
    | _ => exact hhas.elim
  | .vector elem => by
    intro v src pos stop hhas hunpadded h hfit
    cases v with
    | list vs =>
      rw [fromPssz, list_iff]
      exact (readsBack elem).vector hhas hunpadded h hfit
    | _ => exact hhas.elim
  | .boundedList elem n => by
    intro v src pos stop hhas hunpadded h hfit
    cases v with
    | list vs =>
      rw [fromPssz, bounded_list_iff _ hhas.1]
      exact (readsBack elem).vector hhas.2 hunpadded h hfit
    | _ => exact hhas.elim
  | .array elem n => by
    intro v src pos stop hhas hunpadded h hfit
    cases v with
    | list vs =>
      obtain ⟨rfl, hall⟩ := hhas
      rw [fromPssz, list_iff]
      exact (readsBack elem).array hall hunpadded h hfit
    | _ => exact hhas.elim
  | .optional elem => by
    intro v src pos stop hhas hunpadded h hfit
    cases v with
    | nullopt => exact iff_of_true (reads_nullopt h) trivial
    | some x => exact (readsBack elem).optional hhas hunpadded h hfit
    | _ => exact hhas.elim
  | .struct definitionWillNotChange size members => by
    intro v src pos stop hhas hunpadded h hfit
    cases v with
    | list vs =>
      by_cases hcopied : copied definitionWillNotChange size members = true
      · obtain ⟨hread, hreadable⟩ := reads_copied hcopied hhas h
        exact iff_of_true hread hreadable
      · rw [toPssz, if_neg hcopied] at h hfit
        rw [length_append] at hfit
        have hplaced := h.right
        rw [length_header, ← append_nil (toPsszMembers F _ _)] at hplaced
        rw [← append_nil (toPsszMembers F _ _)] at hfit
        obtain ⟨offs, hoffs, hranges⟩ := hplaced.table_left (by omega) (.inr rfl)
        rw [append_nil] at hplaced hfit
        have hshape := shape_members (F := F) hhas hunpadded.2
        have hstop := hplaced.stop_eq
        rw [length_table] at hstop
        rw [show (Val.list vs).elems = vs from rfl] at hoffs hranges hstop hfit
        rw [hshape] at hoffs hranges hstop
        rw [fromPssz_struct hcopied rfl (by rw [fixedHeaderSize]; omega) h.stop_le h.small hoffs,
          list_iff]
        exact readsBack_members members hhas hunpadded.2 (hranges.imp fun _ _ hpr => hpr.1)
    | _ => exact hhas.elim

/-- Members are read back exactly if they are readable. -/
theorem readsBack_members : ∀ (ts : Tys) {vs : List Val} {src : Bytes} {rs : List (Nat × Nat)},
    HasMembers ts vs → UnpaddedMembers ts vs →
    Forall₂ (fun p r => Placed src r.1 r.2 p.bytes ∧ p.bytes.length < 256 ^ F.offsetBytes)
      (toPsszMembers F ts vs) rs →
    (fromPsszMembers F ts src rs = .ok vs ↔ ReadableMembers ts vs)
  | .nil, [], _, _, _, _, h => by
    cases h
    exact iff_of_true rfl trivial
  | .cons t ts, v :: vs, src, rs, hhas, hunpadded, h => by
    cases h with
    | cons hp hps =>
      rw [bytes_part] at hp
      refine cons_iff.trans ?_
      rw [readsBack t hhas.1 hunpadded.1 hp.1 hp.2, readsBack_members ts hhas.2 hunpadded.2 hps]
      rfl

end

/-- A value is counted and read back as it was written when the structs in it have no padding, its
vectors have elements with a size and its bit lists are shorter than 2 GiB. If structs have room for
their members and the count does not wrap around, it is so only then. -/
theorem convertFromPssz_toPssz (F : Format) (t : Ty) (v : Val) (hhas : Has t v)
    (hmax : (toPssz F t v).length ≤ F.maxTotal) :
    (Unpadded t v ∧ Readable t v →
      psszSize F t v = (toPssz F t v).length ∧ convertFromPssz F t (toPssz F t v) = .ok v) ∧
    (Laid t → psszCount F t v < 2 ^ 32 → psszSize F t v = (toPssz F t v).length →
      convertFromPssz F t (toPssz F t v) = .ok v → Unpadded t v ∧ Readable t v) := by
  have hsmall : (toPssz F t v).length < 2 ^ 32 := hmax.trans_lt F.maxTotal_lt_two_pow
  have hfit : (toPssz F t v).length < 256 ^ F.offsetBytes := hmax.trans_lt F.maxTotal_lt
  obtain ⟨hequal, honly⟩ := counts (F := F) t hhas
  have hread : Unpadded t v → (convertFromPssz F t (toPssz F t v) = .ok v ↔ Readable t v) := by
    intro hunpadded
    rw [convertFromPssz, check_true _ _ (decide_eq_true hsmall)]
    exact readsBack t hhas hunpadded (.whole hsmall) hfit
  constructor
  · rintro ⟨hunpadded, hreadable⟩
    refine ⟨?_, (hread hunpadded).mpr hreadable⟩
    rw [psszSize, ← hequal hunpadded, Nat.mod_eq_of_lt hsmall]
  · intro hlaid hcount hsize hback
    rw [psszSize, Nat.mod_eq_of_lt hcount] at hsize
    have hunpadded := (honly hlaid).2 hsize.symm
    exact ⟨hunpadded, (hread hunpadded).mp hback⟩

/-- A struct with a number, a string and an optional. -/
theorem convertFromPssz_toPssz_order :
    psszSize .pssz16
      (.struct false 64 (.cons (.num 2) (.cons .string (.cons (.optional (.num 4)) .nil))))
        (.list [.num 7, .string [104], .some (.num 9)]) = 13 ∧
      convertFromPssz .pssz16
        (.struct false 64 (.cons (.num 2) (.cons .string (.cons (.optional (.num 4)) .nil))))
        [6, 0, 7, 0, 6, 0, 7, 0, 104, 9, 0, 0, 0] =
        .ok (.list [.num 7, .string [104], .some (.num 9)]) := by
  refine (convertFromPssz_toPssz .pssz16 _ _ ?_ ?_).1 ?_
  · exact ⟨(by decide : 7 < 256 ^ 2), trivial, (by decide : 9 < 256 ^ 4), trivial⟩
  · decide
  · exact ⟨⟨nofun, trivial, trivial, trivial, trivial⟩, trivial, trivial, trivial, trivial⟩

/-- A struct with padding is counted with it and written without it, so a vector of it cannot be
read back; neither can an empty vector of empty arrays. -/
theorem psszSize_of_padded :
    psszSize .pssz32 (.struct true 8 (.cons (.num 1) (.cons (.num 4) .nil)))
        (.list [.num 1, .num 2]) = 8 ∧
      toPssz .pssz32 (.struct true 8 (.cons (.num 1) (.cons (.num 4) .nil)))
        (.list [.num 1, .num 2]) = [1, 2, 0, 0, 0] ∧
      convertFromPssz .pssz32 (.vector (.struct true 8 (.cons (.num 1) (.cons (.num 4) .nil))))
        (toPssz .pssz32 (.vector (.struct true 8 (.cons (.num 1) (.cons (.num 4) .nil))))
          (.list [.list [.num 1, .num 2]])) =
        .error (.check "pssz: vector span not divisible by element size") ∧
      convertFromPssz .pssz32 (.vector (.array (.num 1) 0))
        (toPssz .pssz32 (.vector (.array (.num 1) 0)) (.list [])) = .error .divideByZero :=
  ⟨rfl, rfl, rfl, rfl⟩

end PsiServe.Pssz
