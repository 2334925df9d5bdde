import PsiServe.Pssz.Encode

/-!
# The size of a pSSZ encoding

`pssz_size` (`to_pssz.hpp:674–765`) against the bytes that `to_pssz` writes. A struct whose
definition will not change and whose members are of a fixed size counts as its size in memory
(`to_pssz.hpp:199–206`), also when its members are written one by one because of padding between
them; then fewer bytes are written than counted, and nothing makes up for them.
-/

namespace PsiServe.Pssz

open Base List
open Ssz
open Frac (Val)

variable {F : Format} {t : Ty} {ts : Tys} {vs : List Val} {size : Nat} {v : Val}

/-! ### Values and layouts -/

mutual

/-- A value of a type that a program can build. -/
def Has : Ty → Val → Prop
  | .bool, .bool b => b ≤ 1
  | .num size, .num k => k < 256 ^ size
  | .uint256, .num k => k < 256 ^ 32
  | .bitvector n, .num k => k < 256 ^ ((↑n + 7) / 8)
  | .bitset n, .num k => k < 2 ^ n
  | .bitlist maxN, .bits bs => bs.length ≤ maxN
  | .string, .string _ => True
  | .boundedString n, .string cs => cs.length ≤ n
  | .vector elem, .list vs => ∀ v ∈ vs, Has elem v
  | .boundedList elem n, .list vs => vs.length ≤ n ∧ ∀ v ∈ vs, Has elem v
  | .array elem n, .list vs => vs.length = n ∧ ∀ v ∈ vs, Has elem v
  | .optional _, .nullopt => True
  | .optional elem, .some v => Has elem v
  | .struct _ _ members, .list vs => HasMembers members vs
  | _, _ => False

def HasMembers : Tys → List Val → Prop
  | .nil, [] => True
  | .cons t ts, v :: vs => Has t v ∧ HasMembers ts vs
  | _, _ => False

end

/-- Induction on members and their values. -/
theorem HasMembers.induction {motive : (ts : Tys) → (vs : List Val) → HasMembers ts vs → Prop}
    (nil : motive .nil [] trivial)
    (cons : ∀ t ts v vs (hv : Has t v) (hvs : HasMembers ts vs), motive ts vs hvs →
      motive (.cons t ts) (v :: vs) ⟨hv, hvs⟩) :
    ∀ (ts : Tys) (vs : List Val) (h : HasMembers ts vs), motive ts vs h
  | .nil, [], _ => nil
  | .cons t ts, v :: vs, h => cons t ts v vs h.1 h.2 (induction nil cons ts vs h.2)

mutual

/-- The structs in a value that count as their size in memory have no padding. -/
def Unpadded : Ty → Val → Prop
  | .vector elem, v | .boundedList elem _, v | .array elem _, v => ∀ x ∈ v.elems, Unpadded elem x
  | .optional elem, v =>
    match v with
    | .some x => Unpadded elem x
    | _ => True
  | .struct definitionWillNotChange size members, v =>
    ((allFieldsFixed members && definitionWillNotChange) = true →
      headLen 0 (fieldShape members) = size) ∧ UnpaddedMembers members v.elems
  | _, _ => True

def UnpaddedMembers : Tys → List Val → Prop
  | .cons t ts, v :: vs => Unpadded t v ∧ UnpaddedMembers ts vs
  | _, _ => True

end

mutual

/-- The members of a struct have room in its memory. -/
def Laid : Ty → Prop
  | .vector elem | .boundedList elem _ | .array elem _ | .optional elem => Laid elem
  | .struct definitionWillNotChange size members =>
    ((allFieldsFixed members && definitionWillNotChange) = true →
      headLen 0 (fieldShape members) ≤ size) ∧ LaidMembers members
  | _ => True

def LaidMembers : Tys → Prop
  | .cons t ts => Laid t ∧ LaidMembers ts
  | .nil => True

end

/-! ### A length and its count -/

/-- A length is its count when `P` holds. With `L` it is at most the count, and the count only when
`P` holds. -/
def Counts (len count : Nat) (P L : Prop) : Prop :=
  (P → len = count) ∧ (L → len ≤ count ∧ (len = count → P))

namespace Counts

variable {len len' count count' : Nat} {P P' L L' : Prop}

private theorem exact (h : len = count) (hP : P) : Counts len count P L :=
  ⟨fun _ => h, fun _ => ⟨h.le, fun _ => hP⟩⟩

private theorem add (h : Counts len count P L) (h' : Counts len' count' P' L') :
    Counts (len + len') (count + count') (P ∧ P') (L ∧ L') := by
  refine ⟨fun ⟨hP, hP'⟩ => by rw [h.1 hP, h'.1 hP'], fun ⟨hL, hL'⟩ => ?_⟩
  obtain ⟨hle, heq⟩ := h.2 hL
  obtain ⟨hle', heq'⟩ := h'.2 hL'
  exact ⟨by omega, fun hsum => ⟨heq (by omega), heq' (by omega)⟩⟩

private theorem add_const (h : Counts len count P L) (n : Nat) : Counts (len + n)
    (count + n) P L := by
  refine ⟨fun hP => by rw [h.1 hP], fun hL => ?_⟩
  obtain ⟨hle, heq⟩ := h.2 hL
  exact ⟨by omega, fun hsum => heq (by omega)⟩

private theorem sum {α : Type} {vs : List α} {len count : α → Nat} {P : α → Prop}
    (h : ∀ v ∈ vs, Counts (len v) (count v) (P v) L) :
    Counts (vs.map len).sum (vs.map count).sum (∀ v ∈ vs, P v) L := by
  induction vs with
  | nil => exact exact rfl (by simp)
  | cons v vs ih =>
    rw [forall_mem_cons] at h ⊢
    have hsum := h.1.add (ih h.2)
    exact ⟨hsum.1, fun hL => hsum.2 ⟨hL, hL⟩⟩

/-- More is counted than the parts of the count add up to. -/
theorem raise (h : Counts len count P L) (hL : L' → L ∧ count ≤ count') :
    Counts len count' (count = count' ∧ P) L' := by
  refine ⟨fun ⟨heq, hP⟩ => by rw [h.1 hP, heq], fun hL' => ?_⟩
  obtain ⟨hl, hcount⟩ := hL hL'
  obtain ⟨hle, heq⟩ := h.2 hl
  exact ⟨by omega, fun hsum => ⟨by omega, heq (by omega)⟩⟩

end Counts

/-! ### Copied values -/

private theorem length_flatMap_raw_of (h : ∀ v ∈ vs, (raw t v).length = size) :
    (vs.flatMap (raw t)).length = vs.length * size := by
  rw [length_flatMap, map_congr_left h, map_const', sum_replicate_nat]

section

variable (hbit : t.bitwise = true)

include hbit

/-- A type that is copied has a fixed size, the same in both formats. -/
theorem fixedSize_of_bitwise : ∃ size, psszFixedSize t = some size ∧ t.fixedSize = some size := by
  induction t, hbit using Ty.bitwise_induction with
  | array elem n _ _ ih =>
    obtain ⟨size, hpssz, hssz⟩ := ih
    exact ⟨n * size, by rw [psszFixedSize, hpssz]; rfl, by rw [Ty.fixedSize, hssz]; rfl⟩
  | _ => exact ⟨_, rfl, rfl⟩

/-- The value of a type that is copied has as many bytes as its type. -/
theorem length_raw (hsize : psszFixedSize t = some size) (h : Has t v) :
    (raw t v).length = size := by
  induction t, hbit using Ty.bitwise_induction generalizing v size with
  | bool =>
    cases hsize
    rfl
  | array elem n _ _ ih =>
    cases v with
    | list vs =>
      obtain ⟨rfl, hall⟩ := h
      obtain ⟨m, hm, rfl⟩ := Option.map_eq_some_iff.mp hsize
      exact length_flatMap_raw_of fun x hx => ih hm (hall x hx)
    | _ => exact h.elim
  | _ =>
    cases hsize
    exact length_leBytes _ _

/-- The length of elements that are copied. -/
theorem length_flatMap_raw (hsize : psszFixedSize t = some size) (h : ∀ v ∈ vs, Has t v) :
    (vs.flatMap (raw t)).length = vs.length * size :=
  length_flatMap_raw_of fun v hv => length_raw hbit hsize (h v hv)

private theorem unpadded_of_bitwise (v : Val) : Unpadded t v := by
  induction t, hbit using Ty.bitwise_induction generalizing v with
  | array elem n _ _ ih => exact fun x _ => ih x
  | _ => trivial

end

/-! ### Counting what is written -/

/-- A value of a fixed size counts as that. -/
theorem psszCount_of_fixed (hsize : psszFixedSize t = some size) : psszCount F t v = size := by
  cases t with
  | array elem n =>
    obtain ⟨m, hm, rfl⟩ := Option.map_eq_some_iff.mp hsize
    rw [psszCount, hm]
  | struct definitionWillNotChange n members =>
    rw [psszFixedSize] at hsize
    split at hsize
    next hfixed =>
      rw [psszCount, if_pos hfixed]
      exact Option.some.inj hsize
    · cases hsize
  | bitlist | string | boundedString | vector | boundedList | optional => cases hsize
  | _ =>
    cases hsize
    rfl

/-- The elements of a list count as their sizes and, unless these are fixed, an offset for each. -/
theorem count_elems (elem : Ty) (vs : List Val) : psszCount F (.vector elem) (.list vs) =
      (vs.map (psszCount F elem)).sum +
        F.offsetBytes * (if (psszFixedSize elem).isSome then 0 else vs.length) := by
  rw [psszCount]
  cases hsize : psszFixedSize elem with
  | some size =>
    have hsame : ∀ v ∈ vs, psszCount F elem v = size := fun v _ => psszCount_of_fixed hsize
    rw [map_congr_left hsame, map_const', sum_replicate_nat]
    rfl
  | none =>
    dsimp only [Val.elems]
    rw [Option.isSome_none, if_neg Bool.false_ne_true, mul_comm, add_comm]

private theorem length_table_elems (w : Nat) (encode : Val → Bytes) (fixedSize : Option Nat)
    (vs : List Val) :
    (table w (vs.map fun x => part fixedSize (encode x))).length =
      (vs.map fun x => (encode x).length).sum +
        w * (if fixedSize.isSome then 0 else vs.length) := by
  have hslots : ((vs.map fun x => part fixedSize (encode x)).map Part.shape).countP (· = none) =
      if fixedSize.isSome then 0 else vs.length := by
    cases fixedSize with
    | none | some _ => simp [Function.comp_def, shape_part_eq_none]
  rw [length_table_eq_sum, hslots, map_map]
  simp only [Function.comp_def, bytes_part]

/-- The fixed region has an offset for each member that is not of a fixed size. -/
theorem countP_toPsszMembers (h : HasMembers ts vs) :
    ((toPsszMembers F ts vs).map Part.shape).countP (· = none) =
      (fieldShape ts).countP (· = none) := by
  induction ts, vs, h using HasMembers.induction with
  | nil => rfl
  | cons t ts v vs _ _ ih =>
    rw [toPsszMembers, map_cons, fieldShape, countP_cons, countP_cons, ih]
    simp only [decide_eq_true_eq, shape_part_eq_none]

private theorem psszCountMembers_of_fixed (hfixed : allFieldsFixed ts = true) (vs : List Val) :
    psszCountMembers F ts vs = 0 := by
  induction ts using Tys.list_induction generalizing vs with
  | nil => rfl
  | cons t ts ih =>
    have hfixed := Bool.and_eq_true_iff.mp hfixed
    cases vs with
    | nil => rfl
    | cons v vs => rw [psszCountMembers, if_pos hfixed.1, ih hfixed.2]

private theorem countP_of_fixed (hfixed : allFieldsFixed ts = true) :
    (fieldShape ts).countP (· = none) = 0 := by
  induction ts using Tys.list_induction with
  | nil => rfl
  | cons t ts ih =>
    have hfixed := Bool.and_eq_true_iff.mp hfixed
    obtain ⟨n, hn⟩ := Option.isSome_iff_exists.mp hfixed.1
    rw [fieldShape, hn, countP_cons, ih hfixed.2]
    rfl

/-- A struct written by a single copy has no padding. -/
theorem copied_members (hbit : ts.toList.all Ty.bitwise = true) (hsize : ts.fixedSize = some size)
    (h : HasMembers ts vs) :
    (rawMembers ts vs).length = size ∧ headLen 0 (fieldShape ts) = size ∧
      UnpaddedMembers ts vs := by
  induction ts, vs, h using HasMembers.induction generalizing size with
  | nil => exact ⟨Option.some.inj hsize, Option.some.inj hsize, trivial⟩
  | cons t ts v vs hv _ ih =>
    have hbit : t.bitwise = true ∧ ts.toList.all Ty.bitwise = true := Bool.and_eq_true_iff.mp hbit
    obtain ⟨n, hn, hssz⟩ := fixedSize_of_bitwise hbit.1
    rw [Tys.fixedSize, hssz] at hsize
    cases hm : ts.fixedSize with
    | none =>
      rw [hm] at hsize
      cases hsize
    | some m =>
      rw [hm] at hsize
      cases hsize
      obtain ⟨hlen, hhead, hunpadded⟩ := ih hbit.2 hm
      refine ⟨?_, ?_, unpadded_of_bitwise hbit.1 v, hunpadded⟩
      · rw [rawMembers, length_append, length_raw hbit.1 hn hv, hlen]
      · rw [fieldShape, hn, headLen, hhead]

/-- An extensible struct has a header. -/
theorem length_header (definitionWillNotChange : Bool) (n : Nat) :
    (if definitionWillNotChange then [] else leBytes F.headerBytes n).length =
      if definitionWillNotChange then 0 else F.headerBytes := by
  split
  · rfl
  · exact length_leBytes _ _

private theorem counts_elems {elem : Ty} (h : ∀ v ∈ vs, Has elem v) (ih : ∀ v, Has elem v →
      Counts (toPssz F elem v).length (psszCount F elem v) (Unpadded elem v) (Laid elem)) :
    Counts (toPssz F (.vector elem) (.list vs)).length (psszCount F (.vector elem) (.list vs))
      (∀ v ∈ vs, Unpadded elem v) (Laid elem) := by
  rw [toPssz, Val.elems]
  split
  next hbit =>
    obtain ⟨size, hsize, _⟩ := fixedSize_of_bitwise hbit
    rw [length_flatMap_raw hbit hsize h, psszCount, hsize]
    exact .exact rfl fun v _ => unpadded_of_bitwise hbit v
  · rw [length_table_elems, count_elems]
    exact (Counts.sum fun v hv => ih v (h v hv)).add_const _

mutual

/-- The size that is counted and the bytes that are written. -/
theorem counts : ∀ (t : Ty) {v : Val}, Has t v →
    Counts (toPssz F t v).length (psszCount F t v) (Unpadded t v) (Laid t)
  | .bool, _, _ => .exact rfl trivial
  | .num _, _, _ | .uint256, _, _ | .bitvector _, _, _ | .bitset _, _, _ =>
    .exact (length_leBytes _ _) trivial
  | .bitlist _, v, _ => by
    refine .exact ?_ trivial
    rw [toPssz, bitlistBytes, length_packBits, length_append]
    rfl
  | .string, _, _ | .boundedString _, _, _ => .exact rfl trivial
  | .vector elem, .list vs, h => counts_elems h fun _ => counts elem
  | .boundedList elem _, .list vs, h => counts_elems h.2 fun _ => counts elem
  | .array elem n, .list vs, h => by
    obtain ⟨rfl, hall⟩ := h
    exact counts_elems hall fun _ => counts elem
  | .optional elem, .nullopt, _ => by
    refine .exact ?_ trivial
    change (if optionalNeedsSelector elem then [0] else [] : Bytes).length =
      if optionalNeedsSelector elem then 1 else 0
    split <;> rfl
  | .optional elem, .some x, h => by
    have hx := (counts elem h).add_const (if optionalNeedsSelector elem then 1 else 0)
    have hsel : (if optionalNeedsSelector elem then [1] else [] : Bytes).length =
        if optionalNeedsSelector elem then 1 else 0 := by
      split <;> rfl
    rw [toPssz, psszCount, length_append, hsel, add_comm, add_comm (ite _ _ _)]
    exact hx
  | .struct definitionWillNotChange size members, .list vs, h => by
    have hmembers := counts_members members h
    rw [toPssz, psszCount]
    split
    next hcopied =>
      obtain ⟨⟨hdwnc, hlayout⟩, hfixed⟩ := by
        simpa only [copied, Bool.and_eq_true] using hcopied
      obtain ⟨hbit, hsum⟩ := Bool.and_eq_true_iff.mp hlayout
      obtain ⟨hlen, hhead, hunpadded⟩ := copied_members hbit (eq_of_beq hsum) h
      rw [if_pos (by rw [hfixed, hdwnc]; rfl)]
      exact .exact hlen ⟨fun _ => hhead, hunpadded⟩
    · have helems : (Val.list vs).elems = vs := rfl
      rw [helems, length_append, length_table_eq_sum, countP_toPsszMembers h]
      by_cases hfixed : (allFieldsFixed members && definitionWillNotChange) = true
      · obtain ⟨hall, hdwnc⟩ := Bool.and_eq_true_iff.mp hfixed
        rw [if_pos hfixed, if_pos hdwnc, countP_of_fixed hall, length_nil, zero_add, mul_zero,
          add_zero]
        rw [psszCountMembers_of_fixed hall, add_zero] at hmembers
        have hraise : Counts _ _ _ (Laid (.struct definitionWillNotChange size members)) :=
          hmembers.raise fun hlaid => ⟨hlaid.2, hlaid.1 hfixed⟩
        exact ⟨fun hP => hraise.1 ⟨hP.1 hfixed, hP.2⟩, fun hL => ⟨(hraise.2 hL).1, fun heq =>
          ⟨fun _ => ((hraise.2 hL).2 heq).1, ((hraise.2 hL).2 heq).2⟩⟩⟩
      · have hsum := hmembers.add_const (F.offsetBytes * (fieldShape members).countP (· = none) +
          if definitionWillNotChange then 0 else F.headerBytes)
        rw [if_neg hfixed, length_header, fixedHeaderSize, headLen_eq]
        refine ⟨fun hP => ?_, fun hL => ⟨?_, fun heq => ⟨fun h => absurd h hfixed, ?_⟩⟩⟩
        · have := hsum.1 hP.2
          omega
        · have := (hsum.2 hL.2).1
          omega
        · exact (hsum.2 hL.2).2 (by omega)

private theorem counts_members : ∀ (ts : Tys) {vs : List Val}, HasMembers ts vs →
    Counts ((toPsszMembers F ts vs).map (·.bytes.length)).sum
      (headLen 0 (fieldShape ts) + psszCountMembers F ts vs)
      (UnpaddedMembers ts vs) (LaidMembers ts)
  | .nil, [], _ => .exact rfl trivial
  | .cons t ts, v :: vs, h => by
    have hsum := (counts t h.1).add (counts_members ts h.2)
    have hcount : headLen 0 (fieldShape (.cons t ts)) + psszCountMembers F (.cons t ts) (v :: vs) =
        psszCount F t v + (headLen 0 (fieldShape ts) + psszCountMembers F ts vs) := by
      rw [fieldShape, psszCountMembers]
      cases hsize : psszFixedSize t with
      | some n => simp only [headLen, psszCount_of_fixed hsize, Option.isSome_some, if_true]; omega
      | none => simp only [headLen, Option.isSome_none, Bool.false_eq_true, if_false]; omega
    rw [toPsszMembers, map_cons, sum_cons, bytes_part, hcount]
    exact hsum

end

end PsiServe.Pssz
