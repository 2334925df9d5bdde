import PsiServe.Pssz.RoundTrip

/-!
# Extending a struct

A struct that may be extended is written with the length of its fixed region
(`to_pssz.hpp:611–616`), so that a reader with fewer fields skips the others and a reader with more
fields fills them in (`.issues/pssz-format-design.md:46–49,101–106`). The decoder reads this length
and does not use it (`from_pssz.hpp:311–321`). The last field it knows that is not of a fixed size
ends with the container, so it gets the payloads of the fields that were added; and the fixed region
it expects is its own.
-/

namespace PsiServe.Pssz

open Base Ssz
open List hiding tails
open Frac (Val)

/-! ### Default values -/

mutual

/-- A default-constructed value. -/
def defaultOf : Ty → Val
  | .bool => .bool 0
  | .num _ | .uint256 | .bitvector _ | .bitset _ => .num 0
  | .bitlist _ => .bits []
  | .string | .boundedString _ => .string []
  | .vector _ | .boundedList _ _ => .list []
  | .array elem n => .list (replicate n (defaultOf elem))
  | .optional _ => .nullopt
  | .struct _ _ members => .list (defaultsOf members)

def defaultsOf : Tys → List Val
  | .nil => []
  | .cons t ts => defaultOf t :: defaultsOf ts

end

mutual

private theorem has_defaultOf : ∀ t : Ty, Has t (defaultOf t)
  | .bool => (by decide : (0 : UInt8) ≤ 1)
  | .num size | .uint256 | .bitvector n => Nat.pow_pos (by decide : 0 < 256)
  | .bitset n => Nat.two_pow_pos n
  | .bitlist _ => Nat.zero_le _
  | .string => trivial
  | .boundedString _ => Nat.zero_le _
  | .vector _ => nofun
  | .boundedList _ _ => ⟨Nat.zero_le _, nofun⟩
  | .array elem n => by
    refine ⟨length_replicate, fun v hv => ?_⟩
    rw [eq_of_mem_replicate hv]
    exact has_defaultOf elem
  | .optional _ => trivial
  | .struct _ _ members => has_defaultsOf members

private theorem has_defaultsOf : ∀ ts : Tys, HasMembers ts (defaultsOf ts)
  | .nil => trivial
  | .cons t ts => ⟨has_defaultOf t, has_defaultsOf ts⟩

end

/-! ### Fields and more fields -/

variable {F : Format} {us xs : Tys} {vs ys : List Val} {sizeU sizeT : Nat}

private theorem fieldShape_append (us xs : Tys) :
    fieldShape (us.append xs) = fieldShape us ++ fieldShape xs := by
  induction us using Tys.list_induction with
  | nil => rfl
  | cons t ts ih => exact congrArg _ ih

private theorem toPsszMembers_append (h : HasMembers us vs) : toPsszMembers F (us.append xs)
    (vs ++ ys) =
      toPsszMembers F us vs ++ toPsszMembers F xs ys := by
  induction us, vs, h using HasMembers.induction with
  | nil => rfl
  | cons t ts v vs _ _ ih => exact congrArg _ ih

/-- The payloads of fields have the length that is counted. -/
theorem length_tails_members (h : HasMembers xs ys) (hunpadded : UnpaddedMembers xs ys) :
    (tails (toPsszMembers F xs ys)).length = psszCountMembers F xs ys := by
  induction xs, ys, h using HasMembers.induction with
  | nil => rfl
  | cons t ts v vs hv _ ih =>
    rw [toPsszMembers, psszCountMembers]
    cases hsize : psszFixedSize t with
    | some n => rw [part, tails, ih hunpadded.2, Option.isSome_some, if_pos rfl, zero_add]
    | none =>
      rw [part, tails, length_append, ih hunpadded.2, Option.isSome_none,
        if_neg Bool.false_ne_true, (counts t hv).1 hunpadded.1]

/-- An extensible struct is its header and its table. -/
theorem toPssz_extensible (size : Nat) (ts : Tys) (vs : List Val) :
    toPssz F (.struct false size ts) (.list vs) =
      leBytes F.headerBytes (fixedHeaderSize F ts) ++
        table F.offsetBytes (toPsszMembers F ts vs) := by
  rfl

/-- A reader that knows only the first fields finds them, if the last one it knows still ends with
the container or none of them depends on where it ends. -/
theorem reads_fewer (hus : HasMembers us vs)
    (hmax : (toPssz F (.struct false sizeT (us.append xs)) (.list (vs ++ ys))).length ≤ F.maxTotal)
    (hunpadded : UnpaddedMembers us vs) (hreadable : ReadableMembers us vs)
    (hlast : none ∉ fieldShape us ∨ tails (toPsszMembers F xs ys) = []) :
    convertFromPssz F (.struct false sizeU us)
        (toPssz F (.struct false sizeT (us.append xs)) (.list (vs ++ ys))) =
      .ok (.list vs) := by
  have hsmall := hmax.trans_lt F.maxTotal_lt_two_pow
  have hfit := hmax.trans_lt F.maxTotal_lt
  rw [convertFromPssz, check_true _ _ (decide_eq_true hsmall)]
  have hbuffer := Placed.whole hsmall
  generalize hsrc : toPssz F (.struct false sizeT (us.append xs)) (.list (vs ++ ys)) = src at *
  rw [toPssz_extensible, toPsszMembers_append hus] at hsrc
  -- the fields that are known are the first ones of the table
  have htable : Placed src F.headerBytes src.length
      (table F.offsetBytes (toPsszMembers F us vs ++ toPsszMembers F xs ys)) := by
    have h := hbuffer
    nth_rewrite 3 [← hsrc] at h
    have h := h.right
    rwa [length_leBytes, zero_add] at h
  have hshape := shape_members (F := F) hus hunpadded
  have hlen := htable.stop_eq
  rw [← hshape] at hlast
  obtain ⟨offs, hoffs, hranges⟩ := htable.table_left (by omega) hlast
  rw [length_table, map_append, headLen_append, hshape] at hlen
  rw [hshape] at hoffs hranges
  rw [fromPssz_struct (by simp [copied]) (zero_add F.headerBytes).symm
    (by rw [fixedHeaderSize]; omega) le_rfl hsmall hoffs, list_iff]
  exact (readsBack_members us hus hunpadded (hranges.imp fun _ _ hpr => hpr.1)).mpr hreadable

/-- What holds of the fields and of those that are added holds of all. -/
theorem members_append (hus : HasMembers us vs) (xs : Tys) (ys : List Val) :
    (HasMembers xs ys → HasMembers (us.append xs) (vs ++ ys)) ∧
    (UnpaddedMembers us vs → UnpaddedMembers xs ys → UnpaddedMembers (us.append xs) (vs ++ ys)) ∧
    (ReadableMembers us vs → ReadableMembers xs ys →
      ReadableMembers (us.append xs) (vs ++ ys)) := by
  induction us, vs, hus using HasMembers.induction with
  | nil => exact ⟨id, fun _ => id, fun _ => id⟩
  | cons t ts v vs hv _ ih =>
    obtain ⟨hhas, hunpadded, hreadable⟩ := ih
    exact ⟨fun h => ⟨hv, hhas h⟩, fun h h' => ⟨h.1, hunpadded h.2 h'⟩,
      fun h h' => ⟨h.1, hreadable h.2 h'⟩⟩

/-- The fields of an extensible struct survive its extension, if none of those that are added has a
payload or all of those that were there are of a fixed size; and those that are added are
constructed, if they take no room. -/
theorem convertFromPssz_extended (F : Format) (us xs : Tys) (sizeU sizeT : Nat) (vs ys : List Val)
    (hus : HasMembers us vs) (hxs : HasMembers xs ys)
    (hunpadded : UnpaddedMembers us vs) (hreadable : ReadableMembers us vs) :
    ((toPssz F (.struct false sizeT (us.append xs)) (.list (vs ++ ys))).length ≤ F.maxTotal →
      (none ∉ fieldShape us ∨ UnpaddedMembers xs ys ∧ psszCountMembers F xs ys = 0) →
      convertFromPssz F (.struct false sizeU us)
          (toPssz F (.struct false sizeT (us.append xs)) (.list (vs ++ ys))) =
        .ok (.list vs)) ∧
    ((toPssz F (.struct false sizeU us) (.list vs)).length ≤ F.maxTotal →
      UnpaddedMembers xs (defaultsOf xs) → ReadableMembers xs (defaultsOf xs) →
      headLen F.offsetBytes (fieldShape xs) = 0 →
      convertFromPssz F (.struct false sizeT (us.append xs))
          (toPssz F (.struct false sizeU us) (.list vs)) =
        .ok (.list (vs ++ defaultsOf xs))) := by
  constructor
  · intro hmax hlast
    refine reads_fewer hus hmax hunpadded hreadable (hlast.imp_right fun h => ?_)
    apply eq_nil_of_length_eq_zero
    rw [length_tails_members hxs h.1, h.2]
  · intro hmax hunpadded' hreadable' hroom
    obtain ⟨hhas, hpad, hread⟩ := members_append hus xs (defaultsOf xs)
    have hhas : Has (.struct false sizeT (us.append xs)) (.list (vs ++ defaultsOf xs)) :=
      hhas (has_defaultsOf xs)
    -- the values of the added fields would not change the bytes
    have hsame : toPssz F (.struct false sizeU us) (.list vs) =
        toPssz F (.struct false sizeT (us.append xs)) (.list (vs ++ defaultsOf xs)) := by
      have hshape := shape_members (F := F) (has_defaultsOf xs) hunpadded'
      rw [toPssz_extensible, toPssz_extensible, toPsszMembers_append hus,
        table_append_empty F.offsetBytes_pos (by rw [hshape, hroom]), fixedHeaderSize,
        fixedHeaderSize, fieldShape_append, headLen_append, hroom, add_zero]
    rw [hsame] at hmax ⊢
    have hsmall := hmax.trans_lt F.maxTotal_lt_two_pow
    rw [convertFromPssz, check_true _ _ (decide_eq_true hsmall)]
    exact (readsBack _ hhas ⟨fun h => absurd h (by simp), hpad hunpadded hunpadded'⟩ (.whole hsmall)
      (hmax.trans_lt F.maxTotal_lt)).mpr (hread hreadable hreadable')

/-- A number with a string that is added, and with an array that is added and has no elements. -/
theorem convertFromPssz_extended_number :
    convertFromPssz .pssz8 (.struct false 4 (.cons (.num 4) .nil))
        (toPssz .pssz8 (.struct false 40 (.cons (.num 4) (.cons .string .nil)))
          (.list [.num 1, .string [120, 121]])) =
        .ok (.list [.num 1]) ∧
      convertFromPssz .pssz8 (.struct false 8 (.cons (.num 4) (.cons (.array (.num 2) 0) .nil)))
        (toPssz .pssz8 (.struct false 4 (.cons (.num 4) .nil)) (.list [.num 1])) =
        .ok (.list [.num 1, .list []]) :=
  ⟨(convertFromPssz_extended .pssz8 (.cons (.num 4) .nil) (.cons .string .nil) 4 40 [.num 1]
      [.string [120, 121]] ⟨(by decide : 1 < 256 ^ 4), trivial⟩ ⟨trivial, trivial⟩
      ⟨trivial, trivial⟩ ⟨trivial, trivial⟩).1 (by decide) (.inl (by decide)),
    (convertFromPssz_extended .pssz8 (.cons (.num 4) .nil) (.cons (.array (.num 2) 0) .nil) 4 8
      [.num 1] [.list []] ⟨(by decide : 1 < 256 ^ 4), trivial⟩ ⟨⟨rfl, nofun⟩, trivial⟩
      ⟨trivial, trivial⟩ ⟨trivial, trivial⟩).2 (by decide) ⟨nofun, trivial⟩
      ⟨nofun, trivial⟩ rfl⟩

/-- A string gets the payload of the string that was added behind it, and a struct cannot be read
with a string that was added. -/
theorem convertFromPssz_extended_string :
    convertFromPssz .pssz8 (.struct false 32 (.cons .string .nil))
        (toPssz .pssz8 (.struct false 64 (.cons .string (.cons .string .nil)))
          (.list [.string [120], .string [121]])) =
        .ok (.list [.string [120, 121]]) ∧
      convertFromPssz .pssz8 (.struct false 40 (.cons (.num 4) (.cons .string .nil)))
        (toPssz .pssz8 (.struct false 4 (.cons (.num 4) .nil)) (.list [.num 1])) =
        .error (.check "pssz: not enough bytes for fixed region") :=
  ⟨rfl, rfl⟩

end PsiServe.Pssz
