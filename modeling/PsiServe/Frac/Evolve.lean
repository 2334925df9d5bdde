import PsiServe.Frac.Accept

/-!
# A writer's type and a reader's type

`fracpack-spec.md` (Serialization Compatibility) lets a type grow by optional fields at its end:
old readers skip the fields they do not know, new readers find them missing. Here a writer's
type is related to a reader's, a value is converted from one to the other, and the sight is
computed that the reader has of the writer's data. A type is its own reader.
-/

namespace PsiServe.Frac

open Base Ty

/-- Whether all types are optionals. -/
def Tys.AllOptional : Tys → Prop
  | .nil => True
  | .cons t ts => t.traits.isOptional = true ∧ ts.AllOptional

mutual

/-- A reader's type differs from a writer's by optional fields at the end of extensible structs
and tuples: fields the reader drops, and fields the reader fills with nothing. -/
def Ty.Evolves (drop fill : Bool) : Ty → Ty → Prop
  | .num n, .num n' => n = n'
  | .bool, .bool => True
  | .bitset n, .bitset n' => n = n'
  | .string, .string => True
  | .vector s, .vector r => s.Evolves drop fill r
  | .assoc s, .assoc r => s.Evolves drop fill r
  | .boundedString n, .boundedString n' => n = n'
  | .boundedList s n, .boundedList r n' => s.Evolves drop fill r ∧ n = n'
  | .bitlist n, .bitlist n' => n = n'
  | .array s n, .array r n' => s.Evolves drop fill r ∧ n = n'
  | .optional s, .optional r => s.Evolves drop fill r
  | .tuple ss, .tuple rs => ss.Evolves drop fill rs
  | .variant ss, .variant rs => ss.Each drop fill rs
  | .struct true unpadded n ss, .struct true unpadded' n' rs =>
    unpadded = unpadded' ∧ n = n' ∧ ss.Each drop fill rs
  | .struct false _ n ss, .struct false _ n' rs =>
    headerLength n = headerLength n' ∧ ss.Evolves drop fill rs
  | _, _ => False

/-- Types that evolve one by one. -/
def Tys.Each (drop fill : Bool) : Tys → Tys → Prop
  | .nil, .nil => True
  | .cons s ss, .cons r rs => s.Evolves drop fill r ∧ ss.Each drop fill rs
  | _, _ => False

/-- Types that evolve one by one, up to optionals at the end. -/
def Tys.Evolves (drop fill : Bool) : Tys → Tys → Prop
  | .nil, .nil => True
  | .nil, .cons r rs => fill = true ∧ (Tys.cons r rs).AllOptional
  | .cons s ss, .nil => drop = true ∧ (Tys.cons s ss).AllOptional
  | .cons s ss, .cons r rs => s.Evolves drop fill r ∧ ss.Evolves drop fill rs

end

/-- `t` extends `u` by optional fields at the end, at the top level or anywhere inside. -/
def Ty.Extends (t u : Ty) : Prop := t.Evolves true false u

/-! ### Values -/

/-- As many empty optionals as there are types. -/
def Tys.nothings : Tys → List Val
  | .nil => []
  | .cons _ ts => .nullopt :: ts.nothings

mutual

/-- The writer's value as the reader's type can hold it. -/
def Ty.convert : Ty → Ty → Val → Val
  | .vector s, .vector r, .list vs => .list (vs.map (s.convert r))
  | .assoc s, .assoc r, .list vs => .list (vs.map (s.convert r))
  | .boundedList s _, .boundedList r _, .list vs => .list (vs.map (s.convert r))
  | .array s _, .array r _, .list vs => .list (vs.map (s.convert r))
  | .optional s, .optional r, .some v => .some (s.convert r v)
  | .tuple ss, .tuple rs, .list vs => .list (ss.convert rs vs)
  | .variant ss, .variant rs, .alt i v => .alt i (ss.convertAt rs i v)
  | .struct _ _ _ ss, .struct _ _ _ rs, .list vs => .list (ss.convert rs vs)
  | _, _, v => v

/-- Extra fields are dropped, missing ones are empty. -/
def Tys.convert : Tys → Tys → List Val → List Val
  | .cons s ss, .cons r rs, v :: vs => s.convert r v :: ss.convert rs vs
  | .nil, rs, _ => rs.nothings
  | _, _, _ => []

def Tys.convertAt : Tys → Tys → Nat → Val → Val
  | .cons s _, .cons r _, 0, v => s.convert r v
  | .cons _ ss, .cons _ rs, i + 1, v => ss.convertAt rs i v
  | _, _, _, v => v

end

mutual

/-- Every length in the encoding of an object fits the bytes it is written in and the 32 bits
it is computed in, and no elements without a size are counted by their bytes. -/
def Ty.Lossless : Ty → Val → Prop
  | .string, .string bs => bs.length < 256 ^ 4
  | .boundedString n, .string bs => bs.length < 256 ^ boundedLength n
  | .vector _, .bits bs | .bitlist _, .bits bs => bs.length + 7 < 2 ^ 32
  | .vector t, .list vs | .assoc t, .list vs =>
    t.traits.fixedSize ≠ 0 ∧ vs.length * t.traits.fixedSize < 256 ^ 4 ∧
      ∀ v ∈ vs, t.traits.isEmptyContainer v = true ∨ t.Lossless v
  | .boundedList t n, .list vs =>
    t.traits.fixedSize ≠ 0 ∧ vs.length * t.traits.fixedSize < 256 ^ t.listLength n ∧
      ∀ v ∈ vs, t.traits.isEmptyContainer v = true ∨ t.Lossless v
  | .array t _, .list vs => ∀ v ∈ vs, t.traits.isEmptyContainer v = true ∨ t.Lossless v
  | .optional t, .some v => t.traits.isEmptyContainer v = true ∨ t.Lossless v
  | .tuple ts, .list vs | .struct _ _ _ ts, .list vs => ts.Lossless vs
  | .variant ts, .alt i v => ts.LosslessAt i v
  | _, _ => True

def Tys.Lossless : Tys → List Val → Prop
  | .cons t ts, v :: vs => (t.traits.isEmptyContainer v = true ∨ t.Lossless v) ∧ ts.Lossless vs
  | _, _ => True

def Tys.LosslessAt : Tys → Nat → Val → Prop
  | .cons t _, 0, v => t.Lossless v
  | .cons _ ts, i + 1, v => ts.LosslessAt i v
  | .nil, _, _ => True

end

/-! ### What the reader sees -/

/-- How a reader meets the objects and slots of a writer: the sights it gets, and the value it
reads. -/
structure Meeting where
  object : Val → Bool → Option Sight
  slot : Val → Sight → Option Sight
  read : Val → Val

/-- The bytes of the length of a container. -/
def Ty.lengthWidth : Ty → Nat
  | .string | .vector _ | .assoc _ => 4
  | .boundedString n | .bitlist n => boundedLength n
  | .boundedList t n => t.listLength n
  | _ => 0

/-- The effect of the slot of a type behind an offset. -/
def Ty.indirect (t : Ty) (object : Val → Bool → Option Sight) (v : Val) (a : Sight) :
    Option Sight :=
  if t.traits.isEmptyContainer v then some a.reset
  else if looksEmpty t.traits t.lengthWidth (t.coding.body v) then none
  else a.follow (object v)

namespace Meeting

/-- A type that is not an optional. -/
def of (t : Ty) (read : Val → Val) (object : Val → Bool → Option Sight) : Meeting where
  object := object
  slot v a := if t.traits.isVariableSize then t.indirect object v a else some a.reset
  read := read

/-- A type of a fixed size is read as it is. -/
def fixed (t : Ty) : Meeting := .of t id fun _ u => some (.exact u)

/-- An optional over a type. -/
def optional (t : Ty) (g : Meeting) : Meeting where
  object
    | .some v, u => t.indirect g.object v (.exact u)
    | _, u => some (.exact u)
  slot
    | .some v, a => t.indirect g.object v a
    | _, a => some a
  read
    | .some v => .some (g.read v)
    | v => v

end Meeting

/-- A string: a length that does not fit is not met in a buffer. -/
def charsSight (width : Nat) (bs : Bytes) (u : Bool) : Option Sight :=
  if bs.length < 256 ^ width then some (.exact u) else none

section

variable (width : Nat) (t : Ty)

/-- The elements of a container with a length of `width` bytes. -/
def elementsSight (effect : Val → Sight → Option Sight) (vs : List Val) (u : Bool) : Option Sight :=
  if t.traits.fixedSize = 0 then none
  else if vs.length * t.traits.fixedSize < 256 ^ width then runEffects (vs.map effect) (.exact u)
  else if vs.length * t.traits.fixedSize % 256 ^ width % t.traits.fixedSize = 0 then
    some ⟨true, true, u⟩
  else none

/-- The elements that are announced are read. -/
def elementsRead (read : Val → Val) (vs : List Val) : List Val :=
  if vs.length * t.traits.fixedSize < 256 ^ width then vs.map read
  else (vs.take (vs.length * t.traits.fixedSize % 256 ^ width / t.traits.fixedSize)).map read

/-- A container with a length of `width` bytes. -/
def Meeting.container (self : Ty) (g : Meeting) : Meeting :=
  .of self (fun v => .list (elementsRead width t g.read v.elems))
    (fun v => elementsSight width t g.slot v.elems)

end

/-- The content of a variant has to be met to its end. -/
def sealed (a : Sight) : Option Sight := if a.lost then none else some (.exact a.unknown)

mutual

/-- How the reader of one type meets the data of another. -/
def Ty.meeting : Ty → Ty → Meeting
  | .num n, _ => .fixed (.num n)
  | .bool, _ => .fixed .bool
  | .bitset n, _ => .fixed (.bitset n)
  | .string, _ => .of .string id fun v => charsSight 4 v.chars
  | .boundedString n, _ => .of (.boundedString n) id fun v => charsSight (boundedLength n) v.chars
  | .bitlist n, _ => .of (.bitlist n) (fun v => .bits (bitsRead v.bitList))
      fun v => bitsSight v.bitList
  | .vector s, .vector r =>
    if s.isBool then .of (.vector s) (fun v => .bits (bitsRead v.bitList))
      fun v => bitsSight v.bitList
    else .container 4 s (.vector s) (s.meeting r)
  | .assoc s, .assoc r => .container 4 s (.assoc s) (s.meeting r)
  | .boundedList s n, .boundedList r _ =>
    .container (s.listLength n) s (.boundedList s n) (s.meeting r)
  | .array s n, .array r _ =>
    if s.traits.isVariableSize then
      .of (.array s n) (fun v => .list (v.elems.map (s.meeting r).read))
        fun v u => runEffects (v.elems.map (s.meeting r).slot) (.exact u)
    else .fixed (.array s n)
  | .optional s, .optional r => .optional s (s.meeting r)
  | .tuple ss, .tuple rs => .of (.tuple ss) (fun v => .list (ss.read rs v.elems)) fun v u =>
    (runEffects (ss.effects false rs v.elems) (.exact u)).bind
      (finish ((trim (ss.slots v.elems)).drop rs.length))
  | .variant ss, .variant rs => .of (.variant ss)
    (fun | .alt i v => .alt i (ss.readAt rs i v) | v => v)
    (fun | .alt i v => fun u => (ss.objectAt rs i v u).bind sealed | _ => fun _ => none)
  | .struct dwnc unpadded n ss, .struct _ _ _ rs =>
    if (struct dwnc unpadded n ss).traits.isVariableSize then
      .of (.struct dwnc unpadded n ss) (fun v => .list (ss.read rs v.elems)) fun v u =>
        if dwnc then runEffects (ss.effects true rs v.elems) (.exact u)
        else (runEffects (ss.effects (!rs.hasTrailingOptionals) rs v.elems) (.exact u)).bind
          (finish ((trim (ss.slots v.elems)).drop rs.length))
    else .fixed (.struct dwnc unpadded n ss)
  | s, _ => .fixed s
termination_by structural s => s

/-- The effects of the slots that the reader knows. A copied member leaves the flag alone in a
region that was checked as a whole. -/
def Tys.effects (checked : Bool) : Tys → Tys → List Val → List (Sight → Option Sight)
  | .cons s ss, .cons r rs, v :: vs =>
    (if checked && s.traits.isMemcpy then some else (s.meeting r).slot v) ::
      ss.effects checked rs vs
  | _, _, _ => []
termination_by structural ss => ss

def Tys.read : Tys → Tys → List Val → List Val
  | .cons s ss, .cons r rs, v :: vs => (s.meeting r).read v :: ss.read rs vs
  | .nil, rs, _ => rs.nothings
  | _, _, _ => []
termination_by structural ss => ss

def Tys.readAt : Tys → Tys → Nat → Val → Val
  | .cons s _, .cons r _, 0, v => (s.meeting r).read v
  | .cons _ ss, .cons _ rs, i + 1, v => ss.readAt rs i v
  | _, _, _, v => v
termination_by structural ss => ss

def Tys.objectAt : Tys → Tys → Nat → Val → Bool → Option Sight
  | .cons s _, .cons r _, 0, v => (s.meeting r).object v
  | .cons _ ss, .cons _ rs, i + 1, v => ss.objectAt rs i v
  | _, _, _, _ => fun _ => none
termination_by structural ss => ss

end

/-! ### Types that evolve -/

mutual

/-- The constants of a type do not change as it evolves. -/
theorem Ty.Evolves.same {d f : Bool} : {s r : Ty} → s.Evolves d f r →
    s.traits = r.traits ∧ s.isBitwise = r.isBitwise ∧ s.isBool = r.isBool
  | .num _, .num _, h => by cases h; exact ⟨rfl, rfl, rfl⟩
  | .bool, .bool, _ => ⟨rfl, rfl, rfl⟩
  | .bitset _, .bitset _, h => by cases h; exact ⟨rfl, rfl, rfl⟩
  | .string, .string, _ | .vector _, .vector _, _ | .assoc _, .assoc _, _ => ⟨rfl, rfl, rfl⟩
  | .boundedString _, .boundedString _, h => by cases h; exact ⟨rfl, rfl, rfl⟩
  | .boundedList _ _, .boundedList _ _, _ | .bitlist _, .bitlist _, _ => ⟨rfl, rfl, rfl⟩
  | .array s n, .array r n', h => by
    obtain ⟨h, rfl⟩ := h
    obtain ⟨ht, hb, -⟩ := h.same
    exact ⟨by rw [traits, traits, ht], hb, rfl⟩
  | .optional _, .optional _, _ | .tuple _, .tuple _, _ | .variant _, .variant _, _ =>
    ⟨rfl, rfl, rfl⟩
  | .struct true _ _ ss, .struct true _ _ rs, h => by
    obtain ⟨rfl, rfl, h⟩ := h
    obtain ⟨h₁, h₂, h₃⟩ := h.same
    exact ⟨by rw [traits, traits, h₁, h₂, h₃], rfl, rfl⟩
  | .struct false _ _ _, .struct false _ _ _, _ => ⟨rfl, rfl, rfl⟩

private theorem Tys.Each.same {d f : Bool} : {ss rs : Tys} → ss.Each d f rs →
    ss.anyVariableSize = rs.anyVariableSize ∧ ss.fixedSize = rs.fixedSize ∧
      ss.allBitwise = rs.allBitwise
  | .nil, .nil, _ => ⟨rfl, rfl, rfl⟩
  | .cons s ss, .cons r rs, h => by
    obtain ⟨ht, hb, -⟩ := h.1.same
    obtain ⟨h₁, h₂, h₃⟩ := h.2.same
    rw [Tys.anyVariableSize, Tys.anyVariableSize, Tys.fixedSize, Tys.fixedSize, Tys.allBitwise,
      Tys.allBitwise, ht, hb, h₁, h₂, h₃]
    exact ⟨rfl, rfl, rfl⟩

end

mutual

/-- A type of a fixed size does not evolve. -/
theorem Ty.Evolves.eq_of_fixed {d f : Bool} : {s r : Ty} → s.Evolves d f r →
    s.traits.isVariableSize = false → s = r
  | .num _, .num _, h, _ => congrArg num h
  | .bool, .bool, _, _ => rfl
  | .bitset _, .bitset _, h, _ => congrArg bitset h
  | .array s n, .array r n', h, hv => by
    obtain ⟨h, rfl⟩ := h
    rw [h.eq_of_fixed (fixed_of_array hv)]
  | .struct true _ _ ss, .struct true _ _ rs, h, hv => by
    obtain ⟨rfl, rfl, h⟩ := h
    rw [h.eq_of_fixed (fixed_of_struct hv).2]

/-- Members of a fixed size do not evolve. -/
theorem Tys.Each.eq_of_fixed {d f : Bool} : {ss rs : Tys} → ss.Each d f rs →
    ss.anyVariableSize = false → ss = rs
  | .nil, .nil, _, _ => rfl
  | .cons s ss, .cons r rs, h, hv => by
    rw [Tys.anyVariableSize, Bool.or_eq_false_iff] at hv
    rw [h.1.eq_of_fixed hv.1, h.2.eq_of_fixed hv.2]

end

/-- Members that evolve one by one evolve together. -/
theorem Tys.Each.evolves {d f : Bool} : {ss rs : Tys} → ss.Each d f rs → ss.Evolves d f rs
  | .nil, .nil, _ => trivial
  | .cons _ _, .cons _ _, h => ⟨h.1, h.2.evolves⟩

/-! ### Readers -/

/-- What an empty container is cleared to. -/
def Ty.cleared : Ty → Val
  | .string | .boundedString _ => .string []
  | .bitlist _ => .bits []
  | .vector t => if t.isBool then .bits [] else .list []
  | _ => .list []

/-- The unpacking half of a struct of a variable size. -/
theorem Ty.struct_unpacker {dwnc unpadded : Bool} {n : Nat} {ts : Tys}
    (h : (struct dwnc unpadded n ts).traits.isVariableSize = true) :
    (struct dwnc unpadded n ts).unpacker =
      if dwnc then .untrimmed none ts.fixedSize ts.unpackers
      else if ts.hasTrailingOptionals then
        .trimmed (headerLength n) (fun _ => false) ts.unpackers
      else .untrimmed (some (headerLength n)) ts.fixedSize ts.unpackers := by
  rw [unpacker, struct_traits h]
  rfl

/-- A type that is not an optional has the default implementation. -/
theorem Ty.unpacker_eq_base {t : Ty} (h : t.traits.isOptional = false) :
    t.unpacker = .base t.traits t.lengthWidth t.cleared t.unpacker.unpack := by
  cases t with
  | num | bool | bitset | string | assoc | boundedString | bitlist | tuple | variant => rfl
  | vector t =>
    rw [unpacker, cleared]
    split
    · rfl
    · split <;> rfl
  | boundedList t n | array t n =>
    rw [unpacker]
    split <;> rfl
  | optional => cases h
  | struct dwnc unpadded n ts =>
    cases hvar : (struct dwnc unpadded n ts).traits.isVariableSize with
    | true =>
      rw [struct_unpacker hvar, struct_traits hvar]
      split
      · rfl
      · split <;> rfl
    | false =>
      rw [unpacker, hvar]
      split <;> rfl

/-- Only an optional counts as one. -/
theorem Ty.eq_optional {t : Ty} (h : t.traits.isOptional = true) : ∃ u, t = .optional u := by
  cases t with
  | optional u => exact ⟨u, rfl⟩
  | array _ _ | struct _ _ _ _ =>
    rw [traits] at h
    split at h <;> cases h
  | _ => cases h

/-- A reader has the traits of its type. -/
theorem Ty.unpacker_traits (t : Ty) : t.unpacker.traits = t.traits := by
  cases hopt : t.traits.isOptional with
  | false => rw [unpacker_eq_base hopt, Unpacker.base]
  | true =>
    obtain ⟨u, rfl⟩ := eq_optional hopt
    rfl

/-- How a type is read behind an offset. -/
theorem Ty.embeddedVariable_eq (t : Ty) : t.unpacker.embeddedVariableUnpack =
    embeddedVariable t.traits t.lengthWidth t.cleared t.unpacker.unpack := by
  cases hopt : t.traits.isOptional with
  | false => rw [unpacker_eq_base hopt, Unpacker.base]
  | true =>
    obtain ⟨u, rfl⟩ := eq_optional hopt
    rfl

/-- Types that are copied as they are. -/
theorem Ty.unpacker_of_memcpy {t : Ty} (h : t.traits.isMemcpy = true) :
    t.unpacker = .memcpy t.traits t.ofRaw := by
  cases t with
  | num => rfl
  | array t n =>
    rw [traits] at h
    split at h
    · cases h
    · have hmem : t.traits.isMemcpy = true := h
      rw [unpacker, if_pos hmem]
  | struct dwnc unpadded n ts => rw [unpacker, if_pos h]
  | _ => cases h

end PsiServe.Frac
