import PsiServe.Base.OrderedCode

/-!
# Types with keys

The types that `to_key` accepts (`to_key.hpp:3–18,122–246`), their values and the order of the
values. A pair, a tuple and a reflected struct are lists of members; integers are those of one,
two, four and eight bytes, as `bswap` has them.
-/

namespace PsiServe.Key

open Base

/-- `sizeof(T)` of an integer. -/
inductive Width where
  | one
  | two
  | four
  | eight
deriving DecidableEq, Repr

def Width.bytes : Width → Nat
  | .one => 1
  | .two => 2
  | .four => 4
  | .eight => 8

def Width.bits (w : Width) : Nat := 8 * w.bytes

/-- `bool`, the integers, and `char`, which is signed on some platforms. -/
inductive Scalar where
  | bool
  | int (width : Width) (signed : Bool)
  | char (signed : Bool)
deriving DecidableEq, Repr

/-- `float` and `double` -/
inductive Float where
  | float
  | double
deriving DecidableEq, Repr

namespace Float

def bytes : Float → Nat
  | .float => 4
  | .double => 8

/-- The bit of the sign. -/
def signBit (f : Float) : Nat := 2 ^ (8 * f.bytes - 1)

/-- The bits of positive infinity; larger magnitudes are not numbers. -/
def infinity : Float → Nat
  | .float => 0x7f800000
  | .double => 0x7ff0000000000000

/-- Where a number stands in the order, by its sign and magnitude. -/
def rank (f : Float) (bits : Nat) : Int :=
  if bits < f.signBit then bits else f.signBit - bits

end Float

mutual

/-- The types that `to_key` accepts. -/
inductive Ty where
  | scalar (s : Scalar)
  | enum (underlying : Scalar)
  | float (f : Float)
  | string
  | vector (elem : Ty)
  | optional (elem : Ty)
  | variant (alternatives : Tys)
  | members (fields : Tys)

inductive Tys where
  | nil
  | cons (head : Ty) (tail : Tys)

end

/-- Values of all types. The members of a struct are a list, as the elements of a vector are. -/
inductive Val where
  | bool (b : Bool)
  | int (i : Int)
  | float (bits : Nat)
  | string (bytes : Bytes)
  | list (vs : List Val)
  | nullopt
  | some (v : Val)
  | alt (index : Nat) (v : Val)

/-- `key_detail::is_octet_v<T>` -/
def Scalar.isOctet : Scalar → Bool
  | .int .one _ | .char _ => true
  | _ => false

def Ty.isOctet : Ty → Bool
  | .scalar s => s.isOctet
  | _ => false

def Tys.length : Tys → Nat
  | .nil => 0
  | .cons _ ts => ts.length + 1

def Tys.ofList : List Ty → Tys
  | [] => .nil
  | t :: ts => .cons t (.ofList ts)

/-- The integers of a width. -/
def InRange (w : Width) (signed : Bool) (i : Int) : Prop :=
  if signed then -2 ^ (w.bits - 1) ≤ i ∧ i < 2 ^ (w.bits - 1) else 0 ≤ i ∧ i < 2 ^ w.bits

instance (w : Width) (signed : Bool) (i : Int) : Decidable (InRange w signed i) :=
  inferInstanceAs (Decidable (if signed then _ else _))

/-- The values of a scalar type. -/
def Scalar.Has : Scalar → Val → Prop
  | .bool, .bool _ => True
  | .int w signed, .int i => InRange w signed i
  | .char signed, .int i => InRange .one signed i
  | _, _ => False

mutual

/-- The values of a type. The order of floating-point numbers is not defined on all bits. -/
def Ty.Has : Ty → Val → Prop
  | .scalar s, v => s.Has v
  | .enum s, v => s.Has v
  | .float f, .float bits => bits < 2 * f.signBit ∧ bits % f.signBit ≤ f.infinity
  | .string, .string _ => True
  | .vector t, .list vs => ∀ v ∈ vs, t.Has v
  | .optional _, .nullopt => True
  | .optional t, .some v => t.Has v
  | .variant ts, .alt i v => ts.HasAt i v
  | .members ts, .list vs => ts.HasAll vs
  | _, _ => False

def Tys.HasAll : Tys → List Val → Prop
  | .nil, [] => True
  | .cons t ts, v :: vs => t.Has v ∧ ts.HasAll vs
  | _, _ => False

def Tys.HasAt : Tys → Nat → Val → Prop
  | .nil, _, _ => False
  | .cons t _, 0, v => t.Has v
  | .cons _ ts, i + 1, v => ts.HasAt i v

end

mutual

/-- The order of the values of a type: that of the numbers, and by the first difference else. -/
def Ty.cmp : Ty → Val → Val → Ordering
  | .scalar _, .bool a, .bool b | .enum _, .bool a, .bool b => compare a b
  | .scalar _, .int i, .int j | .enum _, .int i, .int j => compare i j
  | .float f, .float a, .float b => compare (f.rank a) (f.rank b)
  | .string, .string a, .string b => compare a b
  | .vector t, .list as, .list bs => List.compareLex t.cmp as bs
  | .optional _, .nullopt, .nullopt => .eq
  | .optional _, .nullopt, .some _ => .lt
  | .optional _, .some _, .nullopt => .gt
  | .optional t, .some a, .some b => t.cmp a b
  | .variant ts, .alt i a, .alt j b => (compare i j).then (ts.cmpAt i a b)
  | .members ts, .list as, .list bs => ts.cmpAll as bs
  | _, _, _ => .eq

def Tys.cmpAll : Tys → List Val → List Val → Ordering
  | .cons t ts, a :: as, b :: bs => (t.cmp a b).then (ts.cmpAll as bs)
  | _, _, _ => .eq

def Tys.cmpAt : Tys → Nat → Val → Val → Ordering
  | .nil, _, _, _ => .eq
  | .cons t _, 0, a, b => t.cmp a b
  | .cons _ ts, i + 1, a, b => ts.cmpAt i a b

end

mutual

/-- Types of the language: a `std::variant` has an alternative. -/
def Ty.WellFormed : Ty → Prop
  | .vector t | .optional t => t.WellFormed
  | .variant ts => ts.WellFormed ∧ 0 < ts.length
  | .members ts => ts.WellFormed
  | _ => True

def Tys.WellFormed : Tys → Prop
  | .nil => True
  | .cons t ts => t.WellFormed ∧ ts.WellFormed

end

mutual

/-- No part of the type is a floating-point number. -/
def Ty.FloatFree : Ty → Prop
  | .float _ => False
  | .vector t | .optional t => t.FloatFree
  | .variant ts | .members ts => ts.FloatFree
  | _ => True

def Tys.FloatFree : Tys → Prop
  | .nil => True
  | .cons t ts => t.FloatFree ∧ ts.FloatFree

end

mutual

/-- The index of every alternative fits the byte that is written for it. -/
def Ty.AltsFit : Ty → Prop
  | .vector t | .optional t => t.AltsFit
  | .variant ts => ts.AltsFit ∧ ts.length ≤ 256
  | .members ts => ts.AltsFit
  | _ => True

def Tys.AltsFit : Tys → Prop
  | .nil => True
  | .cons t ts => t.AltsFit ∧ ts.AltsFit

end

/-- The index of an alternative is one of the list. -/
theorem Tys.lt_of_hasAt : {ts : Tys} → {i : Nat} → {v : Val} → ts.HasAt i v → i < ts.length
  | .cons _ _, 0, _, _ => Nat.succ_pos _
  | .cons _ _, _ + 1, _, h => Nat.succ_lt_succ (Tys.lt_of_hasAt h)

end PsiServe.Key
