import PsiServe.Key.Encode

/-!
# Keys compare as values do

`memcmp(to_key(a), to_key(b)) == compare(a, b)` for all supported types is the contract of
`to_key.hpp:3–18`. The members of a struct are written one after another, so the keys have to keep
the order with anything behind them; the notion is `Sorts`.
-/

namespace PsiServe.Key

open Base List Ty Ordering

/-! ### Scalars and strings -/

private theorem sorts_bool (x y : Bytes) (a b : Bool) :
    compare ([if a then 1 else 0] ++ x) ([if b then 1 else 0] ++ y) =
      (compare a b).then (compare x y) := by
  cases a <;> cases b <;> rfl

private theorem toNat_pos {b : UInt8} (h : b ≠ 0) : 0 < b.toNat :=
  Nat.pos_of_ne_zero fun h0 => h (UInt8.toNat_inj.mp h0)

private theorem zero_lt_byte (b : UInt8) (h : b ≠ 0) : compare 0 b = .lt := by
  rw [compare_toNat]
  exact Nat.compare_eq_lt.mpr (toNat_pos h)

private theorem byte_gt_zero (b : UInt8) (h : b ≠ 0) : compare b 0 = .gt := by
  rw [compare_toNat]
  exact Nat.compare_eq_gt.mpr (toNat_pos h)

private theorem sorts_escaped : Sorts (fun _ => True) compare (escape (0 : UInt8) 1) :=
  sorts_escape zero_lt_byte byte_gt_zero (by decide)

variable {t : Ty} {a b : Val} {f : Float}

/-- Octets compare as their bytes do. -/
theorem Ty.compare_octetByte (hoctet : t.isOctet = true) (ha : t.Has a) (hb : t.Has b) :
    compare (t.octetByte a) (t.octetByte b) = t.cmp a b := by
  obtain ⟨i, rfl, hi, hkey⟩ := toKey_octet hoctet ha
  obtain ⟨j, rfl, hj, hkey'⟩ := toKey_octet hoctet hb
  have hone : ∀ k, ∃ byte, intToKey .one t.isSigned k = [byte] := fun k =>
    length_eq_one_iff.mp (length_intToKey .one t.isSigned k)
  obtain ⟨x, hx⟩ := hone i
  obtain ⟨y, hy⟩ := hone j
  have hcmp := (sorts_intToKey .one t.isSigned).compare_eq hi hj
  rw [hx, hy, List.compare_cons_cons, List.compare_nil_nil, then_eq] at hcmp
  have hint : t.cmp (.int i) (.int j) = compare i j := by
    cases t with
    | scalar s => rfl
    | _ => cases hoctet
  rw [octetByte, octetByte, hkey, hkey', hx, hy, hint]
  exact hcmp

private theorem sorts_octets (hoctet : t.isOctet = true) :
    Sorts (fun vs : List Val => ∀ v ∈ vs, t.Has v) (List.compareLex t.cmp)
      (fun vs => escape 0 1 (vs.map t.octetByte)) := by
  intro as bs ha hb x y
  rw [sorts_escaped trivial trivial]
  congr 1
  induction as generalizing bs with
  | nil => cases bs <;> rfl
  | cons a as ih =>
    cases bs with
    | nil => rfl
    | cons b bs =>
      rw [List.map_cons, List.map_cons, List.compare_cons_cons, List.compareLex_cons_cons,
        compare_octetByte hoctet (ha a mem_cons_self) (hb b mem_cons_self),
        ih (forall_mem_cons.mp ha).2
          (forall_mem_cons.mp hb).2]

/-! ### Floating-point numbers -/

/-- The number that is written for a floating-point number. -/
def Float.keyed (f : Float) (bits : Nat) : Nat :=
  if bits < f.signBit then bits + f.signBit
  else if bits = f.signBit then f.signBit else 2 * f.signBit - 1 - bits

private theorem Float.toKey_eq (f : Float) (bits : Nat) :
    f.toKey bits = beBytes f.bytes (f.keyed bits) := by
  have hpos : 0 < f.signBit := Nat.two_pow_pos _
  have hxor : ∀ {v}, v < f.signBit → v ^^^ f.signBit = v + f.signBit := fun {v} hv => by
    rw [Float.signBit] at hv ⊢
    rw [xor_two_pow (by rw [pow_succ]; omega), if_pos hv]
  rw [Float.toKey, Float.keyed]
  congr 1
  by_cases hzero : bits = f.signBit
  · rw [hzero, if_pos rfl, if_neg (by omega), hxor hpos, if_neg (lt_irrefl _), if_pos rfl,
      zero_add]
  · rw [if_neg hzero]
    by_cases hneg : f.signBit ≤ bits
    · rw [if_pos hneg, if_neg (by omega), if_neg hzero]
    · rw [if_neg hneg, hxor (by omega), if_pos (by omega)]

private theorem Float.keyed_lt {bits : Nat} (h : bits < 2 * f.signBit) :
    f.keyed bits < 256 ^ f.bytes := by
  have hpow : 256 ^ f.bytes = 2 * f.signBit := by cases f <;> rfl
  rw [hpow, Float.keyed]
  split
  · omega
  · split <;> omega

private theorem Float.compare_keyed {a b : Nat} (ha : a < 2 * f.signBit) (hb : b < 2 * f.signBit) :
    compare (f.keyed a) (f.keyed b) = compare (f.rank a) (f.rank b) := by
  have hkeyed : ∀ {c}, c < 2 * f.signBit → (f.keyed c : Int) =
      f.rank c + f.signBit - if f.rank c < 0 then 1 else 0 := by
    intro c hc
    rw [Float.keyed, Float.rank]
    split
    · omega
    · split
      · omega
      · omega
  have ha := hkeyed ha
  have hb := hkeyed hb
  have hlt : f.keyed a < f.keyed b ↔ f.rank a < f.rank b := by
    split at ha <;> split at hb <;> omega
  have heq : f.keyed a = f.keyed b ↔ f.rank a = f.rank b := by
    split at ha <;> split at hb <;> omega
  simp only [compare, compareOfLessAndEq, hlt, heq]

/-! ### All types -/

private theorem compare_index {i j : Nat} (hi : i < 256) (hj : j < 256) :
    compare (UInt8.ofNat i) (UInt8.ofNat j) = compare i j := by
  rw [compare_toNat, UInt8.toNat_ofNat', UInt8.toNat_ofNat', Nat.mod_eq_of_lt hi,
    Nat.mod_eq_of_lt hj]

private theorem Scalar.sorts : {s : Scalar} → {a b : Val} → s.Has a → s.Has b → (x y : Bytes) →
    compare (s.toKey a ++ x) (s.toKey b ++ y) = ((scalar s).cmp a b).then (compare x y)
  | .bool, .bool a, .bool b, _, _, x, y => sorts_bool x y a b
  | .int w signed, .int _, .int _, ha, hb, x, y => sorts_intToKey w signed ha hb x y
  | .char signed, .int _, .int _, ha, hb, x, y => sorts_intToKey .one signed ha hb x y

mutual

/-- The keys of a type sort as its values do. -/
theorem Ty.sorts : (t : Ty) → t.AltsFit → Sorts t.Has t.cmp t.toKey
  | .scalar s, _ => fun _ _ ha hb x y => Scalar.sorts ha hb x y
  | .enum s, _ => fun a b ha hb x y => by
    have hcmp : (Ty.enum s).cmp a b = (Ty.scalar s).cmp a b := by
      cases a <;> cases b <;> rfl
    rw [hcmp]
    exact Scalar.sorts ha hb x y
  | .float f, _ => fun
    | .float a, .float b, ha, hb, x, y => by
      rw [Ty.toKey, Ty.toKey, Float.toKey_eq, Float.toKey_eq,
        sorts_beBytes _ (Float.keyed_lt ha.1) (Float.keyed_lt hb.1),
        Float.compare_keyed ha.1 hb.1, Ty.cmp]
  | .string, _ => fun
    | .string a, .string b, _, _, x, y => by
      rw [Ty.toKey, Ty.toKey, writeEscaped_eq, writeEscaped_eq]
      exact sorts_escaped trivial trivial x y
  | .vector t, h => fun
    | .list as, .list bs, ha, hb, x, y => by
      rw [Ty.toKey, Ty.toKey, Ty.cmp]
      split
      next hoctet =>
        rw [flatMap_writeOctet, flatMap_writeOctet]
        exact sorts_octets hoctet ha hb x y
      · exact (Ty.sorts t h).list rfl rfl rfl rfl ha hb x y
  | .optional t, h => fun
    | .nullopt, .nullopt, _, _, x, y | .nullopt, .some _, _, _, x, y
    | .some _, .nullopt, _, _, x, y =>
      List.compare_cons_cons
    | .some a, .some b, ha, hb, x, y => by
      exact Ty.sorts t h ha hb x y
  | .variant ts, h => fun
    | .alt i a, .alt j b, ha, hb, x, y => by
      have hi := (Tys.lt_of_hasAt ha).trans_le h.2
      have hj := (Tys.lt_of_hasAt hb).trans_le h.2
      rw [Ty.toKey, Ty.toKey, List.cons_append, List.cons_append, List.compare_cons_cons,
        compare_index hi hj, Ty.cmp, then_assoc]
      by_cases hij : i = j
      · subst hij
        rw [Tys.sortsAt ts h.1 i ha hb x y]
      · cases hcmp : compare i j with
        | eq => exact absurd (Nat.compare_eq_eq.mp hcmp) hij
        | lt | gt => rfl
  | .members ts, h => fun
    | .list as, .list bs, ha, hb, x, y => Tys.sortsAll ts h ha hb x y

private theorem Tys.sortsAll : (ts : Tys) → ts.AltsFit → Sorts ts.HasAll ts.cmpAll ts.toKeyAll
  | .nil, _ => fun
    | [], [], _, _, x, y => rfl
  | .cons t ts, h => fun
    | a :: as, b :: bs, ha, hb, x, y => by
      rw [Tys.toKeyAll, Tys.toKeyAll, append_assoc, append_assoc,
        Ty.sorts t h.1 ha.1 hb.1, Tys.sortsAll ts h.2 ha.2 hb.2, Tys.cmpAll, then_assoc]

private theorem Tys.sortsAt : (ts : Tys) → ts.AltsFit → (i : Nat) →
    Sorts (ts.HasAt i) (ts.cmpAt i) (ts.toKeyAt i)
  | .nil, _, _ => fun _ _ ha => absurd ha id
  | .cons t _, h, 0 => Ty.sorts t h.1
  | .cons _ ts, h, i + 1 => Tys.sortsAt ts h.2 i

end

/-! ### Alternatives that share an index -/

def Scalar.least : Scalar → Val
  | .bool => .bool false
  | .int w signed => .int (if signed then -2 ^ (w.bits - 1) else 0)
  | .char signed => .int (if signed then -2 ^ (Width.one.bits - 1) else 0)

mutual

/-- The least value of a type. -/
def Ty.least : Ty → Val
  | .scalar s | .enum s => s.least
  | .float _ => .float 0
  | .string => .string []
  | .vector _ => .list []
  | .optional _ => .nullopt
  | .variant ts => .alt 0 (ts.leastAt 0)
  | .members ts => .list ts.leasts

def Tys.leasts : Tys → List Val
  | .nil => []
  | .cons t ts => t.least :: ts.leasts

def Tys.leastAt : Tys → Nat → Val
  | .nil, _ => .nullopt
  | .cons t _, 0 => t.least
  | .cons _ ts, i + 1 => ts.leastAt i

end

/-- A key of zeros only. -/
def Zeros (key : Bytes) : Prop := ∃ n, key = replicate n 0

private theorem Zeros.append {k l : Bytes} (hk : Zeros k) (hl : Zeros l) : Zeros (k ++ l) := by
  obtain ⟨m, rfl⟩ := hk
  obtain ⟨n, rfl⟩ := hl
  exact ⟨m + n, replicate_append_replicate⟩

private theorem zeros_beBytes (n : Nat) : Zeros (beBytes n 0) := by
  induction n with
  | zero => exact ⟨0, rfl⟩
  | succ n ih =>
    rw [beBytes_succ]
    exact ih.append ⟨1, rfl⟩

private theorem zeros_intToKey (w : Width) (signed : Bool) :
    InRange w signed (if signed then -2 ^ (w.bits - 1) else 0) ∧
      Zeros (intToKey w signed (if signed then -2 ^ (w.bits - 1) else 0)) := by
  have hrange : InRange w signed (if signed then -2 ^ (w.bits - 1) else 0) := by
    have hpos : ∀ n, (0 : Int) < 2 ^ n := fun n => Int.pow_pos (by decide)
    have hpos₁ := hpos w.bits
    have hpos₂ := hpos (w.bits - 1)
    cases signed <;> simp only [InRange, if_true, Bool.false_eq_true, if_false] <;> omega
  have hkeyed : keyed w signed (if signed then -2 ^ (w.bits - 1) else 0) = 0 := by
    cases signed <;> simp [keyed]
  refine ⟨hrange, ?_⟩
  rw [(intToKey_eq hrange).1, hkeyed]
  exact zeros_beBytes _

private theorem Scalar.least_zeros (s : Scalar) : s.Has s.least ∧ Zeros (s.toKey s.least) := by
  cases s with
  | bool => exact ⟨trivial, 1, rfl⟩
  | int w signed => exact zeros_intToKey w signed
  | char signed => exact zeros_intToKey .one signed

mutual

private theorem Ty.least_zeros : (t : Ty) → t.WellFormed → t.FloatFree →
    t.Has t.least ∧ Zeros (t.toKey t.least)
  | .scalar s, _, _ | .enum s, _, _ => s.least_zeros
  | .string, _, _ => ⟨trivial, 2, rfl⟩
  | .vector t, _, _ => by
    refine ⟨nofun, ?_⟩
    rw [least, toKey]
    split
    · exact ⟨2, rfl⟩
    · exact ⟨1, rfl⟩
  | .optional _, _, _ => ⟨trivial, 1, rfl⟩
  | .variant ts, hw, hf => by
    obtain ⟨hhas, hkey⟩ := Tys.leastAt_zeros ts hw.1 hf hw.2
    exact ⟨hhas, Zeros.append ⟨1, rfl⟩ hkey⟩
  | .members ts, hw, hf => Tys.leasts_zeros ts hw hf

private theorem Tys.leasts_zeros : (ts : Tys) → ts.WellFormed → ts.FloatFree →
    ts.HasAll ts.leasts ∧ Zeros (ts.toKeyAll ts.leasts)
  | .nil, _, _ => ⟨trivial, 0, rfl⟩
  | .cons t ts, hw, hf => by
    obtain ⟨hhead, hkey⟩ := Ty.least_zeros t hw.1 hf.1
    obtain ⟨htail, hkeys⟩ := Tys.leasts_zeros ts hw.2 hf.2
    exact ⟨⟨hhead, htail⟩, hkey.append hkeys⟩

private theorem Tys.leastAt_zeros : (ts : Tys) → ts.WellFormed → ts.FloatFree → {i : Nat} →
    i < ts.length → ts.HasAt i (ts.leastAt i) ∧ Zeros (ts.toKeyAt i (ts.leastAt i))
  | .cons t _, hw, hf, 0, _ => Ty.least_zeros t hw.1 hf.1
  | .cons _ ts, hw, hf, _ + 1, hi => Tys.leastAt_zeros ts hw.2 hf.2 (Nat.lt_of_succ_lt_succ hi)

end

private theorem compareLex_self {cmp : Val → Val → Ordering} (h : ∀ v, cmp v v = .eq)
    (vs : List Val) : List.compareLex cmp vs vs = .eq := by
  induction vs with
  | nil => rfl
  | cons v vs ih => rw [List.compareLex_cons_cons, h, ih, eq_then]

mutual

private theorem Ty.cmp_self : (t : Ty) → (v : Val) → t.cmp v v = .eq
  | .scalar _, v | .enum _, v | .float _, v | .string, v => by
    cases v <;> first | rfl | exact Std.ReflOrd.compare_self
  | .vector t, v => by
    cases v with
    | list vs => exact compareLex_self (Ty.cmp_self t) vs
    | _ => rfl
  | .optional t, v => by
    cases v with
    | some v => exact Ty.cmp_self t v
    | _ => rfl
  | .variant ts, v => by
    cases v with
    | alt i v => rw [Ty.cmp, Std.ReflOrd.compare_self, eq_then, Tys.cmpAt_self ts]
    | _ => rfl
  | .members ts, v => by
    cases v with
    | list vs => exact Tys.cmpAll_self ts vs
    | _ => rfl

private theorem Tys.cmpAll_self : (ts : Tys) → (vs : List Val) → ts.cmpAll vs vs = .eq
  | .nil, _ => rfl
  | .cons _ _, [] => rfl
  | .cons t ts, v :: vs => by
    rw [Tys.cmpAll, Ty.cmp_self t, Tys.cmpAll_self ts, eq_then]

private theorem Tys.cmpAt_self : (ts : Tys) → (i : Nat) → (v : Val) → ts.cmpAt i v v = .eq
  | .nil, _, _ => rfl
  | .cons t _, 0, v => Ty.cmp_self t v
  | .cons _ ts, i + 1, v => Tys.cmpAt_self ts i v

end

/-- A value below another whose keys differ at most in how many zeros they end with. -/
def Clash {α : Type} (has : α → Prop) (cmp : α → α → Ordering) (key : α → Bytes) : Prop :=
  ∃ a b, has a ∧ has b ∧ cmp a b = .lt ∧
    ∃ common x y, Zeros x ∧ Zeros y ∧ key a = common ++ x ∧ key b = common ++ y

mutual

private theorem Ty.clash : (t : Ty) → t.WellFormed → t.FloatFree → ¬t.AltsFit →
    Clash t.Has t.cmp t.toKey
  | .scalar _, _, _, h | .enum _, _, _, h | .string, _, _, h => absurd trivial h
  | .vector t, hw, hf, h => by
    obtain ⟨a, b, ha, hb, hlt, common, x, y, hx, hy, hka, hkb⟩ := Ty.clash t hw hf h
    have hoctet : t.isOctet = false := by
      cases t with
      | scalar _ => exact absurd trivial h
      | _ => rfl
    refine ⟨.list [a], .list [b], by simpa [Ty.Has] using ha, by simpa [Ty.Has] using hb, ?_,
      1 :: common, x ++ [0], y ++ [0], hx.append ⟨1, rfl⟩, hy.append ⟨1, rfl⟩, ?_, ?_⟩
    · rw [Ty.cmp, List.compareLex_cons_cons, hlt]
      rfl
    · simp [Ty.toKey, hoctet, hka]
    · simp [Ty.toKey, hoctet, hkb]
  | .optional t, hw, hf, h => by
    obtain ⟨a, b, ha, hb, hlt, common, x, y, hx, hy, hka, hkb⟩ := Ty.clash t hw hf h
    exact ⟨.some a, .some b, ha, hb, hlt, 1 :: common, x, y, hx, hy, congrArg (1 :: ·) hka,
      congrArg (1 :: ·) hkb⟩
  | .variant ts, hw, hf, h => by
    by_cases hfit : ts.AltsFit
    · -- the first alternative and the one that shares its index
      have hlen : 256 < ts.length := Nat.lt_of_not_le fun hle => h ⟨hfit, hle⟩
      obtain ⟨ha, hka⟩ := Tys.leastAt_zeros ts hw.1 hf hw.2
      obtain ⟨hb, hkb⟩ := Tys.leastAt_zeros ts hw.1 hf hlen
      exact ⟨.alt 0 (ts.leastAt 0), .alt 256 (ts.leastAt 256), ha, hb, rfl, [0], _, _, hka, hkb,
        rfl, rfl⟩
    · obtain ⟨i, a, b, ha, hb, hlt, common, x, y, hx, hy, hka, hkb⟩ :=
        Tys.clashAt ts hw.1 hf hfit
      refine ⟨.alt i a, .alt i b, ha, hb, ?_, UInt8.ofNat i :: common, x, y, hx, hy,
        congrArg (_ :: ·) hka, congrArg (_ :: ·) hkb⟩
      rw [Ty.cmp, Std.ReflOrd.compare_self, eq_then, hlt]
  | .members ts, hw, hf, h => by
    obtain ⟨as, bs, hclash⟩ := Tys.clashAll ts hw hf h
    exact ⟨.list as, .list bs, hclash⟩

private theorem Tys.clashAll : (ts : Tys) → ts.WellFormed → ts.FloatFree → ¬ts.AltsFit →
    Clash ts.HasAll ts.cmpAll ts.toKeyAll
  | .nil, _, _, h => absurd trivial h
  | .cons t ts, hw, hf, h => by
    by_cases hfit : t.AltsFit
    · obtain ⟨as, bs, ha, hb, hlt, common, x, y, hx, hy, hka, hkb⟩ :=
        Tys.clashAll ts hw.2 hf.2 fun hfits => h ⟨hfit, hfits⟩
      obtain ⟨hhead, -⟩ := Ty.least_zeros t hw.1 hf.1
      refine ⟨t.least :: as, t.least :: bs, ⟨hhead, ha⟩, ⟨hhead, hb⟩, ?_,
        t.toKey t.least ++ common, x, y, hx, hy, ?_, ?_⟩
      · rw [Tys.cmpAll, Ty.cmp_self, eq_then, hlt]
      · rw [Tys.toKeyAll, hka, append_assoc]
      · rw [Tys.toKeyAll, hkb, append_assoc]
    · obtain ⟨a, b, ha, hb, hlt, common, x, y, hx, hy, hka, hkb⟩ := Ty.clash t hw.1 hf.1 hfit
      obtain ⟨htail, hkeys⟩ := Tys.leasts_zeros ts hw.2 hf.2
      refine ⟨a :: ts.leasts, b :: ts.leasts, ⟨ha, htail⟩, ⟨hb, htail⟩, ?_, common, _, _,
        hx.append hkeys, hy.append hkeys, ?_, ?_⟩
      · rw [Tys.cmpAll, hlt]
        rfl
      · rw [Tys.toKeyAll, hka, append_assoc]
      · rw [Tys.toKeyAll, hkb, append_assoc]

private theorem Tys.clashAt : (ts : Tys) → ts.WellFormed → ts.FloatFree → ¬ts.AltsFit →
    ∃ i, Clash (ts.HasAt i) (ts.cmpAt i) (ts.toKeyAt i)
  | .nil, _, _, h => absurd trivial h
  | .cons t ts, hw, hf, h => by
    by_cases hfit : t.AltsFit
    · obtain ⟨i, hclash⟩ := Tys.clashAt ts hw.2 hf.2 fun hfits => h ⟨hfit, hfits⟩
      exact ⟨i + 1, hclash⟩
    · exact ⟨0, Ty.clash t hw.1 hf.1 hfit⟩

end

/-- Keys compare as the values do, and none is a proper prefix of another. -/
def Ty.KeysSorted (t : Ty) : Prop :=
  ∀ a b, t.Has a → t.Has b → compare (t.toKey a) (t.toKey b) = t.cmp a b ∧
    (t.toKey a <+: t.toKey b → t.toKey a = t.toKey b)

private theorem Clash.not_sorted (h : Clash t.Has t.cmp t.toKey) : ¬t.KeysSorted := by
  intro hsorted
  obtain ⟨a, b, ha, hb, hlt, common, x, y, ⟨m, rfl⟩, ⟨n, rfl⟩, hka, hkb⟩ := h
  have hne : t.toKey a ≠ t.toKey b := by
    intro heq
    have hcmp := (hsorted a b ha hb).1
    rw [heq, Std.ReflOrd.compare_self, hlt] at hcmp
    cases hcmp
  have hprefix : ∀ {m n : Nat}, m ≤ n →
      common ++ replicate m (0 : UInt8) <+: common ++ replicate n 0 := by
    intro m n hmn
    refine prefix_append_right_inj common |>.mpr ?_
    exact ⟨replicate (n - m) 0, by rw [replicate_append_replicate, Nat.add_sub_cancel' hmn]⟩
  rcases Nat.le_total m n with hmn | hmn
  · refine hne ((hsorted a b ha hb).2 ?_)
    rw [hka, hkb]
    exact hprefix hmn
  · refine hne ((hsorted b a hb ha).2 ?_).symm
    rw [hka, hkb]
    exact hprefix hmn

/-- The keys of a type are sorted exactly if no `std::variant` in it has more than 256
alternatives. -/
theorem keysSorted_iff_altsFit {t : Ty} (hw : t.WellFormed) (hf : t.FloatFree) :
    t.KeysSorted ↔ t.AltsFit := by
  constructor
  · intro hsorted
    by_contra hfit
    exact (clash t hw hf hfit).not_sorted hsorted
  · intro hfit a b ha hb
    have hsorts := sorts t hfit
    exact ⟨hsorts.compare_eq ha hb, hsorts.eq_of_prefix ha hb⟩

/-- `std::pair<std::string, std::vector<std::optional<int>>>` -/
theorem keysSorted_pair :
    (members (.ofList [.string, .vector (.optional (.scalar (.int .four true)))])).KeysSorted :=
  (keysSorted_iff_altsFit (by simp [Tys.ofList, Ty.WellFormed, Tys.WellFormed])
    (by simp [Tys.ofList, Ty.FloatFree, Tys.FloatFree])).mpr
    (by simp [Tys.ofList, Ty.AltsFit, Tys.AltsFit])

/-- The 257th alternative of a `std::variant` is written with the index of the first. -/
theorem not_keysSorted_variant :
    ¬(variant (.ofList (.replicate 257 (.scalar .bool)))).KeysSorted := by
  intro hsorted
  have hcmp := (hsorted (.alt 0 (.bool false)) (.alt 256 (.bool false)) trivial trivial).1
  cases hcmp

end PsiServe.Key
