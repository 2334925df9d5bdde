import PsiServe.Key.Types

/-!
# Writing keys

`to_key` and `key_size` (`to_key.hpp:92–413`). What a stream is given is the list of its bytes.
-/

namespace PsiServe.Key

open Base List

/-! ### Scalars -/

/-- `static_cast<U>(i)`, the bits of an integer. -/
def castU (w : Width) (i : Int) : Nat := (i % 2 ^ w.bits).toNat

/-- `write_big_endian` -/
def writeBigEndian (w : Width) (v : Nat) : Bytes := beBytes w.bytes v

/-- `to_key` of an integer: the bit of the sign is flipped. -/
def intToKey (w : Width) (signed : Bool) (i : Int) : Bytes :=
  if signed then writeBigEndian w (castU w i ^^^ 2 ^ (w.bits - 1)) else writeBigEndian w (castU w i)

def Scalar.toKey : Scalar → Val → Bytes
  | .bool, .bool b => [if b then 1 else 0]
  | .int w signed, .int i => intToKey w signed i
  | .char signed, .int i => intToKey .one signed i
  | _, _ => []

/-- `to_key` of a floating-point number: negative zero is zero, the bits of the negative ones are
all flipped. -/
def Float.toKey (f : Float) (bits : Nat) : Bytes :=
  let bits := if bits = f.signBit then 0 else bits
  beBytes f.bytes (if f.signBit ≤ bits then 2 * f.signBit - 1 - bits else bits ^^^ f.signBit)

/-! ### Strings -/

/-- `memchr(p, '\0', end - p)` -/
def memchr (p : Bytes) : Option Nat := p.findIdx? (· == 0)

/-- The loop of `write_escaped`, which writes a run without zeros at a time. -/
def writeRuns : Nat → Bytes → Bytes
  | 0, _ => []
  | fuel + 1, p =>
    if p = [] then []
    else match memchr p with
      | none => p
      | some i => p.take i ++ [0, 1] ++ writeRuns fuel (p.drop (i + 1))

/-- `write_escaped` -/
def writeEscaped (data : Bytes) : Bytes := writeRuns data.length data ++ [0, 0]

/-- The loop of `count_nulls`. -/
def countRuns : Nat → Bytes → Nat
  | 0, _ => 0
  | fuel + 1, p =>
    if p = [] then 0
    else match memchr p with
      | none => 0
      | some i => countRuns fuel (p.drop (i + 1)) + 1

/-- `count_nulls` -/
def countNulls (data : Bytes) : Nat := countRuns data.length data

/-! ### All types -/

/-- The element of an octet container: its byte, and a one behind a zero. -/
def writeOctet (key : Bytes) : Bytes :=
  let byte := key.headD 0
  if byte = 0 then [byte, 1] else [byte]

mutual

/-- `to_key` -/
def Ty.toKey : Ty → Val → Bytes
  | .scalar s, v => s.toKey v
  | .enum s, v => s.toKey v
  | .float f, .float bits => f.toKey bits
  | .string, .string bytes => writeEscaped bytes
  | .vector t, .list vs =>
    if t.isOctet then vs.flatMap (fun v => writeOctet (t.toKey v)) ++ [0, 0]
    else vs.flatMap (fun v => 1 :: t.toKey v) ++ [0]
  | .optional _, .nullopt => [0]
  | .optional t, .some v => 1 :: t.toKey v
  | .variant ts, .alt i v => UInt8.ofNat i :: ts.toKeyAt i v
  | .members ts, .list vs => ts.toKeyAll vs
  | _, _ => []

def Tys.toKeyAll : Tys → List Val → Bytes
  | .cons t ts, v :: vs => t.toKey v ++ ts.toKeyAll vs
  | _, _ => []

def Tys.toKeyAt : Tys → Nat → Val → Bytes
  | .nil, _, _ => []
  | .cons t _, 0, v => t.toKey v
  | .cons _ ts, i + 1, v => ts.toKeyAt i v

end

/-- `sizeof` -/
def Scalar.size : Scalar → Nat
  | .bool | .char _ => 1
  | .int w _ => w.bytes

/-- The elements of an octet container that are written as a zero: the least ones if they are
signed, the zeros else. -/
def octetNulls (signed : Bool) (vs : List Val) : Nat :=
  if signed then
    vs.countP fun v => match v with
      | .int i => castU .one i ^^^ 0x80 == 0
      | _ => false
  else countNulls (vs.map fun v => match v with
    | .int i => UInt8.ofNat (castU .one i)
    | _ => 0)

def Scalar.isSigned : Scalar → Bool
  | .int _ signed | .char signed => signed
  | .bool => false

def Ty.isSigned : Ty → Bool
  | .scalar s => s.isSigned
  | _ => false

mutual

/-- `key_size` -/
def Ty.keySize : Ty → Val → Nat
  | .scalar s, _ => s.size
  | .enum s, _ => s.size
  | .float f, _ => f.bytes
  | .string, .string bytes => bytes.length + countNulls bytes + 2
  | .vector t, .list vs =>
    if t.isOctet then vs.length + octetNulls t.isSigned vs + 2
    else vs.foldl (fun total v => total + (1 + t.keySize v)) 1
  | .optional _, .nullopt => 1
  | .optional t, .some v => 1 + t.keySize v
  | .variant ts, .alt i v => 1 + ts.keySizeAt i v
  | .members ts, .list vs => ts.keySizeAll vs
  | _, _ => 0

def Tys.keySizeAll : Tys → List Val → Nat
  | .cons t ts, v :: vs => t.keySize v + ts.keySizeAll vs
  | _, _ => 0

def Tys.keySizeAt : Tys → Nat → Val → Nat
  | .nil, _, _ => 0
  | .cons t _, 0, v => t.keySize v
  | .cons _ ts, i + 1, v => ts.keySizeAt i v

end

/-! ### What the loops compute -/

variable {run data : Bytes} {fuel : Nat} {w : Width} {i : Int} {signed : Bool} {v : Val} {t : Ty}
  {vs : List Val}

private theorem memchr_of_all_ne (h : ∀ b ∈ run, b ≠ 0) : memchr run = none := by
  rw [memchr, findIdx?_eq_none_iff]
  intro b hb
  simp [h b hb]

/-- The first zero is found behind a run without one. -/
theorem memchr_append {rest : Bytes} (h : ∀ b ∈ run, b ≠ 0) :
    memchr (run ++ 0 :: rest) = some run.length := by
  induction run with
  | nil => rfl
  | cons b run ih =>
    have htail := ih (forall_mem_cons.mp h).2
    rw [memchr] at htail ⊢
    rw [cons_append, findIdx?_cons, htail, if_neg (by simp [h b mem_cons_self])]
    rfl

/-- Bytes without a zero, or a run without one before the first zero. -/
theorem zeros_cases (data : Bytes) :
    (∀ b ∈ data, b ≠ 0) ∨ ∃ run rest, data = run ++ 0 :: rest ∧ ∀ b ∈ run, b ≠ 0 := by
  by_cases h : (0 : UInt8) ∈ data
  · obtain ⟨run, rest, hdata, hrun⟩ := eq_append_cons_of_mem h
    exact .inr ⟨run, rest, hdata, fun b hb h0 => hrun (h0 ▸ hb)⟩
  · exact .inl fun b hb h0 => h (h0 ▸ hb)

private theorem writeRuns_eq (h : data.length ≤ fuel) :
    writeRuns fuel data ++ [0, 0] = escape 0 1 data := by
  induction fuel generalizing data with
  | zero =>
    rw [eq_nil_of_length_eq_zero (Nat.le_zero.mp h)]
    rfl
  | succ fuel ih =>
    rw [writeRuns]
    split
    next hnil => rw [hnil, escape_nil, nil_append]
    · rcases zeros_cases data with hne | ⟨run, rest, rfl, hne⟩
      · have hescape : escape 0 1 (data ++ []) = data ++ escape 0 1 [] :=
          escape_append_of_all_ne hne []
        rw [append_nil] at hescape
        rw [memchr_of_all_ne hne, hescape, escape_nil]
      · rw [length_append, length_cons] at h
        have hrest : writeRuns fuel rest ++ [0, 0] = escape 0 1 rest := ih (by omega)
        rw [memchr_append hne, escape_append_of_all_ne hne, escape_cons_zero, ← hrest]
        simp

/-- A string is escaped symbol by symbol. -/
theorem writeEscaped_eq (data : Bytes) : writeEscaped data = escape 0 1 data :=
  writeRuns_eq (le_rfl)

private theorem countRuns_eq (h : data.length ≤ fuel) : countRuns fuel data = data.countP
    (· == 0) := by
  induction fuel generalizing data with
  | zero =>
    rw [eq_nil_of_length_eq_zero (Nat.le_zero.mp h)]
    rfl
  | succ fuel ih =>
    rw [countRuns]
    split
    next hnil =>
      rw [hnil]
      rfl
    · have hnone : ∀ {run : Bytes}, (∀ b ∈ run, b ≠ 0) → run.countP (· == 0) = 0 := by
        intro run hne
        rw [countP_eq_zero]
        intro b hb
        simp [hne b hb]
      rcases zeros_cases data with hne | ⟨run, rest, rfl, hne⟩
      · rw [memchr_of_all_ne hne, hnone hne]
      · rw [length_append, length_cons] at h
        have hrest : countRuns fuel rest = rest.countP (· == 0) := ih (by omega)
        rw [memchr_append hne, countP_append, hnone hne, countP_cons_of_pos rfl, ← hrest]
        simp

private theorem countNulls_eq (data : Bytes) : countNulls data = data.countP (· == 0) :=
  countRuns_eq (le_rfl)

/-! ### Integers -/

/-- An integer has bits. -/
theorem Width.bits_pos (w : Width) : 0 < w.bits := by cases w <;> decide

/-- The range of an integer in bytes and in bits. -/
theorem Width.pow_bytes (w : Width) : 256 ^ w.bytes = 2 ^ w.bits := by
  rw [Width.bits, Nat.pow_mul]

/-- The sign bit halves the range. -/
theorem Width.pow_bits (w : Width) : 2 ^ w.bits = 2 * 2 ^ (w.bits - 1) := by
  rw [← pow_succ', Nat.sub_add_cancel w.bits_pos]

/-- The same powers as integers. -/
theorem Width.cast_bits (w : Width) : (2 : Int) ^ w.bits = 2 * ((2 ^ (w.bits - 1) : Nat) : Int) ∧
      (2 : Int) ^ (w.bits - 1) = ((2 ^ (w.bits - 1) : Nat) : Int) := by
  have hpow := w.pow_bits
  constructor
  · exact_mod_cast hpow
  · rfl

/-- The number that is written for an integer counts from the least of its type. -/
def keyed (w : Width) (signed : Bool) (i : Int) : Nat :=
  (i + if signed then 2 ^ (w.bits - 1) else 0).toNat

/-- A negative integer is shifted by the range when it is cast. -/
theorem castU_eq {k : Nat} (hk : 2 ^ w.bits = 2 * k) (hlow : -(k : Int) ≤ i) (hhigh : i < 2 * k) :
    castU w i = (if i < 0 then i + 2 * k else i).toNat := by
  have hcast : (2 : Int) ^ w.bits = 2 * (k : Int) := by exact_mod_cast hk
  rw [castU, hcast]
  congr 1
  split
  next hneg => rw [← Int.add_emod_right, Int.emod_eq_of_lt (by omega) (by omega)]
  next hpos => rw [Int.emod_eq_of_lt (by omega) hhigh]

/-- An integer is written as its shifted value, highest byte first. -/
theorem intToKey_eq (h : InRange w signed i) :
    intToKey w signed i = beBytes w.bytes (keyed w signed i) ∧
      keyed w signed i < 256 ^ w.bytes := by
  have hpow := w.pow_bits
  obtain ⟨hcast, hcast'⟩ := w.cast_bits
  rw [InRange, hcast, hcast'] at h
  rw [intToKey, keyed, writeBigEndian, writeBigEndian, Width.pow_bytes, hpow, hcast']
  cases signed with
  | false =>
    rw [if_neg (by decide)] at h
    have hu := castU_eq hpow (i := i) (by omega) h.2
    rw [if_neg (by omega)] at hu
    rw [if_neg (by decide), if_neg (by decide), Int.add_zero, hu]
    refine ⟨rfl, ?_⟩
    omega
  | true =>
    rw [if_pos rfl] at h
    have hu := castU_eq hpow (i := i) h.1 (by omega)
    have hxor : castU w i ^^^ 2 ^ (w.bits - 1) = (i + ((2 ^ (w.bits - 1) : Nat) : Int)).toNat := by
      rw [xor_two_pow (by rw [hu, pow_succ]; split <;> omega), hu]
      by_cases hneg : i < 0
      · rw [if_pos hneg, if_neg (by omega)]
        omega
      · rw [if_neg hneg, if_pos (by omega)]
        omega
    rw [hxor]
    refine ⟨rfl, ?_⟩
    omega

private theorem compare_keyed {j : Int} (hi : InRange w signed i) (hj : InRange w signed j) :
    compare (keyed w signed i) (keyed w signed j) = compare i j := by
  have hle : ∀ {i}, InRange w signed i →
      0 ≤ i + if signed then (2 : Int) ^ (w.bits - 1) else 0 := by
    intro i hi
    rw [InRange] at hi
    split at hi
    next hs =>
      rw [if_pos hs]
      omega
    next hs =>
      rw [if_neg hs]
      omega
  have hi := hle hi
  have hj := hle hj
  rw [keyed, keyed]
  generalize (if signed then (2 : Int) ^ (w.bits - 1) else 0) = bias at hi hj ⊢
  have hlt : (i + bias).toNat < (j + bias).toNat ↔ i < j := by omega
  have heq : (i + bias).toNat = (j + bias).toNat ↔ i = j := by omega
  simp only [compare, compareOfLessAndEq, hlt, heq]

/-- Keys of integers sort as the integers do. -/
theorem sorts_intToKey (w : Width) (signed : Bool) :
    Sorts (InRange w signed) compare (intToKey w signed) := by
  intro i j hi hj x y
  obtain ⟨hkey, hlt⟩ := intToKey_eq hi
  obtain ⟨hkey', hlt'⟩ := intToKey_eq hj
  rw [hkey, hkey', sorts_beBytes _ hlt hlt', compare_keyed hi hj]

/-- The key of an integer has its width. -/
theorem length_intToKey (w : Width) (signed : Bool) (i : Int) :
    (intToKey w signed i).length = w.bytes := by
  rw [intToKey, writeBigEndian, writeBigEndian]
  split <;> exact length_beBytes _ _

private theorem Scalar.length_toKey : {s : Scalar} → {v : Val} → s.Has v →
    (s.toKey v).length = s.size
  | .bool, .bool _, _ => rfl
  | .int w signed, .int i, _ => length_intToKey w signed i
  | .char signed, .int i, _ => length_intToKey .one signed i

/-! ### Octets -/

/-- The byte of an element of an octet container. -/
def Ty.octetByte (t : Ty) (v : Val) : UInt8 := (t.toKey v).headD 0

/-- Octets are written as an escaped string. -/
theorem flatMap_writeOctet (t : Ty) (vs : List Val) :
    vs.flatMap (fun v => writeOctet (t.toKey v)) ++ [0, 0] = escape 0 1 (vs.map t.octetByte) := by
  have hoctet : ∀ v, writeOctet (t.toKey v) =
      if t.octetByte v = 0 then [0, 1] else [t.octetByte v] := by
    intro v
    rw [writeOctet, ← Ty.octetByte]
    split
    next hzero => rw [hzero]
    · rfl
  rw [escape, flatMap_map]
  simp only [hoctet]

/-- The bits of an octet as they are written. -/
theorem Ty.toKey_octet : {t : Ty} → {v : Val} → t.isOctet = true → t.Has v →
    ∃ i, v = .int i ∧ InRange .one t.isSigned i ∧ t.toKey v = intToKey .one t.isSigned i
  | .scalar (.int .one _), .int i, _, h | .scalar (.char _), .int i, _, h => ⟨i, rfl, h, rfl⟩

/-- A cast integer is within its range. -/
theorem castU_lt (w : Width) (i : Int) : castU w i < 2 ^ w.bits := by
  have hcast : ((2 ^ w.bits : Nat) : Int) = 2 ^ w.bits := by push_cast; rfl
  rw [castU]
  omega

private theorem ofNat_beq_zero {n : Nat} (h : n < 256) : (UInt8.ofNat n == 0) = (n == 0) := by
  rw [Bool.eq_iff_iff, beq_iff_eq, beq_iff_eq, ← UInt8.toNat_inj, UInt8.toNat_ofNat',
    Nat.mod_eq_of_lt h]
  rfl

private theorem octetNulls_eq (hoctet : t.isOctet = true) (h : ∀ v ∈ vs, t.Has v) :
    octetNulls t.isSigned vs = (vs.map t.octetByte).countP (· == 0) := by
  rw [octetNulls]
  cases hs : t.isSigned with
  | true =>
    rw [if_pos rfl, countP_map]
    refine countP_congr fun v hv => ?_
    obtain ⟨i, rfl, -, hkey⟩ := Ty.toKey_octet hoctet (h v hv)
    have hlt : castU .one i ^^^ 0x80 < 2 ^ 8 :=
      Nat.xor_lt_two_pow (castU_lt .one i) (by decide)
    have hbyte : t.octetByte (.int i) = UInt8.ofNat (castU .one i ^^^ 0x80) := by
      rw [Ty.octetByte, hkey, hs]
      rfl
    rw [Function.comp_apply, hbyte, ofNat_beq_zero hlt]
  | false =>
    rw [if_neg (by decide), countNulls_eq, countP_map, countP_map]
    refine countP_congr fun v hv => ?_
    obtain ⟨i, rfl, -, hkey⟩ := Ty.toKey_octet hoctet (h v hv)
    have hbyte : t.octetByte (.int i) = UInt8.ofNat (castU .one i) := by
      rw [Ty.octetByte, hkey, hs]
      rfl
    rw [Function.comp_apply, Function.comp_apply, hbyte]

/-! ### Sizes -/

private theorem length_flatMap_elements {key : Val → Bytes} {size : Val → Nat}
    (h : ∀ v ∈ vs, (key v).length = size v) (n : Nat) :
    n + (vs.flatMap fun v => 1 :: key v).length =
      vs.foldl (fun total v => total + (1 + size v)) n := by
  induction vs generalizing n with
  | nil => rfl
  | cons v vs ih =>
    rw [foldl_cons, ← ih (forall_mem_cons.mp h).2, flatMap_cons,
      length_append, length_cons, h v mem_cons_self]
    omega

mutual

/-- `key_size` is the number of bytes that `to_key` writes. -/
theorem Ty.length_toKey : (t : Ty) → {v : Val} → t.Has v → (t.toKey v).length = t.keySize v
  | .scalar _, _, h | .enum _, _, h => Scalar.length_toKey h
  | .float _, .float _, _ => length_beBytes _ _
  | .string, .string bytes, _ => by
    rw [Ty.toKey, Ty.keySize, writeEscaped_eq, length_escape, countNulls_eq]
  | .vector t, .list vs, h => by
    rw [Ty.toKey, Ty.keySize]
    split
    next hoctet =>
      rw [flatMap_writeOctet, length_escape, length_map, octetNulls_eq hoctet h]
    · rw [length_append, length_singleton, add_comm,
        length_flatMap_elements fun v hv => Ty.length_toKey t (h v hv)]
  | .optional _, .nullopt, _ => rfl
  | .optional t, .some v, h => by
    rw [Ty.toKey, Ty.keySize, length_cons, Ty.length_toKey t h, add_comm]
  | .variant ts, .alt i v, h => by
    rw [Ty.toKey, Ty.keySize, length_cons, Tys.length_toKeyAt ts h, add_comm]
  | .members ts, .list vs, h => by
    rw [Ty.toKey, Ty.keySize, Tys.length_toKeyAll ts h]

private theorem Tys.length_toKeyAll : (ts : Tys) → {vs : List Val} → ts.HasAll vs →
    (ts.toKeyAll vs).length = ts.keySizeAll vs
  | .nil, [], _ => rfl
  | .cons t ts, v :: vs, h => by
    rw [Tys.toKeyAll, Tys.keySizeAll, length_append, Ty.length_toKey t h.1,
      Tys.length_toKeyAll ts h.2]

private theorem Tys.length_toKeyAt : (ts : Tys) → {i : Nat} → {v : Val} → ts.HasAt i v →
    (ts.toKeyAt i v).length = ts.keySizeAt i v
  | .cons t _, 0, _, h => Ty.length_toKey t h
  | .cons _ ts, _ + 1, _, h => Tys.length_toKeyAt ts h

end

end PsiServe.Key
