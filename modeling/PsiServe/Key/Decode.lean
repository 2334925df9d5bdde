import PsiServe.Base.Fallible
import PsiServe.Key.Encode

/-!
# Reading keys

`from_key` (`from_key.hpp:62–297`). A stream is the list of the bytes that are left of it.
-/

namespace PsiServe.Key

open Base List Ty

/-- `stream_error` -/
inductive StreamError where
  | overrun
  | badVariantIndex
deriving DecidableEq, Repr

/-- What a reader makes of a stream: mostly a value and the rest. -/
abbrev Read := Except StreamError

/-- `stream.read(&ch, 1)` -/
def readByte : Bytes → Read (UInt8 × Bytes)
  | [] => .error .overrun
  | b :: rest => .ok (b, rest)

/-- `read_big_endian` of `n` bytes -/
def readBigEndian (n : Nat) (stream : Bytes) : Read (Nat × Bytes) :=
  if stream.length < n then .error .overrun else .ok (beValue (stream.take n), stream.drop n)

/-- `static_cast<T>(uv)` -/
def castT (w : Width) (signed : Bool) (u : Nat) : Int :=
  if signed && 2 ^ (w.bits - 1) ≤ u then (u : Int) - 2 ^ w.bits else u

/-- `from_key` of an integer -/
def intFromKey (w : Width) (signed : Bool) (stream : Bytes) : Read (Val × Bytes) := do
  let (u, stream) ← readBigEndian w.bytes stream
  let u := if signed then u ^^^ 2 ^ (w.bits - 1) else u
  return (.int (castT w signed u), stream)

def Scalar.fromKey : Scalar → Bytes → Read (Val × Bytes)
  | .bool, stream => do
    let (ch, stream) ← readByte stream
    return (.bool (ch != 0), stream)
  | .int w signed, stream => intFromKey w signed stream
  | .char signed, stream => intFromKey .one signed stream

/-- `from_key` of a floating-point number -/
def Float.fromKey (f : Float) (stream : Bytes) : Read (Val × Bytes) := do
  let (bits, stream) ← readBigEndian f.bytes stream
  return (.float (if f.signBit ≤ bits then bits ^^^ f.signBit else 2 * f.signBit - 1 - bits),
    stream)

/-- The loop of `read_escaped` and of the octet containers, which makes an element of every byte
and appends a run without zeros at a time. -/
def readRuns {α : Type} (elem : UInt8 → α) : Nat → List α → Bytes → Read (List α × Bytes)
  | 0, _, _ => .error .overrun
  | fuel + 1, out, stream =>
    if stream = [] then .error .overrun
    else match memchr stream with
      | none => .error .overrun
      | some i =>
        let out := out ++ (stream.take i).map elem
        match stream.drop (i + 1) with
        | [] => .error .overrun
        | next :: stream =>
          if next = 0 then .ok (out, stream) else readRuns elem fuel (out ++ [elem 0]) stream

/-- The element of an octet container. Only those of `int8_t` get the bit of their sign back. -/
def octetOf : Ty → UInt8 → Val
  | .scalar (.int .one true), b => .int (castT .one true (b.toNat ^^^ 0x80))
  | t, b => .int (castT .one t.isSigned b.toNat)

/-- The loop of a container of other elements. -/
def readElements (elem : Bytes → Read (Val × Bytes)) :
    Nat → List Val → Bytes → Read (List Val × Bytes)
  | 0, _, _ => .error .overrun
  | fuel + 1, out, stream => do
    let (marker, stream) ← readByte stream
    if marker = 0 then return (out, stream)
    let (v, stream) ← elem stream
    readElements elem fuel (out ++ [v]) stream

mutual

/-- `from_key` -/
def Ty.fromKey : Ty → Bytes → Read (Val × Bytes)
  | .scalar s, stream => s.fromKey stream
  | .enum s, stream => s.fromKey stream
  | .float f, stream => f.fromKey stream
  | .string, stream => do
    let (bytes, stream) ← readRuns id (stream.length + 1) [] stream
    return (.string bytes, stream)
  | .vector t, stream => do
    let (vs, stream) ←
      if t.isOctet then readRuns (octetOf t) (stream.length + 1) [] stream
      else readElements t.fromKey (stream.length + 1) [] stream
    return (.list vs, stream)
  | .optional t, stream => do
    let (marker, stream) ← readByte stream
    if marker = 0 then return (.nullopt, stream)
    let (v, stream) ← t.fromKey stream
    return (.some v, stream)
  | .variant ts, stream => do
    let (index, stream) ← readByte stream
    let (v, stream) ← ts.fromKeyAt index.toNat stream
    return (.alt index.toNat v, stream)
  | .members ts, stream => do
    let (vs, stream) ← ts.fromKeyAll stream
    return (.list vs, stream)

def Tys.fromKeyAll : Tys → Bytes → Read (List Val × Bytes)
  | .nil, stream => return ([], stream)
  | .cons t ts, stream => do
    let (v, stream) ← t.fromKey stream
    let (vs, stream) ← ts.fromKeyAll stream
    return (v :: vs, stream)

/-- `variant_from_key` -/
def Tys.fromKeyAt : Tys → Nat → Bytes → Read (Val × Bytes)
  | .nil, _, _ => .error .badVariantIndex
  | .cons t _, 0, stream => t.fromKey stream
  | .cons _ ts, i + 1, stream => ts.fromKeyAt i stream

end

/-! ### Numbers -/

variable {w : Width} {signed : Bool} {i : Int} {v : Val} {fuel : Nat}
  {elem : Bytes → Read (Val × Bytes)} {vs out : List Val} {key : Val → Bytes} {rest : Bytes}
  {t : Ty}

private theorem readBigEndian_beBytes {n v : Nat} (h : v < 256 ^ n) (rest : Bytes) :
    readBigEndian n (beBytes n v ++ rest) = .ok (v, rest) := by
  have hlen := length_beBytes n v
  rw [readBigEndian, if_neg (by rw [length_append]; omega),
    take_append_of_le_length (by omega), take_of_length_le (by omega),
    beValue_beBytes h, drop_append_of_le_length (by omega), drop_of_length_le (by omega),
    nil_append]

/-- An integer is read back, in the bits of its type. -/
theorem castT_castU (h : InRange w signed i) : castT w signed (castU w i) = i := by
  have hpow := w.pow_bits
  obtain ⟨hcast, hcast'⟩ := w.cast_bits
  rw [InRange, hcast, hcast'] at h
  rw [castT, hcast]
  cases signed with
  | false =>
    rw [if_neg (by decide)] at h
    rw [castU_eq hpow (by omega) h.2, if_neg (by simp), if_neg (by omega)]
    omega
  | true =>
    rw [if_pos rfl] at h
    rw [castU_eq hpow h.1 (by omega), Bool.true_and]
    by_cases hneg : i < 0
    · rw [if_pos hneg, if_pos (decide_eq_true (by omega))]
      omega
    · rw [if_neg hneg, if_neg (by rw [decide_eq_true_eq]; omega)]
      omega

private theorem intFromKey_intToKey (h : InRange w signed i) (rest : Bytes) :
    intFromKey w signed (intToKey w signed i ++ rest) = .ok (.int i, rest) := by
  have hlt := castU_lt w i
  have hcast := castT_castU h
  rw [intFromKey, intToKey, writeBigEndian, writeBigEndian]
  cases signed with
  | false =>
    rw [if_neg (by decide), readBigEndian_beBytes (by rwa [Width.pow_bytes]), ok_bind]
    dsimp only
    rw [if_neg (by decide), hcast]
    rfl
  | true =>
    have hhalf : 2 ^ (w.bits - 1) < 2 ^ w.bits :=
      Nat.pow_lt_pow_right (by decide) (Nat.sub_lt w.bits_pos (by decide))
    rw [if_pos rfl, readBigEndian_beBytes
      (by rw [Width.pow_bytes]; exact Nat.xor_lt_two_pow hlt hhalf), ok_bind]
    dsimp only
    rw [if_pos rfl, Nat.xor_assoc, Nat.xor_self, Nat.xor_zero, hcast]
    rfl

private theorem Scalar.fromKey_toKey : {s : Scalar} → {v : Val} → s.Has v → (rest : Bytes) →
    s.fromKey (s.toKey v ++ rest) = .ok (v, rest)
  | .bool, .bool b, _, _ => by cases b <;> rfl
  | .int _ _, .int _, h, rest | .char _, .int _, h, rest => intFromKey_intToKey h rest

private theorem Scalar.rest_of_fromKey {s : Scalar} {rest' : Bytes} (h : s.Has v)
    (hread : s.fromKey (s.toKey v ++ rest) = .ok (v, rest')) : rest' = rest := by
  rw [Scalar.fromKey_toKey h] at hread
  cases hread
  rfl

/-! ### Loops -/

private theorem readRuns_escape {α : Type} {elem : UInt8 → α} {l : Bytes} (h : l.length < fuel)
    (out : List α) (rest : Bytes) :
    readRuns elem fuel out (escape 0 1 l ++ rest) = .ok (out ++ l.map elem, rest) := by
  induction fuel generalizing l out with
  | zero => cases h
  | succ fuel ih =>
    rcases zeros_cases l with hne | ⟨run, tail, rfl, hne⟩
    · have hescape : escape 0 1 (l ++ []) = l ++ escape 0 1 [] := escape_append_of_all_ne hne []
      rw [append_nil, escape_nil] at hescape
      have hsplit : escape 0 1 l ++ rest = l ++ 0 :: 0 :: rest := by
        rw [hescape, append_assoc]
        rfl
      rw [hsplit, readRuns, if_neg (by simp), memchr_append hne]
      simp
    · have hsplit : escape 0 1 (run ++ 0 :: tail) ++ rest =
          run ++ 0 :: 1 :: (escape 0 1 tail ++ rest) := by
        rw [escape_append_of_all_ne hne, escape_cons_zero, append_assoc]
        rfl
      rw [length_append, length_cons] at h
      have hrest := ih (l := tail) (by omega) (out ++ run.map elem ++ [elem 0])
      have hdrop : (run ++ 0 :: 1 :: (escape 0 1 tail ++ rest)).drop (run.length + 1) =
          1 :: (escape 0 1 tail ++ rest) := by
        rw [drop_append, drop_of_length_le (by omega), Nat.add_sub_cancel_left]
        rfl
      rw [hsplit, readRuns, if_neg (by simp), memchr_append hne]
      dsimp only
      rw [take_left, hdrop]
      dsimp only
      rw [if_neg (by decide), hrest]
      simp

private theorem readElements_cons (v : Val) (vs : List Val) :
    readElements elem (fuel + 1) out ((v :: vs).flatMap (fun v => 1 :: key v) ++ [0] ++ rest) = (do
      let (u, stream) ← elem (key v ++ (vs.flatMap (fun v => 1 :: key v) ++ [0] ++ rest))
      readElements elem fuel (out ++ [u]) stream) := by
  have hsplit : (v :: vs).flatMap (fun v => 1 :: key v) ++ [0] ++ rest =
      1 :: (key v ++ (vs.flatMap (fun v => 1 :: key v) ++ [0] ++ rest)) := by simp
  rw [hsplit, readElements, readByte, ok_bind]
  exact if_neg (by decide)

private theorem readElements_ok (h : ∀ v ∈ vs, ∀ rest, elem (key v ++ rest) = .ok (v, rest))
    (hfuel : vs.length < fuel) (out : List Val) (rest : Bytes) :
    readElements elem fuel out (vs.flatMap (fun v => 1 :: key v) ++ [0] ++ rest) =
      .ok (out ++ vs, rest) := by
  induction vs generalizing fuel out with
  | nil =>
    cases fuel with
    | zero => cases hfuel
    | succ fuel =>
      rw [append_nil]
      rfl
  | cons v vs ih =>
    cases fuel with
    | zero => cases hfuel
    | succ fuel =>
      have hrest := ih (forall_mem_cons.mp h).2
        (Nat.lt_of_succ_lt_succ hfuel) (out ++ [v])
      rw [readElements_cons, h v mem_cons_self, ok_bind]
      dsimp only
      rw [hrest, append_assoc]
      rfl

/-- What was read stays in front of what is read. -/
theorem prefix_of_readElements {stream : Bytes}
    (h : readElements elem fuel out stream = .ok (vs, rest)) :
    out <+: vs := by
  induction fuel generalizing out stream with
  | zero => cases h
  | succ fuel ih =>
    obtain ⟨⟨marker, stream⟩, -, h⟩ := bind_eq_ok.mp h
    dsimp only at h
    split at h
    · cases h
      exact prefix_refl _
    · obtain ⟨⟨v, stream⟩, -, h⟩ := bind_eq_ok.mp h
      exact (prefix_append out [v]).trans (ih h)

/-- Elements that were read back were each read back. -/
theorem readElements_eq_ok {P : Val → Prop}
    (h : ∀ v ∈ vs, ∀ rest rest', elem (key v ++ rest) = .ok (v, rest') → P v ∧ rest' = rest)
    {rest' : Bytes}
    (hread : readElements elem fuel out (vs.flatMap (fun v => 1 :: key v) ++ [0] ++ rest) =
      .ok (out ++ vs, rest')) : (∀ v ∈ vs, P v) ∧ rest' = rest := by
  induction vs generalizing fuel out with
  | nil =>
    cases fuel with
    | zero => cases hread
    | succ fuel =>
      rw [append_nil] at hread
      cases hread
      exact ⟨nofun, rfl⟩
  | cons v vs ih =>
    cases fuel with
    | zero => cases hread
    | succ fuel =>
      rw [readElements_cons] at hread
      obtain ⟨⟨v', stream⟩, helem, hread⟩ := bind_eq_ok.mp hread
      obtain ⟨tail, htail⟩ := prefix_of_readElements hread
      have hv : v' = v := by
        rw [append_assoc, append_cancel_left_eq] at htail
        exact (cons.inj htail).1
      subst hv
      obtain ⟨hP, rfl⟩ := h v' mem_cons_self _ _ helem
      rw [show out ++ v' :: vs = out ++ [v'] ++ vs by simp] at hread
      obtain ⟨hall, hrest⟩ := ih (forall_mem_cons.mp h).2 hread
      exact ⟨forall_mem_cons.mpr ⟨hP, hall⟩, hrest⟩

/-! ### Octets -/

/-- `char`, on a platform where it is signed. -/
def Ty.isSignedChar : Ty → Bool
  | .scalar (.char true) => true
  | _ => false

private theorem castT_flipped {u : Nat} (h : u < 256) :
    castT .one true (u ^^^ 0x80) ≠ castT .one true u := by
  have hcast : ∀ n : Nat, castT .one true n = if 128 ≤ n then (n : Int) - 256 else n := by
    intro n
    rw [castT, Bool.true_and]
    simp only [decide_eq_true_eq]
    rfl
  have hxor : u ^^^ 0x80 = if u < 128 then u + 128 else u - 128 :=
    xor_two_pow (k := 7) h
  rw [hcast, hcast, hxor]
  split
  · omega
  · omega

/-- Every octet is read back but one of `char`, which keeps the flipped bit of its sign. -/
theorem octetOf_octetByte (hoctet : t.isOctet = true) (h : t.Has v) :
    octetOf t (t.octetByte v) = v ↔ t.isSignedChar = false := by
  have hbyte : ∀ {n}, n < 256 → (UInt8.ofNat n).toNat = n := fun {n} hn => by
    rw [UInt8.toNat_ofNat', Nat.mod_eq_of_lt hn]
  obtain ⟨i, rfl, hi, hkey⟩ := toKey_octet hoctet h
  have hlt : castU .one i < 256 := castU_lt .one i
  have hxor : castU .one i ^^^ 0x80 < 2 ^ 8 := Nat.xor_lt_two_pow hlt (by decide)
  have hcast := castT_castU hi
  have hoctetByte : (t.octetByte (.int i)).toNat =
      if t.isSigned then castU .one i ^^^ 0x80 else castU .one i := by
    rw [octetByte, hkey, intToKey]
    split
    · exact hbyte hxor
    · exact hbyte hlt
  cases t with
  | scalar s =>
    cases s with
    | bool => cases hoctet
    | int w signed =>
      cases w with
      | one =>
        refine iff_of_true ?_ rfl
        cases signed with
        | true =>
          rw [octetOf, hoctetByte, if_pos (by rfl), Nat.xor_assoc, Nat.xor_self, Nat.xor_zero]
          exact congrArg Val.int hcast
        | false =>
          rw [octetOf, hoctetByte, if_neg (by decide)]
          · exact congrArg Val.int hcast
          · simp
      | _ => cases hoctet
    | char signed =>
      have hchar : octetOf (.scalar (.char signed)) ((scalar (.char signed)).octetByte (.int i)) =
          .int (castT .one signed (if signed then castU .one i ^^^ 0x80 else castU .one i)) := by
        rw [octetOf, hoctetByte]
        · rfl
        · simp
      rw [hchar]
      cases signed with
      | true =>
        refine iff_of_false ?_ (by decide)
        intro heq
        refine castT_flipped hlt ((Val.int.inj heq).trans hcast.symm)
      | false => exact iff_of_true (congrArg Val.int hcast) rfl
  | _ => cases hoctet

/-! ### All types -/

mutual

/-- Values without an element of a signed `char` in a vector, and without an alternative whose
index does not fit its byte. -/
def Ty.Faithful : Ty → Val → Prop
  | .vector t, .list vs => (t.isSignedChar = true → vs = []) ∧ ∀ v ∈ vs, t.Faithful v
  | .optional t, .some v => t.Faithful v
  | .variant ts, .alt i v => i < 256 ∧ ts.FaithfulAt i v
  | .members ts, .list vs => ts.FaithfulAll vs
  | _, _ => True

def Tys.FaithfulAll : Tys → List Val → Prop
  | .cons t ts, v :: vs => t.Faithful v ∧ ts.FaithfulAll vs
  | _, _ => True

def Tys.FaithfulAt : Tys → Nat → Val → Prop
  | .nil, _, _ => True
  | .cons t _, 0, v => t.Faithful v
  | .cons _ ts, i + 1, v => ts.FaithfulAt i v

end

private theorem Ty.faithful_of_octet (hoctet : t.isOctet = true) (v : Val) : t.Faithful v := by
  cases t with
  | scalar s => trivial
  | _ => cases hoctet

/-- An octet container is read to its end, whatever its elements become. -/
theorem fromKey_octets (hoctet : t.isOctet = true) (vs : List Val) (rest : Bytes) :
    (vector t).fromKey ((vector t).toKey (.list vs) ++ rest) =
      .ok (.list (vs.map fun v => octetOf t (t.octetByte v)), rest) := by
  have hfuel : (vs.map t.octetByte).length <
      (escape 0 1 (vs.map t.octetByte) ++ rest).length + 1 := by
    rw [length_append, length_escape]
    omega
  rw [toKey, if_pos hoctet, flatMap_writeOctet, fromKey, if_pos hoctet,
    readRuns_escape hfuel, ok_bind, nil_append, map_map]
  rfl

private theorem lt_length_elements (key : Val → Bytes) (vs : List Val) (rest : Bytes) :
    vs.length < (vs.flatMap (fun v => 1 :: key v) ++ [0] ++ rest).length + 1 := by
  have hle : vs.length ≤ (vs.flatMap fun v => 1 :: key v).length := by
    induction vs with
    | nil => exact le_refl 0
    | cons v vs ih =>
      rw [flatMap_cons, length_append, length_cons, length_cons]
      omega
  rw [length_append, length_append]
  omega

mutual

/-- A faithful value is read back, and nothing behind it is touched. -/
theorem Ty.fromKey_toKey : (t : Ty) → {v : Val} → t.Has v → t.FloatFree → t.Faithful v →
    ∀ rest, t.fromKey (t.toKey v ++ rest) = .ok (v, rest)
  | .scalar _, _, h, _, _, rest | .enum _, _, h, _, _, rest => Scalar.fromKey_toKey h rest
  | .string, .string bytes, _, _, _, rest => by
    have hfuel : bytes.length < (escape 0 1 bytes ++ rest).length + 1 := by
      rw [length_append, length_escape]
      omega
    rw [Ty.toKey, writeEscaped_eq, Ty.fromKey, readRuns_escape hfuel, ok_bind, map_id]
    rfl
  | .vector t, .list vs, h, hf, hfaith, rest => by
    by_cases hoctet : t.isOctet = true
    · rw [fromKey_octets hoctet]
      cases hchar : t.isSignedChar with
      | true =>
        rw [hfaith.1 hchar]
        rfl
      | false =>
        have hsame : vs.map (fun v => octetOf t (t.octetByte v)) = vs.map id :=
          map_congr_left fun v hv => (octetOf_octetByte hoctet (h v hv)).mpr hchar
        rw [hsame, map_id]
    · have helem : ∀ v ∈ vs, ∀ rest, t.fromKey (t.toKey v ++ rest) = .ok (v, rest) :=
        fun v hv => Ty.fromKey_toKey t (h v hv) hf (hfaith.2 v hv)
      rw [Ty.toKey, if_neg hoctet, Ty.fromKey, if_neg hoctet,
        readElements_ok helem (lt_length_elements t.toKey vs rest), ok_bind]
      rfl
  | .optional _, .nullopt, _, _, _, _ => rfl
  | .optional t, .some v, h, hf, hfaith, rest => by
    rw [Ty.toKey, cons_append, Ty.fromKey, readByte, ok_bind]
    dsimp only
    rw [if_neg (by decide), Ty.fromKey_toKey t h hf hfaith, ok_bind]
    rfl
  | .variant ts, .alt i v, h, hf, hfaith, rest => by
    have hi : (UInt8.ofNat i).toNat = i := by rw [UInt8.toNat_ofNat', Nat.mod_eq_of_lt hfaith.1]
    rw [Ty.toKey, cons_append, Ty.fromKey, readByte, ok_bind]
    dsimp only
    rw [hi, Tys.fromKeyAt_toKeyAt ts h hf hfaith.2, ok_bind]
    rfl
  | .members ts, .list vs, h, hf, hfaith, rest => by
    rw [Ty.toKey, Ty.fromKey, Tys.fromKeyAll_toKeyAll ts h hf hfaith, ok_bind]
    rfl

private theorem Tys.fromKeyAll_toKeyAll : (ts : Tys) → {vs : List Val} → ts.HasAll vs →
    ts.FloatFree →
    ts.FaithfulAll vs → ∀ rest, ts.fromKeyAll (ts.toKeyAll vs ++ rest) = .ok (vs, rest)
  | .nil, [], _, _, _, _ => rfl
  | .cons t ts, v :: vs, h, hf, hfaith, rest => by
    rw [Tys.toKeyAll, append_assoc, Tys.fromKeyAll, Ty.fromKey_toKey t h.1 hf.1 hfaith.1, ok_bind]
    dsimp only
    rw [Tys.fromKeyAll_toKeyAll ts h.2 hf.2 hfaith.2, ok_bind]
    rfl

private theorem Tys.fromKeyAt_toKeyAt : (ts : Tys) → {i : Nat} → {v : Val} → ts.HasAt i v →
    ts.FloatFree → ts.FaithfulAt i v →
    ∀ rest, ts.fromKeyAt i (ts.toKeyAt i v ++ rest) = .ok (v, rest)
  | .cons t _, 0, _, h, hf, hfaith, rest => Ty.fromKey_toKey t h hf.1 hfaith rest
  | .cons _ ts, _ + 1, _, h, hf, hfaith, rest => Tys.fromKeyAt_toKeyAt ts h hf.2 hfaith rest

end

mutual

/-- A value that is read back is faithful, and nothing behind it was touched. -/
theorem Ty.faithful_of_fromKey : (t : Ty) → {v : Val} → t.Has v → t.FloatFree →
    ∀ rest rest', t.fromKey (t.toKey v ++ rest) = .ok (v, rest') → t.Faithful v ∧ rest' = rest
  | .scalar _, _, h, _, _, _, hread | .enum _, _, h, _, _, _, hread =>
    ⟨trivial, Scalar.rest_of_fromKey h hread⟩
  | .string, .string bytes, h, hf, rest, rest', hread => by
    rw [fromKey_toKey .string h hf trivial] at hread
    cases hread
    exact ⟨trivial, rfl⟩
  | .vector t, .list vs, h, hf, rest, rest', hread => by
    by_cases hoctet : t.isOctet = true
    · rw [fromKey_octets hoctet] at hread
      obtain ⟨hvs, hrest⟩ := Prod.mk.inj (Except.ok.inj hread)
      have hvs := Val.list.inj hvs
      refine ⟨⟨fun hchar => ?_, fun v _ => faithful_of_octet hoctet v⟩, hrest.symm⟩
      cases vs with
      | nil => rfl
      | cons v vs =>
        have hsame := (octetOf_octetByte hoctet (h v mem_cons_self)).mp (cons.inj hvs).1
        rw [hchar] at hsame
        cases hsame
    · rw [toKey, if_neg hoctet, fromKey, if_neg hoctet] at hread
      obtain ⟨⟨us, stream⟩, helems, hret⟩ := bind_eq_ok.mp hread
      cases hret
      obtain ⟨hall, hrest⟩ := readElements_eq_ok (P := t.Faithful)
        (fun v hv => Ty.faithful_of_fromKey t (h v hv) hf) helems
      refine ⟨⟨fun hchar => ?_, hall⟩, hrest⟩
      cases t with
      | scalar s =>
        cases s with
        | char signed => exact absurd rfl hoctet
        | _ => cases hchar
      | _ => cases hchar
  | .optional _, .nullopt, _, _, rest, rest', hread => by
    cases hread
    exact ⟨trivial, rfl⟩
  | .optional t, .some v, h, hf, rest, rest', hread => by
    rw [toKey, cons_append, fromKey, readByte, ok_bind] at hread
    obtain ⟨⟨u, stream⟩, helem, hret⟩ := bind_eq_ok.mp hread
    cases hret
    exact Ty.faithful_of_fromKey t h hf rest _ helem
  | .variant ts, .alt i v, h, hf, rest, rest', hread => by
    rw [toKey, cons_append, fromKey, readByte, ok_bind] at hread
    obtain ⟨⟨u, stream⟩, halt, hret⟩ := bind_eq_ok.mp hread
    obtain ⟨hv, hrest⟩ := Prod.mk.inj (Except.ok.inj hret)
    obtain ⟨hi, hu⟩ := Val.alt.inj hv
    rw [hi, hu, hrest] at halt
    have hlt : i < 256 := by
      rw [← hi]
      exact UInt8.toNat_lt _
    obtain ⟨hfaith, hrest⟩ := Tys.faithfulAt_of_fromKeyAt ts h hf rest rest' halt
    exact ⟨⟨hlt, hfaith⟩, hrest⟩
  | .members ts, .list vs, h, hf, rest, rest', hread => by
    obtain ⟨⟨us, stream⟩, hall, hret⟩ := bind_eq_ok.mp hread
    cases hret
    exact Tys.faithfulAll_of_fromKeyAll ts h hf rest _ hall

private theorem Tys.faithfulAll_of_fromKeyAll : (ts : Tys) → {vs : List Val} → ts.HasAll vs →
    ts.FloatFree → ∀ rest rest', ts.fromKeyAll (ts.toKeyAll vs ++ rest) = .ok (vs, rest') →
      ts.FaithfulAll vs ∧ rest' = rest
  | .nil, [], _, _, _, _, hread => by
    cases hread
    exact ⟨trivial, rfl⟩
  | .cons t ts, v :: vs, h, hf, rest, rest', hread => by
    rw [Tys.toKeyAll, append_assoc, Tys.fromKeyAll] at hread
    obtain ⟨⟨u, stream⟩, hhead, hread⟩ := bind_eq_ok.mp hread
    obtain ⟨⟨us, stream'⟩, htail, hret⟩ := bind_eq_ok.mp hread
    cases hret
    obtain ⟨hfaith, hstream⟩ := Ty.faithful_of_fromKey t h.1 hf.1 _ _ hhead
    rw [hstream] at htail
    obtain ⟨hfaiths, hrest⟩ := Tys.faithfulAll_of_fromKeyAll ts h.2 hf.2 rest _ htail
    exact ⟨⟨hfaith, hfaiths⟩, hrest⟩

private theorem Tys.faithfulAt_of_fromKeyAt : (ts : Tys) → {i : Nat} → {v : Val} → ts.HasAt i v →
    ts.FloatFree → ∀ rest rest', ts.fromKeyAt i (ts.toKeyAt i v ++ rest) = .ok (v, rest') →
      ts.FaithfulAt i v ∧ rest' = rest
  | .cons t _, 0, _, h, hf, rest, rest', hread => Ty.faithful_of_fromKey t h hf.1 rest rest' hread
  | .cons _ ts, _ + 1, _, h, hf, rest, rest', hread =>
    Tys.faithfulAt_of_fromKeyAt ts h hf.2 rest rest' hread

end

/-- `key_size` announces the bytes of a key, and `from_key` reads the value back from them, exactly
if the value is faithful. -/
theorem key_roundTrip_iff_faithful {t : Ty} {v : Val} (h : t.Has v) (hf : t.FloatFree) :
    (t.keySize v = (t.toKey v).length ∧
      ∀ rest, t.fromKey (t.toKey v ++ rest) = .ok (v, rest)) ↔ t.Faithful v := by
  constructor
  · intro hboth
    exact (faithful_of_fromKey t h hf [] [] (hboth.2 [])).1
  · intro hfaith
    exact ⟨(length_toKey t h).symm, fromKey_toKey t h hf hfaith⟩

/-- `std::vector<int8_t>` with the least and another element. -/
theorem key_roundTrip_int8 : (vector (.scalar (.int .one true))).fromKey
        ((vector (.scalar (.int .one true))).toKey (.list [.int (-128), .int 5]) ++ [7]) =
      .ok (.list [.int (-128), .int 5], [7]) := by
  have hv : (vector (.scalar (.int .one true))).Has (.list [.int (-128), .int 5]) := by
    intro v hv
    rcases mem_pair.mp hv with rfl | rfl <;> exact ⟨by decide, by decide⟩
  refine ((key_roundTrip_iff_faithful hv trivial).mpr ?_).2 [7]
  exact ⟨nofun, fun _ _ => trivial⟩

/-- The bytes of `std::vector<char>` are not flipped back. -/
theorem key_char_not_roundTrip : (vector (.scalar (.char true))).Has (.list [.int 97]) ∧
      (vector (.scalar (.char true))).fromKey
        ((vector (.scalar (.char true))).toKey (.list [.int 97])) =
          .ok (.list [.int (-31)], []) := by
  exact ⟨forall_mem_singleton.mpr ⟨by decide, by decide⟩, rfl⟩

end PsiServe.Key
