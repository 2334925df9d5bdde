import PsiServe.Base.LittleEndian

/-!
# Codes that keep an order

A code turns values into lists of symbols that compare as the values do. Codewords that are put
one after another keep the order only if the comparison of two of them is settled inside of both,
so the notion here is about codewords with anything behind them.
-/

namespace PsiServe.Base

open List Ordering

section

variable {α β γ : Type} [Ord β]

/-- The codewords of two values compare as the values do, and what follows them counts only if
the values are equal. -/
def Sorts (P : α → Prop) (cmp : α → α → Ordering) (code : α → List β) : Prop :=
  ∀ ⦃a b : α⦄, P a → P b → ∀ x y : List β,
    compare (code a ++ x) (code b ++ y) = (cmp a b).then (compare x y)

variable {P : α → Prop} {cmp : α → α → Ordering} {code : α → List β}

namespace Sorts

private theorem symbol (f : α → β) : Sorts P (fun a b => compare (f a) (f b)) (fun a => [f a]) := by
  intro a b _ _ x y
  exact List.compare_cons_cons

section

variable (h : Sorts P cmp code)

include h

/-- Codewords compare as their values do. -/
theorem compare_eq {a b : α} (ha : P a) (hb : P b) : compare (code a) (code b) = cmp a b := by
  have hab := h ha hb [] []
  rwa [List.append_nil, List.append_nil, List.compare_nil_nil, then_eq] at hab

/-- No codeword is a proper prefix of another. -/
theorem eq_of_prefix [Std.ReflOrd β] {a b : α} (ha : P a) (hb : P b) (hpre : code a <+: code b) :
    code a = code b := by
  obtain ⟨z, hz⟩ := hpre
  cases z with
  | nil => rwa [append_nil] at hz
  | cons s z =>
    have hab := h ha hb (s :: z) []
    rw [hz, List.append_nil, Std.ReflOrd.compare_self, List.compare_cons_nil] at hab
    have hgt := (then_eq_eq.mp hab.symm).2
    cases hgt

private theorem append {cmp' : α → α → Ordering} {code' : α → List β} (h' : Sorts P cmp' code') :
    Sorts P (fun a b => (cmp a b).then (cmp' a b)) (fun a => code a ++ code' a) := by
  intro a b ha hb x y
  rw [append_assoc, append_assoc, h ha hb, h' ha hb, then_assoc]

private theorem comap {Q : γ → Prop} (f : γ → α) (hf : ∀ c, Q c → P (f c)) :
    Sorts Q (fun a b => cmp (f a) (f b)) (fun c => code (f c)) :=
  fun _ _ ha hb => h (hf _ ha) (hf _ hb)

/-- Elements that are each announced by `one`, with `zero` at the end. -/
theorem list {zero one : β} (hlt : compare zero one = .lt) (hgt : compare one zero = .gt)
    (hone : compare one one = .eq) (hzero : compare zero zero = .eq) :
    Sorts (fun l : List α => ∀ a ∈ l, P a) (List.compareLex cmp)
      (fun l => l.flatMap (fun a => one :: code a) ++ [zero]) := by
  intro as
  induction as with
  | nil =>
    intro bs _ _ x y
    cases bs with
    | nil =>
      simp only [List.flatMap_nil, List.nil_append, List.cons_append, List.compare_cons_cons,
        hzero, List.compareLex_nil_nil]
    | cons b bs =>
      simp only [flatMap_nil, flatMap_cons, nil_append, cons_append,
        List.compare_cons_cons, hlt, List.compareLex_nil_cons]
      rfl
  | cons a as ih =>
    intro bs ha hb x y
    cases bs with
    | nil =>
      simp only [flatMap_nil, flatMap_cons, nil_append, cons_append,
        List.compare_cons_cons, hgt, List.compareLex_cons_nil]
      rfl
    | cons b bs =>
      have hrest := ih (b := bs) (forall_mem_cons.mp ha).2
        (forall_mem_cons.mp hb).2 x y
      simp only [List.flatMap_cons, List.cons_append, List.append_assoc, List.compare_cons_cons,
        hone, eq_then, List.compareLex_cons_cons] at hrest ⊢
      rw [h (ha a List.mem_cons_self) (hb b List.mem_cons_self), hrest, then_assoc]

end

end Sorts

end

/-! ### Escaped lists -/

section

variable {β : Type} [DecidableEq β] {zero one : β}

/-- Every `zero` is followed by `one`, and two of them end the codeword. -/
def escape (zero one : β) (l : List β) : List β :=
  l.flatMap (fun b => if b = zero then [zero, one] else [b]) ++ [zero, zero]

/-- The escaped empty string is the terminator. -/
theorem escape_nil : escape zero one [] = [zero, zero] := rfl

/-- A zero is escaped. -/
theorem escape_cons_zero (l : List β) :
    escape zero one (zero :: l) = zero :: one :: escape zero one l := by
  simp [escape]

private theorem escape_cons_of_ne {b : β} (h : b ≠ zero) (l : List β) :
    escape zero one (b :: l) = b :: escape zero one l := by
  simp [escape, h]

/-- A run without zeros is copied. -/
theorem escape_append_of_all_ne {xs : List β} (h : ∀ b ∈ xs, b ≠ zero) (l : List β) :
    escape zero one (xs ++ l) = xs ++ escape zero one l := by
  induction xs with
  | nil => rfl
  | cons b xs ih =>
    rw [cons_append, escape_cons_of_ne (h b mem_cons_self),
      ih (forall_mem_cons.mp h).2, cons_append]

/-- An escaped string has one symbol more for each zero, and the terminator. -/
theorem length_escape (l : List β) :
    (escape zero one l).length = l.length + l.countP (· == zero) + 2 := by
  induction l with
  | nil => rfl
  | cons b l ih =>
    by_cases hb : b = zero
    · subst hb
      rw [escape_cons_zero, countP_cons_of_pos (by simp)]
      simp only [length_cons, ih]
      omega
    · rw [escape_cons_of_ne hb, countP_cons_of_neg (by simp [hb])]
      simp only [length_cons, ih]
      omega

/-- Escaped lists compare as the lists do if `zero` is the least symbol. -/
theorem sorts_escape [Ord β] [Std.LawfulEqOrd β] (hlt : ∀ b : β, b ≠ zero → compare zero b = .lt)
    (hgt : ∀ b : β, b ≠ zero → compare b zero = .gt) (hone : one ≠ zero) :
    Sorts (fun _ => True) compare (escape zero one) := by
  intro as
  induction as with
  | nil =>
    intro bs _ _ x y
    cases bs with
    | nil => simp only [escape_nil, List.cons_append, List.nil_append, List.compare_cons_cons,
        Std.ReflOrd.compare_self, eq_then]
    | cons b bs =>
      by_cases hb : b = zero
      · subst hb
        simp only [escape_nil, escape_cons_zero, List.cons_append, List.compare_cons_cons,
          Std.ReflOrd.compare_self, eq_then, hlt one hone]
        rfl
      · simp only [escape_nil, escape_cons_of_ne hb, List.cons_append, List.compare_cons_cons,
          hlt b hb]
        rfl
  | cons a as ih =>
    intro bs _ _ x y
    cases bs with
    | nil =>
      by_cases ha : a = zero
      · subst ha
        simp only [escape_nil, escape_cons_zero, List.cons_append, List.compare_cons_cons,
          Std.ReflOrd.compare_self, eq_then, hgt one hone]
        rfl
      · simp only [escape_nil, escape_cons_of_ne ha, List.cons_append, List.compare_cons_cons,
          hgt a ha]
        rfl
    | cons b bs =>
      have hrest := ih (b := bs) trivial trivial x y
      by_cases ha : a = zero
      · by_cases hb : b = zero
        · subst ha
          rw [hb, escape_cons_zero, escape_cons_zero]
          simp only [List.cons_append, List.compare_cons_cons, Std.ReflOrd.compare_self,
            eq_then, hrest]
        · rw [ha, escape_cons_zero, escape_cons_of_ne hb]
          simp only [List.cons_append, List.compare_cons_cons, hlt b hb]
          rfl
      · by_cases hb : b = zero
        · rw [hb, escape_cons_zero, escape_cons_of_ne ha]
          simp only [List.cons_append, List.compare_cons_cons, hgt a ha]
          rfl
        · rw [escape_cons_of_ne ha, escape_cons_of_ne hb]
          simp only [List.cons_append, List.compare_cons_cons, hrest, then_assoc]

end

/-! ### Numbers, the most significant byte first -/

/-- The low `n` bytes of a number, most significant first. -/
def beBytes (n v : Nat) : Bytes := (leBytes n v).reverse

/-- The number that a sequence of bytes stands for, most significant first. -/
def beValue (bs : Bytes) : Nat := leValue bs.reverse

/-- A number takes as many bytes as it is written with. -/
@[simp]
theorem length_beBytes (n v : Nat) : (beBytes n v).length = n := by simp [beBytes]

/-- A number that fits is read back. -/
theorem beValue_beBytes {n v : Nat} (h : v < 256 ^ n) : beValue (beBytes n v) = v := by
  rw [beValue, beBytes, reverse_reverse, leValue_leBytes h]

/-- The last byte is the lowest one. -/
theorem beBytes_succ (n v : Nat) : beBytes (n + 1) v = beBytes n (v / 256) ++ [UInt8.ofNat v] := by
  rw [beBytes, leBytes, reverse_cons]
  rfl

/-- Bytes compare as numbers do. -/
theorem compare_toNat (a b : UInt8) : compare a b = compare a.toNat b.toNat := by
  rw [Nat.compare_eq_ite_lt]
  simp only [compare, compareOfLessAndEq, UInt8.lt_iff_toNat_lt, ← UInt8.toNat_inj]
  by_cases hlt : a.toNat < b.toNat
  · rw [if_pos hlt, if_pos hlt]
  · rw [if_neg hlt, if_neg hlt]
    by_cases heq : a.toNat = b.toNat
    · rw [if_pos heq, if_neg (by omega)]
    · rw [if_neg heq, if_pos (by omega)]

private theorem compare_digits (v w : Nat) :
    compare v w = (compare (v / 256) (w / 256)).then (compare (v % 256) (w % 256)) := by
  rcases Nat.lt_trichotomy (v / 256) (w / 256) with h | h | h
  · have hlt : v < w := by omega
    rw [Nat.compare_eq_lt.mpr h, Nat.compare_eq_lt.mpr hlt]
    rfl
  · have hlt : v < w ↔ v % 256 < w % 256 := by omega
    have hgt : w < v ↔ w % 256 < v % 256 := by omega
    rw [h, Nat.compare_eq_eq.mpr rfl, eq_then, Nat.compare_eq_ite_lt, Nat.compare_eq_ite_lt]
    simp only [hlt, hgt]
  · have hgt : w < v := by omega
    rw [Nat.compare_eq_gt.mpr h, Nat.compare_eq_gt.mpr hgt]
    rfl

/-- Numbers of `n` bytes compare as the bytes do. -/
theorem sorts_beBytes (n : Nat) : Sorts (fun v => v < 256 ^ n) compare (beBytes n) := by
  induction n with
  | zero =>
    intro v w hv hw x y
    have hv0 : v = 0 := by simpa using hv
    have hw0 : w = 0 := by simpa using hw
    rw [hv0, hw0]
    rfl
  | succ n ih =>
    intro v w hv hw x y
    have hdiv : ∀ u, u < 256 ^ (n + 1) → u / 256 < 256 ^ n := fun u hu =>
      Nat.div_lt_of_lt_mul (by rwa [mul_comm, ← pow_succ])
    have hparts := ((ih.comap (· / 256) hdiv).append (.symbol UInt8.ofNat)) hv hw x y
    rw [beBytes_succ, beBytes_succ, hparts, compare_digits v w]
    dsimp only
    rw [compare_toNat, UInt8.toNat_ofNat', UInt8.toNat_ofNat']

/-! ### The bit of a sign -/

/-- To flip the highest bit is to add half of the range, modulo the range. -/
theorem xor_two_pow {k v : Nat} (h : v < 2 ^ (k + 1)) :
    v ^^^ 2 ^ k = if v < 2 ^ k then v + 2 ^ k else v - 2 ^ k := by
  have hdiv : (v ^^^ 2 ^ k) / 2 ^ k = v / 2 ^ k ^^^ 1 := by
    rw [Nat.xor_div_two_pow, Nat.div_self (Nat.two_pow_pos k)]
  have hmod : (v ^^^ 2 ^ k) % 2 ^ k = v % 2 ^ k := by
    rw [Nat.xor_mod_two_pow, Nat.mod_self, Nat.xor_zero]
  rw [← Nat.div_add_mod (v ^^^ 2 ^ k) (2 ^ k), hdiv, hmod]
  split
  next hlow =>
    rw [Nat.div_eq_of_lt hlow, Nat.mod_eq_of_lt hlow, Nat.zero_xor]
    omega
  next hhigh =>
    have hone : v / 2 ^ k = 1 := Nat.div_eq_of_lt_le (by omega) (by omega)
    rw [hone, Nat.xor_self, mul_zero, zero_add, Nat.mod_eq_sub_mod (by omega),
      Nat.mod_eq_of_lt (by omega)]

end PsiServe.Base
