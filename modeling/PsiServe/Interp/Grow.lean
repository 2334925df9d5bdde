import PsiServe.Interp.Deferred

/-!
# Growing memory

`memory.grow` with the bytes of the memory; `interpret_visitor.hpp:345–356`,
`execution_context.hpp:162–179`, `allocator.hpp:799–812`.
-/

namespace PsiServe.Interp

open Bitcode Wasm

variable {W : Type}

/-- The bytes of a memory whose pages from `old` to `new` are cleared; `allocator.hpp:808–809`. -/
def clearPages (raw : Nat → UInt8) (old new : UInt32) : Nat → UInt8 := fun i =>
  if old.toNat * 65536 ≤ i ∧ i < new.toNat * 65536 then 0 else raw i

/-- `memory.grow`. -/
def growMemory (env : Env W) (c : Context W) (raw : Nat → UInt8) (v : Value) :
    Except Trap (Context W × (Nat → UInt8) × Value) :=
  match growLinearMemory env c v.toUi32 with
  | .error t => .error t
  | .ok (d, result) => .ok (d, clearPages raw c.pages d.pages, growResult env.module result)

/-- The pages an operand asks for. -/
def askedPages (env : Env W) (v : Value) : Nat :=
  if env.module.isMemory64 then v.toUi64.toNat else v.toUi32.toNat

/-- A size is within the declared maximum and the limits of the instance and its allocator. -/
def WithinLimits (env : Env W) (pages : Nat) : Prop :=
  ∃ mt ∈ env.module.memories.head?, pages ≤ env.maxPages.toNat ∧ pages ≤ env.allocLimit.toNat ∧
    (mt.limits.flags → pages ≤ mt.limits.maximum)

/-- `memory.grow` adds cleared pages if the limits allow it, and otherwise changes nothing and
gives minus one. -/
def GrowsExactly (env : Env W) (c : Context W) (raw : Nat → UInt8) (v : Value) : Prop :=
  let size := c.pages.toNat + askedPages env v
  (WithinLimits env size → ∃ d raw', d.pages.toNat = size ∧
    growMemory env c raw v = .ok (d, raw', currentMemory env.module c.pages) ∧
    (∀ i < c.pages.toNat * 65536, raw' i = raw i) ∧
    ∀ i < size * 65536, c.pages.toNat * 65536 ≤ i → raw' i = 0) ∧
  (¬WithinLimits env size → growMemory env c raw v =
    .ok (c, raw, if env.module.isMemory64 then .i64 0xFFFFFFFFFFFFFFFF else .i32 0xFFFFFFFF))

/-- The limits of the instance and of the declaration. -/
def pageLimits (env : Env W) (mt : MemoryType) : List Nat :=
  env.maxPages.toNat :: if mt.limits.flags then [mt.limits.maximum] else []

/-- More pages lead over a limit; if there are too many already, over it by `2 ^ 32`. -/
def Exceeds (pages more limit : Nat) : Prop :=
  limit < pages + more ∧ (limit < pages → limit + 2 ^ 32 < pages + more)

section

variable {env : Env W} {c d : Context W} {raw : Nat → UInt8} {v : Value} {mt : MemoryType}
  {rest : List MemoryType}

private theorem clearPages_self (raw : Nat → UInt8) (old : UInt32) :
    clearPages raw old old = raw := by
  funext i
  exact if_neg (by omega)

/-- What is left under a limit is computed modulo `2 ^ 32`. -/
theorem sub_lt_iff_exceeds {limit pages more : UInt32} :
    limit - pages < more ↔ Exceeds pages.toNat more.toNat limit.toNat := by
  have hlimit := limit.toNat_lt
  have hpages := pages.toNat_lt
  have hmore := more.toNat_lt
  rw [UInt32.lt_iff_toNat_lt, UInt32.toNat_sub, Exceeds]
  by_cases hle : pages.toNat ≤ limit.toNat
  · rw [show 2 ^ 32 - pages.toNat + limit.toNat = limit.toNat - pages.toNat + 2 ^ 32 by omega,
      Nat.add_mod_right, Nat.mod_eq_of_lt (by omega)]
    omega
  · rw [Nat.mod_eq_of_lt (by omega)]
    omega

/-- An operand below `2 ^ 32` is not truncated. -/
theorem askedPages_eq (h : askedPages env v < 2 ^ 32) :
    askedPages env v = v.toUi32.toNat := by
  rw [askedPages] at h ⊢
  split
  next h64 =>
    rw [if_pos h64] at h
    exact (Nat.mod_eq_of_lt h).symm
  · rfl

/-- The test of `grow_linear_memory_impl`. -/
theorem growLinearMemory_test (hmaximum : mt.limits.maximum < 2 ^ 32) :
    (env.maxPages - c.pages < v.toUi32 ∨
      mt.limits.flags ∧ UInt32.ofNat mt.limits.maximum - c.pages < v.toUi32) ↔
    ∃ limit ∈ pageLimits env mt, Exceeds c.pages.toNat v.toUi32.toNat limit := by
  rw [sub_lt_iff_exceeds, sub_lt_iff_exceeds, UInt32.toNat_ofNat_of_lt' hmaximum, pageLimits]
  cases mt.limits.flags <;> simp

section

variable (hm : env.module.memories = mt :: rest)

include hm

/-- The limits in terms of the low half of the operand. -/
theorem withinLimits_iff : WithinLimits env (c.pages.toNat + askedPages env v) ↔
    askedPages env v < 2 ^ 32 ∧ ∀ limit ∈ env.allocLimit.toNat :: pageLimits env mt,
      c.pages.toNat + v.toUi32.toNat ≤ limit := by
  have hlt := env.maxPages.toNat_lt
  simp only [WithinLimits, hm, List.head?_cons, Option.mem_some, exists_eq_left', pageLimits,
    List.forall_mem_cons]
  constructor
  · rintro ⟨hmax, halloc, hdeclared⟩
    have hasked : askedPages env v < 2 ^ 32 := by omega
    rw [askedPages_eq hasked] at hmax halloc hdeclared
    refine ⟨hasked, halloc, hmax, ?_⟩
    split <;> simp_all
  · rintro ⟨hasked, halloc, hmax, hdeclared⟩
    rw [askedPages_eq hasked]
    refine ⟨hmax, halloc, fun hflags => ?_⟩
    rw [if_pos hflags] at hdeclared
    exact hdeclared _ (List.mem_singleton_self _)

variable (hmaximum : mt.limits.maximum < 2 ^ 32)

include hmaximum

/-- A request that exceeds a limit fails. -/
theorem growLinearMemory_exceeds
    (h : ∃ limit ∈ pageLimits env mt, Exceeds c.pages.toNat v.toUi32.toNat limit) :
    growLinearMemory env c v.toUi32 = .ok (c, 0xFFFFFFFF) := by
  simp only [growLinearMemory, hm]
  exact if_pos ((growLinearMemory_test hmaximum).mpr h)

/-- Any other request grows the memory by the low half of the operand, or throws if the allocator
or the system refuses the pages. -/
theorem growLinearMemory_fits
    (h : ¬∃ limit ∈ pageLimits env mt, Exceeds c.pages.toNat v.toUi32.toNat limit) :
    (∃ t, growLinearMemory env c v.toUi32 = .error t ∧ v.toUi32 ≠ 0 ∧
        (env.allocLimit.toNat < c.pages.toNat + v.toUi32.toNat ∨
          env.mprotect c.pages v.toUi32 = false)) ∨
      ∃ d, growLinearMemory env c v.toUi32 = .ok (d, c.pages) ∧
        d.pages.toNat = c.pages.toNat + v.toUi32.toNat ∧
          (v.toUi32 = 0 ∨ env.mprotect c.pages v.toUi32 = true) := by
  simp only [growLinearMemory, hm]
  rw [if_neg fun htest => h ((growLinearMemory_test hmaximum).mp htest)]
  split
  next hzero =>
    rw [hzero]
    exact .inr ⟨c, rfl, rfl, .inl rfl⟩
  next hzero =>
    split
    next hlimit => exact .inl ⟨_, rfl, hzero, .inl (by omega)⟩
    next hlimit =>
      split
      next hrefused => exact .inl ⟨_, rfl, hzero, .inr hrefused⟩
      next hgranted =>
        have hlt := env.allocLimit.toNat_lt
        refine .inr ⟨_, rfl, ?_, .inr (Bool.not_eq_false _ ▸ hgranted)⟩
        rw [UInt32.toNat_add, Nat.mod_eq_of_lt (by omega)]

end

private theorem growResult_minus_one (m : Module) : growResult m 0xFFFFFFFF =
    if m.isMemory64 then .i64 0xFFFFFFFFFFFFFFFF else .i32 0xFFFFFFFF := by
  rw [growResult, if_pos rfl]

private theorem growResult_pages {pages : UInt32} (m : Module) (h : pages.toNat < 2 ^ 31) :
    growResult m pages = currentMemory m pages ∧ growResult m pages ≠ growResult m 0xFFFFFFFF := by
  have hne : pages ≠ 0xFFFFFFFF := by
    rintro rfl
    exact absurd h (by decide)
  rw [growResult_minus_one, growResult, currentMemory, if_neg hne]
  refine ⟨rfl, ?_⟩
  split
  · intro heq
    have hnat := congrArg UInt64.toNat (Value.i64.inj heq)
    have hlt := pages.toNat_lt
    rw [UInt32.toNat_toUInt64] at hnat
    exact absurd (hnat ▸ hlt) (by decide)
  · exact fun heq => hne (Value.i32.inj heq)

/-- The size of a memory is an `int32_t`, and not negative; a declared maximum is a `uint32_t`.
`memory.grow` is exact if the low half of the operand leads over a limit, or if it is the whole
operand, all limits allow it and the system makes the new pages accessible. -/
theorem growsExactly_iff (hpages : c.pages.toNat < 2 ^ 31)
    (hmaximum : ∀ mt ∈ env.module.memories.head?, mt.limits.maximum < 2 ^ 32) :
    GrowsExactly env c raw v ↔ ∀ mt ∈ env.module.memories.head?,
      (∃ limit ∈ pageLimits env mt, Exceeds c.pages.toNat v.toUi32.toNat limit) ∨
        askedPages env v < 2 ^ 32 ∧
        (∀ limit ∈ env.allocLimit.toNat :: pageLimits env mt,
          c.pages.toNat + v.toUi32.toNat ≤ limit) ∧
        (v.toUi32 = 0 ∨ env.mprotect c.pages v.toUi32 = true) := by
  obtain ⟨hsame, hne⟩ := growResult_pages env.module hpages
  rw [GrowsExactly, ← hsame, ← growResult_minus_one, growMemory]
  cases hm : env.module.memories with
  | nil =>
    have hnot : ¬WithinLimits env (c.pages.toNat + askedPages env v) := by simp [WithinLimits, hm]
    simp [growLinearMemory, hm, hnot, clearPages_self]
  | cons mt rest =>
    rw [hm] at hmaximum
    have hmaximum := hmaximum mt rfl
    have hwithin := withinLimits_iff (c := c) (v := v) hm
    simp only [List.head?_cons, Option.mem_some, forall_eq',
      ← and_assoc (a := askedPages env v < _)]
    rw [← hwithin]
    by_cases hexceeds : ∃ limit ∈ pageLimits env mt, Exceeds c.pages.toNat v.toUi32.toNat limit
    · have hnot : ¬WithinLimits env (c.pages.toNat + askedPages env v) := by
        obtain ⟨limit, hlimit, hover, -⟩ := hexceeds
        intro h
        exact absurd ((hwithin.mp h).2 limit (List.mem_cons_of_mem _ hlimit)) (by omega)
      rw [growLinearMemory_exceeds hm hmaximum hexceeds]
      dsimp only
      rw [clearPages_self]
      exact iff_of_true ⟨fun h => absurd h hnot, fun _ => rfl⟩ (.inl hexceeds)
    · rw [or_iff_right hexceeds]
      obtain ⟨t, herror, hzero, hrefused⟩ | ⟨d, hgrow, hd, hgranted⟩ :=
        growLinearMemory_fits hm hmaximum hexceeds
      · rw [herror]
        refine iff_of_false (fun hexact => ?_) fun ⟨h, haccess⟩ => ?_
        · by_cases h : WithinLimits env (c.pages.toNat + askedPages env v)
          · obtain ⟨_, _, -, hgrow, -⟩ := hexact.1 h
            cases hgrow
          · cases hexact.2 h
        · have halloc := (hwithin.mp h).2 _ List.mem_cons_self
          grind
      · rw [hgrow]
        constructor
        · rintro ⟨-, hfailed⟩
          refine ⟨not_not.mp fun h => ?_, hgranted⟩
          injection hfailed h with hfailed
          exact hne (congrArg (·.2.2) hfailed)
        · rintro ⟨h, -⟩
          refine ⟨fun _ => ?_, fun hnot => absurd h hnot⟩
          rw [askedPages_eq (hwithin.mp h).1]
          refine ⟨d, _, hd, rfl, fun i hi => if_neg (by omega), fun i hi hle => if_pos ?_⟩
          rw [hd]
          exact ⟨hle, hi⟩

end

/-- A page of memory with 64-bit addresses. -/
def page64 : Env Unit :=
  { pageEnv [] with
    module := { (pageEnv []).module with memories := [⟨⟨false, 1, 0⟩, true⟩] } }

/-- A memory within all limits grows by one page. -/
theorem growsExactly_by_one :
    GrowsExactly (pageEnv []) (pageMachine .strict).ctx (fun _ => 7) (.i32 1) := by
  refine (growsExactly_iff (by decide) (by decide)).mpr fun mt hmt => .inr ?_
  cases hmt
  exact ⟨by decide, by decide, .inr rfl⟩

/-- Growing by `2 ^ 32` pages succeeds without a new page. -/
theorem grows_by_truncated : ¬GrowsExactly page64 (pageMachine .strict).ctx (fun _ => 7)
    (.i64 0x100000000) := by
  intro h
  have hnot : ¬WithinLimits page64 4294967297 := by
    rintro ⟨mt, -, hmax, -⟩
    exact absurd hmax (by decide)
  injection h.2 hnot with hgrow
  exact absurd (congrArg (·.2.2) hgrow) (by decide)

end PsiServe.Interp
