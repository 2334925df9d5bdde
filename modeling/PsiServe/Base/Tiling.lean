import Mathlib.Data.Nat.Basic

/-!
# Regions of addresses tiled by blocks

A region or a block is a start and a length. A family of blocks tiles a
family of regions when the blocks are disjoint, lie inside the regions and leave nothing of
them uncovered; cutting a block, joining two touching ones and adding a region keep that.
-/

namespace PsiServe.Base

variable {regions blocks blocks' : Nat → Nat → Prop}

/-- Nonempty disjoint blocks, each inside one region, that cover every region. -/
structure Tiling (regions blocks : Nat → Nat → Prop) : Prop where
  positive : ∀ {p n}, blocks p n → 0 < n
  inside : ∀ {p n}, blocks p n → ∃ b s, regions b s ∧ b ≤ p ∧ p + n ≤ b + s
  apart : ∀ {p n q m}, blocks p n → blocks q m → (p = q ∧ n = m) ∨ p + n ≤ q ∨ q + m ≤ p
  covers : ∀ {b s x}, regions b s → b ≤ x → x < b + s → ∃ p n, blocks p n ∧ p ≤ x ∧ x < p + n

/-- Different regions leave a gap between them. -/
def Separated (regions : Nat → Nat → Prop) : Prop :=
  ∀ b s b' s', regions b s → regions b' s' → (b = b' ∧ s = s') ∨ b + s < b' ∨ b' + s' < b

namespace Tiling

variable {p n m b s : Nat}

section

variable (h : Tiling regions blocks)

include h

/-- Only the blocks matter, not how they are recorded. -/
theorem congr (hiff : ∀ p n, blocks' p n ↔ blocks p n) : Tiling regions blocks' := by
  have heq : blocks' = blocks := funext fun p => funext fun n => propext (hiff p n)
  rw [heq]
  exact h

/-- A block has one length. -/
theorem length_eq (hn : blocks p n) (hm : blocks p m) : n = m := by
  have hn' := h.positive hn
  have hm' := h.positive hm
  rcases h.apart hn hm with ⟨-, heq⟩ | hle | hle
  · exact heq
  · omega
  · omega

/-- Cut one block in two. -/
theorem split {k : Nat} (hp : blocks p n) (hk : 0 < k) (hkn : k < n)
    (hiff : ∀ q m, blocks' q m ↔ (q ≠ p ∧ blocks q m) ∨ (q = p ∧ m = k) ∨ (q = p + k ∧ m = n - k)) :
    Tiling regions blocks' := by
  -- blocks that stay are away from the block cut
  have haway : ∀ {q m}, q ≠ p → blocks q m → p + n ≤ q ∨ q + m ≤ p := by
    intro q m hne hq
    rcases h.apart hp hq with ⟨heq, -⟩ | hle | hle
    · exact absurd heq.symm hne
    · exact .inl hle
    · exact .inr hle
  refine ⟨fun {q m} hq => ?_, fun {q m} hq => ?_, fun {q m q' m'} hq hq' => ?_,
    fun {b s x} hb hle hlt => ?_⟩
  · rcases (hiff q m).mp hq with ⟨-, hold⟩ | ⟨-, rfl⟩ | ⟨-, rfl⟩
    · exact h.positive hold
    · exact hk
    · omega
  · obtain ⟨b, s, hb, hbp, hps⟩ := h.inside hp
    rcases (hiff q m).mp hq with ⟨-, hold⟩ | ⟨rfl, rfl⟩ | ⟨rfl, rfl⟩
    · exact h.inside hold
    · exact ⟨b, s, hb, hbp, by omega⟩
    · exact ⟨b, s, hb, by omega, by omega⟩
  · rcases (hiff q m).mp hq with ⟨hne, hold⟩ | ⟨rfl, rfl⟩ | ⟨rfl, rfl⟩ <;>
      rcases (hiff q' m').mp hq' with ⟨hne', hold'⟩ | ⟨rfl, rfl⟩ | ⟨rfl, rfl⟩
    · exact h.apart hold hold'
    · have := haway hne hold
      omega
    · have := haway hne hold
      omega
    · have := haway hne' hold'
      omega
    · omega
    · omega
    · have := haway hne' hold'
      omega
    · omega
    · omega
  · obtain ⟨q, m, hq, hqx, hxm⟩ := h.covers hb hle hlt
    by_cases hne : q = p
    · subst hne
      obtain rfl := h.length_eq hp hq
      by_cases hx : x < q + k
      · exact ⟨q, k, (hiff _ _).mpr (.inr (.inl ⟨rfl, rfl⟩)), hqx, hx⟩
      · exact ⟨q + k, n - k, (hiff _ _).mpr (.inr (.inr ⟨rfl, rfl⟩)), by omega, by omega⟩
    · exact ⟨q, m, (hiff _ _).mpr (.inl ⟨hne, hq⟩), hqx, hxm⟩

/-- Touching blocks of separated regions lie in one region. -/
theorem inside_touching (hsep : Separated regions) (hp : blocks p n)
    (hq : blocks (p + n) m) : ∃ b s, regions b s ∧ b ≤ p ∧ p + (n + m) ≤ b + s := by
  obtain ⟨b, s, hb, hbp, hps⟩ := h.inside hp
  obtain ⟨b', s', hb', hbq, hqs⟩ := h.inside hq
  rcases hsep b s b' s' hb hb' with ⟨rfl, rfl⟩ | hlt | hlt
  · exact ⟨b, s, hb, hbp, by omega⟩
  · omega
  · omega

/-- Join two touching blocks. -/
theorem merge (hsep : Separated regions) (hp : blocks p n) (hq : blocks (p + n) m)
    (hiff : ∀ q l, blocks' q l ↔ (q ≠ p ∧ q ≠ p + n ∧ blocks q l) ∨ (q = p ∧ l = n + m)) :
    Tiling regions blocks' := by
  have hn := h.positive hp
  have haway : ∀ {q l}, q ≠ p → q ≠ p + n → blocks q l → p + (n + m) ≤ q ∨ q + l ≤ p := by
    intro q l hne hne' hl
    have h₁ := h.apart hp hl
    have h₂ := h.apart hq hl
    omega
  refine ⟨fun {q l} hl => ?_, fun {q l} hl => ?_, fun {q l q' l'} hl hl' => ?_,
    fun {b s x} hb hle hlt => ?_⟩
  · rcases (hiff q l).mp hl with ⟨-, -, hold⟩ | ⟨-, rfl⟩
    · exact h.positive hold
    · omega
  · rcases (hiff q l).mp hl with ⟨-, -, hold⟩ | ⟨rfl, rfl⟩
    · exact h.inside hold
    · exact h.inside_touching hsep hp hq
  · rcases (hiff q l).mp hl with ⟨hne, hne₂, hold⟩ | ⟨rfl, rfl⟩ <;>
      rcases (hiff q' l').mp hl' with ⟨hne', hne₂', hold'⟩ | ⟨rfl, rfl⟩
    · exact h.apart hold hold'
    · have := haway hne hne₂ hold
      omega
    · have := haway hne' hne₂' hold'
      omega
    · exact .inl ⟨rfl, rfl⟩
  · obtain ⟨q, l, hl, hqx, hxl⟩ := h.covers hb hle hlt
    by_cases hne : q = p
    · subst hne
      obtain rfl := h.length_eq hp hl
      exact ⟨q, n + m, (hiff _ _).mpr (.inr ⟨rfl, rfl⟩), hqx, by omega⟩
    · by_cases hne' : q = p + n
      · subst hne'
        obtain rfl := h.length_eq hq hl
        exact ⟨p, n + m, (hiff _ _).mpr (.inr ⟨rfl, rfl⟩), by omega, by omega⟩
      · exact ⟨q, l, (hiff _ _).mpr (.inl ⟨hne, hne', hl⟩), hqx, hxl⟩

/-- A new region starts as one block. -/
theorem extend (hs : 0 < s) (hnew : ∀ b' s', regions b' s' → b' + s' ≤ b ∨ b + s ≤ b') :
    Tiling (fun b' s' => regions b' s' ∨ (b' = b ∧ s' = s))
      (fun p n => blocks p n ∨ (p = b ∧ n = s)) := by
  have haway : ∀ {p n}, blocks p n → p + n ≤ b ∨ b + s ≤ p := by
    intro p n hp
    obtain ⟨b', s', hb', hle, hle'⟩ := h.inside hp
    have := hnew b' s' hb'
    omega
  refine ⟨fun {p n} hp => ?_, fun {p n} hp => ?_, fun {p n q m} hp hq => ?_,
    fun {b' s' x} hb hle hlt => ?_⟩
  · rcases hp with hold | ⟨-, rfl⟩
    · exact h.positive hold
    · exact hs
  · rcases hp with hold | ⟨rfl, rfl⟩
    · obtain ⟨b', s', hb', hle, hle'⟩ := h.inside hold
      exact ⟨b', s', .inl hb', hle, hle'⟩
    · exact ⟨p, n, .inr ⟨rfl, rfl⟩, le_rfl, le_rfl⟩
  · rcases hp with hold | ⟨rfl, rfl⟩ <;> rcases hq with hold' | ⟨rfl, rfl⟩
    · exact h.apart hold hold'
    · exact .inr (haway hold)
    · exact .inr (haway hold').symm
    · exact .inl ⟨rfl, rfl⟩
  · rcases hb with hold | ⟨rfl, rfl⟩
    · obtain ⟨p, n, hp, hpx, hxn⟩ := h.covers hold hle hlt
      exact ⟨p, n, .inl hp, hpx, hxn⟩
    · exact ⟨b', s', .inr ⟨rfl, rfl⟩, hle, hlt⟩

/-- A region in which no two blocks touch is one block. -/
theorem whole (hsep : Separated regions) (hpos : ∀ b s, regions b s → 0 < s)
    (htouch : ∀ p n m, blocks p n → ¬blocks (p + n) m) (hb : regions b s) :
    blocks b s := by
  have hs := hpos b s hb
  obtain ⟨p, n, hp, hpb, hbn⟩ := h.covers hb (le_refl b) (by omega)
  obtain ⟨b', s', hb', hbp', hps'⟩ := h.inside hp
  obtain ⟨rfl, rfl⟩ : b = b' ∧ s = s' := by
    rcases hsep b s b' s' hb hb' with heq | hlt | hlt
    · exact heq
    · omega
    · omega
  obtain rfl : p = b := by omega
  by_cases hend : n = s
  · exact hend ▸ hp
  · -- otherwise the address after the block is covered by one that touches it
    obtain ⟨q, m, hq, hqx, hxm⟩ := h.covers hb (Nat.le_add_right p n) (by omega)
    have hqp : q = p + n := by
      have := h.apart hp hq
      omega
    exact absurd (hqp ▸ hq) (htouch p n m hp)

end

end Tiling

end PsiServe.Base
