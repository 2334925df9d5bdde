import Mathlib.Data.List.Basic

/-!
# Fallible computations and readers

Inversion of successful `Except` computations, and readers that
consume a list of items from the front: composing readers that never give items back
never gives items back.
-/

namespace PsiServe.Base

universe u v

variable {ε α β : Type u}

/-- A sequence of computations succeeds when both parts do. -/
theorem bind_eq_ok {x : Except ε α} {f : α → Except ε β} {b : β} :
    (x >>= f) = .ok b ↔ ∃ a, x = .ok a ∧ f a = .ok b := by
  cases x with
  | error e =>
    constructor
    · intro h
      cases h
    · rintro ⟨a, h, -⟩
      cases h
  | ok a =>
    constructor
    · intro h
      exact ⟨a, rfl, h⟩
    · rintro ⟨a', h, hf⟩
      cases h
      exact hf

/-- A list built from its first element and the others. -/
theorem bind_cons_inv {x : Except ε α} {y : Except ε (List α)} {l : List α}
    (h : (do return (← x) :: (← y)) = (.ok l : Except ε (List α))) :
    ∃ a as, l = a :: as ∧ x = .ok a ∧ y = .ok as := by
  obtain ⟨a, ha, h⟩ := bind_eq_ok.mp h
  obtain ⟨as, has, h⟩ := bind_eq_ok.mp h
  cases h
  exact ⟨a, as, rfl, ha, has⟩

/-- A sequence succeeds when its first part does and the second succeeds on the result. -/
theorem exists_bind_eq_ok {x : Except ε α} {f : α → Except ε β} :
    (∃ b, (x >>= f) = .ok b) ↔ ∃ a, x = .ok a ∧ ∃ b, f a = .ok b := by
  simp only [bind_eq_ok]
  rw [exists_comm]
  simp only [exists_and_left]

/-- What follows a part whose result is not used. -/
theorem then_eq_ok {x : Except ε α} {y : Except ε β} {b : β} (h : (x >>= fun _ => y) = .ok b) :
    y = .ok b := by
  obtain ⟨a, -, h⟩ := bind_eq_ok.mp h
  exact h

/-- A computation has an optional result exactly if it succeeds with it. -/
theorem toOption_eq_some {x : Except ε α} {a : α} : x.toOption = some a ↔ x = .ok a := by
  cases x with
  | error e | ok b => simp [Except.toOption]

/-- What follows a success gets its result. -/
theorem ok_bind (a : α) (f : α → Except ε β) : (Except.ok a >>= f) = f a := rfl

/-- A computation that ends early. -/
def Fails (x : Except ε α) : Prop := ∃ e, x = .error e

private theorem Fails.error (e : ε) : Fails (.error e : Except ε α) := ⟨e, rfl⟩

private theorem Fails.bind {x : Except ε α} (h : Fails x) (f : α → Except ε β) : Fails
    (x >>= f) := by
  obtain ⟨e, rfl⟩ := h
  exact ⟨e, rfl⟩

/-- A computation that fails where an abstract one has no result, and else has a result that is
related to the abstract one. -/
def Yields {σ : Type v} (x : Except ε α) (o : Option σ) (Q : α → σ → Prop) : Prop :=
  match o with
  | none => Fails x
  | some b => ∃ a, x = .ok a ∧ Q a b

namespace Yields

variable {σ τ : Type v} {x : Except ε α} {o : Option σ} {Q : α → σ → Prop} {f : α → Except ε β}
  {R : β → σ → Prop}

/-- A success yields its result. -/
theorem ok {a : α} {b : σ} (h : Q a b) : Yields (.ok a : Except ε α) (some b) Q := ⟨a, rfl, h⟩

/-- A failure yields nothing. -/
theorem error (e : ε) : Yields (.error e) none Q := Fails.error e

/-- One computation after the other. -/
theorem bind {k : σ → Option τ} {R : β → τ → Prop} (h : Yields x o Q)
    (hf : ∀ a b, Q a b → Yields (f a) (k b) R) : Yields (x >>= f) (o.bind k) R := by
  cases o with
  | none => exact Fails.bind h f
  | some b =>
    obtain ⟨a, rfl, hq⟩ := h
    exact hf a b hq

/-- A second part that succeeds on every result. -/
theorem seq (h : Yields x o Q) (hf : ∀ a b, Q a b → ∃ c, f a = .ok c ∧ R c b) :
    Yields (x >>= f) o R := by
  cases o with
  | none => exact Fails.bind h f
  | some b =>
    obtain ⟨a, rfl, hq⟩ := h
    exact hf a b hq

/-- A result is converted. -/
theorem map {g : α → β} (h : Yields x o Q) (hg : ∀ a b, Q a b → R (g a) b) :
    Yields (x >>= fun a => pure (g a)) o R :=
  h.seq fun a b hq => ⟨g a, rfl, hg a b hq⟩

/-- What is known of the result may be weakened. -/
theorem mono {R : α → σ → Prop} (h : Yields x o Q) (hq : ∀ a b, Q a b → R a b) : Yields x o R := by
  cases o with
  | none => exact h
  | some b =>
    obtain ⟨a, hx, ha⟩ := h
    exact ⟨a, hx, hq a b ha⟩

end Yields

/-- Two computations end alike: both succeed, with related results, or both stop with one fault,
which they may only if `S`. -/
def Alike (S : Prop) (fault : ε) (x : Except ε α) (y : Except ε β) (Q : α → β → Prop) : Prop :=
  (∃ a b, x = .ok a ∧ y = .ok b ∧ Q a b) ∨ (S ∧ x = .error fault ∧ y = .error fault)

namespace Alike

variable {S S' : Prop} {fault : ε} {x : Except ε α} {y : Except ε β} {Q : α → β → Prop} {a : α}
  {b : β} {γ δ : Type u} {f : α → Except ε γ} {g : β → Except ε δ} {R : γ → δ → Prop}

/-- Two successes end alike. -/
theorem ok (h : Q a b) : Alike S fault (.ok a) (.ok b) Q := .inl ⟨a, b, rfl, rfl, h⟩

/-- First parts that end alike, with a fault only if the whole may stop with it. -/
theorem bind (hS : S' → S) (h : Alike S' fault x y Q)
    (hf : ∀ a b, Q a b → Alike S fault (f a) (g b) R) : Alike S fault (x >>= f) (y >>= g) R := by
  rcases h with ⟨a, b, rfl, rfl, hq⟩ | ⟨hS', rfl, rfl⟩
  · exact hf a b hq
  · exact .inr ⟨hS hS', rfl, rfl⟩

/-- First parts that are known to succeed. -/
theorem next (hx : x = .ok a) (hy : y = .ok b) (h : Alike S fault (f a) (g b) R) :
    Alike S fault (x >>= f) (y >>= g) R := by
  rw [hx, hy]
  exact h

end Alike

/-- Fold a list with a step that may fail, from the left. -/
def foldSteps {σ : Type u} {τ : Type v} (step : σ → τ → Except ε σ) : σ → List τ → Except ε σ
  | s, [] => .ok s
  | s, t :: ts => step s t >>= fun s' => foldSteps step s' ts

/-! ### Steps that keep a relation -/

section

variable {σ : Type u} {R : σ → σ → Prop} {s s' : σ} {x : Except ε σ}

/-- A computation that starts from `s` and ends, if it succeeds, in a state related to it. -/
def Relates (R : σ → σ → Prop) (s : σ) (x : Except ε σ) : Prop := ∀ s', x = .ok s' → R s s'

namespace Relates

/-- A success leads on. -/
theorem ok (h : R s s') : Relates R s (.ok s' : Except ε σ) := by
  intro t ht
  cases ht
  exact h

/-- A failure leads nowhere. -/
theorem error (e : ε) : Relates R s (.error e) := by
  intro t ht
  cases ht

/-- What follows leads on from the same state. -/
theorem bind {x : Except ε α} {f : α → Except ε σ} (h : ∀ a, x = .ok a → Relates R s (f a)) :
    Relates R s (x >>= f) := by
  intro t ht
  obtain ⟨a, ha, ht⟩ := bind_eq_ok.mp ht
  exact h a ha t ht

/-- One transition, then a computation. -/
theorem trans (hR : ∀ a b c, R a b → R b c → R a c) (h : R s s') (hx : Relates R s' x) :
    Relates R s x :=
  fun t ht => hR s s' t h (hx t ht)

/-- One computation on the state, then another. -/
theorem andThen (hR : ∀ a b c, R a b → R b c → R a c) {f : σ → Except ε σ} (hx : Relates R s x)
    (hf : ∀ s', Relates R s' (f s')) : Relates R s (x >>= f) :=
  .bind fun t ht => .trans hR (hx t ht) (hf t)

end Relates

end

/-! ### Readers -/

/-- A reader takes items from the front of its input and returns the rest. -/
abbrev Reader (ε ι α : Type u) := StateT (List ι) (Except ε) α

variable {ι : Type u} {P : α → Prop} {Q : β → Prop}

/-- A reader never gives items back, and what it reads has a property. -/
def Reader.Ensures (r : Reader ε ι α) (P : α → Prop) : Prop :=
  ∀ input a rest, r input = .ok (a, rest) → rest.length ≤ input.length ∧ P a

namespace Reader.Ensures

variable {r : Reader ε ι α}

/-- A reader that takes nothing. -/
theorem pure {a : α} (h : P a) : Reader.Ensures (Pure.pure a : Reader ε ι α) P := by
  intro input b rest heq
  cases heq
  exact ⟨Nat.le_refl _, h⟩

/-- One reader after the other. -/
theorem bind {f : α → Reader ε ι β} (hr : r.Ensures P) (hf : ∀ a, P a → (f a).Ensures Q) :
    Reader.Ensures (r >>= f) Q := by
  intro input b rest h
  obtain ⟨⟨a, mid⟩, ha, hb⟩ := bind_eq_ok.mp h
  obtain ⟨hmid, hP⟩ := hr input a mid ha
  obtain ⟨hrest, hQ⟩ := hf a hP mid b rest hb
  exact ⟨Nat.le_trans hrest hmid, hQ⟩

/-- A reader that fails. -/
theorem error (e : ε) : Reader.Ensures (fun _ => .error e : Reader ε ι α) P := by
  intro input b rest h
  cases h

/-- A computation that does not look at the input. -/
theorem lift {x : Except ε α} (h : ∀ a, x = .ok a → P a) :
    Reader.Ensures (StateT.lift x : Reader ε ι α) P := by
  intro input b rest heq
  obtain ⟨a, ha, hret⟩ := bind_eq_ok.mp heq
  cases hret
  exact ⟨Nat.le_refl _, h _ ha⟩

/-- One of two readers. -/
theorem ite {p : Prop} [Decidable p] {s : Reader ε ι α} (hr : p → r.Ensures P)
    (hs : ¬p → s.Ensures P) : Reader.Ensures (if p then r else s) P := by
  split
  next h => exact hr h
  next h => exact hs h

/-- What is known of the result may be weakened. -/
theorem mono {P' : α → Prop} (h : r.Ensures P) (hP : ∀ a, P a → P' a) : r.Ensures P' := by
  intro input a rest heq
  obtain ⟨hle, ha⟩ := h input a rest heq
  exact ⟨hle, hP a ha⟩

end Reader.Ensures

end PsiServe.Base
