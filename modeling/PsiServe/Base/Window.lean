import Mathlib.Data.List.Basic

/-!
# Windows of a buffer

A piece found at a position of a list, and the piece between two
positions. Adjacent windows join; a piece found at a position is the window of its length.
-/

namespace PsiServe.Base

open List

universe u

variable {α : Type u} {src xs ys : List α} {pos start mid stop : Nat}

/-- A piece stands at a position of a buffer. -/
def At (src : List α) (pos : Nat) (xs : List α) : Prop := xs <+: src.drop pos

/-- The items of a buffer from `start` up to `stop`. -/
def window (src : List α) (start stop : Nat) : List α := (src.drop start).take (stop - start)

/-- The empty list is everywhere. -/
theorem At.nil : At src pos [] := nil_prefix

/-- Two pieces after each other. -/
theorem at_append : At src pos (xs ++ ys) ↔ At src pos xs ∧ At src (pos + xs.length) ys := by
  constructor
  · rintro ⟨rest, h⟩
    constructor
    · exact ⟨ys ++ rest, by rw [← h, append_assoc]⟩
    · refine ⟨rest, ?_⟩
      rw [← drop_drop, ← h, append_assoc, drop_left]
  · rintro ⟨⟨rest, h⟩, ⟨rest', h'⟩⟩
    refine ⟨rest', ?_⟩
    rw [← drop_drop, ← h, drop_left] at h'
    rw [← h, ← h', append_assoc]

/-- The first of two parts. -/
theorem At.left (h : At src pos (xs ++ ys)) : At src pos xs := (at_append.mp h).1

/-- The second of two parts. -/
theorem At.right (h : At src pos (xs ++ ys)) : At src (pos + xs.length) ys := (at_append.mp h).2

/-- A window on what is there. -/
theorem At.window_eq (h : At src pos xs) : window src pos (pos + xs.length) = xs := by
  obtain ⟨rest, h⟩ := h
  rw [window, ← h, Nat.add_sub_cancel_left, take_left]

/-- What comes first in what is there. -/
theorem At.mono {zs : List α} (h : At src pos xs) (hpre : zs <+: xs) : At src pos zs :=
  hpre.trans h

/-- A piece is found after what stands before it. -/
theorem at_append_left (pre rest : List α) : At (pre ++ xs ++ rest) pre.length xs := by
  rw [At, append_assoc, drop_left]
  exact prefix_append _ _

/-- The length of a window inside of the list. -/
theorem length_window (h : stop ≤ src.length) : (window src start stop).length = stop - start := by
  rw [window, length_take, length_drop]
  omega

/-- An empty window. -/
theorem window_self : window src start start = [] := by
  rw [window, Nat.sub_self, take_zero]

/-- Adjacent windows join without a gap. -/
theorem window_append (h₁ : start ≤ mid) (h₂ : mid ≤ stop) :
    window src start mid ++ window src mid stop = window src start stop := by
  have hmid : mid = start + (mid - start) := by omega
  have hstop : stop - start = (mid - start) + (stop - mid) := by omega
  rw [window, window, window, hstop, take_add, drop_drop, ← hmid]

/-- The window on everything. -/
theorem window_whole : window src 0 src.length = src := by
  rw [window, drop_zero, Nat.sub_zero, take_length]

/-- The items of a piece are those of the buffer. -/
theorem At.getElem? {i : Nat} (h : At src pos xs) (hi : i < xs.length) :
    src[pos + i]? = xs[i]? := by
  obtain ⟨rest, h⟩ := h
  rw [← getElem?_drop, ← h, getElem?_append_left hi]

/-- One item at a position. -/
theorem at_singleton {x : α} : At src pos [x] ↔ src[pos]? = some x := by
  have hhead : src[pos]? = (src.drop pos)[0]? := by rw [getElem?_drop, Nat.add_zero]
  rw [At, hhead]
  cases src.drop pos with
  | nil => simp
  | cons y ys => simp [eq_comm]

end PsiServe.Base
