import Mathlib.Algebra.Order.BigOperators.Group.List
import PsiServe.Base.LittleEndian
import PsiServe.Base.Window

/-!
# Tables with offsets from their start

A table is a head followed by objects. A part of the head holds its bytes inline, or the distance
from the start of the table to its object, in `w` bytes. The objects stand behind the head in the
order of their offsets. Their lengths are not stored: an object ends where the next one starts, and
the last one ends with the table.
-/

namespace PsiServe.Base

open List

/-- One part of a table. -/
inductive Part where
  | inline (bytes : Bytes)
  | object (bytes : Bytes)
deriving DecidableEq, Repr

namespace Part

def bytes : Part → Bytes
  | inline bs | object bs => bs

/-- What is known of a part before it is read: the length of an inline one. -/
def shape : Part → Option Nat
  | inline bs => some bs.length
  | object _ => none

end Part

/-! ### Writing -/

/-- The length of a head. -/
def headLen (w : Nat) : List (Option Nat) → Nat
  | [] => 0
  | some n :: sh => n + headLen w sh
  | none :: sh => w + headLen w sh

/-- The head of a table whose next object stands at `start`. -/
def heads (w : Nat) : Nat → List Part → Bytes
  | _, [] => []
  | start, .inline bs :: ps => bs ++ heads w start ps
  | start, .object bs :: ps => leBytes w start ++ heads w (start + bs.length) ps

/-- The objects of a table. -/
def tails : List Part → Bytes
  | [] => []
  | .inline _ :: ps => tails ps
  | .object bs :: ps => bs ++ tails ps

def table (w : Nat) (ps : List Part) : Bytes :=
  heads w (headLen w (ps.map Part.shape)) ps ++ tails ps

variable {w stop : Nat} {src : Bytes} {p : Part} {ps : List Part} {os : List Nat}

/-- The length of a head follows from the shapes of its parts. -/
@[simp]
theorem length_heads (start : Nat) (ps : List Part) :
    (heads w start ps).length = headLen w (ps.map Part.shape) := by
  induction ps generalizing start with
  | nil => rfl
  | cons p ps ih =>
    cases p with
    | inline bs => simp [heads, headLen, Part.shape, ih]
    | object bs => simp [heads, headLen, Part.shape, ih]

/-- The length of a table. -/
theorem length_table (ps : List Part) :
    (table w ps).length = headLen w (ps.map Part.shape) + (tails ps).length := by
  rw [table, length_append, length_heads]

/-- The inline parts of a head, and its offsets. -/
theorem headLen_eq (sh : List (Option Nat)) :
    headLen w sh = headLen 0 sh + w * sh.countP (· = none) := by
  induction sh with
  | nil => rfl
  | cons x sh ih =>
    cases x with
    | none => simp [headLen, ih, mul_add]; omega
    | some n => simp [headLen, ih]; omega

/-- Lengths of heads add up. -/
theorem headLen_append (sh sh' : List (Option Nat)) :
    headLen w (sh ++ sh') = headLen w sh + headLen w sh' := by
  induction sh with
  | nil => exact (zero_add _).symm
  | cons x sh ih =>
    cases x with
    | none | some _ => rw [cons_append, headLen, headLen, ih, add_assoc]

/-- A table takes the bytes of its parts and an offset for each object. -/
theorem length_table_eq_sum (ps : List Part) : (table w ps).length =
      (ps.map (·.bytes.length)).sum + w * (ps.map Part.shape).countP (· = none) := by
  have hsum : headLen 0 (ps.map Part.shape) + (tails ps).length =
      (ps.map (·.bytes.length)).sum := by
    induction ps with
    | nil => rfl
    | cons p ps ih =>
      rw [map_cons, map_cons, sum_cons, ← ih]
      cases p with
      | inline bs => simp only [Part.shape, headLen, tails, Part.bytes]; omega
      | object bs => simp only [Part.shape, headLen, tails, Part.bytes, length_append]; omega
  rw [length_table, headLen_eq]
  omega

/-- No part is longer than its table. -/
theorem length_le_of_mem_table (hp : p ∈ ps) : p.bytes.length ≤ (table w ps).length := by
  rw [length_table_eq_sum]
  have hmem : p.bytes.length ∈ ps.map (·.bytes.length) := mem_map_of_mem hp
  exact (le_sum_of_mem hmem).trans (Nat.le_add_right _ _)

/-- The head of two lists of parts. -/
theorem heads_append (start : Nat) (ps qs : List Part) :
    heads w start (ps ++ qs) = heads w start ps ++ heads w (start + (tails ps).length) qs := by
  induction ps generalizing start with
  | nil => rfl
  | cons p ps ih =>
    cases p with
    | inline bs => simp [heads, tails, ih]
    | object bs => simp [heads, tails, ih, add_assoc]

/-- The objects of two lists of parts. -/
theorem tails_append (ps qs : List Part) : tails (ps ++ qs) = tails ps ++ tails qs := by
  induction ps with
  | nil => rfl
  | cons p ps ih =>
    cases p with
    | inline bs => exact ih
    | object bs => simp [tails, ih]

/-- The length of a head of equal shapes. -/
theorem headLen_replicate (n : Nat) (x : Option Nat) :
    headLen w (replicate n x) = n * x.getD w := by
  induction n with
  | zero => rw [zero_mul]; rfl
  | succ n ih =>
    cases x with
    | none => rw [replicate_succ, headLen, ih, Option.getD_none, Nat.succ_mul, add_comm]
    | some m => rw [replicate_succ, headLen, ih, Option.getD_some, Nat.succ_mul, add_comm]

variable {lo hi pos start : Nat} {sh : List (Option Nat)} {offs : List Nat}

/-- Without objects there is nothing behind the head. -/
theorem tails_of_inline (h : none ∉ ps.map Part.shape) : tails ps = [] := by
  induction ps with
  | nil => rfl
  | cons p ps ih =>
    rw [map_cons, mem_cons, not_or] at h
    cases p with
    | inline bs => exact ih h.2
    | object bs => exact absurd rfl h.1

/-- Parts that take no room in the head and have no objects leave no trace in a table. -/
theorem table_append_empty {qs : List Part} (hw : 0 < w) (h : headLen w (qs.map Part.shape) = 0) :
    table w (ps ++ qs) = table w ps := by
  have hqs : ∀ start, heads w start qs = [] ∧ tails qs = [] := by
    intro start
    have hheads : heads w start qs = [] := eq_nil_of_length_eq_zero (by rw [length_heads, h])
    refine ⟨hheads, tails_of_inline fun hmem => ?_⟩
    rw [headLen_eq] at h
    have hpos : 0 < (qs.map Part.shape).countP (· = none) := countP_pos_iff.mpr ⟨none, hmem, rfl⟩
    have := Nat.mul_pos hw hpos
    omega
  rw [table, table, heads_append, tails_append, (hqs _).1, (hqs 0).2, append_nil,
    append_nil, map_append, headLen_append, h, add_zero]

/-! ### Reading -/

/-- The offsets in a head, from a position on. -/
def offsets (w : Nat) (src : Bytes) : Nat → List (Option Nat) → List Nat
  | _, [] => []
  | pos, some n :: sh => offsets w src (pos + n) sh
  | pos, none :: sh => leValue (window src pos (pos + w)) :: offsets w src (pos + w) sh

/-- The parts of a table with these offsets. -/
def pieces (w : Nat) (src : Bytes) : Nat → List (Option Nat) → List Nat → List Part
  | _, [], _ => []
  | pos, some n :: sh, offs => .inline (window src pos (pos + n)) :: pieces w src (pos + n) sh offs
  | pos, none :: sh, offs =>
    .object (window src (offs.headD 0) (offs.tail.headD src.length)) ::
      pieces w src (pos + w) sh offs.tail

/-- The parts of a table of a known shape. -/
def cut (w : Nat) (src : Bytes) (sh : List (Option Nat)) : List Part :=
  pieces w src 0 sh (offsets w src 0 sh)

/-- Offsets that do not go back, between two bounds. -/
def Ascends : Nat → List Nat → Nat → Prop
  | lo, [], hi => lo ≤ hi
  | lo, o :: os, hi => lo ≤ o ∧ Ascends o os hi

private theorem Ascends.le (h : Ascends lo os hi) : lo ≤ hi := by
  induction os generalizing lo with
  | nil => exact h
  | cons o os ih => exact h.1.trans (ih h.2)

/-- Offsets that ascend from a bound ascend from a lower one. -/
theorem Ascends.mono {lo' : Nat} (h : Ascends lo os hi) (hlo : lo' ≤ lo) : Ascends lo' os hi := by
  cases os with
  | nil => exact hlo.trans h
  | cons o os => exact ⟨hlo.trans h.1, h.2⟩

private theorem Ascends.headD (h : Ascends lo os hi) : lo ≤ os.headD hi ∧ os.headD hi ≤ hi := by
  cases os with
  | nil => exact ⟨h, le_rfl⟩
  | cons o os => exact ⟨h.1, h.2.le⟩

/-- There is one offset for each object. -/
theorem length_offsets (pos : Nat) (sh : List (Option Nat)) :
    (offsets w src pos sh).length = sh.countP (· = none) := by
  induction sh generalizing pos with
  | nil => rfl
  | cons x sh ih => cases x <;> simp [offsets, ih]

/-- Inline parts have no offsets. -/
theorem offsets_of_inline (h : none ∉ sh) : offsets w src pos sh = [] := by
  induction sh generalizing pos with
  | nil => rfl
  | cons x sh ih =>
    rw [mem_cons, not_or] at h
    cases x with
    | none => exact absurd rfl h.1
    | some n => exact ih h.2

/-- No part is longer than the table. -/
theorem length_le_of_mem_pieces (hp : p ∈ pieces w src pos sh offs) :
    p.bytes.length ≤ src.length := by
  induction sh generalizing pos offs with
  | nil => cases hp
  | cons x sh ih =>
    cases x with
    | some _ | none =>
      rcases mem_cons.mp hp with rfl | hp
      · simp only [Part.bytes, window, length_take, length_drop]
        omega
      · exact ih hp

/-! ### Reading back what was written -/

/-- Where the objects of a table stand. -/
def starts : Nat → List Part → List Nat
  | _, [] => []
  | start, .inline _ :: ps => starts start ps
  | start, .object bs :: ps => start :: starts (start + bs.length) ps

/-- The offsets in the head of a table are where its objects stand. -/
theorem offsets_heads (hat : At src pos (heads w start ps))
    (hfit : start + (tails ps).length < 256 ^ w) :
    offsets w src pos (ps.map Part.shape) = starts start ps := by
  induction ps generalizing pos start with
  | nil => rfl
  | cons p ps ih =>
    cases p with
    | inline bs => exact ih (At.right hat) hfit
    | object bs =>
      have hhead := hat.left.window_eq
      have hrest := hat.right
      rw [length_leBytes] at hhead hrest
      rw [tails, length_append] at hfit
      rw [map_cons, Part.shape, offsets, hhead, leValue_leBytes (by omega), starts,
        ih hrest (by omega)]

/-- The next object starts where the one before ends; the last one ends with the table. -/
theorem headD_starts (hend : start + (tails ps).length = stop) :
    (starts start ps).headD stop = start := by
  induction ps with
  | nil => exact hend.symm
  | cons p ps ih =>
    cases p with
    | inline bs => exact ih hend
    | object bs => rfl

/-- The parts of a table are read back where they were written. -/
theorem pieces_starts (hhead : At src pos (heads w start ps))
    (htail : At src start (tails ps)) (hend : start + (tails ps).length = src.length) :
    pieces w src pos (ps.map Part.shape) (starts start ps) = ps := by
  induction ps generalizing pos start with
  | nil => rfl
  | cons p ps ih =>
    cases p with
    | inline bs =>
      rw [map_cons, Part.shape, pieces, hhead.left.window_eq]
      exact congrArg _ (ih hhead.right htail hend)
    | object bs =>
      rw [tails] at htail hend
      rw [length_append, ← add_assoc] at hend
      have hrest := hhead.right
      rw [length_leBytes] at hrest
      rw [map_cons, Part.shape, pieces, starts, headD_cons, tail_cons,
        headD_starts hend, htail.left.window_eq]
      exact congrArg _ (ih hrest htail.right hend)

/-- A table is read back. -/
theorem cut_table (hfit : (table w ps).length < 256 ^ w) :
    cut w (table w ps) (ps.map Part.shape) = ps := by
  have hlen := length_table (w := w) ps
  have hhead : At (table w ps) 0 (heads w (headLen w (ps.map Part.shape)) ps) :=
    prefix_append _ _
  have htail : At (table w ps) (headLen w (ps.map Part.shape)) (tails ps) := by
    have h : At (table w ps ++ []) _ (tails ps) := at_append_left _ []
    rwa [append_nil, length_heads] at h
  rw [cut, offsets_heads hhead (by omega)]
  exact pieces_starts hhead htail hlen.symm

/-- Where the parts of a table stand, from the place of its next inline part and the places of its
objects. -/
def spans (w stop : Nat) : Nat → List (Option Nat) → List Nat → List (Nat × Nat)
  | _, [], _ => []
  | pos, some n :: sh, objs => (pos, pos + n) :: spans w stop (pos + n) sh objs
  | pos, none :: sh, objs =>
    (objs.headD 0, objs.tail.headD stop) :: spans w stop (pos + w) sh objs.tail

/-- The parts of a table that was written at `base` stand where its offsets say. The last object has
to end the table when there is one. -/
theorem spans_starts {base : Nat} (hhead : At src pos (heads w start ps))
    (htail : At src (base + start) (tails ps))
    (hend : none ∈ ps.map Part.shape → base + start + (tails ps).length = stop) (hlo : base ≤ pos)
    (hpos : pos + headLen w (ps.map Part.shape) ≤ hi)
    (hobj : base + start + (tails ps).length ≤ hi) :
    List.Forall₂
      (fun p r => At src r.1 p.bytes ∧ r.2 = r.1 + p.bytes.length ∧ base ≤ r.1 ∧ r.2 ≤ hi) ps
      (spans w stop pos (ps.map Part.shape) ((starts start ps).map (base + ·))) := by
  induction ps generalizing pos start with
  | nil => exact .nil
  | cons p ps ih =>
    cases p with
    | inline bs =>
      rw [map_cons, Part.shape, headLen] at hpos
      exact .cons ⟨hhead.left, rfl, hlo, by simp only; omega⟩
        (ih hhead.right htail (fun h => hend (mem_cons_of_mem _ h)) (by omega) (by omega) hobj)
    | object bs =>
      rw [tails] at htail hend hobj
      rw [map_cons, Part.shape, headLen] at hpos
      rw [length_append, ← add_assoc] at hend hobj
      have hlast := hend mem_cons_self
      have hrest := hhead.right
      rw [length_leBytes] at hrest
      have htail' := htail.right
      rw [add_assoc] at htail'
      -- the object ends where the next one starts
      have hnext : ((starts (start + bs.length) ps).map (base + ·)).headD stop =
          base + (start + bs.length) := by
        rw [← hlast, add_assoc, add_assoc, ← add_assoc start]
        have h : (starts (start + bs.length) ps).headD (start + bs.length + (tails ps).length) =
            start + bs.length := headD_starts rfl
        cases hs : starts (start + bs.length) ps with
        | nil | cons _ _ =>
          rw [hs] at h
          exact congrArg (base + ·) h
      refine .cons ⟨htail.left, ?_, Nat.le_add_right _ _, ?_⟩
        (ih hrest htail' (fun _ => by omega) (by omega) (by omega) (by omega))
      · rw [starts, map_cons, tail_cons, hnext, headD_cons, add_assoc]
        rfl
      · rw [starts, map_cons, tail_cons, hnext]
        omega

/-! ### Writing back what was read -/

/-- The parts that are read have the shapes they are read with. -/
theorem shape_pieces (hlen : pos + headLen w sh ≤ src.length) :
    (pieces w src pos sh offs).map Part.shape = sh := by
  induction sh generalizing pos offs with
  | nil => rfl
  | cons x sh ih =>
    cases x with
    | none =>
      rw [headLen] at hlen
      rw [pieces, map_cons, ih (by omega)]
      rfl
    | some n =>
      rw [headLen] at hlen
      rw [pieces, map_cons, ih (by omega), Part.shape, length_window (by omega),
        Nat.add_sub_cancel_left]

/-- The objects that were read cover everything from the first offset on. -/
theorem tails_pieces (hcount : offs.length = sh.countP (· = none))
    (hasc : Ascends lo offs src.length) :
    tails (pieces w src pos sh offs) = window src (offs.headD src.length) src.length := by
  induction sh generalizing pos lo offs with
  | nil =>
    obtain rfl := eq_nil_of_length_eq_zero hcount
    exact window_self.symm
  | cons x sh ih =>
    cases x with
    | some n => exact ih (by simpa using hcount) hasc
    | none =>
      cases offs with
      | nil => simp at hcount
      | cons o offs =>
        obtain ⟨hle, hend⟩ := hasc.2.headD
        rw [pieces, tails, headD_cons, tail_cons, ih (by simpa using hcount) hasc.2, headD_cons]
        exact window_append hle hend

/-- The head of what was read, with the offsets that were read. -/
theorem heads_pieces (hlen : pos + headLen w sh ≤ src.length)
    (hasc : Ascends lo (offsets w src pos sh) src.length) :
    heads w ((offsets w src pos sh).headD src.length) (pieces w src pos sh (offsets w src pos sh)) =
      window src pos (pos + headLen w sh) := by
  induction sh generalizing pos lo with
  | nil => exact window_self.symm
  | cons x sh ih =>
    cases x with
    | some n =>
      rw [headLen] at hlen
      rw [offsets] at hasc ⊢
      rw [pieces, heads, ih (by omega) hasc, headLen, ← add_assoc]
      exact window_append (by omega) (by omega)
    | none =>
      rw [headLen] at hlen
      have hwidth : (window src pos (pos + w)).length = w := by
        rw [length_window (by omega), Nat.add_sub_cancel_left]
      have hword : leBytes w (leValue (window src pos (pos + w))) = window src pos (pos + w) := by
        have h := leBytes_leValue (window src pos (pos + w))
        rwa [hwidth] at h
      -- the object ends where the next one starts
      obtain ⟨hle, hend⟩ := hasc.2.headD
      rw [offsets, pieces, heads, headD_cons, headD_cons, tail_cons, length_window hend,
        Nat.add_sub_cancel' hle, ih (by omega) hasc.2, hword, headLen, ← add_assoc]
      exact window_append (by omega) (by omega)

/-- The parts that were read give the table back when nothing stands between its head and its first
object; a table without objects ends with its head. -/
theorem table_cut_iff (hlen : headLen w sh ≤ src.length)
    (hasc : Ascends lo (offsets w src 0 sh) src.length) :
    table w (cut w src sh) = src ↔ (offsets w src 0 sh).headD src.length = headLen w sh := by
  have hshape : (cut w src sh).map Part.shape = sh := shape_pieces (by omega)
  have htails : tails (cut w src sh) =
      window src ((offsets w src 0 sh).headD src.length) src.length :=
    tails_pieces (length_offsets 0 sh) hasc
  constructor
  · intro h
    have hsize := congrArg length h
    rw [length_table, hshape, htails, length_window (le_rfl)] at hsize
    have hfirst := hasc.headD.2
    omega
  · intro h
    have hheads : heads w ((offsets w src 0 sh).headD src.length)
        (pieces w src 0 sh (offsets w src 0 sh)) = window src 0 (0 + headLen w sh) :=
      heads_pieces (by omega) hasc
    rw [table, hshape, htails, ← h]
    rw [zero_add, ← h] at hheads
    rw [cut, hheads, window_append (Nat.zero_le _) hasc.headD.2, window_whole]

/-- Which parts a table was written from. -/
theorem table_eq_iff (hshape : ps.map Part.shape = sh) (hlen : headLen w sh ≤ src.length)
    (hasc : Ascends lo (offsets w src 0 sh) src.length) (hfit : src.length < 256 ^ w) :
    table w ps = src ↔
      (offsets w src 0 sh).headD src.length = headLen w sh ∧ ps = cut w src sh := by
  constructor
  · intro h
    have hps : cut w src sh = ps := by
      rw [← h] at hfit ⊢
      rw [← hshape]
      exact cut_table hfit
    refine ⟨(table_cut_iff hlen hasc).mp ?_, hps.symm⟩
    rw [hps]
    exact h
  · rintro ⟨hfirst, rfl⟩
    exact (table_cut_iff hlen hasc).mpr hfirst

end PsiServe.Base
