import PsiServe.Frac.Unpack
import PsiServe.Frac.PackWire

/-!
# What a verifying walk knows of its position

A walk over encoded members keeps the heap position of what it read last and a flag that says
whether this is the end of it (`known_pos` in the source). After fields that the reader does
not know, the position is where the last of them starts. A `Sight` abstracts a state of the
walk to what matters for the bytes it accepts: the flag, and whether the position is in fact
behind the end. The flag is also set by slots that lead nowhere, so it can be set while the
position is behind.
-/

namespace PsiServe.Frac

open Base List

/-! ### Reads -/

variable {src : Bytes} {stop : Nat}

section

variable {pos width v : Nat}

/-- Bytes that are there are read. -/
theorem readBytes_at {bs : Bytes} (h : At src pos bs) (hlen : pos + bs.length ≤ src.length) :
    readBytes src pos bs.length = .ok bs := by
  rw [readBytes, if_pos hlen, h.window_eq]

private theorem readNum_at (h : At src pos (leBytes width v)) (hv : v < 256 ^ width)
    (hlen : pos + width ≤ src.length) : readNum width src pos = .ok v := by
  have hread := readBytes_at h (by rw [length_leBytes]; exact hlen)
  rw [length_leBytes] at hread
  rw [readNum, hread]
  exact congrArg Except.ok (leValue_leBytes hv)

/-- A check that passes. -/
theorem require_true : require true = .ok () := rfl

/-- The room in front of the end is compared as if nothing wrapped. -/
theorem sub32_lt_iff (hpos : pos ≤ stop) (hstop : stop < 2 ^ 32) :
    sub32 stop pos < width ↔ stop < pos + width := by
  rw [sub32_of_le hpos hstop]
  omega

/-- A number that is there is read. -/
theorem unpackNumeric_at (m : Mode) (skip : Bool) (h : At src pos (leBytes width v))
    (hv : v < 256 ^ width)
    (hlen : pos + width ≤ stop) (hsrc : stop ≤ src.length) (hstop : stop < 2 ^ 32) :
    unpackNumeric m skip width src pos stop = .ok v := by
  have hroom : ¬sub32 stop pos < width := by
    rw [sub32_lt_iff (by omega) hstop]
    omega
  rw [unpackNumeric, readNum_at h hv (by omega)]
  simp only [hroom, decide_false, Bool.and_false, Bool.not_false]
  rfl

end

/-! ### Sights -/

/-- What a walk knows of its position: the flag of the source, whether the position is behind
the end of what was read, whether unknown fields were met. -/
structure Sight where
  known : Bool
  behind : Bool
  unknown : Bool
deriving DecidableEq, Repr

namespace Sight

/-- The position is the end, and known to be. -/
def exact (unknown : Bool) : Sight := ⟨true, false, unknown⟩

/-- A slot that leads nowhere, or a member of a fixed size: the flag is set. -/
def reset (a : Sight) : Sight := { a with known := true }

/-- The flag is set although the position is behind. -/
def lost (a : Sight) : Bool := a.known && a.behind

/-- A pointer to an object, which has to lead to the position if the flag is set. What the
object leaves depends on whether unknown fields were met before. -/
def follow (a : Sight) (object : Bool → Option Sight) : Option Sight :=
  if a.lost then none else object a.unknown

/-- The state of a walk whose objects end at `stop` is as a sight says. -/
structure Sees (a : Sight) (stop pos : Nat) (known unknown : Bool) : Prop where
  le : pos ≤ stop
  behind : pos = stop ↔ a.behind = false
  known : known = a.known
  unknown : unknown = a.unknown

variable {stop pos : Nat} {known unknown : Bool} {a : Sight}

private theorem Sees.reset (h : a.Sees stop pos known unknown) :
    a.reset.Sees stop pos true unknown :=
  ⟨h.le, h.behind, rfl, h.unknown⟩

/-- The check of a position against the end of what was read fails if the flag is lost. -/
theorem Sees.ne_and_known (h : a.Sees stop pos known unknown) :
    (stop != pos && known) = a.lost := by
  rw [h.known, lost, Bool.and_comm]
  congr 1
  cases hb : a.behind with
  | false => rw [h.behind.mpr hb, bne_self_eq_false]
  | true =>
    rw [bne_iff_ne]
    intro heq
    have hb' := h.behind.mp heq.symm
    rw [hb] at hb'
    cases hb'

/-- A position that is known is exact. -/
theorem exact_sees (pos : Nat) (unknown : Bool) : (exact unknown).Sees pos pos true unknown :=
  ⟨le_refl pos, by simp [exact], rfl, rfl⟩

/-- An exact position is that of the walk. -/
theorem Sees.eq_of_exact {unknown' : Bool} (h : (exact unknown).Sees stop pos known unknown') :
    pos = stop ∧ known = true ∧ unknown' = unknown :=
  ⟨h.behind.mpr rfl, h.known, h.unknown⟩

end Sight

/-- What unpacking an object leaves. -/
structure Leaves (v : Val) (start stop : Nat) (r : Val × Exit) (a : Sight) : Prop where
  val : r.1 = v
  le : start ≤ r.2.pos
  sees : a.Sees stop r.2.pos r.2.known r.2.unknown

/-- A verifying `unpack` that meets the bytes of an object, whatever stands around them. -/
def Reads (p : Unpacker) (body : Bytes) (v : Val) (object : Bool → Option Sight) : Prop :=
  ∀ ⦃m : Mode⦄ ⦃src : Bytes⦄ ⦃unknown : Bool⦄ ⦃pos stop : Nat⦄, m.verify = true →
    At src pos body → pos + body.length ≤ stop → stop ≤ src.length → stop < 2 ^ 32 →
    Yields (p.unpack m src unknown pos stop) (object unknown) (Leaves v pos (pos + body.length))

/-- A walk is before a slot, whose object stands where the heap ends. -/
structure Faces (src : Bytes) (endFixed endHeap : Nat) (s : Slot) (w : Walk) (stop : Nat)
    (a : Sight) : Prop where
  sees : a.Sees stop w.heapPos w.known w.unknown
  slot : At src w.fixedPos (s.bytes (stop - w.fixedPos))
  object : At src stop s.heap
  fixed : w.fixedPos + s.fixedLen ≤ endFixed
  le : endFixed ≤ stop
  heap : stop + s.heap.length ≤ endHeap

/-- A walk is before slots, whose objects stand where the heap ends. -/
structure Meets (src : Bytes) (endFixed endHeap : Nat) (ss : List Slot) (w : Walk) (stop : Nat)
    (a : Sight) : Prop where
  sees : a.Sees stop w.heapPos w.known w.unknown
  slots : At src w.fixedPos (fixedOf (stop - w.fixedPos) ss)
  objects : At src stop (heapOf ss)
  fixed : w.fixedPos + fixedLen ss ≤ endFixed
  le : endFixed ≤ stop
  heap : stop + (heapOf ss).length ≤ endHeap

/-- What a walk over slots leaves. -/
structure Moves {α : Type} (v : α) (w : Walk) (n stop : Nat) (r : α × Walk) (a : Sight) : Prop where
  val : r.1 = v
  fixed : r.2.fixedPos = w.fixedPos + n
  le : w.heapPos ≤ r.2.heapPos
  sees : a.Sees stop r.2.heapPos r.2.known r.2.unknown

/-- The walk of a member from any state that is seen ends as the effect on sights says. -/
def Steps (member : Member) (src : Bytes) (endFixed endHeap : Nat) (s : Slot) (v : Val)
    (effect : Sight → Option Sight) : Prop :=
  ∀ ⦃w : Walk⦄ ⦃stop : Nat⦄ ⦃a : Sight⦄, Faces src endFixed endHeap s w stop a →
    Yields (member w) (effect a) (Moves v w s.fixedLen (stop + s.heap.length))

/-- A buffer whose end is a position. -/
structure Fits (src : Bytes) (stop : Nat) : Prop where
  le : stop ≤ src.length
  lt : stop < 2 ^ 32

variable {endFixed endHeap : Nat} {w : Walk} {a : Sight} {s : Slot} {ss : List Slot}

section

variable {α : Type} {b : Sight} {v : α} {r : α × Walk} {ts : List Slot}

/-- The first of some slots. -/
theorem Meets.left (h : Meets src endFixed endHeap (ss ++ ts) w stop a) :
    Meets src endFixed endHeap ss w stop a := by
  have hfixed := h.fixed
  have hle := h.le
  have hheap := h.heap
  have hslots := h.slots
  have hobjects := h.objects
  rw [fixedLen_append] at hfixed
  rw [fixedOf_append ts (by omega)] at hslots
  rw [heapOf_append] at hobjects hheap
  rw [length_append] at hheap
  exact ⟨h.sees, hslots.left, hobjects.left, by omega, hle, by omega⟩

/-- After the first slots the walk is before the remaining ones. -/
theorem Meets.right (h : Meets src endFixed endHeap (ss ++ ts) w stop a)
    (hr : Moves v w (fixedLen ss) (stop + (heapOf ss).length) r b) :
    Meets src endFixed endHeap ts r.2 (stop + (heapOf ss).length) b := by
  have hfixed := h.fixed
  have hle := h.le
  have hheap := h.heap
  have hpos := hr.fixed
  have hslots := h.slots
  have hobjects := h.objects
  rw [fixedLen_append] at hfixed
  rw [fixedOf_append ts (by omega)] at hslots
  rw [heapOf_append] at hobjects hheap
  rw [length_append] at hheap
  have hright := hslots.right
  have hdist : stop - w.fixedPos + (heapOf ss).length - fixedLen ss =
      stop + (heapOf ss).length - r.2.fixedPos := by omega
  rw [length_fixedOf, hdist, ← hpos] at hright
  exact ⟨hr.sees, hright, hobjects.right, by omega, by omega, by omega⟩

/-- The walk faces the first slot. -/
theorem Meets.head (h : Meets src endFixed endHeap (s :: ss) w stop a) :
    Faces src endFixed endHeap s w stop a := by
  obtain ⟨hsees, hslot, hobject, hfixed, hle, hheap⟩ := @Meets.left _ _ _ _ _ _ [s] ss h
  simp only [fixedOf, heapOf, fixedLen, append_nil, add_zero] at hslot hobject hfixed hheap
  exact ⟨hsees, hslot, hobject, hfixed, hle, hheap⟩

/-- After a member the walk is before the remaining slots. -/
theorem Meets.tail (h : Meets src endFixed endHeap (s :: ss) w stop a)
    (hr : Moves v w s.fixedLen (stop + s.heap.length) r b) :
    Meets src endFixed endHeap ss r.2 (stop + s.heap.length) b := by
  have hheap : heapOf [s] = s.heap := append_nil _
  rw [← hheap] at hr ⊢
  exact Meets.right h hr

/-- A walk over some slots, then over others. -/
theorem Moves.trans {β γ : Type} {v' : β} {r' : β × Walk} {n n' stop' : Nat} {vs : γ}
    (h : Moves v w n stop r a) (h' : Moves v' r.2 n' stop' r' b) (g : α → β → γ)
    (hv : g v v' = vs) : Moves vs w (n + n') stop' (g r.1 r'.1, r'.2) b := by
  refine ⟨?_, ?_, h.le.trans h'.le, h'.sees⟩
  · rw [← hv, ← h.val, ← h'.val]
  · rw [h'.fixed, h.fixed, add_assoc]

end

/-! ### One member -/

section

variable {m : Mode} {body : Bytes} {v cleared : Val} {p elem : Unpacker} {pos width : Nat}
  {tr : Traits}

/-- Whether a container has a length of 0 on the wire. -/
def looksEmpty (tr : Traits) (width : Nat) (body : Bytes) : Bool :=
  tr.supports0Offset && leValue (body.take width) == 0

variable {skip : Bool} (hfits : Fits src endHeap) (hle : endFixed ≤ endHeap)

include hfits

/-- An object looks empty if its length is zero. -/
theorem isEmptyAt_object (hat : At src pos body) (hwidth : width ≤ body.length)
    (hend : pos + body.length ≤ endHeap) :
    isEmptyAt width src pos endHeap = .ok (leValue (body.take width) == 0) := by
  have hle := hfits.le
  have hlen : (body.take width).length = width := length_take_of_le hwidth
  have hread := readBytes_at (hat.mono ( take_prefix width body)) (by omega)
  have hroom : ¬sub32 endHeap pos < width := by
    rw [sub32_lt_iff (by omega) hfits.lt]
    omega
  rw [hlen] at hread
  rw [isEmptyAt, if_neg hroom, readNum, hread]
  rfl

/-- The checks of an offset that leads to an object at the end of the heap. -/
theorem checkOffset_object (hw : Faces src endFixed endHeap (.pointer body) w stop a)
    (hwidth : tr.supports0Offset = true → width ≤ body.length)
    (htarget : u32 (w.fixedPos + (stop - w.fixedPos)) = stop) :
    checkOffset tr width src endHeap (stop - w.fixedPos) w =
      if a.lost || looksEmpty tr width body then .error .invalid else .ok () := by
  have hbounds : (decide (stop - w.fixedPos < 4) || decide (stop < w.heapPos) ||
      decide (endHeap < stop)) = false := by
    have hfixed := hw.fixed
    have hle := hw.le
    have hheap := hw.heap
    have hbehind := hw.sees.le
    rw [Slot.fixedLen] at hfixed
    simp only [Bool.or_eq_false_iff, decide_eq_false_iff_not]
    omega
  rw [checkOffset]
  simp only [htarget, hbounds, hw.sees.ne_and_known]
  cases a.lost with
  | true => rfl
  | false =>
    by_cases h0 : tr.supports0Offset = true
    · have hlooks : looksEmpty tr width body = (leValue (body.take width) == 0) := by
        rw [looksEmpty, h0, Bool.true_and]
      have hobject : At src stop body := hw.object
      rw [if_pos h0, isEmptyAt_object hfits hobject (hwidth h0) hw.heap, ← hlooks]
      cases looksEmpty tr width body <;> rfl
    · have hlooks : looksEmpty tr width body = false := by
        rw [looksEmpty, Bool.eq_false_iff.mpr h0, Bool.false_and]
      rw [if_neg h0, hlooks]
      rfl

include hle

/-- A member of a fixed size. -/
theorem steps_fixed (h : Reads p body v (some ∘ .exact)) (hm : m.verify = true) :
    Steps (embeddedFixed p.unpack m src endFixed) src endFixed endHeap (.inline body) v
      (fun a => some a.reset) := by
  intro w stop a hw
  obtain ⟨⟨v', e⟩, he, hval, -, hsees⟩ := @h m src w.unknown w.fixedPos endFixed hm hw.slot
    hw.fixed (hle.trans hfits.le) (hle.trans_lt hfits.lt)
  obtain ⟨hpos, hknown, hunknown⟩ := hsees.eq_of_exact
  refine ⟨(v', ⟨e.pos, w.heapPos, e.known, e.unknown⟩), ?_, hval, hpos, le_rfl, ?_⟩
  · rw [embeddedFixed, he]
    rfl
  · rw [hknown, hunknown]
    exact hw.sees.reset

/-- The slot of a variable-size member is inside of the fixed region. -/
theorem unpackNumeric_slot (m : Mode) (skip : Bool) {offset : Nat}
    (hat : At src pos (leBytes 4 offset)) (hoffset : offset < 2 ^ 32)
    (hfixed : pos + 4 ≤ endFixed) :
    unpackNumeric m skip 4 src pos endFixed = .ok offset :=
  unpackNumeric_at m skip hat hoffset hfixed (hle.trans hfits.le) (hle.trans_lt hfits.lt)

/-- An empty container. -/
theorem steps_empty {unpack : Mode → Bytes → Bool → Nat → Nat → Read (Val × Exit)}
    (htr : tr.supports0Offset = true) :
    Steps (embeddedVariable tr width cleared unpack m skip src endFixed endHeap) src endFixed
      endHeap (.word 0) cleared (fun a => some a.reset) := by
  intro w stop a hw
  have hfixed := hw.fixed
  have hread := unpackNumeric_slot hfits hle m skip hw.slot (by decide) hfixed
  refine ⟨(cleared, ⟨u32 (w.fixedPos + 4), w.heapPos, true, w.unknown⟩), ?_, rfl, ?_,
    le_rfl, hw.sees.reset⟩
  · rw [embeddedVariable, hread]
    simp only [htr, Bool.true_and]
    rfl
  · exact u32_of_lt ((le_trans hfixed hle).trans_lt hfits.lt)

/-- An object behind a pointer: the offset is accepted unless the flag is set and the
position is behind, or the object looks like an empty container. -/
theorem steps_pointer {object : Bool → Option Sight} (h : Reads p body v object)
    (hm : m.verify = true) (hwidth : tr.supports0Offset = true → width ≤ body.length) :
    Steps (embeddedVariable tr width cleared p.unpack m skip src endFixed endHeap) src endFixed
      endHeap (.pointer body) v
      (fun a => if looksEmpty tr width body then none else a.follow object) := by
  intro w stop a hw
  have hfixed := hw.fixed
  have hheap := hw.heap
  have hstop := hw.le
  have hend := hfits.lt
  rw [Slot.fixedLen] at hfixed
  have hread := unpackNumeric_slot hfits hle m skip hw.slot (by omega) hfixed
  have htarget : u32 (w.fixedPos + (stop - w.fixedPos)) = stop := by
    rw [u32_of_lt (by omega)]
    omega
  have hzero : (stop - w.fixedPos == 0) = false := by
    rw [beq_eq_false_iff_ne]
    omega
  simp only [embeddedVariable, hread, ok_bind, hzero, Bool.and_false, Bool.false_eq_true,
    if_false, hm, if_true, htarget, checkOffset_object hfits hw hwidth htarget]
  cases looksEmpty tr width body with
  | true =>
    rw [Bool.or_true]
    exact .error _
  | false =>
    simp only [Bool.or_false, Bool.false_eq_true, if_false, Sight.follow]
    cases a.lost with
    | true => exact .error _
    | false =>
      have hunpack := @h m src w.unknown stop endHeap hm hw.object hheap hfits.le hfits.lt
      rw [hw.sees.unknown] at hunpack ⊢
      refine Yields.map hunpack fun r b hr => ⟨hr.val, ?_, ?_, hr.sees⟩
      · exact u32_of_lt (by omega)
      · exact hw.sees.le.trans hr.le

/-- An optional that holds nothing. -/
theorem steps_nullopt :
    Steps (Unpacker.optionalMember elem m skip src endFixed endHeap) src endFixed endHeap
      (.word 1) .nullopt some := by
  intro w stop a hw
  have hfixed := hw.fixed
  have hread := unpackNumeric_slot hfits hle m skip hw.slot (by decide) hfixed
  refine ⟨(.nullopt, { w with fixedPos := u32 (w.fixedPos + 4) }), ?_, rfl, ?_, le_rfl,
    hw.sees⟩
  · simp only [Unpacker.optionalMember, hread, ok_bind, if_true]
    rfl
  · exact u32_of_lt ((le_trans hfixed hle).trans_lt hfits.lt)

/-- An optional that holds a value has the slot of the value. -/
theorem steps_some {x : Val} {effect : Sight → Option Sight}
    (h : Steps (elem.embeddedVariableUnpack m skip src endFixed endHeap) src endFixed endHeap s x
      effect)
    (hs : s = .word 0 ∨ ∃ body, s = .pointer body) :
    Steps (Unpacker.optionalMember elem m skip src endFixed endHeap) src endFixed endHeap s
      (.some x) effect := by
  intro w stop a hw
  have hread : ∃ offset, unpackNumeric m skip 4 src w.fixedPos endFixed = .ok offset ∧
      offset ≠ 1 := by
    have hfixed := hw.fixed
    have hstop := hw.le
    have hheap := hw.heap
    have hend := hfits.lt
    rcases hs with rfl | ⟨body, rfl⟩
    · exact ⟨0, unpackNumeric_slot hfits hle m skip hw.slot (by decide) hfixed, by decide⟩
    · rw [Slot.fixedLen] at hfixed
      exact ⟨_, unpackNumeric_slot hfits hle m skip hw.slot (by omega) hfixed, by omega⟩
  obtain ⟨offset, hread, hne⟩ := hread
  simp only [Unpacker.optionalMember, hread, ok_bind, hne, if_false]
  exact Yields.map (h hw) fun r b hr => ⟨congrArg Val.some hr.val, hr.fixed, hr.le, hr.sees⟩

end

/-! ### Members in a row -/

/-- One effect after another. -/
def runEffects : List (Sight → Option Sight) → Sight → Option Sight
  | [], a => some a
  | f :: fs, a => (f a).bind (runEffects fs)

/-- A member with the slot it meets, the value it reads there and its effect. -/
structure Item where
  member : Member
  slot : Slot
  val : Val
  effect : Sight → Option Sight

/-- A walk over members. -/
theorem unpackEach_steps {ι : Type} {xs : List ι} (item : ι → Item)
    (h : ∀ x ∈ xs, Steps (item x).member src endFixed endHeap (item x).slot (item x).val
      (item x).effect)
    (hw : Meets src endFixed endHeap (xs.map fun x => (item x).slot) w stop a) :
    Yields (unpackEach (xs.map fun x => (item x).member) w)
      (runEffects (xs.map fun x => (item x).effect) a)
      (Moves (xs.map fun x => (item x).val) w (fixedLen (xs.map fun x => (item x).slot))
        (stop + (heapOf (xs.map fun x => (item x).slot)).length)) := by
  induction xs generalizing w stop a with
  | nil => exact .ok ⟨rfl, rfl, le_rfl, hw.sees⟩
  | cons x xs ih =>
    refine Yields.bind (h x mem_cons_self hw.head) fun r b hr => ?_
    have htail := ih (forall_mem_cons.mp h).2 (hw.tail hr)
    rw [add_assoc, ← length_append] at htail
    exact Yields.map htail fun r' c hr' => hr.trans hr' cons rfl

/-! ### Fields that the reader does not know -/

/-- The slots of unknown fields: the position becomes the start of the last of their
objects. -/
def extend : List Slot → Sight → Option Sight
  | [], a => some ⟨false, a.behind, true⟩
  | .pointer object :: ss, a =>
    if a.lost then none else extend ss ⟨false, !object.isEmpty, a.unknown⟩
  | _ :: ss, a => extend ss a

/-- Whether the last of some slots has a value. -/
def lastHasValue (last : Bool) : List Slot → Bool
  | [] => last
  | s :: ss => lastHasValue (s != .word 1) ss

/-- The slot of an optional. -/
def IsOptionalSlot (s : Slot) : Prop := s = .word 0 ∨ s = .word 1 ∨ ∃ object, s = .pointer object

/-- The slot of an optional is an offset. -/
theorem IsOptionalSlot.fixedLen (h : IsOptionalSlot s) : s.fixedLen = 4 := by
  rcases h with rfl | rfl | ⟨object, rfl⟩ <;> rfl

/-- What a walk over the slots of unknown fields leaves. -/
structure Skips (last : Bool) (heapPos stop : Nat) (r : Nat × Bool) (a : Sight) : Prop where
  last : r.2 = last
  le : heapPos ≤ r.1
  sees : a.Sees stop r.1 false true

section

variable {fixedPos heapPos n : Nat} {known last unknown : Bool} {ss : List Slot}

/-- An unknown object behind a pointer. -/
theorem verifyExtensions_pointer (ha : a.Sees stop heapPos known unknown)
    (hread : readNum 4 src fixedPos = .ok (stop - fixedPos)) (hfixed : fixedPos + 4 ≤ heapPos)
    (hend : stop ≤ endHeap) (hlt : endHeap < 2 ^ 32) :
    verifyExtensions src endHeap (n + 1) fixedPos heapPos known last =
      if a.lost then .error .invalid
      else verifyExtensions src endHeap n (u32 (fixedPos + 4)) stop false true := by
  have hle := ha.le
  have htarget : u32 (fixedPos + (stop - fixedPos)) = stop := by
    rw [u32_of_lt (by omega)]
    omega
  have hlost : (known && stop != heapPos) = a.lost := by
    rw [Bool.and_comm]
    exact ha.ne_and_known
  have h₁ : ¬stop - fixedPos < 2 := by omega
  have h₂ : ¬stop - fixedPos < 4 := by omega
  have h₃ : ¬sub32 endHeap fixedPos < stop - fixedPos := by
    rw [sub32_of_le (by omega) hlt]
    omega
  have h₄ : ¬stop - fixedPos < sub32 heapPos fixedPos := by
    rw [sub32_of_le (by omega) (by omega)]
    omega
  rw [verifyExtensions, hread, ok_bind, if_neg h₁]
  simp only [h₂, h₃, h₄, htarget, hlost, decide_false, Bool.not_false]
  cases a.lost <;> rfl

private theorem verifyExtensions_steps (hss : ∀ s ∈ ss, IsOptionalSlot s) (hfits : Fits src endHeap)
    (last : Bool) (ha : a.Sees stop heapPos known unknown)
    (hat : At src fixedPos (fixedOf (stop - fixedPos) ss)) (hobj : At src stop (heapOf ss))
    (hfixed : fixedPos + fixedLen ss ≤ heapPos) (hheap : stop + (heapOf ss).length ≤ endHeap) :
    Yields (verifyExtensions src endHeap ss.length fixedPos heapPos known last) (extend ss a)
      (Skips (lastHasValue last ss) heapPos (stop + (heapOf ss).length)) := by
  induction ss generalizing fixedPos heapPos stop known unknown last a with
  | nil => exact .ok ⟨rfl, le_rfl, ha.le, ha.behind, rfl, rfl⟩
  | cons s ss ih =>
    have hle := ha.le
    have hlen := hfits.le
    have hlt := hfits.lt
    have hss' : ∀ s ∈ ss, IsOptionalSlot s := (forall_mem_cons.mp hss).2
    have hs := (hss s mem_cons_self).fixedLen
    simp only [fixedOf, heapOf, fixedLen, length_append] at hat hobj hfixed hheap ⊢
    have hnext : u32 (fixedPos + 4) = fixedPos + 4 := u32_of_lt (by omega)
    have hright := hat.right
    have hdist : stop - fixedPos + s.heap.length - 4 = stop + s.heap.length - (fixedPos + 4) := by
      omega
    rw [Slot.length_bytes, hs, hdist] at hright
    -- a slot that leads nowhere leaves the position as it was
    have hword : ∀ value, s = .word value → value < 2 →
        Yields (verifyExtensions src endHeap (ss.length + 1) fixedPos heapPos known last)
          (extend ss a) (Skips (lastHasValue (value != 1) ss) heapPos
            (stop + (heapOf ss).length)) := by
      rintro value rfl hvalue
      rw [verifyExtensions, readNum_at hat.left (by omega) (by omega), ok_bind, if_pos hvalue,
        hnext]
      exact ih hss' _ ha hright hobj.right (by omega) (by omega)
    rcases hss s mem_cons_self with rfl | rfl | ⟨object, rfl⟩
    · rw [Slot.heap, length_nil, zero_add]
      exact hword 0 rfl (by decide)
    · rw [Slot.heap, length_nil, zero_add]
      exact hword 1 rfl (by decide)
    · have hread : readNum 4 src fixedPos = .ok (stop - fixedPos) :=
        readNum_at hat.left (by omega) (by omega)
      rw [Slot.heap] at hobj hheap hright ⊢
      rw [length_cons, verifyExtensions_pointer ha hread (by omega) (by omega) hlt, hnext, extend]
      cases a.lost with
      | true => exact .error _
      | false =>
        have hsees : Sight.Sees ⟨false, !object.isEmpty, a.unknown⟩ (stop + object.length) stop
            false a.unknown := by
          refine ⟨by omega, ?_, rfl, rfl⟩
          rw [Bool.not_eq_false', List.isEmpty_iff, ← length_eq_zero_iff]
          omega
        have htail := ih hss' true hsees hright hobj.right (by omega) (by omega)
        rw [← add_assoc]
        exact Yields.mono htail fun r b hr => ⟨hr.last, hle.trans hr.le, hr.sees⟩

/-- The end of a fixed region in which unknown fields may be left. -/
def finish (ss : List Slot) (a : Sight) : Option Sight := if ss.isEmpty then some a else extend ss a

/-- What the end of a fixed region leaves. -/
structure Closes (last : Bool) (heapPos stop : Nat) (r : Exit × Bool) (a : Sight) : Prop where
  last : r.2 = last
  le : heapPos ≤ r.1.pos
  sees : a.Sees stop r.1.pos r.1.known r.1.unknown

/-- The unknown fields behind the members. -/
theorem finishMembers_steps {m : Mode} (hm : m.verify = true) (hss : ∀ s ∈ ss, IsOptionalSlot s)
    (hfits : Fits src endHeap) (last : Bool) (hw : Meets src endFixed endHeap ss w stop a)
    (hend : w.fixedPos + fixedLen ss = endFixed) (hle : endFixed ≤ w.heapPos) :
    Yields (finishMembers m src endFixed endHeap w last) (finish ss a)
      (Closes (lastHasValue last ss) w.heapPos (stop + (heapOf ss).length)) := by
  cases ss with
  | nil =>
    refine ⟨(⟨w.heapPos, w.known, w.unknown⟩, last), ?_, rfl, le_rfl, hw.sees⟩
    have hdone : ¬w.fixedPos < endFixed := by
      rw [← hend]
      exact lt_irrefl _
    simp only [finishMembers, hdone, decide_false, Bool.and_false, Bool.false_eq_true, if_false]
    rfl
  | cons s ss =>
    have hlen := fixedLen_of_forall fun s hs => (hss s hs).fixedLen
    have hmore : w.fixedPos < endFixed := by
      rw [← hend, hlen, length_cons]
      omega
    have hcount : (endFixed - w.fixedPos) / 4 = (s :: ss).length := by
      rw [← hend, hlen, Nat.add_sub_cancel_left, Nat.mul_div_cancel _ (by decide)]
    have hmod : ((endFixed - w.fixedPos) % 4 == 0) = true := by
      rw [← hend, hlen, Nat.add_sub_cancel_left, Nat.mul_mod_left]
      rfl
    simp only [finishMembers, hm, hmore, hmod, hcount, decide_true, Bool.and_true, if_true]
    exact Yields.map (verifyExtensions_steps hss hfits last hw.sees hw.slots hw.objects (by omega)
      hw.heap) fun r b hr => ⟨hr.last, hr.le, hr.sees⟩

end

/-! ### Members that may be missing -/

/-- A member that is present, with the slot it meets, the value it reads and its effect. -/
structure Present where
  reader : Unpacker
  slot : Slot
  val : Val
  effect : Sight → Option Sight

/-- Only an optional has the slot of an optional without a value. -/
structure Present.Marked (x : Present) : Prop where
  optional : x.reader.traits.isOptional = true →
    IsOptionalSlot x.slot ∧ x.val.hasValue = (x.slot != .word 1)
  other : x.reader.traits.isOptional = false → x.slot ≠ .word 1

section

variable {m : Mode} {byValue : Bool} {x : Present}

private theorem hasValueAt_slot (hw : Faces src endFixed endHeap s w stop a) (hs : IsOptionalSlot s)
    (hfits : Fits src endHeap) :
    hasValueAt m src w.fixedPos endFixed = (s != .word 1) := by
  have hlt := hfits.lt
  have hfixed := hw.fixed
  have hle := hw.le
  have hheap := hw.heap
  rw [hs.fixedLen] at hfixed
  have hread : ∀ offset, At src w.fixedPos (leBytes 4 offset) → offset < 2 ^ 32 →
      hasValueAt m src w.fixedPos endFixed = (offset != 1) := by
    intro offset hat hoffset
    rw [hasValueAt, unpackNumeric_slot hfits (by omega) m false hat hoffset hfixed]
  rcases hs with rfl | rfl | ⟨object, rfl⟩
  · exact hread 0 hw.slot (by decide)
  · exact hread 1 hw.slot (by decide)
  · have hne : stop - w.fixedPos ≠ 1 := by omega
    rw [hread _ hw.slot (by omega), bne_iff_ne.mpr hne]
    rfl

/-- Whether a member that was read has a value shows in its slot. -/
theorem Present.Marked.last (h : x.Marked) (byValue : Bool) (m : Mode)
    (hw : Faces src endFixed endHeap x.slot w stop a) (hfits : Fits src endHeap) :
    (!x.reader.traits.isOptional || (if byValue then x.val.hasValue
      else hasValueAt m src w.fixedPos endFixed)) = (x.slot != .word 1) := by
  cases hopt : x.reader.traits.isOptional with
  | false =>
    exact (bne_iff_ne.mpr (h.other hopt)).symm
  | true =>
    obtain ⟨hslot, hval⟩ := h.optional hopt
    rw [Bool.not_true, Bool.false_or, hval, hasValueAt_slot hw hslot hfits, ite_self]

/-- A member whose slot stands in the fixed region is read. -/
theorem Present.Marked.inside (h : x.Marked)
    (hw : Faces src endFixed endHeap x.slot w stop a) :
    (decide (w.fixedPos < endFixed) || !x.reader.traits.isOptional) = true := by
  cases hopt : x.reader.traits.isOptional with
  | false => rw [Bool.not_false, Bool.or_true]
  | true =>
    have hfixed := hw.fixed
    rw [(h.optional hopt).1.fixedLen] at hfixed
    have hlt : w.fixedPos < endFixed := by omega
    rw [decide_eq_true hlt, Bool.true_or]

/-- What a walk over present members leaves, with whether the last one has a value. -/
structure Passes (vs : List Val) (last : Bool) (w : Walk) (n stop : Nat)
    (r : List Val × Walk × Bool) (a : Sight) : Prop where
  moves : Moves vs w n stop (r.1, r.2.1) a
  last : r.2.2 = last

/-- A walk over members of which some are absent. -/
theorem unpackTrimmed_steps {xs : List Present} (hmark : ∀ x ∈ xs, x.Marked)
    (h : ∀ x ∈ xs, Steps (x.reader.embeddedUnpack m false src endFixed endHeap) src endFixed endHeap
      x.slot x.val x.effect)
    (hfits : Fits src endHeap) {absent : List Unpacker}
    (habsent : ∀ p ∈ absent, p.traits.isOptional = true) (last : Bool)
    (hw : Meets src endFixed endHeap (xs.map Present.slot) w stop a)
    (hend : absent ≠ [] → w.fixedPos + fixedLen (xs.map Present.slot) = endFixed) :
    Yields (unpackTrimmed m byValue src endFixed endHeap (xs.map Present.reader ++ absent) w last)
      (runEffects (xs.map Present.effect) a)
      (Passes (xs.map Present.val ++ absent.map fun _ => .nullopt)
        (lastHasValue last (xs.map Present.slot)) w (fixedLen (xs.map Present.slot))
        (stop + (heapOf (xs.map Present.slot)).length)) := by
  induction xs generalizing w stop last a with
  | nil =>
    -- optionals beyond the end of the fixed region hold nothing
    have hskip : unpackTrimmed m byValue src endFixed endHeap absent w last =
        .ok (absent.map fun _ => .nullopt, w, last) := by
      induction absent with
      | nil => rfl
      | cons p absent ih =>
        have hpos : w.fixedPos = endFixed := hend (cons_ne_nil _ _)
        have hnot : ¬(decide (w.fixedPos < endFixed) || !p.traits.isOptional) = true := by
          rw [habsent p mem_cons_self, Bool.not_true, Bool.or_false, decide_eq_true_eq]
          omega
        rw [unpackTrimmed, if_neg hnot, ih (forall_mem_cons.mp habsent).2 fun _ => hpos]
        rfl
    exact ⟨_, hskip, ⟨rfl, rfl, le_rfl, hw.sees⟩, rfl⟩
  | cons x xs ih =>
    have hface := hw.head
    have hx := hmark x mem_cons_self
    rw [map_cons, cons_append, unpackTrimmed, if_pos (hx.inside hface)]
    refine Yields.bind (h x mem_cons_self hface) fun r b hr => ?_
    have htail := ih (forall_mem_cons.mp hmark).2
      (forall_mem_cons.mp h).2 (x.slot != .word 1) (hw.tail hr) (by
        intro hne
        rw [hr.fixed, add_assoc]
        exact hend hne)
    have hlast := hx.last byValue m hface hfits
    rw [← hr.val] at hlast
    rw [← hlast, add_assoc, ← length_append] at htail
    refine Yields.map htail fun r' c hr' => ⟨hr.trans hr'.moves cons rfl, ?_⟩
    rw [hr'.last, hlast]
    rfl

end

end PsiServe.Frac
