import Mathlib.Data.List.Infix
import PsiServe.Interp.StackStep

/-!
# Isolation of nested executions

Nested calls of `execute` share the call, EH and clause stacks of one context
(`psizam/detail/execution_context.hpp:1770–1875`), and
`dispatch_exception` searches the EH stack to its bottom
(`interpret_visitor.hpp:3272–3362`). The invariant `Above` says which part of the stacks
belongs to the running execution; as long as no step leaves more EH frames than that, the
frames of the executions around it stay as they were.
-/

namespace PsiServe.Interp

open Base Wasm Bitcode List Control Machine

variable {W : Type} {tag n f : Nat} {e : EhCatchEntry} {k d k' : Control} {p : Program}
  {payload : List UInt64} {o : Outcome Control} {os : List Value} {i : Instr} {c : Context W}
  {s : Saved} {m : Machine W}

/-- The call, EH and clause stacks. -/
structure Frames where
  as : List ActivationFrame
  ehStack : List EhFrame
  ehCatches : List EhCatchEntry
deriving DecidableEq

/-- The three stacks of an execution context. -/
def Control.frames (k : Control) : Frames := ⟨k.as, k.ehStack, k.ehCatches⟩

/-- The stacks `out` of outer executions lie below those of the running one: its entry
frame returns to the halt opcode, and its EH frames were entered above `out`. -/
structure Above (out fr : Frames) : Prop where
  as : out.as <:+ fr.as
  entry : ∀ af, af :: out.as <:+ fr.as → af.pc = .halt
  eh : ∃ inner, fr.ehStack = inner ++ out.ehStack ∧
    ∀ f ∈ inner, out.as.length < f.callDepth ∧ out.ehCatches.length ≤ f.firstCatch
  catches : out.ehCatches <+: fr.ehCatches

/-- A step may leave this many EH frames without reaching those of outer executions. -/
def MayLeave (out fr : Frames) (n : Nat) : Prop :=
  out.ehStack = [] ∨ out.ehStack.length + n ≤ fr.ehStack.length

/-- EH frames `dispatch_exception` leaves for a tag: those without a matching clause, the
one that catches, and those its target label lies outside of. -/
def throwLeaves (tag : Nat) : List EhFrame → List EhCatchEntry → Nat
  | [], _ => 0
  | frame :: outer, catches =>
    match findCatch catches tag frame.firstCatch frame.catchCount with
    | some (some e) => 1 + e.ehLeaveCount
    | _ => 1 + throwLeaves tag outer (catches.take frame.firstCatch)

/-- Tag an instruction throws. -/
def thrownTag (k : Control) : Instr → Option Nat
  | .throw_ tag => some tag
  | .throwRef =>
    match k.os with
    | [] => none
    | v :: _ => (k.ehExnStack[v.toUi32.toNat]?).map WasmException.tagIndex
  | _ => none

/-- EH frames a branch leaves. -/
def branchLeaves (os : List Value) : Instr → Nat
  | .delegate _ => 1
  | .brIf _ _ stacksz =>
    match os with
    | .i32 bits :: _ => if bits = 0 then 0 else stacksz
    | _ => 0
  | .brTable size table =>
    match os with
    | [] => 0
    | v :: _ =>
      match table[min v.toUi32.toNat size]? with
      | none => 0
      | some e => e.ehLeaveCount
  | _ => 0

/-- EH frames an instruction leaves. -/
def ehLeaves (k : Control) (i : Instr) : Nat :=
  match thrownTag k i with
  | some tag => throwLeaves tag k.ehStack k.ehCatches
  | none => branchLeaves k.os i

/-! ### Stack operations above outer frames -/

variable {out fr : Frames}

namespace Above

variable {af : ActivationFrame} {rest : List ActivationFrame}

private theorem length_lt (h : Above out fr) (hne : fr.as ≠ out.as) :
    out.as.length < fr.as.length := by
  refine Nat.lt_of_le_of_ne h.as.length_le fun hlen => hne ?_
  exact (h.as.eq_of_length hlen).symm

/-- A running execution that loses no call frame is still running. -/
theorem ne_of_length_le {as : List ActivationFrame} (h : Above out fr)
    (hne : fr.as ≠ out.as) (hle : fr.as.length ≤ as.length) : as ≠ out.as := by
  rintro rfl
  exact absurd (h.length_lt hne) (Nat.not_lt.mpr hle)

/-- A frame pushed on top of a running execution is not its entry frame. -/
theorem push (h : Above out fr) (hne : fr.as ≠ out.as) (af : ActivationFrame) :
    Above out { fr with as := af :: fr.as } := by
  refine ⟨h.as.trans (suffix_cons af fr.as), ?_, h.eh, h.catches⟩
  intro bf hbf
  rcases suffix_cons_iff.mp hbf with heq | hsuf
  · exact absurd (cons.inj heq).2.symm hne
  · exact h.entry bf hsuf

/-- Popping the topmost frame of a running execution. -/
theorem pop (h : Above out fr) (has : fr.as = af :: rest) (hne : fr.as ≠ out.as) :
    Above out { fr with as := rest } ∧ (rest = out.as → af.pc = .halt) := by
  have hsuf : out.as <:+ rest := by
    rcases suffix_cons_iff.mp (has ▸ h.as) with heq | hsuf
    · exact absurd (has.trans heq.symm) hne
    · exact hsuf
  refine ⟨⟨hsuf, ?_, h.eh, h.catches⟩, ?_⟩
  · intro bf hbf
    apply h.entry
    rw [has]
    exact hbf.trans (suffix_cons af rest)
  · rintro rfl
    apply h.entry
    rw [has]

/-- Replacing the topmost frame by one that returns to the same place. -/
theorem replace (h : Above out fr) {bf : ActivationFrame} (has : fr.as = af :: rest)
    (hne : fr.as ≠ out.as) (hpc : bf.pc = af.pc) :
    Above out { fr with as := bf :: rest } := by
  obtain ⟨hpop, hhalt⟩ := h.pop has hne
  refine ⟨hpop.as.trans (suffix_cons bf rest), ?_, h.eh, h.catches⟩
  intro cf hcf
  rcases suffix_cons_iff.mp hcf with heq | hsuf
  · obtain ⟨rfl, hrest⟩ := cons.inj heq
    rw [hpc]
    exact hhalt hrest.symm
  · exact hpop.entry cf hsuf

/-- The outer frames are cut off by their lengths. -/
theorem eq_cut (h : Above out fr) : out = ⟨fr.as.drop (fr.as.length - out.as.length),
      fr.ehStack.drop (fr.ehStack.length - out.ehStack.length),
      fr.ehCatches.take out.ehCatches.length⟩ := by
  obtain ⟨inner, hinner, -⟩ := h.eh
  rw [← suffix_iff_eq_drop.mp h.as, ← suffix_iff_eq_drop.mp ⟨inner, hinner.symm⟩,
    ← prefix_iff_eq_take.mp h.catches]

end Above

/-- The topmost EH frame is one of the running execution if a step may leave one. -/
theorem Above.top {frame : EhFrame} {outer : List EhFrame} (h : Above out fr)
    (heh : fr.ehStack = frame :: outer) (hm : MayLeave out fr (n + 1)) :
    ∃ inner, outer = inner ++ out.ehStack ∧ ∀ f ∈ frame :: inner,
      out.as.length < f.callDepth ∧ out.ehCatches.length ≤ f.firstCatch := by
  obtain ⟨inner, hinner, hframes⟩ := h.eh
  cases inner with
  | nil =>
    rw [nil_append] at hinner
    rcases hm with hnil | hlen
    · rw [heh, hnil] at hinner
      cases hinner
    · rw [hinner] at hlen
      omega
  | cons f inner =>
    obtain ⟨rfl, houter⟩ := cons.inj (heh.symm.trans hinner)
    exact ⟨inner, houter, hframes⟩

/-- Unwinding leaves the frames up to the depth. -/
theorem as_unwindTo (depth : Nat) (as : List ActivationFrame) (k : Control) :
    (unwindTo depth as k).as = as.drop (as.length - depth) := by
  induction as generalizing k with
  | nil =>
    rw [drop_nil]
    rfl
  | cons af rest ih =>
    unfold unwindTo
    split
    next hlt =>
      rw [length_cons] at hlt
      rw [ih, length_cons, Nat.succ_sub (by omega), drop_succ_cons]
    next hge => rw [Nat.sub_eq_zero_of_le (by omega), drop_zero]

/-- Unwinding drops call frames and leaves the other stacks and bounds alone. -/
theorem unwindTo_eq (depth : Nat) (as : List ActivationFrame) (k : Control) :
    let u := unwindTo depth as k
    u.ehStack = k.ehStack ∧ u.ehCatches = k.ehCatches ∧ u.asIndex = k.asIndex ∧
      u.osIndex = k.osIndex ∧ u.os = k.os ∧ u.ehExnStack = k.ehExnStack ∧ u.pc = k.pc := by
  induction as generalizing k with
  | nil => exact ⟨rfl, rfl, rfl, rfl, rfl, rfl, rfl⟩
  | cons af rest ih =>
    unfold unwindTo
    split
    · exact ih _
    · exact ⟨rfl, rfl, rfl, rfl, rfl, rfl, rfl⟩

/-- The stacks and the bounds of the running execution after a step that stays within it. -/
structure Keeps (out : Frames) (k k' : Control) : Prop where
  above : Above out k'.frames
  asIndex : k'.asIndex = k.asIndex
  osIndex : k'.osIndex = k.osIndex

namespace Keeps

variable {k'' : Control} {n : Nat}

private theorem trans (h : Keeps out k k') (h' : Keeps out k' k'') : Keeps out k k'' :=
  ⟨h'.above, h'.asIndex.trans h.asIndex, h'.osIndex.trans h.osIndex⟩

/-- Leaving one EH frame of the running execution. -/
theorem leaveEhFrame (h : Above out k.frames) (hm : MayLeave out k.frames 1) :
    Keeps out k k.leaveEhFrame := by
  unfold Control.leaveEhFrame
  split
  · exact ⟨h, rfl, rfl⟩
  next frame outer heh =>
    obtain ⟨inner, houter, hframes⟩ := h.top heh hm
    refine ⟨⟨h.as, h.entry, ⟨inner, houter, ?_⟩, ?_⟩, rfl, rfl⟩
    · intro g hg
      exact hframes g (mem_cons_of_mem _ hg)
    · exact prefix_take_iff.mpr ⟨h.catches, (hframes frame mem_cons_self).2⟩

private theorem length_leaveEhFrame (k : Control) :
    k.leaveEhFrame.ehStack.length = k.ehStack.length - 1 := by
  unfold Control.leaveEhFrame
  split
  next heh => rw [heh]; rfl
  next heh => rw [heh]; rfl

private theorem as_leaveEhFrame (k : Control) : k.leaveEhFrame.as = k.as := by
  unfold Control.leaveEhFrame
  split
  · rfl
  · rfl

private theorem mayLeave_leaveEhFrame (hm : MayLeave out k.frames (n + 1)) :
    MayLeave out k.leaveEhFrame.frames n := by
  rcases hm with hnil | hlen
  · exact .inl hnil
  · right
    rw [frames] at hlen ⊢
    rw [length_leaveEhFrame]
    dsimp only at hlen
    omega

/-- Leaving a number of EH frames of the running execution. -/
theorem leaveEhFrames (h : Above out k.frames) (hm : MayLeave out k.frames n) :
    Keeps out k (k.leaveEhFrames n) ∧ (k.leaveEhFrames n).as = k.as := by
  induction n generalizing k with
  | zero => exact ⟨⟨h, rfl, rfl⟩, rfl⟩
  | succ n ih =>
    have hone : MayLeave out k.frames 1 := hm.imp id fun hlen => by omega
    have hleave := leaveEhFrame h hone
    obtain ⟨hrest, has⟩ := ih hleave.above (mayLeave_leaveEhFrame hm)
    exact ⟨hleave.trans hrest, has.trans (as_leaveEhFrame k)⟩

/-- Unwinding to a depth above the outer frames. -/
theorem unwind {depth : Nat} (h : Above out k.frames) (hne : k.as ≠ out.as)
    (hdepth : out.as.length < depth) :
    Keeps out k (k.unwindCallStackTo depth) ∧ (k.unwindCallStackTo depth).as ≠ out.as := by
  obtain ⟨heh, hcatches, hasIndex, hosIndex, -⟩ := unwindTo_eq depth k.as k
  have has : (k.unwindCallStackTo depth).as = k.as.drop (k.as.length - depth) :=
    as_unwindTo depth k.as k
  have hlen : out.as.length < (k.as.drop (k.as.length - depth)).length := by
    have := h.length_lt hne
    rw [length_drop]
    change out.as.length < k.as.length at this
    omega
  refine ⟨⟨⟨?_, ?_, ?_, ?_⟩, hasIndex, hosIndex⟩, ?_⟩
  · change out.as <:+ (k.unwindCallStackTo depth).as
    rw [has]
    exact suffix_of_suffix_length_le h.as (drop_suffix _ _) hlen.le
  · intro af haf
    change _ <:+ (k.unwindCallStackTo depth).as at haf
    rw [has] at haf
    exact h.entry af (haf.trans (drop_suffix _ _))
  · change ∃ inner, (k.unwindCallStackTo depth).ehStack = _ ∧ _
    rw [unwindCallStackTo, heh]
    exact h.eh
  · change _ <+: (k.unwindCallStackTo depth).ehCatches
    rw [unwindCallStackTo, hcatches]
    exact h.catches
  · intro heq
    rw [has] at heq
    rw [heq] at hlen
    omega

end Keeps

/-! ### Exceptions -/

/-- The clause that catches an exception is one of the frame's. -/
theorem findCatch_some {catches : List EhCatchEntry} {first count : Nat}
    (h : findCatch catches tag first count = some (some e)) :
    ∃ j, first ≤ j ∧ j < first + count ∧ catches[j]? = some e := by
  induction count generalizing first with
  | zero => cases h
  | succ count ih =>
    unfold findCatch at h
    split at h
    · cases h
    next e' he' =>
      split at h
      · cases h
        exact ⟨first, le_rfl, by omega, he'⟩
      · obtain ⟨j, hle, hlt, hj⟩ := ih h
        exact ⟨j, by omega, by omega, hj⟩

/-- Control goes to a handler of a `try_table` the running execution has entered. -/
def HandlerInside (out : Frames) (k : Control) (pc : Pc) : Prop :=
  ∃ frame ∈ k.ehStack.take (k.ehStack.length - out.ehStack.length), ∃ j e,
    frame.firstCatch ≤ j ∧ j < frame.firstCatch + frame.catchCount ∧
      out.ehCatches.length ≤ j ∧ k.ehCatches[j]? = some e ∧ pc = .code e.handlerPc

/-- How an exception ends: in a handler of the running execution, or in an error. -/
def ExceptionStays (out : Frames) (k : Control) : Outcome Control → Prop
  | .next k' => Keeps out k k' ∧ k'.as ≠ out.as ∧ HandlerInside out k k'.pc
  | .trap k' _ => Keeps out k k'
  | .undefined => True
  | _ => False

variable {frame : EhFrame} {outer : List EhFrame}

private theorem Above.top_inner (h : Above out k.frames) (heh : k.ehStack = frame :: outer)
    (hm : MayLeave out k.frames (n + 1)) :
    frame ∈ k.ehStack.take (k.ehStack.length - out.ehStack.length) ∧
      out.as.length < frame.callDepth ∧ out.ehCatches.length ≤ frame.firstCatch := by
  obtain ⟨inner, rfl, hframes⟩ := h.top heh hm
  have htake : k.ehStack.take (k.ehStack.length - out.ehStack.length) = frame :: inner := by
    rw [heh, ← cons_append, length_append, Nat.add_sub_cancel, take_left]
  rw [htake]
  exact ⟨mem_cons_self, hframes frame mem_cons_self⟩

/-- Leaving EH frames changes the EH and clause stacks only. -/
theorem leaveEhFrames_eq (n : Nat) (k : Control) : ∃ eh catches,
    k.leaveEhFrames n = { k with ehStack := eh, ehCatches := catches } := by
  induction n generalizing k with
  | zero => exact ⟨k.ehStack, k.ehCatches, rfl⟩
  | succ n ih =>
    obtain ⟨eh, catches, h⟩ := ih k.leaveEhFrame
    refine ⟨eh, catches, ?_⟩
    rw [leaveEhFrames, h]
    unfold leaveEhFrame
    split
    · rfl
    · rfl

private theorem enterHandler_stays {outer : List EhFrame} (h : Above out k.frames)
    (hne : k.as ≠ out.as)
    (heh : k.ehStack = frame :: outer) (hm : MayLeave out k.frames (1 + e.ehLeaveCount))
    (he : findCatch k.ehCatches tag frame.firstCatch frame.catchCount = some (some e)) :
    ExceptionStays out k (enterHandler p k frame e tag payload) := by
  rw [add_comm] at hm
  obtain ⟨hmem, hdepth, hfirst⟩ := h.top_inner heh hm
  obtain ⟨hunwind, hne'⟩ := Keeps.unwind h hne hdepth
  have heh' : (k.unwindCallStackTo frame.callDepth).ehStack = k.ehStack :=
    (unwindTo_eq frame.callDepth k.as k).1
  unfold enterHandler
  split
  next d ft heat _ =>
    obtain ⟨-, rfl⟩ := eatOperands_eq heat
    dsimp only
    generalize hd : ({ (k.unwindCallStackTo frame.callDepth) with
      os := _, ehExnStack := _ } : Control) = d
    have hframes : d.frames = (k.unwindCallStackTo frame.callDepth).frames := by
      rw [← hd]
      rfl
    have hleave : Keeps out d (d.leaveEhFrames (e.ehLeaveCount + 1)) ∧
        (d.leaveEhFrames (e.ehLeaveCount + 1)).as = d.as := by
      apply Keeps.leaveEhFrames
      · rw [hframes]
        exact hunwind.above
      · rw [hframes, MayLeave, frames, heh']
        exact hm
    have hindex : d.asIndex = k.asIndex ∧ d.osIndex = k.osIndex := by
      rw [← hd]
      exact ⟨hunwind.asIndex, hunwind.osIndex⟩
    obtain ⟨j, hle, hlt, hj⟩ := findCatch_some he
    refine ⟨⟨hleave.1.above, hleave.1.asIndex.trans hindex.1, hleave.1.osIndex.trans hindex.2⟩,
      ?_, frame, hmem, j, e, hle, hlt, hfirst.trans hle, hj, rfl⟩
    change (d.leaveEhFrames (e.ehLeaveCount + 1)).as ≠ out.as
    rw [hleave.2, show d.as = _ from congrArg Frames.as hframes]
    exact hne'
  · trivial

/-- The topmost EH frame is left with its clauses. -/
theorem leaveEhFrame_cons (heh : k.ehStack = frame :: outer) : k.leaveEhFrame = { k with
      ehStack := outer
      ehCatches := k.ehCatches.take frame.firstCatch } := by
  unfold leaveEhFrame
  rw [heh]

/-- A handler inside the frames that are left is one inside the frames there were. -/
theorem HandlerInside.of_leave {pc : Pc} (heh : k.ehStack = frame :: outer)
    (heh' : k'.ehStack = outer) (hcatches : k'.ehCatches = k.ehCatches.take frame.firstCatch)
    (hlen : out.ehStack.length < k.ehStack.length) (h : HandlerInside out k' pc) :
    HandlerInside out k pc := by
  obtain ⟨f, hf, j, e, hle, hlt, hout, hj, hpc⟩ := h
  refine ⟨f, ?_, j, e, hle, hlt, hout, ?_, hpc⟩
  · rw [heh, length_cons] at hlen ⊢
    rw [heh'] at hf
    rw [Nat.succ_sub (by omega), take_succ_cons]
    exact mem_cons_of_mem _ hf
  · rw [hcatches, getElem?_take] at hj
    split at hj
    · exact hj
    · cases hj

/-- An exception of the running execution is caught by one of its `try_table` frames or
ends it with an error, provided dispatch leaves none of the outer EH frames. -/
theorem dispatchException_stays {frames : List EhFrame} (heh : k.ehStack = frames)
    (h : Above out k.frames) (hne : k.as ≠ out.as)
    (hm : MayLeave out k.frames (throwLeaves tag frames k.ehCatches)) :
    ExceptionStays out k (dispatchException p tag payload frames k) := by
  induction frames generalizing k with
  | nil => exact ⟨h, rfl, rfl⟩
  | cons frame outer ih =>
    unfold dispatchException
    unfold throwLeaves at hm
    split
    · trivial
    next e he =>
      rw [he] at hm
      exact enterHandler_stays h hne heh hm he
    next he =>
      rw [he, add_comm] at hm
      dsimp only at hm
      obtain ⟨-, hdepth, -⟩ := h.top_inner heh hm
      have hleave := Keeps.leaveEhFrame h (hm.imp id fun hlen => by omega)
      rw [leaveEhFrame_cons heh] at hleave ⊢
      obtain ⟨hunwind, hne'⟩ := Keeps.unwind hleave.above hne hdepth
      obtain ⟨heh', hcatches, -⟩ := unwindTo_eq frame.callDepth k.as { k with
        ehStack := outer, ehCatches := k.ehCatches.take frame.firstCatch }
      dsimp only [unwindCallStackTo] at hunwind hne' heh' hcatches ⊢
      generalize unwindTo frame.callDepth k.as _ = u at hunwind hne' heh' hcatches ⊢
      have hm' : MayLeave out u.frames (throwLeaves tag outer u.ehCatches) := by
        apply hm.imp id
        intro hlen
        change _ ≤ k.ehStack.length at hlen
        change _ ≤ u.ehStack.length
        rw [heh, length_cons] at hlen
        rw [heh', hcatches]
        omega
      have hlen : out.ehStack.length < k.ehStack.length := by
        rcases hm with hnil | hlen
        · rw [hnil, heh]
          exact Nat.succ_pos _
        · change _ ≤ k.ehStack.length at hlen
          omega
      have hrec := ih heh' hunwind.above hne' hm'
      generalize dispatchException p tag payload outer u = o at hrec ⊢
      cases o with
      | next k' =>
        obtain ⟨hkeeps, has, hin⟩ := hrec
        exact ⟨(hleave.trans hunwind).trans hkeeps, has, hin.of_leave heh heh' hcatches hlen⟩
      | trap k' t => exact (hleave.trans hunwind).trans hrec
      | undefined => trivial
      | host _ _ _ | leave _ => exact hrec

/-! ### One step -/

/-- How a step of the running execution ends: its frames stay above the outer ones, a call
of a host function pushes a frame and a tail call of one pushes none. -/
def Stays (out : Frames) (k : Control) : Outcome Control → Prop
  | .next k' => Keeps out k k' ∧ (k'.as = out.as → k'.pc = .halt)
  | .trap k' _ => Keeps out k k'
  | .leave k' => Keeps out k k'
  | .host k' _ false => (∃ af, k'.frames = { k.frames with as := af :: k.as }) ∧
    k'.asIndex = k.asIndex ∧ k'.osIndex = k.osIndex
  | .host k' _ true => k'.SameFrames k
  | .undefined => True

private theorem Control.SameFrames.frames (h : k'.SameFrames k) : k'.frames = k.frames := by
  rw [Control.frames, h.as, h.ehStack, h.ehCatches, Control.frames]

namespace Stays

variable {d : Control} {data pc : Nat}

private theorem keeps_same (h : Above out k.frames) (hs : k'.SameFrames k) : Keeps out k k' :=
  ⟨hs.frames ▸ h, hs.asIndex, hs.osIndex⟩

/-- A step that leaves the frames as they are. -/
theorem next_same (h : Above out k.frames) (hne : k.as ≠ out.as) (hs : k'.SameFrames k) :
    Stays out k (.next k') :=
  ⟨keeps_same h hs, fun has => absurd (hs.as ▸ has) hne⟩

private theorem withPop (h : Above out k.frames) {f : Value → Control → Outcome Control}
    (hf : ∀ v rest, k.os = v :: rest → Stays out k (f v { k with os := rest })) :
    Stays out k (k.withPop f) := by
  unfold Control.withPop
  split
  · exact ⟨h, rfl, rfl⟩
  next v rest hos => exact hf v rest hos

/-- Leaving EH frames and jumping to a label. -/
theorem leave_jump {m : Nat} (h : Above out k.frames) (hne : k.as ≠ out.as)
    (hm : MayLeave out k.frames m) :
    Stays out k (.ofOption ((k.leaveEhFrames m).jump data pc)) := by
  obtain ⟨hleave, has⟩ := Keeps.leaveEhFrames h hm
  cases hj : (k.leaveEhFrames m).jump data pc with
  | none => trivial
  | some d =>
    obtain ⟨os, rfl⟩ := jump_eq hj
    exact ⟨⟨hleave.above, hleave.asIndex, hleave.osIndex⟩, fun heq => absurd (has ▸ heq) hne⟩

private theorem of_exception (h : ExceptionStays out k o) : Stays out k o := by
  cases o with
  | next k' => exact ⟨h.1, fun has => absurd has h.2.1⟩
  | trap k' t => exact h
  | undefined => trivial
  | host _ _ _ | leave _ => exact absurd h id

end Stays

/-- The operand stack plays no part in where an exception may go. -/
theorem ExceptionStays.of_os (h : ExceptionStays out { k with os := os } o) :
    ExceptionStays out k o := by
  cases o with
  | next k' => exact ⟨⟨h.1.above, h.1.asIndex, h.1.osIndex⟩, h.2⟩
  | trap k' t => exact ⟨h.above, h.asIndex, h.osIndex⟩
  | undefined => trivial
  | host _ _ _ | leave _ => exact h

/-- Only the frames of the stacks a step starts from matter. -/
theorem Stays.of_same (hs : d.SameFrames k) (h : Stays out d o) : Stays out k o := by
  cases o with
  | next k' => exact ⟨⟨h.1.above, h.1.asIndex.trans hs.asIndex, h.1.osIndex.trans hs.osIndex⟩, h.2⟩
  | trap _ _ | leave _ => exact ⟨h.above, h.asIndex.trans hs.asIndex, h.osIndex.trans hs.osIndex⟩
  | undefined => trivial
  | host k' f tail =>
    cases tail with
    | false =>
      obtain ⟨⟨af, hframes⟩, hasIndex, hosIndex⟩ := h
      rw [hs.frames, hs.as] at hframes
      exact ⟨⟨af, hframes⟩, hasIndex.trans hs.asIndex, hosIndex.trans hs.osIndex⟩
    | true =>
      exact ⟨h.as.trans hs.as, h.ehStack.trans hs.ehStack, h.ehCatches.trans hs.ehCatches,
        h.asIndex.trans hs.asIndex, h.osIndex.trans hs.osIndex⟩

private theorem Stays.of_os (h : Stays out { k with os := os } o) :
    Stays out k o := .of_same (by exact ⟨rfl, rfl, rfl, rfl, rfl⟩) h

section

variable (h : Above out k.frames) (hne : k.as ≠ out.as)

include h hne

private theorem dispatchException_os_stays (os : List Value)
    (hm : MayLeave out k.frames (throwLeaves tag k.ehStack k.ehCatches)) :
    ExceptionStays out k (dispatchException p tag payload k.ehStack { k with os := os }) :=
  .of_os (dispatchException_stays (k := { k with os := os }) rfl h hne hm)

private theorem throwTag_stays
    (hm : MayLeave out k.frames (throwLeaves tag k.ehStack k.ehCatches)) :
    ExceptionStays out k (throwTag p k tag) := by
  unfold throwTag
  split
  · trivial
  · dsimp only
    split
    · exact ⟨h, rfl, rfl⟩
    · exact dispatchException_os_stays h hne _ hm

private theorem throwRef_stays (hm : MayLeave out k.frames (ehLeaves k .throwRef)) :
    ExceptionStays out k (throwRef p k) := by
  unfold throwRef withPop
  split
  · exact ⟨h, rfl, rfl⟩
  next v rest hos =>
    dsimp only
    split
    · exact ⟨h, rfl, rfl⟩
    · split
      · exact ⟨h, rfl, rfl⟩
      next exn hexn =>
        have htag : thrownTag k .throwRef = some exn.tagIndex := by
          rw [thrownTag, hos]
          exact congrArg (Option.map WasmException.tagIndex) hexn
        rw [ehLeaves, htag] at hm
        exact dispatchException_os_stays h hne rest hm

private theorem enterTryTable_stays (n numClauses : Nat) :
    Stays out k (enterTryTable p k n numClauses) := by
  unfold enterTryTable
  split
  · exact Stays.next_same h hne ⟨rfl, rfl, rfl, rfl, rfl⟩
  · split
    · trivial
    next clauses _ =>
      obtain ⟨inner, hinner, hframes⟩ := h.eh
      refine ⟨⟨⟨h.as, h.entry, ⟨_ :: inner, congrArg (cons _) hinner, ?_⟩, ?_⟩, rfl, rfl⟩,
        fun has => absurd has hne⟩
      · exact forall_mem_cons.mpr ⟨⟨h.length_lt hne, h.catches.length_le⟩, hframes⟩
      · exact h.catches.trans (prefix_append _ _)

private theorem visitControl_stays (hm : MayLeave out k.frames (ehLeaves k i))
    (ho : visitControl p k n i = some o) :
    Stays out k o := by
  have hself : Keeps out k k := ⟨h, rfl, rfl⟩
  have hsame : ∀ pc os, Stays out k (.next { k with pc := pc, os := os }) := fun pc os =>
    Stays.next_same h hne ⟨rfl, rfl, rfl, rfl, rfl⟩
  cases i with
  | unreachable | rethrow _ | exit =>
    cases ho
    exact hself
  | brTableData | error =>
    cases ho
    trivial
  | nop | else_ _ | catch_ _ _ | catchAll _ =>
    cases ho
    exact hsame _ _
  | if_ pc =>
    cases ho
    apply Stays.withPop h
    intro v rest _
    split
    · exact hsame _ _
    · exact hsame _ _
  | br data pc =>
    cases ho
    exact Stays.leave_jump (m := 0) h hne (hm.imp id id)
  | brIf data pc stacksz =>
    cases ho
    apply Stays.withPop h
    intro v rest hos
    split
    next bits =>
      split
      · exact hsame _ _
      next hbits =>
        have hleaves : ehLeaves k (.brIf data pc stacksz) = stacksz := by
          simp only [ehLeaves, thrownTag, branchLeaves, hos, if_neg hbits]
        rw [hleaves] at hm
        exact .of_os (Stays.leave_jump (k := { k with os := rest }) h hne hm)
    · exact ⟨h, rfl, rfl⟩
  | brTable size table =>
    cases ho
    apply Stays.withPop h
    intro v rest hos
    split
    · trivial
    next e he =>
      have hleaves : ehLeaves k (.brTable size table) = e.ehLeaveCount := by
        simp only [ehLeaves, thrownTag, branchLeaves, hos, he]
      rw [hleaves] at hm
      exact .of_os (Stays.leave_jump (k := { k with os := rest }) h hne hm)
  | return_ data pc stacksz =>
    cases ho
    unfold applyPopCall
    split
    · exact hself
    next af rest has =>
      split
      · obtain ⟨habove, hhalt⟩ := h.pop has hne
        exact ⟨⟨habove, rfl, rfl⟩, hhalt⟩
      · trivial
  | throw_ tag =>
    cases ho
    exact Stays.of_exception (throwTag_stays h hne hm)
  | throwRef =>
    cases ho
    exact Stays.of_exception (throwRef_stays h hne hm)
  | delegate data =>
    cases ho
    have hleave := Keeps.leaveEhFrame h hm
    refine ⟨⟨hleave.above, hleave.asIndex, hleave.osIndex⟩, ?_⟩
    intro has
    change k.leaveEhFrame.as = out.as at has
    rw [Keeps.as_leaveEhFrame] at has
    exact absurd has hne
  | tryTable data pc =>
    cases ho
    exact enterTryTable_stays h hne n _
  | drop =>
    cases ho
    apply Stays.withPop h
    intro v rest _
    exact hsame _ _
  | select =>
    cases ho
    apply Stays.withPop h
    intro b rest _
    apply Stays.of_os
    apply Stays.withPop
    · exact h
    · intro v2 rest' _
      split
      · trivial
      · exact .of_os (Stays.next_same h hne ⟨rfl, rfl, rfl, rfl, rfl⟩)
  | getLocal index =>
    cases ho
    split
    · trivial
    · exact hsame _ _
  | setLocal index =>
    cases ho
    apply Stays.withPop h
    intro v rest _
    cases hset : ({ k with os := rest } : Control).advance.setOperand index v with
    | none => trivial
    | some d =>
      obtain ⟨os, rfl⟩ := setOperand_eq hset
      exact hsame _ _
  | teeLocal index =>
    cases ho
    apply Stays.withPop h
    intro v rest _
    split
    · trivial
    next d hset =>
      obtain ⟨os, rfl⟩ := setOperand_eq hset
      exact hsame _ _
  | _ => cases ho

/-- Pushing the frame of a called function. -/
theorem callWasm_stays (f : Nat) : Stays out k (callWasm p k f) := by
  unfold callWasm
  rcases pushCall_cases p k f k.pc.inc with ⟨ft, -, -, hnext⟩ | ⟨t, ht⟩ | hundef
  · rw [hnext]
    exact ⟨⟨h.push hne _, rfl, rfl⟩, fun heq => absurd heq (h.ne_of_length_le hne (Nat.le_succ _))⟩
  · rw [ht]
    exact ⟨h, rfl, rfl⟩
  · rw [hundef]
    trivial

/-- Replacing the frame of the caller by that of a tail-called function. -/
theorem tailCallWasm_stays (f : Nat) : Stays out k (tailCallWasm p k f) := by
  unfold tailCallWasm
  split
  next cur rest ft has _ =>
    dsimp only
    split
    · exact ⟨h, rfl, rfl⟩
    · split
      · exact ⟨h, rfl, rfl⟩
      · split
        · trivial
        next d hd =>
          obtain ⟨-, rfl⟩ := eatOperands_eq hd
          have hlen : k.as.length ≤ rest.length + 1 := (congrArg length has).le
          exact ⟨⟨h.replace has hne rfl, rfl, rfl⟩,
            fun heq => absurd heq (h.ne_of_length_le hne hlen)⟩
  · trivial

end

/-- The stacks a call starts from differ from those before it in the operand stack only. -/
theorem Calls.eq_os {tail : Bool} (h : Calls p k tail i f d) : ∃ os, d = { k with os := os } := by
  cases h with
  | call | tailCall => exact ⟨k.os, rfl⟩
  | callIndirect | tailCallIndirect => exact ⟨_, rfl⟩

/-- One step of the running execution keeps to its own frames. -/
theorem StackStep.stays (hstep : StackStep p k n i o) (h : Above out k.frames) (hne : k.as ≠ out.as)
    (hm : MayLeave out k.frames (ehLeaves k i)) : Stays out k o := by
  cases hstep with
  | control ho => exact visitControl_stays h hne hm ho
  | undefined => trivial
  | trap _ hsame => exact Stays.keeps_same h hsame.toSameFrames
  | plain | charged | bulkDone | bulkMore =>
    exact Stays.next_same h hne ⟨rfl, rfl, rfl, rfl, rfl⟩
  | call hcalls _ =>
    obtain ⟨os, rfl⟩ := hcalls.eq_os
    exact .of_os (callWasm_stays (k := { k with os := os }) h hne _)
  | hostCall hcalls _ he =>
    obtain ⟨os, rfl⟩ := hcalls.eq_os
    obtain ⟨ft, -, -, rfl⟩ := callHost_next he
    exact ⟨⟨_, rfl⟩, rfl, rfl⟩
  | hostCallTrap t hcalls _ he =>
    obtain ⟨os, rfl⟩ := hcalls.eq_os
    obtain ⟨ft, -, -, rfl⟩ := callHost_next he
    exact ⟨h.push hne _, rfl, rfl⟩
  | @tailCall _ f _ cur _ hcalls _ _ =>
    obtain ⟨os, rfl⟩ := hcalls.eq_os
    have hsame : (({ k with os := os } : Control).refund cur).SameFrames k :=
      ⟨rfl, rfl, rfl, rfl, rfl⟩
    apply Stays.of_same hsame
    apply tailCallWasm_stays
    · exact h
    · exact hne
  | hostTailCall hcalls _ _ he =>
    obtain ⟨os, rfl⟩ := hcalls.eq_os
    obtain ⟨ft, -, rfl⟩ := tailCallHost_next he
    exact ⟨rfl, rfl, rfl, rfl, rfl⟩

/-! ### Machines -/

/-- The frames fit the native calls in progress: an execution owns those above the frames
of the executions around it, and a called host function one call frame. While a host
function runs, the execution that called it has not reached its end. -/
def Nested : List NativeFrame → (halted : Prop) → (asIndex : Nat) → Frames → Prop
  | [], _, _, _ => True
  | .execute _ s :: outer, halted, asIndex, fr => ∃ out, Above out fr ∧
    (fr.as = out.as → halted) ∧ out.as.length = asIndex ∧
    out.ehStack.length = s.ehStackSize ∧ out.ehCatches.length = s.ehCatchesSize ∧
    Nested outer False s.asIndex out
  | .host _ .call _ :: outer, _, asIndex, fr => ∃ af as, fr.as = af :: as ∧
    Nested outer False asIndex { fr with as := as }
  | .host _ .tail _ :: outer, _, asIndex, fr => Nested outer False asIndex fr
  | .host _ .direct _ :: outer, _, asIndex, fr => Nested outer False asIndex fr

namespace Machine

/-- The frames of a machine fit its native calls. -/
def WellNested (m : Machine W) : Prop :=
  Nested m.stack (m.ctx.pc = .halt) m.ctx.asIndex m.ctx.frames

/-- The part of the stacks that belongs to the executions around the running one. -/
def outerFrames (m : Machine W) (s : Saved) : Frames where
  as := m.ctx.as.drop (m.ctx.as.length - m.ctx.asIndex)
  ehStack := m.ctx.ehStack.drop (m.ctx.ehStack.length - s.ehStackSize)
  ehCatches := m.ctx.ehCatches.take s.ehCatchesSize

/-- State saved by the execution whose interpreter loop is running. -/
def running (m : Machine W) : Option Saved :=
  match m.stack with
  | .execute _ s :: _ => some s
  | _ => none

/-- A step leaves no more EH frames than the running execution has entered, or there are
none around it. -/
def EhOk (env : Env W) (m : Machine W) : Label W → Prop
  | .visit => ∀ s ∈ m.running, ∀ i ∈ m.ctx.fetch env, s.ehStackSize = 0 ∨
    s.ehStackSize + ehLeaves m.ctx.toControl i ≤ m.ctx.ehStack.length
  | _ => True

instance (env : Env W) (m : Machine W) : DecidablePred (EhOk env m)
  | .visit => inferInstanceAs (Decidable (∀ s ∈ m.running, _))
  | .enter _ _ | .hostMemory _ | .hostExit | .hostThrow _ | .hostReturn _ => isTrue trivial

end Machine

private theorem Nested.weaken {stack : List NativeFrame} {halted : Prop} {asIndex : Nat}
    (h : Nested stack False asIndex fr) : Nested stack halted asIndex fr := by
  match stack, h with
  | [], _ => trivial
  | .execute _ _ :: _, ⟨out, habove, hne, hrest⟩ =>
    exact ⟨out, habove, fun heq => (hne heq).elim, hrest⟩
  | .host _ .call _ :: _, h | .host _ .tail _ :: _, h | .host _ .direct _ :: _, h => exact h

section

variable {outer : List NativeFrame} {r : Except Trap (Option Value)}
  (habove : Above out c.frames) (has : out.as.length = c.asIndex)
  (heh : out.ehStack.length = s.ehStackSize) (hcatches : out.ehCatches.length = s.ehCatchesSize)
  (h : finish outer c s r = some m)

include habove has heh hcatches h

/-- Leaving an execution restores exactly the frames of the executions around it. -/
theorem finish_frames :
    m.stack = outer ∧ m.result = some r ∧ m.ctx.frames = out ∧ m.ctx.asIndex = s.asIndex := by
  unfold finish at h
  split at h
  · cases h
  next d hd =>
    cases h
    unfold Context.cleanup at hd
    split at hd
    · cases hd
      refine ⟨rfl, rfl, ?_, rfl⟩
      obtain ⟨inner, hinner, -⟩ := habove.eh
      have hehlen : out.ehStack.length ≤ c.ehStack.length := IsSuffix.length_le ⟨inner, hinner.symm⟩
      have hcatchlen : out.ehCatches.length ≤ c.ehCatches.length := habove.catches.length_le
      rw [resizeTop, resize, ← has, ← heh, ← hcatches, Nat.sub_eq_zero_of_le hehlen,
        Nat.sub_eq_zero_of_le hcatchlen, replicate_zero, replicate_zero, nil_append, append_nil]
      exact habove.eq_cut.symm
    · cases hd

/-- Leaving an execution leads back to a machine whose frames fit its native calls. -/
theorem wellNested_finish (hnested : Nested outer False s.asIndex out) : m.WellNested := by
  obtain ⟨hstack, -, hframes, hasIndex⟩ := finish_frames habove has heh hcatches h
  rw [WellNested, hstack, hframes, hasIndex]
  exact hnested.weaken

end

namespace Machine

variable {env : Env W} {m' : Machine W} {outer : List NativeFrame} {func : Nat} {i : Instr}
  {args : List Value}

section

variable (hok : m.EhOk env .visit) (hstack : m.stack = .execute func s :: outer)
  (hhalt : m.ctx.as = out.as → m.ctx.pc = .halt) (heh : out.ehStack.length = s.ehStackSize)

include hok hstack hhalt heh

/-- What a visit of the running execution finds: it has a frame of its own, and the opcode
leaves none of the EH frames around it. -/
theorem visit_finds (hi : i ∈ m.ctx.fetch env) (hpc : m.ctx.pc = .code n) :
    m.ctx.as ≠ out.as ∧ MayLeave out m.ctx.frames (ehLeaves m.ctx.toControl i) := by
  constructor
  · intro heq
    rw [hhalt heq] at hpc
    cases hpc
  · have hrunning : s ∈ m.running := by
      rw [running, hstack]
      rfl
    rw [MayLeave, heh]
    exact (hok s hrunning i hi).imp (fun hzero => eq_nil_of_length_eq_zero (heh.trans hzero)) id

private theorem visit_stays (habove : Above out m.ctx.frames) :
    Stays out m.ctx.toControl (Interp.visit env m.ctx).control := by
  rcases visit_cases env m.ctx with hleave | hundef | ⟨i, hi, n, hpc, hvisit⟩
  · rw [hleave]
    exact ⟨habove, rfl, rfl⟩
  · rw [hundef]
    trivial
  · obtain ⟨hne, hm⟩ := visit_finds hok hstack hhalt heh hi hpc
    rw [hvisit]
    exact (visitInstr_stackStep env m.ctx n i).stays habove hne hm

/-- What visiting a throwing instruction ends with. -/
theorem visit_exception (habove : Above out m.ctx.frames) (hi : i ∈ m.ctx.fetch env)
    (hthrow : (thrownTag m.ctx.toControl i).isSome) :
    ExceptionStays out m.ctx.toControl (Interp.visit env m.ctx).control := by
  obtain ⟨n, hpc, hvisit⟩ := visit_of_fetch hi
  obtain ⟨hne, hm⟩ := visit_finds hok hstack hhalt heh hi hpc
  rw [hvisit, visitInstr]
  cases i with
  | throw_ tag =>
    rw [visitControl]
    rw [control_lift]
    exact throwTag_stays habove hne hm
  | throwRef =>
    rw [visitControl]
    rw [control_lift]
    exact throwRef_stays habove hne hm
  | _ => cases hthrow

end

/-- The frames of a new execution lie above all there are. -/
theorem above_self (fr : Frames) : Above fr fr := by
  refine ⟨suffix_rfl, ?_, ⟨[], rfl, nofun⟩, prefix_rfl⟩
  intro af haf
  have := haf.length_le
  rw [length_cons] at this
  omega

/-- The entry frame of a new execution returns to the halt opcode. -/
theorem above_entry (fr : Frames) {af : ActivationFrame} (hpc : af.pc = .halt) :
    Above fr { fr with as := af :: fr.as } := by
  have hself := above_self fr
  refine ⟨suffix_cons af fr.as, ?_, hself.eh, hself.catches⟩
  intro bf hbf
  rcases suffix_cons_iff.mp hbf with heq | hsuf
  · rw [(cons.inj heq).1]
    exact hpc
  · exact hself.entry bf hsuf

/-- How the start of an execution ends. -/
def Starts (c : Context W) : Outcome (Context W) → Prop
  | .next d => Above c.frames d.frames ∧ d.asIndex = c.asIndex ∧ d.as ≠ c.as
  | .host d _ _ => Above c.frames d.frames ∧ d.asIndex = c.asIndex ∧ d.as ≠ c.as
  | .trap d _ => Above c.frames d.frames ∧ d.asIndex = c.asIndex
  | .leave _ => True
  | .undefined => True

private theorem startExecution_starts {d : Context W} (habove : Above c.frames d.frames)
    (hasIndex : d.asIndex = c.asIndex) (hne : d.as ≠ c.as) :
    Starts c (startExecution env func d) := by
  unfold startExecution
  split
  · dsimp only
    split
    · exact ⟨habove, hasIndex⟩
    · exact ⟨habove, hasIndex, hne⟩
  · obtain ⟨gas, pool, ⟨t, ht⟩ | hgas⟩ := withGas_cases d env.gasHandler (env.functionCost func)
      fun c => .next { c with toControl := enterFunction env.toProgram c.toControl func }
    · rw [ht]
      exact ⟨habove, hasIndex⟩
    · rw [hgas]
      exact ⟨habove, hasIndex, hne⟩

private theorem beginExecution_starts : Starts c (beginExecution env func args c) := by
  unfold beginExecution
  split
  · trivial
  · split
    · exact ⟨above_self _, rfl⟩
    next ft _ _ =>
      rcases pushCall_cases env.toProgram { c.toControl with os := args.reverse ++ c.os } func
        .halt with ⟨ft, -, -, hnext⟩ | ⟨t, ht⟩ | hundef
      · rw [hnext]
        apply startExecution_starts
        · exact above_entry c.frames rfl
        · rfl
        · exact cons_ne_self _ _
      · rw [ht]
        exact ⟨above_self _, rfl⟩
      · rw [hundef]
        trivial

section

variable (h : m.WellNested)

include h

private theorem wellNested_visit (hok : m.EhOk env .visit)
    (hstack : m.stack = .execute func s :: outer) (hstep : m.visit env func s outer = some m') :
    m'.WellNested := by
  rw [WellNested, hstack] at h
  obtain ⟨out, habove, hhalt, has, heh, hcatches, hnested⟩ := h
  have hstays := visit_stays hok hstack hhalt heh habove
  unfold visit at hstep
  split at hstep
  next c hc =>
    rw [hc] at hstays
    cases hstep
    obtain ⟨hkeeps, hhalt'⟩ := hstays
    rw [WellNested, hstack]
    exact ⟨out, hkeeps.above, hhalt', has.trans hkeeps.asIndex.symm, heh, hcatches, hnested⟩
  next c f tail hc =>
    rw [hc] at hstays
    cases hstep
    rw [WellNested, hstack]
    -- a halted execution leaves its loop, so this one has not reached its end
    have hne : m.ctx.as = out.as → False := by
      intro heq
      rw [Interp.visit, hhalt heq] at hc
      cases hc
    cases tail with
    | false =>
      obtain ⟨⟨af, hframes⟩, hasIndex, -⟩ := hstays
      refine ⟨af, m.ctx.as, congrArg Frames.as hframes, out, ?_, hne, ?_, heh, hcatches, hnested⟩
      · rw [show c.frames = _ from hframes]
        exact habove
      · exact has.trans hasIndex.symm
    | true =>
      have hframes : c.frames = m.ctx.frames := Control.SameFrames.frames hstays
      refine ⟨out, ?_, ?_, has.trans hstays.asIndex.symm, heh, hcatches, hnested⟩
      · rw [hframes]
        exact habove
      · rw [hframes]
        exact hne
  next c t hc =>
    rw [hc] at hstays
    exact wellNested_finish hstays.above (has.trans hstays.asIndex.symm) heh hcatches hstep hnested
  next c hc =>
    rw [hc] at hstays
    exact wellNested_finish hstays.above (has.trans hstays.asIndex.symm) heh hcatches hstep hnested
  · cases hstep

private theorem wellNested_hostReturn {depth : Nat} {entry : HostEntry} {saved : Saved}
    {bits : UInt64} (hstack : m.stack = .host f entry depth :: .execute func saved :: outer)
    (hstep : m.hostReturn env f entry depth func saved outer bits = some m') :
    m'.WellNested := by
  rw [WellNested, hstack] at h
  unfold hostReturn at hstep
  dsimp only at hstep
  cases entry with
  | direct =>
    obtain ⟨out, habove, -, has, heh, hcatches, hnested⟩ := h
    apply wellNested_finish _ _ heh hcatches hstep hnested
    · exact habove
    · exact has
  | call =>
    obtain ⟨af, as, hcons, out, habove, hne, has, heh, hcatches, hnested⟩ := h
    change m.ctx.as = af :: as at hcons
    rw [hcons] at hstep
    cases hstep
    exact ⟨out, habove, fun heq => (hne heq).elim, has, heh, hcatches, hnested⟩
  | tail =>
    obtain ⟨out, habove, hne, has, heh, hcatches, hnested⟩ := h
    cases hcons : m.ctx.as with
    | nil =>
      have hnil : out.as = [] := suffix_nil.mp (hcons ▸ habove.as)
      exact (hne (hcons.trans hnil.symm)).elim
    | cons af rest =>
      rw [hcons] at hstep
      cases hstep
      obtain ⟨hpop, hhalt⟩ := habove.pop hcons hne
      exact ⟨out, hpop, hhalt, has, heh, hcatches, hnested⟩

private theorem nested_of_not_running (hidle : ∀ f s outer, m.stack ≠ .execute f s :: outer) :
    Nested m.stack False m.ctx.asIndex m.ctx.frames := by
  unfold WellNested at h
  match hstack : m.stack, h with
  | [], _ => trivial
  | .execute f s :: outer, _ => exact absurd hstack (hidle f s outer)
  | .host _ .call _ :: _, h | .host _ .tail _ :: _, h | .host _ .direct _ :: _, h => exact h

private theorem wellNested_enter (hidle : ∀ f s outer, m.stack ≠ .execute f s :: outer)
    (hstep : m.enter env func args = some m') : m'.WellNested := by
  have hnested := nested_of_not_running h hidle
  unfold enter at hstep
  obtain ⟨c, hc, hcontrol, -⟩ := m.exists_start
  rw [hc] at hstep
  rw [← hcontrol] at hnested
  dsimp only at hstep
  split at hstep
  · cases hstep
    rw [WellNested]
    rw [hcontrol]
    exact h
  · have hstarts : Starts { c with asIndex := c.as.length, osIndex := c.os.length }
        (beginExecution env func args
          { c with asIndex := c.as.length, osIndex := c.os.length }) := beginExecution_starts
    split at hstep
    next d hd =>
      rw [hd] at hstarts
      cases hstep
      obtain ⟨habove, hasIndex, hne⟩ := hstarts
      exact ⟨c.frames, habove, fun heq => absurd heq hne, hasIndex.symm, rfl, rfl, hnested⟩
    next d f tail hd =>
      rw [hd] at hstarts
      cases hstep
      obtain ⟨habove, hasIndex, hne⟩ := hstarts
      exact ⟨c.frames, habove, hne, hasIndex.symm, rfl, rfl, hnested⟩
    next d t hd =>
      rw [hd] at hstarts
      obtain ⟨habove, hasIndex⟩ := hstarts
      exact wellNested_finish habove hasIndex.symm rfl rfl hstep hnested
    · cases hstep
    · cases hstep

/-- One step keeps the frames fitting the native calls. -/
theorem wellNested_step {l : Label W} (hok : m.EhOk env l) (hstep : m.step env l = some m') :
    m'.WellNested := by
  unfold step at hstep
  split at hstep
  · split at hstep
    · cases hstep
    next hidle => exact wellNested_enter h (fun f s outer => hidle f s outer) hstep
  · split at hstep
    next func s outer hstack => exact wellNested_visit h hok hstack hstep
    · cases hstep
  · split at hstep
    · cases hstep
      exact h
    · cases hstep
  · split at hstep
    next f entry depth outer hstack =>
      cases hstep
      unfold WellNested at h ⊢
      rw [hstack] at h ⊢
      cases entry with
      | call | tail | direct => exact h
    · cases hstep
  · split at hstep
    next f entry depth func s outer hstack =>
      unfold WellNested at h
      rw [hstack] at h
      cases entry with
      | call =>
        obtain ⟨af, as, hcons, out, habove, hne, has, heh, hcatches, hnested⟩ := h
        apply wellNested_finish _ has heh hcatches hstep hnested
        have hpush := habove.push (fun heq => hne heq) af
        rw [← hcons] at hpush
        exact hpush
      | tail | direct =>
        obtain ⟨out, habove, -, has, heh, hcatches, hnested⟩ := h
        exact wellNested_finish habove has heh hcatches hstep hnested
    · cases hstep
  · split at hstep
    next f entry depth func s outer hstack => exact wellNested_hostReturn h hstack hstep
    · cases hstep

end

/-- An exception thrown by the running execution stays within it: it goes on in a handler
it has entered itself, or ends with an error; the frames around it stay as they are. -/
def ExceptionIsolated (m m' : Machine W) (s : Saved) (outer : List NativeFrame) : Prop :=
  m'.stack = m.stack ∧ m'.outerFrames s = m.outerFrames s ∧
      HandlerInside (m.outerFrames s) m.ctx.toControl m'.ctx.pc ∨
    m'.stack = outer ∧ (∃ t, m'.result = some (.error t)) ∧ m'.ctx.frames = m.outerFrames s

/-- The outer frames are what the invariant splits off. -/
theorem outerFrames_eq (habove : Above out m.ctx.frames)
    (has : out.as.length = m.ctx.asIndex)
    (heh : out.ehStack.length = s.ehStackSize) (hcatches : out.ehCatches.length = s.ehCatchesSize) :
    m.outerFrames s = out := by
  rw [outerFrames, ← has, ← heh, ← hcatches]
  exact habove.eq_cut.symm

end Machine

/-- In every run whose steps leave no EH frames of outer executions, at any nesting depth,
an exception thrown inside an execution stays within it. -/
theorem inner_exception_isolated (env : Env W) (m₀ m m' : Machine W) (labels : List (Label W))
    (func : Nat) (s : Saved) (outer : List NativeFrame) (i : Instr) (hidle : m₀.stack = [])
    (hrun : runSteps (step env) m₀ labels = some m)
    (hok : AllSteps (step env) (Machine.EhOk env) m₀ (labels ++ [.visit]))
    (hstack : m.stack = .execute func s :: outer) (hi : i ∈ m.ctx.fetch env)
    (hthrow : (thrownTag m.ctx.toControl i).isSome) (hstep : m.step env .visit = some m') :
    m.ExceptionIsolated m' s outer := by
  obtain ⟨hsteps, hlast, -⟩ := hok.of_append hrun
  have hstart : m₀.WellNested := by
    rw [Machine.WellNested, hidle]
    trivial
  have hnested : m.WellNested :=
    runSteps_invariant (P := Machine.WellNested)
      (fun _ _ _ h hok hstep => wellNested_step h hok hstep) hstart hsteps hrun
  rw [Machine.WellNested, hstack] at hnested
  obtain ⟨out, habove, hhalt, has, heh, hcatches, -⟩ := hnested
  have hexc := visit_exception hlast hstack hhalt heh habove hi hthrow
  have hout : m.outerFrames s = out := outerFrames_eq habove has heh hcatches
  rw [Machine.ExceptionIsolated, hout]
  rw [step, hstack] at hstep
  dsimp only at hstep
  unfold Machine.visit at hstep
  split at hstep
  next c hc =>
    rw [hc] at hexc
    cases hstep
    obtain ⟨hkeeps, -, hin⟩ := hexc
    exact .inl ⟨rfl,
      outerFrames_eq hkeeps.above (has.trans hkeeps.asIndex.symm) heh hcatches, hin⟩
  next c f tail hc =>
    rw [hc] at hexc
    exact hexc.elim
  next c t hc =>
    rw [hc] at hexc
    obtain ⟨hstack', hresult, hframes, -⟩ :=
      finish_frames hexc.above (has.trans hexc.asIndex.symm) heh hcatches hstep
    exact .inr ⟨hstack', ⟨t, hresult⟩, hframes⟩
  next c hc =>
    rw [hc] at hexc
    exact hexc.elim
  · cases hstep

/-- An instance with a tag, a host import (function 0), and two functions without
parameters: function 1 calls the import inside a `try_table` that catches everything,
function 2 has the given body. -/
def nestedEnv (inner : List Instr) : Env Unit where
  module :=
    { types := [.void]
      imports := [0]
      functions := [0, 0]
      tables := []
      memories := []
      globals := []
      tags := [0]
      elements := []
      datacount := none }
  code := [.tryTable 1 0, .tryTable 0x02000000 0, .tryTable 0 5, .call 0, .delegate 0,
    .return_ 0 0 0] ++ inner
  functionPc := [0, 6]
  locals := [[], []]
  functionCost := fun _ => 1
  functionStackSize := fun _ => 1
  hostSignature := fun _ => .void
  gasHandler := none
  maxPages := 65536
  allocLimit := 65536
  mprotect := fun _ _ => true
  ops := ⟨fun _ _ _ w => .ok (w, 0), fun _ _ _ => .error underflow⟩

/-- An idle machine without memory. -/
def idleMachine : Machine Unit :=
  ⟨[], .fresh ⟨.checked, .immediate, false, 0, 0⟩ 0 250 ⟨0, 1000⟩ ⟨0, 0⟩ (), none⟩

/-- Function 1 enters its `try_table` and the host function, which calls function 2. -/
def reenter (n : Nat) : List (Label Unit) :=
  [.enter 1 [], .visit, .visit, .enter 2 []] ++ replicate n .visit

/-- An exception of the inner execution that its own `try_table` catches. -/
theorem inner_exception_isolated_caught : ∃ m m' s outer,
    let env := nestedEnv [.tryTable 1 0, .tryTable 0x02000000 0, .tryTable 0 11, .throw_ 0,
      .delegate 0, .return_ 0 0 0]
    runSteps (step env) idleMachine (reenter 1) = some m ∧
      m.step env .visit = some m' ∧ m.ExceptionIsolated m' s outer :=
  ⟨_, _, _, _, rfl, rfl, inner_exception_isolated (nestedEnv [.tryTable 1 0,
    .tryTable 0x02000000 0, .tryTable 0 11, .throw_ 0, .delegate 0, .return_ 0 0 0]) idleMachine
    _ _ (reenter 1) 2 _ _ (.throw_ 0) rfl rfl (by decide) rfl rfl rfl rfl⟩

/-- An exception the inner execution does not catch goes to the handler of the outer one. -/
theorem inner_exception_caught_outside :
    ¬ ∀ (env : Env Unit) (m₀ m m' : Machine Unit) (labels : List (Label Unit)) (func : Nat)
      (s : Saved) (outer : List NativeFrame) (i : Instr), m₀.stack = [] →
      runSteps (step env) m₀ labels = some m → m.stack = .execute func s :: outer →
      i ∈ m.ctx.fetch env → (thrownTag m.ctx.toControl i).isSome →
      m.step env .visit = some m' → m.ExceptionIsolated m' s outer := by
  intro h
  have hiso := h (nestedEnv [.throw_ 0, .return_ 0 0 0]) idleMachine _ _ (reenter 0) 2 _ _
    (.throw_ 0) rfl rfl rfl rfl rfl rfl
  rcases hiso with ⟨-, hframes, -⟩ | ⟨hstack, -⟩
  · exact absurd hframes (by decide)
  · exact absurd hstack (by decide)

end PsiServe.Interp
