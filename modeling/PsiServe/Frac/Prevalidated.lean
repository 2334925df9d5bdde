import PsiServe.Frac.Evolve

/-!
# Reading validated data without checks

`from_frac` of prevalidated data (`fracpack.hpp:2558–2570`) derives every position again without
checks. Three runs go side by side: the validation that has succeeded, the verifying `from_frac`,
and the one without checks. The position in the fixed region is the same in all of them; the
position in the heap is not, but the run without checks never looks at it.
-/

namespace PsiServe.Frac

open Base List Unpacker

/-- Both ways to read an object that was validated end alike. They leave the buffer only if a number
of bits has wrapped around, and in a small buffer they do so then. -/
def ObjectAgrees (src : Bytes)
    (unpack : Mode → Bytes → Bool → Nat → Nat → Read (Val × Exit)) (fixed : Bool) : Prop :=
  ∀ ⦃unknown : Bool⦄ ⦃pos stop : Nat⦄ ⦃v : Val⦄ ⦃e : Exit⦄, stop ≤ src.length →
    unpack ⟨false, true⟩ src unknown pos stop = .ok (v, e) → ∀ unknown' stop',
      Alike (¬v.Leaves Val.bitsFit) .outOfBounds (unpack ⟨true, true⟩ src unknown pos stop)
        (unpack ⟨true, false⟩ src unknown' pos stop')
        fun a b => a = (v, e) ∧ b.1 = v ∧ (fixed = true → b.2.pos = e.pos) ∧
          (src.length < 2 ^ 29 → v.Leaves Val.bitsFit)

/-- Both ways to read a member that was validated end alike. -/
def MemberAgrees (src : Bytes) (member : Mode → Member) (trusted : Member) : Prop :=
  ∀ ⦃w w' : Walk⦄ ⦃v : Val⦄, member ⟨false, true⟩ w = .ok (v, w') →
    ∀ u : Walk, u.fixedPos = w.fixedPos →
      Alike (¬v.Leaves Val.bitsFit) .outOfBounds (member ⟨true, true⟩ w) (trusted u)
        fun a b => a = (v, w') ∧ b.1 = v ∧ b.2.fixedPos = w'.fixedPos ∧
          (src.length < 2 ^ 29 → v.Leaves Val.bitsFit)

/-- Values that are copied from a small buffer have no large number of bits. -/
def CopiesFit (size : Nat) (ofRaw : Bytes → Val) : Prop :=
  ∀ bs : Bytes, bs.length = size → bs.length < 2 ^ 29 → (ofRaw bs).Leaves Val.bitsFit

/-- Both ways to read a type end alike. -/
structure Unpacker.Agrees (p : Unpacker) (src : Bytes) : Prop where
  object : ObjectAgrees src p.unpack (!p.traits.isVariableSize)
  indirect : ∀ skip endFixed endHeap, endHeap ≤ src.length → ∀ skip' endFixed' endHeap',
    MemberAgrees src (fun m => p.embeddedVariableUnpack m skip src endFixed endHeap)
      (p.embeddedVariableUnpack ⟨true, false⟩ skip' src endFixed' endHeap')
  member : ∀ skip endFixed endHeap, endFixed ≤ src.length → endHeap ≤ src.length →
    ∀ skip' endFixed' endHeap',
    MemberAgrees src (fun m => p.embeddedUnpack m skip src endFixed endHeap)
      (p.embeddedUnpack ⟨true, false⟩ skip' src endFixed' endHeap')
  inline : p.traits.isVariableSize = false → ∀ m skip endFixed endHeap,
    p.embeddedUnpack m skip src endFixed endHeap = embeddedFixed p.unpack m src endFixed
  copied : p.traits.isMemcpy = true → ∃ ofRaw, p = .memcpy p.traits ofRaw ∧
    CopiesFit p.traits.fixedSize ofRaw
  marked : p.traits.isOptional = true → ∀ ⦃m endFixed endHeap w v w'⦄,
    p.embeddedUnpack m false src endFixed endHeap w = .ok (v, w') →
      v.hasValue = hasValueAt m src w.fixedPos endFixed

private theorem bitsFit_bits (bs : List Bool) :
    (Val.bits bs).Leaves Val.bitsFit ↔ bs.length + 7 < 2 ^ 32 := Iff.rfl

section

variable {src : Bytes} {width n : Nat}

private theorem require_eq_ok {p : Bool} {u : Unit} (h : require p = .ok u) : p = true := by
  cases p with
  | true => rfl
  | false => cases h

private theorem readBytes_eq_ok {bs : Bytes} {pos : Nat} (h : readBytes src pos n = .ok bs) :
    bs.length = n ∧ pos + n ≤ src.length := by
  rw [readBytes] at h
  split at h
  next hle =>
    cases h
    refine ⟨?_, hle⟩
    rw [length_window hle]
    omega
  · cases h

/-- The check that an object ends inside of the buffer. -/
theorem end_le_of_require {b : Bool} {next stop : Nat} {u : Unit}
    (h : require (!(true && (b || decide (stop < next)))) = .ok u) : next ≤ stop := by
  have hle := require_eq_ok h
  simp only [Bool.true_and, Bool.not_eq_true', Bool.or_eq_false_iff, decide_eq_false_iff_not,
    not_lt] at hle
  exact hle.2

/-- A number that was read with a check is read without. -/
theorem unpackNumeric_trusted {m : Mode} {skip : Bool} {pos stop : Nat}
    (h : unpackNumeric m skip width src pos stop = .ok n) (skip' : Bool) (stop' : Nat) :
    unpackNumeric ⟨true, false⟩ skip' width src pos stop' = .ok n := by
  have h := then_eq_ok h
  exact h

section

variable {tr : Traits} {cleared : Val}
  {unpack : Mode → Bytes → Bool → Nat → Nat → Read (Val × Exit)} {fixed : Bool} {endFixed : Nat}

private theorem embeddedFixed_agrees (h : ObjectAgrees src unpack true)
    (hend : endFixed ≤ src.length) (endFixed' : Nat) :
    MemberAgrees src (fun m => embeddedFixed unpack m src endFixed)
      (embeddedFixed unpack ⟨true, false⟩ src endFixed') := by
  rintro w w' v hval ⟨fixedPos, heapPos, known, unknown⟩ rfl
  obtain ⟨⟨v₁, e⟩, hunpack, hret⟩ := bind_eq_ok.mp hval
  cases hret
  refine .bind id (h hend hunpack unknown endFixed') fun a b hab => ?_
  obtain ⟨rfl, hv, hpos, hfit⟩ := hab
  exact .ok ⟨rfl, hv, hpos rfl, hfit⟩

private theorem embeddedVariable_agrees (h : ObjectAgrees src unpack fixed)
    (hcleared : cleared.Leaves Val.bitsFit) {skip : Bool} {endHeap : Nat}
    (hend : endHeap ≤ src.length) (skip' : Bool) (endFixed' endHeap' : Nat) :
    MemberAgrees src
      (fun m => embeddedVariable tr width cleared unpack m skip src endFixed endHeap)
      (embeddedVariable tr width cleared unpack ⟨true, false⟩ skip' src endFixed' endHeap') := by
  rintro w w' v hval ⟨fixedPos, heapPos, known, unknown⟩ rfl
  obtain ⟨offset, hoffset, hval⟩ := bind_eq_ok.mp hval
  refine .next hoffset (unpackNumeric_trusted hoffset skip' endFixed') ?_
  dsimp only at hval ⊢
  split at hval
  next hzero =>
    cases hval
    rw [if_pos hzero, if_pos hzero]
    exact .ok ⟨rfl, rfl, rfl, fun _ => hcleared⟩
  next hzero =>
    rw [if_neg hzero, if_neg hzero]
    obtain ⟨u, hcheck, hval⟩ := bind_eq_ok.mp hval
    obtain ⟨⟨v₁, e⟩, hunpack, hret⟩ := bind_eq_ok.mp hval
    cases hret
    rw [if_pos rfl, if_neg (by decide), hcheck, ok_bind]
    refine .bind id (h hend hunpack unknown endHeap') fun a b hab => ?_
    obtain ⟨rfl, hv, -, hfit⟩ := hab
    exact .ok ⟨rfl, hv, rfl, hfit⟩

/-- A type that is not an optional. -/
theorem Unpacker.Agrees.base (hopt : tr.isOptional = false)
    (hcleared : cleared.Leaves Val.bitsFit) (h : ObjectAgrees src unpack (!tr.isVariableSize))
    (hcopied : tr.isMemcpy = true → ∃ ofRaw, base tr width cleared unpack = .memcpy tr ofRaw ∧
      CopiesFit tr.fixedSize ofRaw) :
    (base tr width cleared unpack).Agrees src where
  object := h
  indirect _ _ _ hend := embeddedVariable_agrees h hcleared hend
  member skip endFixed endHeap hfixed hheap skip' endFixed' endHeap' := by
    dsimp only [Unpacker.base]
    cases hvar : tr.isVariableSize with
    | true => exact embeddedVariable_agrees h hcleared hheap skip' endFixed' endHeap'
    | false =>
      rw [hvar] at h
      exact embeddedFixed_agrees h hfixed endFixed'
  inline hfixed m skip endFixed endHeap := if_neg (ne_true_of_eq_false hfixed)
  copied := hcopied
  marked hopt' := by
    rw [Unpacker.base, hopt] at hopt'
    cases hopt'

end

/-! ### Objects without members -/

namespace Unpacker.Agrees

variable {tr : Traits} {size width : Nat}

private theorem memcpy {ofRaw : Bytes → Val} (hopt : tr.isOptional = false)
    (hfit : CopiesFit tr.fixedSize ofRaw) : (memcpy tr ofRaw).Agrees src := by
  refine .base hopt trivial ?_ fun _ => ⟨ofRaw, rfl, hfit⟩
  intro unknown pos stop v e _ hval unknown' stop'
  obtain ⟨u, hroom, hval⟩ := bind_eq_ok.mp hval
  obtain ⟨bs, hbs, hret⟩ := bind_eq_ok.mp hval
  cases hret
  obtain ⟨hlen, hle⟩ := readBytes_eq_ok hbs
  refine .next hroom rfl (.next hbs hbs (.ok ⟨rfl, rfl, fun _ => rfl, fun hsmall => ?_⟩))
  exact hfit bs hlen (by omega)

private theorem bool : bool.Agrees src := by
  refine .base rfl trivial ?_ nofun
  intro unknown pos stop v e _ hval unknown' stop'
  obtain ⟨u, hroom, hval⟩ := bind_eq_ok.mp hval
  obtain ⟨byte, hbyte, hval⟩ := bind_eq_ok.mp hval
  obtain ⟨u₁, hle, hret⟩ := bind_eq_ok.mp hval
  cases hret
  exact .next hroom rfl (.next hbyte hbyte (.next hle rfl
    (.ok ⟨rfl, rfl, fun _ => rfl, fun _ => trivial⟩)))

private theorem bytes {cleared : Val} {ofBytes : Bytes → Val}
    (hcleared : cleared.Leaves Val.bitsFit) (hfit : ∀ bs, (ofBytes bs).Leaves Val.bitsFit) :
    (bytes width size cleared ofBytes).Agrees src := by
  refine .base rfl hcleared ?_ nofun
  intro unknown pos stop v e _ hval unknown' stop'
  obtain ⟨length, hlength, hval⟩ := bind_eq_ok.mp hval
  obtain ⟨u, hchecks, hval⟩ := bind_eq_ok.mp hval
  obtain ⟨bs, hbs, hret⟩ := bind_eq_ok.mp hval
  cases hret
  exact .next hlength (unpackNumeric_trusted hlength _ _)
    (.next hchecks rfl (.next hbs hbs (.ok ⟨rfl, rfl, nofun, fun _ => hfit bs⟩)))

variable {endFixed endHeap : Nat} {w w' : Walk} {vs : List Val} {elem : Unpacker}
  {members : List Unpacker} {m : Mode}

/-- Bits are read as far as their number says, which is further than the check went if the number
of their bytes overflowed. -/
theorem bits {bound : Option Nat} : (bits width bound).Agrees src := by
  refine .base rfl (by decide : 0 + 7 < 2 ^ 32) ?_ (by simp [Traits.container])
  intro unknown pos stop v e hend hval unknown' stop'
  obtain ⟨length, hlength, hval⟩ := bind_eq_ok.mp hval
  refine .next hlength (unpackNumeric_trusted hlength _ _) ?_
  dsimp only at hval ⊢
  obtain ⟨u, hall, hval⟩ := bind_eq_ok.mp hval
  obtain ⟨u₁, hbounds, hval⟩ := bind_eq_ok.mp hval
  have hin : u32 length + 7 < 2 ^ 32 →
      ¬src.length < u32 (pos + width) + (u32 length + 7) / 8 := by
    intro hfit
    have hbounds := require_eq_ok hbounds
    have hpos : u32 (pos + width) < 2 ^ 32 := Nat.mod_lt _ (by decide)
    rw [u32_of_lt hfit, Bool.not_eq_true', Bool.or_eq_false_iff, decide_eq_false_iff_not,
      decide_eq_false_iff_not] at hbounds
    generalize u32 (pos + width) = start at hpos hbounds ⊢
    generalize u32 length = count at hfit hbounds ⊢
    rw [u32] at hbounds
    omega
  rw [hall, ok_bind, hbounds, ok_bind]
  -- what is left of both runs is the read itself
  have hread : ∀ {r : Val × Exit}, r.1 = v → r = (v, e) →
      (v.Leaves Val.bitsFit ↔ u32 length + 7 < 2 ^ 32) → ∀ e' : Exit,
      Alike (¬v.Leaves Val.bitsFit) .outOfBounds
        (if decide (src.length < u32 (pos + width) + (u32 length + 7) / 8) = true then
          throw .outOfBounds >>= fun _ : Unit => pure r else pure r : Read (Val × Exit))
        (if decide (src.length < u32 (pos + width) + (u32 length + 7) / 8) = true then
          throw .outOfBounds >>= fun _ : Unit => pure (r.1, e') else pure (r.1, e'))
        fun a b => a = (v, e) ∧ b.1 = v ∧
          ((!Traits.container.isVariableSize) = true → b.2.pos = e.pos) ∧
          (src.length < 2 ^ 29 → v.Leaves Val.bitsFit) := by
    intro r hr hre hfit e'
    by_cases hout : src.length < u32 (pos + width) + (u32 length + 7) / 8
    · rw [if_pos (decide_eq_true hout), if_pos (decide_eq_true hout)]
      exact .inr ⟨fun hv => hin (hfit.mp hv) hout, rfl, rfl⟩
    · rw [if_neg (by rwa [decide_eq_true_eq]), if_neg (by rwa [decide_eq_true_eq])]
      exact .ok ⟨hre, hr, by simp [Traits.container], fun hsmall => hfit.mpr (by omega)⟩
  have hfit : ∀ bs, (Val.bits (unpackBits (u32 length) bs)).Leaves Val.bitsFit ↔
      u32 length + 7 < 2 ^ 32 := fun bs => by rw [bitsFit_bits, length_unpackBits]
  split at hval
  next hpad =>
    obtain ⟨last, hlast, hval⟩ := bind_eq_ok.mp hval
    obtain ⟨u₂, hclear, hret⟩ := bind_eq_ok.mp hval
    cases hret
    rw [if_pos hpad, hlast, ok_bind, hclear, ok_bind]
    exact hread rfl rfl (hfit _) _
  next hpad =>
    cases hval
    rw [if_neg hpad]
    exact hread rfl rfl (hfit _) _

/-! ### Objects with members -/

private theorem unpackEach {ι : Type} {member : ι → Mode → Member} {trusted : ι → Member}
    {xs : List ι} (h : ∀ x ∈ xs, MemberAgrees src (member x) (trusted x))
    (hval : Frac.unpackEach (xs.map fun x => member x ⟨false, true⟩) w = .ok (vs, w'))
    (u : Walk) (hu : u.fixedPos = w.fixedPos) :
    Alike (¬Val.leavesAll Val.bitsFit vs) .outOfBounds
      (Frac.unpackEach (xs.map fun x => member x ⟨true, true⟩) w)
      (Frac.unpackEach (xs.map trusted) u)
      fun a b => a = (vs, w') ∧ b.1 = vs ∧ b.2.fixedPos = w'.fixedPos ∧
        (src.length < 2 ^ 29 → Val.leavesAll Val.bitsFit vs) := by
  induction xs generalizing w vs u with
  | nil =>
    cases hval
    exact .ok ⟨rfl, rfl, hu, fun _ => trivial⟩
  | cons x xs ih =>
    obtain ⟨⟨v, w₁⟩, hv, hval⟩ := bind_eq_ok.mp hval
    obtain ⟨⟨vs₁, w₂⟩, hvs, hret⟩ := bind_eq_ok.mp hval
    cases hret
    refine .bind (mt And.left) (h x mem_cons_self hv u hu) fun a b hab => ?_
    obtain ⟨rfl, hb, hpos, hfit⟩ := hab
    refine .bind (mt And.right) (ih (forall_mem_cons.mp h).2 hvs b.2 hpos) fun c d hcd => ?_
    obtain ⟨rfl, hd, hpos, hfits⟩ := hcd
    refine .ok ⟨rfl, ?_, hpos, fun hsmall => ⟨hfit hsmall, hfits hsmall⟩⟩
    rw [hb, hd]

private theorem unpackEach_replicate {member : Mode → Member} {trusted : Member}
    (h : MemberAgrees src member trusted)
    (hval : Frac.unpackEach (.replicate n (member ⟨false, true⟩)) w = .ok (vs, w'))
    (u : Walk) (hu : u.fixedPos = w.fixedPos) :
    Alike (¬Val.leavesAll Val.bitsFit vs) .outOfBounds
      (Frac.unpackEach (.replicate n (member ⟨true, true⟩)) w)
      (Frac.unpackEach (.replicate n trusted) u)
      fun a b => a = (vs, w') ∧ b.1 = vs ∧ b.2.fixedPos = w'.fixedPos ∧
        (src.length < 2 ^ 29 → Val.leavesAll Val.bitsFit vs) := by
  have hmap : ∀ f : Member, replicate n f = (replicate n ()).map fun _ => f :=
    fun f => by rw [map_replicate]
  rw [hmap] at hval ⊢
  rw [hmap trusted]
  exact unpackEach (fun _ _ => h) hval u hu

private theorem container (h : elem.Agrees src) : (container width elem).Agrees src := by
  refine .base rfl trivial ?_ nofun
  intro unknown pos stop v e hend hval unknown' stop'
  obtain ⟨length, hlength, hval⟩ := bind_eq_ok.mp hval
  refine .next hlength (unpackNumeric_trusted hlength _ _) ?_
  split at hval
  · cases hval
  next hne =>
    rw [if_neg hne, if_neg hne]
    obtain ⟨u, hchecks, hval⟩ := bind_eq_ok.mp hval
    obtain ⟨⟨vs, w⟩, hrun, hret⟩ := bind_eq_ok.mp hval
    cases hret
    have hle := end_le_of_require hchecks
    refine .next hchecks rfl ?_
    refine .bind id (unpackEach_replicate
      (h.member false _ _ (hle.trans hend) hend false _ _) hrun _ rfl) fun a b hab => ?_
    obtain ⟨rfl, hb, -, hfit⟩ := hab
    exact .ok ⟨rfl, congrArg Val.list hb, nofun, hfit⟩

/-- Members of a fixed size do not move the position in the heap. -/
theorem unpackEach_inline {unpack : Mode → Bytes → Bool → Nat → Nat → Read (Val × Exit)}
    (h : Frac.unpackEach (.replicate n (embeddedFixed unpack m src endFixed)) w =
      .ok (vs, w'))
    : w'.heapPos = w.heapPos := by
  induction n generalizing w vs with
  | zero =>
    cases h
    rfl
  | succ n ih =>
    obtain ⟨⟨v, w₁⟩, hv, h⟩ := bind_eq_ok.mp h
    obtain ⟨⟨vs₁, w₂⟩, hvs, hret⟩ := bind_eq_ok.mp h
    cases hret
    obtain ⟨_, -, hret⟩ := bind_eq_ok.mp hv
    cases hret
    have hkeep := ih hvs
    exact hkeep

private theorem array (hopt : tr.isOptional = false) (hmem : tr.isMemcpy = false)
    (hvar : tr.isVariableSize = elem.traits.isVariableSize) (h : elem.Agrees src) :
    (array tr elem n).Agrees src := by
  refine .base hopt trivial ?_ (by rw [hmem]; exact nofun)
  intro unknown pos stop v e hend hval unknown' stop'
  obtain ⟨u, hchecks, hval⟩ := bind_eq_ok.mp hval
  obtain ⟨⟨vs, w⟩, hrun, hret⟩ := bind_eq_ok.mp hval
  cases hret
  have hle := end_le_of_require hchecks
  refine .next hchecks rfl ?_
  have hmember := h.member false _ _ (hle.trans hend) hend false
    (u32 (pos + elem.traits.fixedSize * n)) stop'
  have hboth := unpackEach_replicate hmember hrun
    ⟨pos, u32 (pos + elem.traits.fixedSize * n), true, unknown'⟩ rfl
  rcases hboth with ⟨a, b, ha, hb, rfl, hbv, -, hfit⟩ | hfault
  · refine .next ha hb (.ok ⟨rfl, congrArg Val.list hbv, fun hfixed => ?_, hfit⟩)
    rw [hvar, Bool.not_eq_true'] at hfixed
    rw [h.inline hfixed] at hrun hb
    exact (unpackEach_inline hb).trans (unpackEach_inline hrun).symm
  · exact .bind id (.inr hfault) fun _ _ hab => hab

private theorem optionalMember (h : elem.Agrees src) (skip : Bool) (hheap : endHeap ≤ src.length)
    (skip' : Bool) (endFixed' endHeap' : Nat) :
    MemberAgrees src (fun m => optionalMember elem m skip src endFixed endHeap)
      (optionalMember elem ⟨true, false⟩ skip' src endFixed' endHeap') := by
  rintro w w' v hval ⟨fixedPos, heapPos, known, unknown⟩ rfl
  obtain ⟨offset, hoffset, hval⟩ := bind_eq_ok.mp hval
  refine .next hoffset (unpackNumeric_trusted hoffset skip' endFixed') ?_
  split at hval
  next hone =>
    cases hval
    rw [if_pos hone, if_pos hone]
    exact .ok ⟨rfl, rfl, rfl, fun _ => trivial⟩
  next hone =>
    rw [if_neg hone, if_neg hone]
    obtain ⟨⟨v₁, w₁⟩, hunpack, hret⟩ := bind_eq_ok.mp hval
    cases hret
    refine .bind id (h.indirect skip _ _ hheap skip' endFixed' endHeap' hunpack _ rfl)
      fun a b hab => ?_
    obtain ⟨rfl, hv, hpos, hfit⟩ := hab
    exact .ok ⟨rfl, congrArg Val.some hv, hpos, hfit⟩

private theorem optionalMember_hasValue {v : Val}
    (h : Unpacker.optionalMember elem m false src endFixed endHeap w = .ok (v, w')) :
    v.hasValue = hasValueAt m src w.fixedPos endFixed := by
  obtain ⟨offset, hoffset, h⟩ := bind_eq_ok.mp h
  rw [hasValueAt, hoffset]
  dsimp only at h ⊢
  split at h
  next hone =>
    cases h
    rw [hone]
    rfl
  next hone =>
    obtain ⟨_, -, hret⟩ := bind_eq_ok.mp h
    cases hret
    rw [bne_iff_ne.mpr hone]
    rfl

private theorem optional (h : elem.Agrees src) : (Unpacker.optional elem).Agrees src := by
  have hobject : ObjectAgrees src (Unpacker.optional elem).unpack false := by
    intro unknown pos stop v e hend hval unknown' stop'
    obtain ⟨u, hroom, hval⟩ := bind_eq_ok.mp hval
    obtain ⟨⟨v₁, w⟩, hmember, hret⟩ := bind_eq_ok.mp hval
    cases hret
    refine .next hroom rfl ?_
    refine .bind id (h.optionalMember false hend false _ _ hmember _ rfl) fun a b hab => ?_
    obtain ⟨rfl, hv, -, hfit⟩ := hab
    exact .ok ⟨rfl, hv, nofun, hfit⟩
  exact {
    object := hobject
    indirect := fun _ _ _ hend =>
      embeddedVariable_agrees hobject (show (Val.list []).Leaves _ from trivial) hend
    member := fun skip _ _ _ hheap => h.optionalMember skip hheap
    inline := nofun
    copied := nofun
    marked := fun _ _ _ _ _ _ _ hval => optionalMember_hasValue hval }

private theorem header {header : Option Nat} {size pos stop n pos' : Nat}
    (h : unpackHeader ⟨false, true⟩ header size src pos stop = .ok (n, pos')) (stop' : Nat) :
    unpackHeader ⟨true, false⟩ header size src pos stop' = .ok (n, pos') := by
  cases header with
  | none => exact h
  | some width =>
    obtain ⟨length, hlength, h⟩ := bind_eq_ok.mp h
    have hret := then_eq_ok h
    cases hret
    rw [unpackHeader, unpackNumeric_trusted hlength]
    rfl

private theorem checked {p : Unpacker} (h : p.Agrees src) (hfixed : endFixed ≤ src.length)
    (hheap : endHeap ≤ src.length) (endFixed' endHeap' : Nat) :
    MemberAgrees src (fun m => p.checked m src endFixed endHeap)
      (p.checked ⟨true, false⟩ src endFixed' endHeap') := by
  intro w w' v hval u hu
  dsimp only [Unpacker.checked] at hval ⊢
  split at hval
  next hvar =>
    rw [if_pos hvar, if_pos hvar]
    exact h.member true _ _ hfixed hheap true endFixed' endHeap' hval u hu
  next hvar =>
    rw [if_neg hvar, if_neg hvar]
    split at hval
    next hmem =>
      rw [if_pos hmem, if_pos hmem]
      obtain ⟨ofRaw, hp, hfit⟩ := h.copied hmem
      rw [hp] at hval ⊢
      obtain ⟨⟨v₁, e⟩, hunpack, hret⟩ := bind_eq_ok.mp hval
      cases hret
      obtain ⟨u₁, hroom, hunpack⟩ := bind_eq_ok.mp hunpack
      obtain ⟨bs, hbs, hret⟩ := bind_eq_ok.mp hunpack
      cases hret
      have hread : ∀ unknown stop, (Unpacker.memcpy p.traits ofRaw).unpack ⟨true, false⟩ src
          unknown w.fixedPos stop =
            .ok (ofRaw bs, ⟨u32 (w.fixedPos + p.traits.fixedSize), true, unknown⟩) :=
        fun _ _ => bind_eq_ok.mpr ⟨(), rfl, bind_eq_ok.mpr ⟨bs, hbs, rfl⟩⟩
      obtain ⟨hlen, hle⟩ := readBytes_eq_ok hbs
      rw [hu]
      refine .next (hread _ _) (hread _ _) (.ok ⟨rfl, rfl, rfl, fun hsmall => ?_⟩)
      exact hfit bs hlen (by omega)
    next hmem =>
      rw [if_neg hmem, if_neg hmem]
      have hobject := h.object
      rw [Bool.eq_false_of_not_eq_true hvar] at hobject
      exact embeddedFixed_agrees hobject hfixed endFixed' hval u hu

section

variable (h : ∀ p ∈ members, p.Agrees src)

include h

private theorem unpackTrimmed (hfixed : endFixed ≤ src.length) (hheap : endHeap ≤ src.length)
    {byValue last last' : Bool}
    (hval : Frac.unpackTrimmed ⟨false, true⟩ byValue src endFixed endHeap members w last =
      .ok (vs, w', last')) (byValue₁ byValue₂ last₂ : Bool) (endHeap' : Nat) (u : Walk)
    (hu : u.fixedPos = w.fixedPos) :
    Alike (¬Val.leavesAll Val.bitsFit vs) .outOfBounds
      (Frac.unpackTrimmed ⟨true, true⟩ byValue₁ src endFixed endHeap members w last)
      (Frac.unpackTrimmed ⟨true, false⟩ byValue₂ src endFixed endHeap' members u last₂)
      fun a b => a = (vs, w', last') ∧ b.1 = vs ∧ b.2.1.fixedPos = w'.fixedPos ∧
        (src.length < 2 ^ 29 → Val.leavesAll Val.bitsFit vs) := by
  induction members generalizing w vs u last last₂ with
  | nil =>
    cases hval
    exact .ok ⟨rfl, rfl, hu, fun _ => trivial⟩
  | cons p members ih =>
    have hp := h p mem_cons_self
    have hrest := (forall_mem_cons.mp h).2
    rw [Frac.unpackTrimmed] at hval ⊢
    rw [Frac.unpackTrimmed, hu]
    split at hval
    next hpresent =>
      rw [if_pos hpresent, if_pos hpresent]
      obtain ⟨⟨v, w₁⟩, hv, hval⟩ := bind_eq_ok.mp hval
      obtain ⟨⟨vs₁, w₂, last₁⟩, hvs, hret⟩ := bind_eq_ok.mp hval
      cases hret
      refine .bind (mt And.left)
        (hp.member false _ _ hfixed hheap false endFixed endHeap' hv u hu) fun a b hab => ?_
      obtain ⟨rfl, hb, hpos, hfit⟩ := hab
      -- however it is found, the answer is the one the validation found
      have hlast : (!p.traits.isOptional || if byValue₁ = true then v.hasValue
            else hasValueAt ⟨true, true⟩ src w.fixedPos endFixed) =
          (!p.traits.isOptional || if byValue = true then v.hasValue
            else hasValueAt ⟨false, true⟩ src w.fixedPos endFixed) := by
        cases hopt : p.traits.isOptional with
        | false => rfl
        | true =>
          have hmark : v.hasValue = hasValueAt ⟨true, true⟩ src w.fixedPos endFixed :=
            hp.marked (m := ⟨false, true⟩) hopt hv
          have hmark' : v.hasValue = hasValueAt ⟨false, true⟩ src w.fixedPos endFixed := hmark
          rw [← hmark, ← hmark', ite_self, ite_self]
      dsimp only
      rw [hlast]
      refine .bind (mt And.right) (ih hrest hvs _ b.2 hpos) fun c d hcd => ?_
      obtain ⟨rfl, hd, hpos, hfits⟩ := hcd
      refine .ok ⟨rfl, ?_, hpos, fun hsmall => ⟨hfit hsmall, hfits hsmall⟩⟩
      rw [hb, hd]
    next hmissing =>
      rw [if_neg hmissing, if_neg hmissing]
      obtain ⟨⟨vs₁, w₂, last₁⟩, hvs, hret⟩ := bind_eq_ok.mp hval
      cases hret
      refine .bind (mt And.right) (ih hrest hvs _ u hu) fun c d hcd => ?_
      obtain ⟨rfl, hd, hpos, hfits⟩ := hcd
      exact .ok ⟨rfl, congrArg (Val.nullopt :: ·) hd, hpos, fun hsmall => ⟨trivial, hfits hsmall⟩⟩

private theorem trimmed {byValue : Mode → Bool} : (trimmed width byValue members).Agrees src := by
  refine .base rfl trivial ?_ nofun
  intro unknown pos stop v e hend hval unknown' stop'
  obtain ⟨⟨fixedSize, pos'⟩, hheader, hval⟩ := bind_eq_ok.mp hval
  obtain ⟨u, hbounds, hval⟩ := bind_eq_ok.mp hval
  obtain ⟨⟨vs, w, last⟩, hrun, hval⟩ := bind_eq_ok.mp hval
  obtain ⟨⟨e₁, last₁⟩, hfinish, hval⟩ := bind_eq_ok.mp hval
  obtain ⟨u₁, hlast, hret⟩ := bind_eq_ok.mp hval
  cases hret
  have hle := end_le_of_require hbounds
  refine .next hheader (header hheader stop') (.next hbounds rfl ?_)
  refine .bind id (unpackTrimmed h (hle.trans hend) hend hrun _ _ _ _ _ rfl)
    fun a b hab => ?_
  obtain ⟨rfl, hb, -, hfit⟩ := hab
  exact .next hfinish rfl (.next hlast rfl (.ok ⟨rfl, congrArg Val.list hb, nofun, hfit⟩))

private theorem untrimmed {width : Option Nat} : (untrimmed width size members).Agrees src := by
  refine .base rfl trivial ?_ nofun
  intro unknown pos stop v e hend hval unknown' stop'
  obtain ⟨⟨fixedSize, pos'⟩, hheader, hval⟩ := bind_eq_ok.mp hval
  obtain ⟨u, hbounds, hval⟩ := bind_eq_ok.mp hval
  obtain ⟨u₁, hsize, hval⟩ := bind_eq_ok.mp hval
  obtain ⟨⟨vs, w⟩, hrun, hval⟩ := bind_eq_ok.mp hval
  obtain ⟨⟨e₁, last⟩, hfinish, hret⟩ := bind_eq_ok.mp hval
  cases hret
  have hle := end_le_of_require hbounds
  refine .next hheader (header hheader stop') (.next hbounds rfl (.next hsize rfl ?_))
  refine .bind id (unpackEach (fun p hp => (h p hp).checked (hle.trans hend) hend _ _)
    hrun _ rfl) fun a b hab => ?_
  obtain ⟨rfl, hb, -, hfit⟩ := hab
  exact .next hfinish rfl (.ok ⟨rfl, congrArg Val.list hb, nofun, hfit⟩)

private theorem fixedStruct (hopt : tr.isOptional = false) (hmem : tr.isMemcpy = false) :
    (fixedStruct tr members).Agrees src := by
  refine .base hopt trivial ?_ (by rw [hmem]; exact nofun)
  intro unknown pos stop v e hend hval unknown' stop'
  obtain ⟨u, hroom, hval⟩ := bind_eq_ok.mp hval
  obtain ⟨⟨vs, w⟩, hrun, hret⟩ := bind_eq_ok.mp hval
  cases hret
  refine .next hroom rfl ?_
  refine .bind id (unpackEach (fun p hp => (h p hp).checked hend hend _ _) hrun _ rfl)
    fun a b hab => ?_
  obtain ⟨rfl, hb, hpos, hfit⟩ := hab
  exact .ok ⟨rfl, congrArg Val.list hb, fun _ => hpos, hfit⟩

end

private theorem variant {alternatives : List Unpacker} (h : ∀ p ∈ alternatives, p.Agrees src) :
    (variant alternatives).Agrees src := by
  refine .base rfl trivial ?_ nofun
  intro unknown pos stop v e hend hval unknown' stop'
  obtain ⟨tag, htag, hval⟩ := bind_eq_ok.mp hval
  obtain ⟨u, hsmall, hval⟩ := bind_eq_ok.mp hval
  obtain ⟨size, hsize, hval⟩ := bind_eq_ok.mp hval
  obtain ⟨u₁, hbounds, hval⟩ := bind_eq_ok.mp hval
  have hle := end_le_of_require hbounds
  refine .next htag (unpackNumeric_trusted htag _ _) (.next hsmall rfl
    (.next hsize (unpackNumeric_trusted hsize _ _) (.next hbounds rfl ?_)))
  split at hval
  · cases hval
  next p hp =>
    obtain ⟨⟨v₁, e₁⟩, hunpack, hval⟩ := bind_eq_ok.mp hval
    obtain ⟨u₂, hfull, hret⟩ := bind_eq_ok.mp hval
    cases hret
    refine .bind id ((h p (mem_of_getElem? hp)).object (hle.trans hend) hunpack
      unknown' _) fun a b hab => ?_
    obtain ⟨rfl, hb, -, hfit⟩ := hab
    exact .next hfull rfl (.ok ⟨rfl, congrArg (Val.alt tag) hb, nofun, hfit⟩)

end Unpacker.Agrees

private theorem leaves_splitRaw {ofRaw : Bytes → Val} (h : ∀ bs, (ofRaw bs).Leaves Val.bitsFit)
    (size n : Nat) (bs : Bytes) : Val.leavesAll Val.bitsFit (splitRaw ofRaw size n bs) := by
  induction n generalizing bs with
  | zero => trivial
  | succ n ih => exact ⟨h _, ih _⟩

mutual

/-- Nothing that is copied is a list of bits. -/
theorem Ty.leaves_ofRaw : (t : Ty) → ∀ bs, (t.ofRaw bs).Leaves Val.bitsFit
  | .array t n, bs => leaves_splitRaw (Ty.leaves_ofRaw t) _ n bs
  | .struct _ _ _ ts, bs => Tys.leaves_ofRaw ts bs
  | .num _, _ | .bool, _ | .bitset _, _ | .string, _ | .vector _, _ | .assoc _, _
  | .boundedString _, _ | .boundedList _ _, _ | .bitlist _, _ | .optional _, _ | .tuple _, _
  | .variant _, _ => trivial

private theorem Tys.leaves_ofRaw : (ts : Tys) → ∀ bs, Val.leavesAll Val.bitsFit (ts.ofRaw bs)
  | .nil, _ => trivial
  | .cons t ts, _ => ⟨Ty.leaves_ofRaw t _, Tys.leaves_ofRaw ts _⟩

end

mutual

/-- Both ways to read a type end alike. -/
theorem Ty.agrees : (t : Ty) → t.unpacker.Agrees src
  | .num n => .memcpy rfl fun bs _ _ => Ty.leaves_ofRaw (.num n) bs
  | .bool => .bool
  | .bitset n => .memcpy rfl fun bs hlen hsmall => by
    have hn : bs.length = (n + 7) / 8 := hlen
    rw [bitsFit_bits, length_unpackBits]
    omega
  | .string => .bytes trivial fun _ => trivial
  | .vector t => by
    rw [Ty.unpacker]
    split
    · exact .bits
    · split
      · exact .bytes trivial fun _ => leaves_splitRaw (Ty.leaves_ofRaw t) ..
      · exact .container (Ty.agrees t)
  | .assoc t => .container (Ty.agrees t)
  | .boundedString _ => .bytes trivial fun _ => trivial
  | .boundedList t _ => by
    rw [Ty.unpacker]
    split
    · exact .bytes trivial fun _ => leaves_splitRaw (Ty.leaves_ofRaw t) ..
    · exact .container (Ty.agrees t)
  | .bitlist n => .bits
  | .array t n => by
    have hopt := Ty.isOptional_array t n
    rw [Ty.unpacker]
    split
    · exact .memcpy hopt fun bs _ _ => Ty.leaves_ofRaw _ bs
    next hmem =>
      have hmem : t.traits.isMemcpy = false := Bool.eq_false_of_not_eq_true hmem
      refine .array hopt ?_ ?_ (Ty.agrees t)
      · rw [Ty.traits]
        split
        · rfl
        · exact hmem
      · rw [Ty.unpacker_traits, Ty.traits]
        split
        next hvar => exact hvar.symm
        next hvar => exact (Bool.eq_false_of_not_eq_true hvar).symm
  | .optional t => .optional (Ty.agrees t)
  | .tuple ts => .trimmed (Tys.agrees ts)
  | .variant ts => .variant (Tys.agrees ts)
  | .struct dwnc unpadded n ts => by
    have hopt := Ty.isOptional_struct dwnc unpadded n ts
    rw [Ty.unpacker]
    split
    · exact .memcpy hopt fun bs _ _ => Ty.leaves_ofRaw _ bs
    next hmem =>
      split
      · exact .fixedStruct (Tys.agrees ts) hopt (Bool.eq_false_of_not_eq_true hmem)
      · split
        · exact .untrimmed (Tys.agrees ts)
        · split
          · exact .trimmed (Tys.agrees ts)
          · exact .untrimmed (Tys.agrees ts)

private theorem Tys.agrees : (ts : Tys) → ∀ p ∈ ts.unpackers, p.Agrees src
  | .nil => nofun
  | .cons t ts => forall_mem_cons.mpr ⟨Ty.agrees t, Tys.agrees ts⟩

end

/-- Data that was not found invalid was walked to its end. -/
theorem validateFrac_eq_ok {t : Ty} {data : Bytes} {x : Validation}
    (h : validateFrac t data = .ok x) (hx : x ≠ .invalid) :
    ∃ v e, unpackWhole t ⟨false, true⟩ data = .ok (v, e) := by
  rw [validateFrac] at h
  split at h
  next v e hwhole => exact ⟨v, e, hwhole⟩
  · cases h
    exact absurd rfl hx
  · cases h

/-- Validated data is read by `from_frac` the same with and without verification. All reads are
inside of the buffer if no number of bits that the validation found wraps around when it is rounded
up to bytes, and in a buffer of less than `2 ^ 29` bytes only then. -/
theorem fromFracPrevalidated_agrees {t : Ty} {data : Bytes} {x : Validation}
    (h : validateFrac t data = .ok x) (hx : x ≠ .invalid) :
    fromFracPrevalidated t data = fromFrac t data ∧
      ∃ v e, unpackWhole t ⟨false, true⟩ data = .ok (v, e) ∧
        (v.Leaves Val.bitsFit → fromFracPrevalidated t data = .ok v) ∧
        (data.length < 2 ^ 29 → (∃ v', fromFracPrevalidated t data = .ok v') →
          v.Leaves Val.bitsFit) := by
  obtain ⟨v, e, hwhole⟩ := validateFrac_eq_ok h hx
  have hwalk := hwhole
  obtain ⟨⟨v₁, e₁⟩, hunpack, hwhole⟩ := bind_eq_ok.mp hwhole
  obtain ⟨u, hend, hret⟩ := bind_eq_ok.mp hwhole
  cases hret
  have hstop : u32 data.length ≤ data.length := Nat.mod_le _ _
  have hboth := (Ty.agrees t).object hstop hunpack false (u32 data.length)
  rw [fromFracPrevalidated, fromFrac, unpackWhole]
  rcases hboth with ⟨a, b, ha, hb, rfl, hv, -, hfit⟩ | ⟨hrisk, ha, hb⟩
  · rw [ha, hb, ok_bind, ok_bind]
    dsimp only
    rw [hend, hv]
    exact ⟨rfl, v, e, hwalk, fun _ => rfl, fun hsmall _ => hfit hsmall⟩
  · rw [ha, hb]
    refine ⟨rfl, v, e, hwalk, fun hfit => absurd hfit hrisk, fun _ hread => ?_⟩
    obtain ⟨v', hread⟩ := hread
    cases hread

/-- A struct with an optional `std::vector<bool>`. -/
def optionalBits : Ty := .struct false false 0xffff (.ofList [.optional (.vector .bool)])

set_option maxRecDepth 6000 in
/-- Three bits, and a field that the reader does not know. -/
theorem fromFracPrevalidated_extended :
    let data : Bytes := [8, 0, 8, 0, 0, 0, 9, 0, 0, 0, 3, 0, 0, 0, 5, 7]
    validateFrac optionalBits data = .ok .extended ∧
      fromFracPrevalidated optionalBits data = fromFrac optionalBits data ∧
      fromFracPrevalidated optionalBits data = .ok (.list [.some (.bits [true, false, true])]) := by
  intro data
  have hvalid : validateFrac optionalBits [8, 0, 8, 0, 0, 0, 9, 0, 0, 0, 3, 0, 0, 0, 5, 7] =
      .ok .extended := rfl
  have hread : unpackWhole optionalBits ⟨false, true⟩
      [8, 0, 8, 0, 0, 0, 9, 0, 0, 0, 3, 0, 0, 0, 5, 7] =
        .ok (.list [.some (.bits [true, false, true])], ⟨15, false, true⟩) := rfl
  obtain ⟨heq, v, e, hwalk, hreads, -⟩ := fromFracPrevalidated_agrees hvalid nofun
  cases hread.symm.trans hwalk
  exact ⟨hvalid, heq, hreads ⟨(by decide : 3 + 7 < 2 ^ 32), trivial⟩⟩

/-- `2 ^ 32 - 1` bits are rounded up to no byte, so that a vector of that many is found valid in
four bytes. -/
theorem fromFracPrevalidated_outOfBounds :
    validateFrac (.vector .bool) [0xff, 0xff, 0xff, 0xff] = .ok .valid ∧
      fromFracPrevalidated (.vector .bool) [0xff, 0xff, 0xff, 0xff] = .error .outOfBounds :=
  ⟨rfl, rfl⟩

end

end PsiServe.Frac
