import PsiServe.Frac.Track

/-!
# What each verifying `unpack` makes of an encoded object

For each implementation of `is_packable` (`fracpack.hpp:558–640,732–775,903–978,1095–1130,
1144–1345,1414–1430,1491–1553,1832–2003,2194–2387`): given the bytes of an object, whether it
accepts them, the value it reads and the sight it leaves. Lengths that overflow are followed as
the code computes them.
-/

namespace PsiServe.Frac

open Base List Unpacker Present

variable {width pos stop size : Nat} {src body : Bytes} {cleared : Val} {unknown : Bool}

private theorem unpackNumeric_mod {v : Nat} (m : Mode) (skip : Bool)
    (h : At src pos (leBytes width v))
    (hlen : pos + width ≤ stop) (hsrc : stop ≤ src.length) (hstop : stop < 2 ^ 32) :
    unpackNumeric m skip width src pos stop = .ok (v % 256 ^ width) := by
  rw [← leBytes_mod] at h
  exact unpackNumeric_at m skip h (Nat.mod_lt _ (Nat.pow_pos (by decide))) hlen hsrc hstop

/-- What stands behind a length. -/
theorem at_body {n : Nat} (h : At src pos (leBytes width n ++ body)) : At src
    (pos + width) body := by
  have hright := h.right
  rw [length_leBytes] at hright
  exact hright

/-- The checks of a region of `n` bytes that ends inside of the buffer. -/
theorem region_checks (start n : Nat) (h : start + n ≤ stop) (hstop : stop < 2 ^ 32) :
    u32 (start + n) = start + n ∧ decide (start + n < start) = false ∧
      decide (stop < start + n) = false :=
  ⟨u32_of_lt (by omega), decide_eq_false (by omega), decide_eq_false (by omega)⟩

private theorem decide_room {n : Nat} (h : pos + n ≤ stop) (hstop : stop < 2 ^ 32) :
    decide (sub32 stop pos < n) = false := by
  rw [decide_eq_false_iff_not, sub32_lt_iff (by omega) hstop]
  omega

/-! ### Objects that are copied -/

section

variable {m : Mode} {tr : Traits} {ofRaw : Bytes → Val}

/-- A copy reads its bytes, verified or not. -/
theorem memcpy_unpack (hlen : body.length = tr.fixedSize) (hat : At src pos body)
    (hend : pos + body.length ≤ stop) (hsrc : stop ≤ src.length) (hstop : stop < 2 ^ 32) :
    (memcpy tr ofRaw).unpack m src unknown pos stop =
      .ok (ofRaw body, ⟨pos + body.length, true, unknown⟩) := by
  have hread := readBytes_at hat (by omega)
  have hnext : u32 (pos + body.length) = pos + body.length := u32_of_lt (by omega)
  simp only [memcpy, plain, base, ← hlen, decide_room hend hstop,
    Bool.and_false, Bool.not_false, require_true, ok_bind, hread, hnext]
  rfl

/-- A copied object is read. -/
theorem reads_memcpy (hlen : body.length = tr.fixedSize) :
    Reads (.memcpy tr ofRaw) body (ofRaw body) (some ∘ .exact) := by
  intro m src unknown pos stop _ hat hend hsrc hstop
  refine ⟨_, memcpy_unpack hlen hat hend hsrc hstop, rfl, ?_, ?_⟩
  · exact Nat.le_add_right _ _
  · exact Sight.exact_sees _ _

end

/-- A `bool` is read. -/
theorem reads_bool {b : UInt8} (hb : b ≤ 1) : Reads .bool [b] (.bool b) (some ∘ .exact) := by
  intro m src unknown pos stop hm hat hend hsrc hstop
  have hlen : ([b] : Bytes).length = 1 := rfl
  rw [hlen] at hend ⊢
  have hbytes := readBytes_at hat (by rw [hlen]; omega)
  have hread : readNum 1 src pos = .ok b.toNat := by
    rw [hlen] at hbytes
    rw [readNum, hbytes]
    simp [leValue]
  have hnext : u32 (pos + 1) = pos + 1 := u32_of_lt (by omega)
  have hle : ¬1 < b.toNat := not_lt.mpr (UInt8.le_iff_toNat_le.mp hb)
  have hval : (if b.toNat = 0 then (0 : UInt8) else 1) = b := by
    rcases eq_zero_or_one hb with rfl | rfl <;> rfl
  refine ⟨(.bool b, ⟨pos + 1, true, unknown⟩), ?_, rfl, Nat.le_add_right _ _,
    Sight.exact_sees _ _⟩
  simp only [Unpacker.bool, Unpacker.plain, Unpacker.base, decide_room hend hstop, hle,
    decide_false, Bool.and_false, Bool.not_false, require_true, ok_bind, hread, hnext, hval]
  rfl

/-- Bytes behind their length are read. -/
theorem reads_bytes {ofBytes : Bytes → Val} {bs : Bytes} (hfits : bs.length < 256 ^ width)
    (hsize : bs.length % size = 0) :
    Reads (.bytes width size cleared ofBytes) (leBytes width bs.length ++ bs) (ofBytes bs)
      (some ∘ .exact) := by
  intro m src unknown pos stop hm hat hend hsrc hstop
  rw [length_append, length_leBytes] at hend ⊢
  have hlength := unpackNumeric_at m false hat.left hfits (by omega) hsrc hstop
  have hread := readBytes_at (at_body hat) (by omega)
  have h₁ : u32 bs.length = bs.length := u32_of_lt (by omega)
  have h₂ : u32 (pos + width) = pos + width := u32_of_lt (by omega)
  obtain ⟨h₃, h₄, h₅⟩ := region_checks (pos + width) bs.length (by omega) hstop
  refine ⟨(ofBytes bs, ⟨pos + width + bs.length, true, unknown⟩), ?_, rfl,
    by dsimp only; omega, ?_⟩
  · simp only [bytes, base, hlength, ok_bind, h₁, h₂, h₃, h₄, h₅, hsize,
      bne_self_eq_false, Bool.or_false, Bool.and_false, Bool.not_false, require_true, hread]
    rfl
  · rw [← add_assoc]
    exact Sight.exact_sees _ _

/-! ### Bits -/

/-- How many bits and bytes a list of bits announces. -/
def announcedBits (bs : List Bool) : Nat := u32 bs.length

def announcedBytes (bs : List Bool) : Nat := u32 (announcedBits bs + 7) / 8

/-- The bits that are read back. -/
def bitsRead (bs : List Bool) : List Bool :=
  unpackBits (announcedBits bs) ((packBits bs).take ((announcedBits bs + 7) / 8))

/-- The sight a list of bits leaves: the check of the unused bits looks at the last of the
bytes that are announced. -/
def bitsSight (bs : List Bool) (unknown : Bool) : Option Sight :=
  if announcedBytes bs > 0 && announcedBits bs % 8 != 0 &&
      leValue [(packBits bs).getD (announcedBytes bs - 1) 0] / 2 ^ (announcedBits bs % 8) != 0 then
    none
  else some ⟨true, decide (announcedBytes bs < (packBits bs).length), unknown⟩

/-- No more bits are announced than there are. -/
theorem announcedBits_le (bs : List Bool) : announcedBits bs ≤ bs.length := Nat.mod_le _ _

private theorem announcedBytes_le (bs : List Bool) : announcedBytes bs ≤ (packBits bs).length := by
  have hbits := announcedBits_le bs
  have hmod : u32 (announcedBits bs + 7) ≤ announcedBits bs + 7 := Nat.mod_le _ _
  rw [announcedBytes, length_packBits]
  exact Nat.div_le_div_right (by omega)

variable {bs : List Bool} {a : Sight} {v : Val} {elem p : Unpacker} {s : Slot}
  {object : Bool → Option Sight}

/-- Without overflow the bits are read back and the position is their end. -/
theorem bits_of_lt (h : bs.length + 7 < 2 ^ 32) :
    bitsRead bs = bs ∧ bitsSight bs = some ∘ .exact := by
  have hbits : announcedBits bs = bs.length := u32_of_lt (by omega)
  have hbytes : announcedBytes bs = (packBits bs).length := by
    rw [announcedBytes, hbits, u32_of_lt h, length_packBits]
  constructor
  · rw [bitsRead, hbits, ← length_packBits, take_length, unpackBits_packBits]
  · funext unknown
    have hcheck : (announcedBytes bs > 0 && announcedBits bs % 8 != 0 &&
        leValue [(packBits bs).getD (announcedBytes bs - 1) 0] / 2 ^ (announcedBits bs % 8) != 0) =
          false := by
      rw [hbits, hbytes, length_packBits]
      by_cases h0 : bs.length % 8 = 0
      · rw [h0, bne_self_eq_false, Bool.and_false, Bool.false_and]
      · rw [packBits_last h0, bne_self_eq_false, Bool.and_false]
    rw [bitsSight, hcheck, hbytes]
    simp [Sight.exact]

/-- With overflow the position stays behind. -/
theorem bitsSight_of_ge (h : 2 ^ 32 ≤ bs.length + 7) (ha : bitsSight bs unknown = some a) :
    a.lost = true := by
  have hbytes : announcedBytes bs < (packBits bs).length := by
    rw [announcedBytes, length_packBits]
    have hlt : u32 (announcedBits bs + 7) < 2 ^ 32 := Nat.mod_lt _ (by decide)
    omega
  rw [bitsSight] at ha
  split at ha
  · cases ha
  · cases ha
    exact decide_eq_true hbytes

/-- Bits behind their number are read, as many as are announced. -/
theorem reads_bits {bound : Option Nat} (hcount : u32 (bs.length % 256 ^ width) = announcedBits bs)
    (hbound : bound.all (announcedBits bs ≤ ·) = true) :
    Reads (.bits width bound) (bitsBody width bs) (.bits (bitsRead bs)) (bitsSight bs) := by
  intro m src unknown pos stop hm hat hend hsrc hstop
  rw [bitsBody, length_append, length_leBytes] at hend ⊢
  have hlength := unpackNumeric_mod m false hat.left (by omega) hsrc hstop
  have hbits := announcedBits_le bs
  have hbytes := announcedBytes_le bs
  have hlen := length_packBits bs
  have hright := at_body hat
  have h₂ : u32 (pos + width) = pos + width := u32_of_lt (by omega)
  obtain ⟨h₃, h₄, h₅⟩ := region_checks (pos + width) (announcedBytes bs) (by omega) hstop
  have hinside : ¬src.length < pos + width + (announcedBits bs + 7) / 8 := by omega
  have hwindow : window src (pos + width) (pos + width + (announcedBits bs + 7) / 8) =
      (packBits bs).take ((announcedBits bs + 7) / 8) := by
    have htake := (hright.mono ( take_prefix ((announcedBits bs + 7) / 8) _)).window_eq
    rw [length_take_of_le (by omega)] at htake
    exact htake
  have hlast : 0 < announcedBytes bs → readNum 1 src (pos + width + announcedBytes bs - 1) =
      .ok (leValue [(packBits bs).getD (announcedBytes bs - 1) 0]) := by
    intro hpos
    have hget := hright.getElem? (i := announcedBytes bs - 1) (by omega)
    have hsome : (packBits bs)[announcedBytes bs - 1]? =
        some ((packBits bs).getD (announcedBytes bs - 1) 0) := by
      rw [getD_eq_getElem?_getD, getElem?_eq_getElem (by omega)]
      rfl
    rw [hsome, ← at_singleton] at hget
    have hread := readBytes_at hget (by simp; omega)
    rw [← Nat.add_sub_assoc (by omega)] at hread
    exact congrArg (· >>= fun bs => pure (leValue bs)) hread
  have hstart : (bits width bound).unpack m src unknown pos stop =
      if announcedBytes bs > 0 && announcedBits bs % 8 != 0 &&
        leValue [(packBits bs).getD (announcedBytes bs - 1) 0] / 2 ^ (announcedBits bs % 8) != 0
      then .error .invalid
      else .ok (.bits (bitsRead bs), ⟨pos + width + announcedBytes bs, true, unknown⟩) := by
    have hbytes' : u32 (announcedBits bs + 7) / 8 = announcedBytes bs := rfl
    simp only [bits, base, hlength, ok_bind, hcount, hbytes', h₂, h₃, hm, if_true,
      hbound, require_true, h₄, h₅, Bool.or_false, Bool.not_false, hinside, decide_false,
      Bool.and_false, Bool.false_eq_true, if_false, hwindow]
    by_cases hpad : (decide (announcedBytes bs > 0) && announcedBits bs % 8 != 0) = true
    · rw [if_pos hpad, hpad, hlast (of_decide_eq_true (Bool.and_eq_true_iff.mp hpad).1), ok_bind,
        Bool.true_and, bne]
      cases leValue [(packBits bs).getD (announcedBytes bs - 1) 0] / 2 ^ (announcedBits bs % 8) == 0
        <;> rfl
    · rw [if_neg hpad, Bool.eq_false_iff.mpr hpad, Bool.false_and]
      rfl
  rw [hstart, bitsSight]
  split
  · exact .error _
  · refine ⟨_, rfl, rfl, by dsimp only; omega, ?_, ?_, rfl, rfl⟩
    · dsimp only; omega
    · simp only [decide_eq_false_iff_not]
      omega

/-! ### Members and elements -/

/-- A verifying walk over a member that meets its slot, wherever it stands. -/
def Embeds (p : Unpacker) (s : Slot) (v : Val) (effect : Sight → Option Sight) : Prop :=
  ∀ ⦃m : Mode⦄ ⦃skip : Bool⦄ ⦃src : Bytes⦄ ⦃endFixed endHeap : Nat⦄, m.verify = true →
    Fits src endHeap → endFixed ≤ endHeap →
    Steps (p.embeddedUnpack m skip src endFixed endHeap) src endFixed endHeap s v effect

/-- Members of a fixed size from a state in which the flag is set. -/
theorem runEffects_idle {fs : List (Sight → Option Sight)} (h : ∀ f ∈ fs, f a = some a) :
    runEffects fs a = some a := by
  induction fs with
  | nil => rfl
  | cons f fs ih =>
    rw [runEffects, h f mem_cons_self]
    exact ih (forall_mem_cons.mp h).2

/-- The start of a walk over the members of a fixed region. -/
theorem meets_layout {endHeap : Nat} {ss : List Slot} (hat : At src pos (layout ss))
    (hend : pos + (layout ss).length ≤ endHeap) (unknown : Bool) :
    Meets src (pos + fixedLen ss) endHeap ss ⟨pos, pos + fixedLen ss, true, unknown⟩
      (pos + fixedLen ss) (.exact unknown) := by
  have hright := hat.right
  rw [length_fixedOf] at hright
  rw [length_layout, ← add_assoc] at hend
  refine ⟨Sight.exact_sees _ _, ?_, hright, le_rfl, le_rfl, hend⟩
  rw [Nat.add_sub_cancel_left]
  exact hat.left

section

variable {vs : List Val} {slot : Val → Slot} {read : Val → Val}
  {effect : Val → Sight → Option Sight} {width : Nat}

/-- Elements without a size are not counted. -/
theorem reads_container_zero (hzero : elem.traits.fixedSize = 0) :
    Reads (.container width elem) body v fun _ => none := by
  intro m src unknown pos stop hm hat hend hsrc hstop
  simp only [container, base, hzero, if_true]
  cases unpackNumeric m false width src pos stop with
  | error e | ok n => exact .error _

/-- A container up to its elements; the length that is read may be less than the one written. -/
theorem container_unpack {m : Mode} {n : Nat} (hm : m.verify = true)
    (hat : At src pos (leBytes width n))
    (hpos : elem.traits.fixedSize ≠ 0) (hend : pos + width + n % 256 ^ width ≤ stop)
    (hsrc : stop ≤ src.length) (hstop : stop < 2 ^ 32) :
    (container width elem).unpack m src unknown pos stop =
      ((require !(n % 256 ^ width % elem.traits.fixedSize != 0)) >>= fun _ =>
        unpackEach (replicate (n % 256 ^ width / elem.traits.fixedSize)
          (elem.embeddedUnpack m false src (pos + width + n % 256 ^ width) stop))
          ⟨pos + width, pos + width + n % 256 ^ width, true, unknown⟩ >>= fun r =>
            pure (.list r.1, ⟨r.2.heapPos, r.2.known, r.2.unknown⟩)) := by
  have hlength := unpackNumeric_mod m false hat (by omega) hsrc hstop
  have h₁ : u32 (n % 256 ^ width) = n % 256 ^ width := u32_of_lt (by omega)
  have h₂ : u32 (pos + width) = pos + width := u32_of_lt (by omega)
  obtain ⟨h₃, h₄, h₅⟩ := region_checks (pos + width) (n % 256 ^ width) hend hstop
  simp only [container, base, hlength, ok_bind, h₁, h₂, h₃, hpos, if_false,
    h₄, h₅, Bool.or_false, hm, Bool.true_and]

section

variable (hembeds : ∀ v ∈ vs, Embeds elem (slot v) (read v) (effect v))

include hembeds

/-- The elements of a container or an array, from the start of their fixed region. -/
theorem unpackEach_elements {m : Mode} (hm : m.verify = true) (hfits : Fits src stop)
    (hat : At src pos (layout (vs.map slot))) (hend : pos + (layout (vs.map slot)).length ≤ stop)
    (unknown : Bool) :
    Yields (unpackEach (replicate vs.length
        (elem.embeddedUnpack m false src (pos + fixedLen (vs.map slot)) stop))
          ⟨pos, pos + fixedLen (vs.map slot), true, unknown⟩)
      (runEffects (vs.map effect) (.exact unknown))
      (Moves (vs.map read) ⟨pos, pos + fixedLen (vs.map slot), true, unknown⟩
        (fixedLen (vs.map slot)) (pos + (layout (vs.map slot)).length)) := by
  have hle : pos + fixedLen (vs.map slot) ≤ stop := by
    rw [length_layout] at hend
    omega
  have hrun := unpackEach_steps
    (fun v => ⟨elem.embeddedUnpack m false src (pos + fixedLen (vs.map slot)) stop, slot v, read v,
      effect v⟩)
    (fun v hv => hembeds v hv hm hfits hle) (meets_layout hat hend unknown)
  rw [map_const', add_assoc, ← length_layout] at hrun
  exact hrun

/-- A container is read. -/
theorem reads_container (hsize : fixedLen (vs.map slot) = vs.length * elem.traits.fixedSize)
    (hpos : elem.traits.fixedSize ≠ 0) (hfits : vs.length * elem.traits.fixedSize < 256 ^ width) :
    Reads (.container width elem)
      (leBytes width (vs.length * elem.traits.fixedSize) ++ layout (vs.map slot))
      (.list (vs.map read)) (fun u => runEffects (vs.map effect) (.exact u)) := by
  intro m src unknown pos stop hm hat hend hsrc hstop
  rw [length_append, length_leBytes] at hend ⊢
  have hlayout := length_layout (vs.map slot)
  have hrun := unpackEach_elements hembeds hm ⟨hsrc, hstop⟩ (at_body hat) (by omega) unknown
  have hmod := Nat.mod_eq_of_lt hfits
  rw [hsize] at hlayout hrun
  rw [container_unpack hm hat.left hpos (by rw [hmod]; omega) hsrc hstop, hmod, Nat.mul_mod_left,
    Nat.mul_div_cancel _ (Nat.pos_of_ne_zero hpos)]
  refine Yields.map hrun fun r b hr => ⟨congrArg Val.list hr.val, ?_, ?_⟩
  · have hle := hr.le
    dsimp only at hle ⊢
    omega
  · rw [← add_assoc]
    exact hr.sees

/-- A length that does not fit its bytes announces fewer elements. -/
theorem reads_container_overflow (hsize : ∀ v ∈ vs, (slot v).fixedLen = elem.traits.fixedSize)
    (hinline : ∀ s ∈ vs.map slot, s.IsInline)
    (hidle : ∀ v ∈ vs, ∀ a : Sight, a.known = true → effect v a = some a)
    (hpos : elem.traits.fixedSize ≠ 0) (hover : 256 ^ width ≤ vs.length * elem.traits.fixedSize) :
    Reads (.container width elem)
      (leBytes width (vs.length * elem.traits.fixedSize) ++ layout (vs.map slot))
      (.list ((vs.take (vs.length * elem.traits.fixedSize % 256 ^ width /
        elem.traits.fixedSize)).map read))
      (fun u => if vs.length * elem.traits.fixedSize % 256 ^ width % elem.traits.fixedSize = 0
        then some ⟨true, true, u⟩ else none) := by
  intro m src unknown pos stop hm hat hend hsrc hstop
  rw [length_append, length_leBytes] at hend ⊢
  have hright := at_body hat
  have hlayout := length_layout (vs.map slot)
  have hsizes : ∀ s ∈ vs.map slot, s.fixedLen = elem.traits.fixedSize := forall_mem_map.mpr hsize
  rw [heapOf_inline hinline, length_nil, fixedLen_of_forall hsizes, length_map, add_zero] at hlayout
  have hshort : vs.length * elem.traits.fixedSize % 256 ^ width <
      vs.length * elem.traits.fixedSize :=
    (Nat.mod_lt _ (Nat.pow_pos (by decide))).trans_le hover
  rw [container_unpack hm hat.left hpos (by omega) hsrc hstop]
  generalize vs.length * elem.traits.fixedSize % 256 ^ width = short at *
  dsimp only
  by_cases hmod : short % elem.traits.fixedSize = 0
  · have hcount : short / elem.traits.fixedSize * elem.traits.fixedSize = short :=
      Nat.div_mul_cancel (Nat.dvd_of_mod_eq_zero hmod)
    have hless : short / elem.traits.fixedSize < vs.length := by
      apply Nat.lt_of_mul_lt_mul_right (a := elem.traits.fixedSize)
      rw [hcount]
      exact hshort
    rw [if_pos hmod, hmod, bne_self_eq_false, Bool.not_false, require_true, ok_bind]
    generalize short / elem.traits.fixedSize = k at *
    have hk : (vs.take k).length = k := length_take_of_le (le_of_lt hless)
    have hsub : ∀ v ∈ vs.take k, v ∈ vs := fun v hv => mem_of_mem_take hv
    have hsplit : vs.map slot = (vs.take k).map slot ++ (vs.drop k).map slot := by
      rw [← map_append, take_append_drop]
    have hfixed : fixedLen ((vs.take k).map slot) = short := by
      rw [fixedLen_of_forall fun s hs => hsizes s (by rw [hsplit]; exact mem_append_left _ hs),
        length_map, hk, hcount]
    have hlen : (layout ((vs.take k).map slot)).length = short := by
      rw [length_layout, hfixed, heapOf_inline fun s hs => hinline s (by
        rw [hsplit]; exact mem_append_left _ hs)]
      rfl
    have hfirst : At src (pos + width) (layout ((vs.take k).map slot)) := by
      rw [hsplit] at hright hinline
      exact hright.mono (layout_prefix_inline hinline)
    have hrun := unpackEach_elements (fun v hv => hembeds v (hsub v hv)) hm ⟨hsrc, hstop⟩ hfirst
      (by omega) unknown
    have hidle' : ∀ f ∈ (vs.take k).map effect, f (.exact unknown) = some (.exact unknown) := by
      exact forall_mem_map.mpr fun v hv => hidle v (hsub v hv) _ rfl
    rw [hfixed, hk, hlen, runEffects_idle hidle'] at hrun
    obtain ⟨r, hr, hmoves⟩ := hrun
    obtain ⟨hend', hknown, hunknown⟩ := hmoves.sees.eq_of_exact
    rw [hr]
    refine ⟨_, rfl, congrArg Val.list hmoves.val, ?_, ?_, ?_, hknown, hunknown⟩
    · dsimp only
      omega
    · dsimp only
      omega
    · dsimp only
      constructor
      · omega
      · nofun
  · rw [if_neg hmod, bne_iff_ne.mpr hmod]
    exact .error _

/-- An array is read. -/
theorem reads_array {tr : Traits}
    (hsize : fixedLen (vs.map slot) = elem.traits.fixedSize * vs.length) :
    Reads (.array tr elem vs.length) (layout (vs.map slot)) (.list (vs.map read))
      (fun u => runEffects (vs.map effect) (.exact u)) := by
  intro m src unknown pos stop hm hat hend hsrc hstop
  have hlayout := length_layout (vs.map slot)
  have hrun := unpackEach_elements hembeds hm ⟨hsrc, hstop⟩ hat hend unknown
  rw [hsize] at hlayout hrun
  obtain ⟨h₁, h₂, h₃⟩ := region_checks pos (elem.traits.fixedSize * vs.length)
    (by omega) hstop
  simp only [array, plain, base, h₁, h₂, h₃,
    Bool.or_false, Bool.and_false, Bool.not_false, require_true, ok_bind]
  refine Yields.map hrun fun r b hr => ⟨congrArg Val.list hr.val, ?_, hr.sees⟩
  exact (Nat.le_add_right _ _).trans hr.le

end

end

/-! ### Slots -/

section

variable {tr : Traits} {unpack : Mode → Bytes → Bool → Nat → Nat → Read (Val × Exit)}

/-- The slot of an object of a fixed size. -/
theorem embeds_inline (h : Reads (.base tr width cleared unpack) body v (some ∘ .exact))
    (hvar : tr.isVariableSize = false) :
    Embeds (.base tr width cleared unpack) (.inline body) v (fun a => some a.reset) := by
  intro m skip src endFixed endHeap hm hfits hle w stop a hw
  change Yields ((if tr.isVariableSize then _ else embeddedFixed unpack m src endFixed : Member) w)
    _ _
  rw [if_neg (by rw [hvar]; decide)]
  exact steps_fixed hfits hle h hm hw

/-- The slot of an empty container. -/
theorem embeds_empty (hvar : tr.isVariableSize = true) (h0 : tr.supports0Offset = true) :
    Embeds (.base tr width cleared unpack) (.word 0) cleared (fun a => some a.reset) := by
  intro m skip src endFixed endHeap hm hfits hle w stop a hw
  change Yields ((if tr.isVariableSize then
    embeddedVariable tr width cleared unpack m skip src endFixed endHeap else _ : Member) w) _ _
  rw [if_pos hvar]
  exact steps_empty hfits hle h0 hw

/-- The slot of an object behind an offset. -/
theorem embeds_pointer (h : Reads (.base tr width cleared unpack) body v object)
    (hvar : tr.isVariableSize = true) (hwidth : tr.supports0Offset = true → width ≤ body.length) :
    Embeds (.base tr width cleared unpack) (.pointer body) v
      (fun a => if looksEmpty tr width body then none else a.follow object) := by
  intro m skip src endFixed endHeap hm hfits hle w stop a hw
  change Yields ((if tr.isVariableSize then
    embeddedVariable tr width cleared unpack m skip src endFixed endHeap else _ : Member) w) _ _
  rw [if_pos hvar]
  exact steps_pointer hfits hle h hm hwidth hw

/-- The slot of an optional with an empty container. -/
theorem embeds_some_empty
    (helem : elem.embeddedVariableUnpack = embeddedVariable tr width cleared elem.unpack)
    (h0 : tr.supports0Offset = true) :
    Embeds (.optional elem) (.word 0) (.some cleared) (fun a => some a.reset) := by
  intro m skip src endFixed endHeap hm hfits hle
  have hinner : Steps (elem.embeddedVariableUnpack m skip src endFixed endHeap) src endFixed endHeap
      (.word 0) cleared (fun a => some a.reset) := by
    rw [helem]
    exact steps_empty hfits hle h0
  exact steps_some hfits hle hinner (.inl rfl)

end

/-- The slot of an optional on its own. -/
theorem reads_optional {effect : Sight → Option Sight} (h : Embeds (.optional elem) s v effect)
    (hs : IsOptionalSlot s) :
    Reads (.optional elem) (layout [s]) v (fun u => effect (.exact u)) := by
  intro m src unknown pos stop hm hat hend hsrc hstop
  have hlen : fixedLen [s] = 4 := hs.fixedLen
  have hlayout := length_layout [s]
  have hmeets := meets_layout hat hend unknown
  rw [hlen] at hlayout hmeets
  have hnext : u32 (pos + 4) = pos + 4 := u32_of_lt (by omega)
  have hroom : decide (sub32 stop pos < 4) = false := decide_room (by omega) hstop
  have hstep := @h m false src (pos + 4) stop hm ⟨hsrc, hstop⟩ (by omega) _ _ _ hmeets.head
  simp only [Unpacker.optional, hroom, Bool.and_false, Bool.not_false, require_true, ok_bind, hnext]
  refine Yields.map hstep fun r b hr => ⟨hr.val, ?_, ?_⟩
  · exact (Nat.le_add_right _ _).trans hr.le
  · have hheap : pos + (layout [s]).length = pos + 4 + s.heap.length := by
      rw [hlayout, heapOf, heapOf, append_nil]
      omega
    rw [hheap]
    exact hr.sees

/-- A variant is read, and its content up to the announced end. -/
theorem reads_variant {alternatives : List Unpacker} {i : Nat} (hp : alternatives[i]? = some p)
    (hi : i < 128) (h : Reads p body v object) :
    Reads (.variant alternatives) (UInt8.ofNat i :: (leBytes 4 body.length ++ body)) (.alt i v)
      (fun u => (object u).bind fun a => if a.lost then none else some (.exact a.unknown)) := by
  intro m src unknown pos stop hm hat hend hsrc hstop
  rw [length_cons, length_append, length_leBytes] at hend ⊢
  have htag : At src pos (leBytes 1 i) := hat.mono (prefix_append [UInt8.ofNat i] _)
  have hrest : At src (pos + 1) (leBytes 4 body.length ++ body) := by
    rw [← singleton_append] at hat
    exact hat.right
  have h₁ := unpackNumeric_at m false htag (by omega) (by omega) hsrc hstop
  have h₂ := unpackNumeric_at m false hrest.left (by omega) (by omega) hsrc hstop
  have h₃ : u32 (pos + 1) = pos + 1 := u32_of_lt (by omega)
  have h₄ : u32 (pos + 1 + 4) = pos + 1 + 4 := u32_of_lt (by omega)
  obtain ⟨h₅, h₇, h₈⟩ := region_checks (pos + 1 + 4) body.length (by omega) hstop
  have h₆ : ¬0x80 ≤ i := by omega
  simp only [variant, plain, base, h₁, h₂, h₃, h₄, h₅, h₆, h₇, h₈,
    decide_false, Bool.or_false, Bool.not_false, require_true, ok_bind, hp, hm, Bool.true_and]
  have hobject := @h m src unknown (pos + 1 + 4) (pos + 1 + 4 + body.length) hm (at_body hrest)
    (le_rfl) (by omega) (by omega)
  refine Yields.bind hobject fun r a hr => ?_
  have hlost : (r.2.known && r.2.pos != pos + 1 + 4 + body.length) = a.lost := by
    rw [Bool.and_comm, bne_comm]
    exact hr.sees.ne_and_known
  rw [hlost]
  cases a.lost with
  | true => exact .error _
  | false =>
    refine ⟨_, rfl, congrArg (Val.alt i) hr.val, ?_, ?_⟩
    · dsimp only
      omega
    · rw [hr.sees.unknown]
      have hend' : pos + (4 + body.length + 1) = pos + 1 + 4 + body.length := by omega
      rw [hend']
      exact Sight.exact_sees _ _

/-! ### Structs and tuples -/

/-- A verifying walk over a member inside of a fixed region that was checked as a whole. -/
def Checks (p : Unpacker) (s : Slot) (v : Val) (effect : Sight → Option Sight) : Prop :=
  ∀ ⦃m : Mode⦄ ⦃src : Bytes⦄ ⦃endFixed endHeap : Nat⦄, m.verify = true →
    Fits src endHeap → endFixed ≤ endHeap →
    Steps (p.checked m src endFixed endHeap) src endFixed endHeap s v effect

section

variable {effect : Sight → Option Sight}

/-- A copied member is not verified, and leaves the walk's knowledge alone. -/
theorem checks_memcpy {tr : Traits} {ofRaw : Bytes → Val} (hvar : tr.isVariableSize = false)
    (hmem : tr.isMemcpy = true) (hlen : body.length = tr.fixedSize) :
    Checks (.memcpy tr ofRaw) (.inline body) (ofRaw body) some := by
  intro m src endFixed endHeap hm hfits hle w stop a hw
  have hvar' : ¬(memcpy tr ofRaw).traits.isVariableSize = true := by
    rw [Bool.not_eq_true]
    exact hvar
  have hmem' : (memcpy tr ofRaw).traits.isMemcpy = true := hmem
  rw [checked, if_neg hvar', if_pos hmem', memcpy_unpack hlen hw.slot hw.fixed
    (hle.trans hfits.le) (hle.trans_lt hfits.lt)]
  exact .ok ⟨rfl, rfl, le_rfl, hw.sees⟩

/-- A member of a fixed size in a region that was checked. -/
theorem checks_fixed (hvar : p.traits.isVariableSize = false) (hmem : p.traits.isMemcpy = false)
    (h : Reads p body v (some ∘ .exact)) : Checks p (.inline body) v (fun a => some a.reset) := by
  intro m src endFixed endHeap hm hfits hle w stop a hw
  rw [checked, if_neg (by rw [hvar]; decide), if_neg (by rw [hmem]; decide)]
  exact steps_fixed hfits hle h hm hw

end

section

variable {xs : List Present} {src : Bytes} {stop : Nat} {header : Option Nat} {extra : List Slot}

/-- The header of a fixed region, if there is one. -/
def headerBytes (header : Option Nat) (size : Nat) : Bytes :=
  match header with
  | none => []
  | some width => leBytes width size

/-- A header that can hold the size it announces; without one the size is that of the type. -/
def HeaderFits (header : Option Nat) (size announced : Nat) : Prop :=
  match header with
  | none => announced = size
  | some width => size ≤ announced ∧ announced < 256 ^ width

private theorem unpackHeader_at {announced : Nat} (m : Mode)
    (hat : At src pos (headerBytes header announced)) (hfits : HeaderFits header size announced)
    (hlt : announced < 2 ^ 32) (hend : pos + (headerBytes header announced).length ≤ stop)
    (hsrc : stop ≤ src.length) (hstop : stop < 2 ^ 32) :
    unpackHeader m header size src pos stop =
      .ok (announced, pos + (headerBytes header announced).length) := by
  cases header with
  | none =>
    have heq : announced = size := hfits
    rw [heq]
    rfl
  | some width =>
    change pos + (leBytes width announced).length ≤ stop at hend
    change _ = Except.ok (announced, pos + (leBytes width announced).length)
    rw [length_leBytes] at hend ⊢
    have hread := unpackNumeric_at m false hat hfits.2 hend hsrc hstop
    have hsmall : ¬0xffffffff < announced := by omega
    have hnext : u32 (pos + width) = pos + width := u32_of_lt (by omega)
    rw [unpackHeader, hread]
    simp only [ok_bind, hsmall, decide_false, Bool.and_false, Bool.not_false, require_true,
      u32_of_lt hlt, hnext]
    rfl

section

variable (hchecks : ∀ x ∈ xs, Checks x.reader x.slot x.val x.effect)

include hchecks

/-- The members of a struct, which were checked as a whole. -/
theorem unpackEach_checked {m : Mode} {endFixed endHeap : Nat} {w : Walk}
    (hm : m.verify = true) (hfits : Fits src endHeap) (hle : endFixed ≤ endHeap)
    (hw : Meets src endFixed endHeap (xs.map slot) w stop a) :
    Yields (unpackEach ((xs.map reader).map fun p => p.checked m src endFixed endHeap) w)
      (runEffects (xs.map effect) a)
      (Moves (xs.map val) w (fixedLen (xs.map slot))
        (stop + (heapOf (xs.map slot)).length)) := by
  rw [map_map]
  exact unpackEach_steps
    (fun x => ⟨x.reader.checked m src endFixed endHeap, x.slot, x.val, x.effect⟩)
    (fun x hx => hchecks x hx hm hfits hle) hw

/-- A struct of a fixed size is read. -/
theorem reads_fixedStruct {tr : Traits} (hinline : ∀ s ∈ xs.map slot, s.IsInline)
    (hidle : ∀ x ∈ xs, ∀ a : Sight, a.known = true → x.effect a = some a)
    (hsize : fixedLen (xs.map slot) = tr.fixedSize) :
    Reads (.fixedStruct tr (xs.map reader)) (layout (xs.map slot))
      (.list (xs.map val)) (some ∘ .exact) := by
  intro m src unknown pos stop hm hat hend hsrc hstop
  have hheap := heapOf_inline hinline
  have hlen : (layout (xs.map slot)).length = tr.fixedSize := by
    rw [length_layout, hheap, hsize]
    rfl
  have hroom : decide (sub32 stop pos < tr.fixedSize) = false := decide_room (by omega) hstop
  -- the heap position of the walk is never used: it is as good as any before the end
  have hsees : Sight.Sees ⟨true, decide (pos ≠ stop), unknown⟩ stop pos true unknown := by
    refine ⟨by omega, ?_, rfl, rfl⟩
    simp
  have hmeets : Meets src stop stop (xs.map slot) ⟨pos, pos, true, unknown⟩ stop
      ⟨true, decide (pos ≠ stop), unknown⟩ := by
    refine ⟨hsees, ?_, ?_, ?_, le_rfl, ?_⟩
    · rw [fixedOf_inline hinline _ (fixedLen (xs.map slot))]
      exact hat.left
    · rw [hheap]
      exact At.nil
    · rw [hsize, ← hlen]
      exact hend
    · rw [hheap]
      exact le_rfl
  have hrun := unpackEach_checked hchecks hm ⟨hsrc, hstop⟩ (le_rfl) hmeets
  have hknown : ∀ f ∈ xs.map effect, f ⟨true, decide (pos ≠ stop), unknown⟩ =
      some ⟨true, decide (pos ≠ stop), unknown⟩ := by
    exact forall_mem_map.mpr fun x hx => hidle x hx _ rfl
  rw [runEffects_idle hknown] at hrun
  obtain ⟨r, hr, hmoves⟩ := hrun
  have hfixed : r.2.fixedPos = pos + (layout (xs.map slot)).length := by
    rw [hmoves.fixed, hlen, hsize]
  simp only [fixedStruct, plain, base, hroom,
    Bool.and_false, Bool.not_false, require_true, ok_bind, hr]
  refine .ok ⟨congrArg Val.list hmoves.val, ?_, ?_⟩
  · dsimp only
    omega
  · rw [hfixed, hmoves.sees.known, hmoves.sees.unknown]
    exact Sight.exact_sees _ _

/-- A struct without trailing optionals is read, and its unknown fields are skipped. -/
theorem reads_untrimmed (hextra : ∀ s ∈ extra, IsOptionalSlot s)
    (hsize : fixedLen (xs.map slot) = size)
    (hheader : HeaderFits header size (fixedLen (xs.map slot ++ extra))) :
    Reads (.untrimmed header size (xs.map reader))
      (headerBytes header (fixedLen (xs.map slot ++ extra)) ++
        layout (xs.map slot ++ extra))
      (.list (xs.map val))
      (fun u => (runEffects (xs.map effect) (.exact u)).bind (finish extra)) := by
  intro m src unknown pos stop hm hat hend hsrc hstop
  have hsplit := fixedLen_append (xs.map slot) extra
  have hlayout := length_layout (xs.map slot ++ extra)
  rw [length_append] at hend ⊢
  have hunpack := unpackHeader_at m hat.left hheader (by omega) (by omega) hsrc hstop
  have hmeets : Meets src _ stop _ _ _ _ := meets_layout hat.right (by omega) unknown
  rw [← add_assoc]
  generalize hstart : pos + (headerBytes header _).length = start at *
  generalize hn : fixedLen (xs.map slot ++ extra) = n at *
  obtain ⟨h₁, h₂, h₃⟩ := region_checks start n (by omega) hstop
  have h₄ : ¬n < size := by omega
  simp only [untrimmed, plain, base, hunpack, ok_bind, h₁, h₂, h₃, h₄,
    decide_false, Bool.or_false, Bool.and_false, Bool.not_false, require_true]
  refine Yields.bind (unpackEach_checked hchecks hm ⟨hsrc, hstop⟩ (by omega) hmeets.left)
    fun r b hr => ?_
  have hrest := hmeets.right hr
  have hpos := hr.fixed
  have hle := hr.le
  dsimp only at hpos hle
  refine Yields.map (finishMembers_steps hm hextra ⟨hsrc, hstop⟩ true hrest (by omega) hle)
    fun r' c hr' => ⟨congrArg Val.list hr.val, ?_, ?_⟩
  · have hle' := hr'.le
    dsimp only
    omega
  · have hsees := hr'.sees
    rw [add_assoc (start + n), ← length_append, ← heapOf_append, add_assoc, ← hlayout] at hsees
    exact hsees

end

private theorem lastHasValue_append (last : Bool) (ss ts : List Slot) :
    lastHasValue last (ss ++ ts) = lastHasValue (lastHasValue last ss) ts := by
  induction ss generalizing last with
  | nil => rfl
  | cons s ss ih => exact ih _

/-- A struct with trailing optionals, or a tuple, is read. -/
theorem reads_trimmed {byValue : Mode → Bool} {absent : List Unpacker} (hmark : ∀ x ∈ xs, x.Marked)
    (hembeds : ∀ x ∈ xs, Embeds x.reader x.slot x.val x.effect)
    (habsent : ∀ p ∈ absent, p.traits.isOptional = true) (hextra : ∀ s ∈ extra, IsOptionalSlot s)
    (hone : absent ≠ [] → extra = [])
    (hlast : lastHasValue true (xs.map slot ++ extra) = true)
    (hfits : fixedLen (xs.map slot ++ extra) < 256 ^ width) :
    Reads (.trimmed width byValue (xs.map reader ++ absent))
      (headed width (xs.map slot ++ extra))
      (.list (xs.map val ++ absent.map fun _ => .nullopt))
      (fun u => (runEffects (xs.map effect) (.exact u)).bind (finish extra)) := by
  intro m src unknown pos stop hm hat hend hsrc hstop
  have hsplit := fixedLen_append (xs.map slot) extra
  have hlayout := length_layout (xs.map slot ++ extra)
  rw [headed, length_append, length_leBytes] at hend ⊢
  have hfits' : HeaderFits (some width) 0 (fixedLen (xs.map slot ++ extra)) :=
    ⟨Nat.zero_le _, hfits⟩
  have hlen : (headerBytes (some width) (fixedLen (xs.map slot ++ extra))).length = width :=
    length_leBytes _ _
  have hunpack := unpackHeader_at m hat.left hfits' (by omega) (by omega) hsrc hstop
  have hmeets : Meets src _ stop _ _ _ _ := meets_layout (at_body hat) (by omega) unknown
  rw [hlen] at hunpack
  rw [← add_assoc]
  generalize hstart : pos + width = start at *
  generalize hn : fixedLen (xs.map slot ++ extra) = n at *
  obtain ⟨h₁, h₂, h₃⟩ := region_checks start n (by omega) hstop
  simp only [trimmed, plain, base, hunpack, ok_bind, h₁, h₂, h₃,
    Bool.or_false, Bool.and_false, Bool.not_false, require_true]
  refine Yields.bind (unpackTrimmed_steps hmark
    (fun x hx => hembeds x hx hm ⟨hsrc, hstop⟩ (by omega)) ⟨hsrc, hstop⟩ habsent true hmeets.left
    ?_) fun r b hr => ?_
  · intro hne
    rw [hone hne, fixedLen] at hsplit
    dsimp only
    omega
  have hrest := hmeets.right hr.moves
  have hpos := hr.moves.fixed
  have hle := hr.moves.le
  dsimp only at hpos hle hrest
  have hfinish := finishMembers_steps hm hextra ⟨hsrc, hstop⟩ r.2.2 hrest (by omega) hle
  have hvalue : lastHasValue r.2.2 extra = true := by
    rw [hr.last, ← lastHasValue_append, hlast]
  refine Yields.seq hfinish fun r' c hr' => ⟨(.list r.1, r'.1), ?_, ?_⟩
  · rw [hr'.last, hvalue, Bool.not_true, Bool.and_false]
    rfl
  · refine ⟨congrArg Val.list hr.moves.val, ?_, ?_⟩
    · have hle' := hr'.le
      dsimp only
      omega
    · have hsees := hr'.sees
      rw [add_assoc (start + n), ← length_append, ← heapOf_append, add_assoc, ← hlayout] at hsees
      exact hsees

end

end PsiServe.Frac
