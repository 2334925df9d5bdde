import PsiServe.Ssz.Decode

/-!
# Which accepted bytes are encodings

SSZ gives a value one encoding. `from_ssz` (`from_ssz.hpp:62–415`) accepts more: it checks that
bytes suffice for a value of a fixed size and not that none are left, it checks that the offsets of
a container do not lie below its header and not that the first one ends it, and it looks for the
delimiter of a bit list below any number of zero bytes. `Tight` says that nothing of this occurs,
and the bytes that are encoded back to themselves are exactly the tight ones.
-/

namespace PsiServe.Ssz

open Base List
open Frac (Val)

/-! ### Bytes that leave nothing unread -/

/-- The shape of a vector: as many elements as fit, or as the first offset leaves room for. -/
def vectorShape (fixedSize : Option Nat) (bs : Bytes) : List (Option Nat) :=
  match fixedSize with
  | some size => replicate (bs.length / size) (some size)
  | none => replicate (if bs.length = 0 then 0 else leValue (window bs 0 4) / 4) none

/-- The first object stands right behind the head; without objects nothing does. -/
def NoGap (bs : Bytes) (sh : List (Option Nat)) : Prop :=
  (offsets 4 bs 0 sh).headD bs.length = headLen 4 sh

instance (bs : Bytes) (sh : List (Option Nat)) : Decidable (NoGap bs sh) :=
  inferInstanceAs (Decidable (_ = _))

mutual

/-- No bytes follow a value of a fixed size, no zero bytes follow the delimiter of a bit list, and
there is no gap before the first object of a table. -/
def Tight : Ty → Bytes → Prop
  | .bool, bs => bs.length = 1
  | .num size, bs => bs.length = size
  | .uint256, bs => bs.length = 32
  | .bitvector n, bs | .bitset n, bs => bs.length = (n + 7) / 8
  | .bitlist _, bs => bs.getLast? ≠ some 0
  | .string, _ | .boundedString _, _ => True
  | .vector elem, bs | .boundedList elem _, bs =>
    NoGap bs (vectorShape elem.fixedSize bs) ∧
      ∀ p ∈ cut 4 bs (vectorShape elem.fixedSize bs), Tight elem p.bytes
  | .array elem n, bs =>
    NoGap bs (replicate n elem.fixedSize) ∧
      ∀ p ∈ cut 4 bs (replicate n elem.fixedSize), Tight elem p.bytes
  | .optional elem, bs => bs.headD 0 ≠ 0 → Tight elem bs.tail
  | .struct _ _ members, bs =>
    NoGap bs members.shape ∧ TightMembers members (cut 4 bs members.shape)

def TightMembers : Tys → List Part → Prop
  | .cons t ts, p :: ps => Tight t p.bytes ∧ TightMembers ts ps
  | _, _ => True

end

mutual

instance decidableTight : ∀ t bs, Decidable (Tight t bs)
  | .bool, bs => inferInstanceAs (Decidable (bs.length = 1))
  | .num size, bs => inferInstanceAs (Decidable (bs.length = size))
  | .uint256, bs => inferInstanceAs (Decidable (bs.length = 32))
  | .bitvector n, bs | .bitset n, bs => inferInstanceAs (Decidable (bs.length = (n + 7) / 8))
  | .bitlist _, bs => inferInstanceAs (Decidable (bs.getLast? ≠ some 0))
  | .string, _ | .boundedString _, _ => inferInstanceAs (Decidable True)
  | .vector elem, bs | .boundedList elem _, bs =>
    have := fun bs => decidableTight elem bs
    inferInstanceAs (Decidable (NoGap bs (vectorShape elem.fixedSize bs) ∧
      ∀ p ∈ cut 4 bs (vectorShape elem.fixedSize bs), Tight elem p.bytes))
  | .array elem n, bs =>
    have := fun bs => decidableTight elem bs
    inferInstanceAs (Decidable (NoGap bs (replicate n elem.fixedSize) ∧
      ∀ p ∈ cut 4 bs (replicate n elem.fixedSize), Tight elem p.bytes))
  | .optional elem, bs =>
    have := decidableTight elem bs.tail
    inferInstanceAs (Decidable (bs.headD 0 ≠ 0 → Tight elem bs.tail))
  | .struct _ _ members, bs =>
    have := decidableTightMembers members (cut 4 bs members.shape)
    inferInstanceAs (Decidable (NoGap bs members.shape ∧
      TightMembers members (cut 4 bs members.shape)))

instance decidableTightMembers : ∀ ts ps, Decidable (TightMembers ts ps)
  | .cons t ts, p :: ps =>
    have := decidableTight t p.bytes
    have := decidableTightMembers ts ps
    inferInstanceAs (Decidable (Tight t p.bytes ∧ TightMembers ts ps))
  | .cons _ _, [] | .nil, [] | .nil, _ :: _ => inferInstanceAs (Decidable True)

end

/-! ### Reading a table -/

/-- The parts of a table that were decoded to these values. -/
structure ReadTable (decode : Bytes → Read Val) (bs : Bytes) (sh : List (Option Nat))
    (vs : List Val) : Prop where
  header : headLen 4 sh ≤ bs.length
  ascends : Ascends 0 (offsets 4 bs 0 sh) bs.length
  read : List.Forall₂ (fun p v => decode p.bytes = .ok v) (cut 4 bs sh) vs

variable {n : Nat}

section

variable {decode : Bytes → Read Val} {src : Bytes} {vs : List Val} {size : Nat} {message : String}
  {offs : List Nat} {fixedSize : Option Nat}

private theorem fromSszInline_ok {pos : Nat} (h : fromSszInline decode src size pos n = .ok vs)
    (offs : List Nat) :
    List.Forall₂ (fun p v => decode p.bytes = .ok v)
      (pieces 4 src pos (replicate n (some size)) offs) vs := by
  induction n generalizing pos vs with
  | zero =>
    cases h
    exact .nil
  | succ n ih =>
    obtain ⟨v, vs, rfl, hv, hvs⟩ := bind_cons_inv h
    exact .cons hv (ih hvs)

private theorem fromSszObjects_ok (h : fromSszObjects message decode src offs = .ok vs)
    (pos : Nat) : Ascends (offs.headD src.length) offs src.length ∧
      List.Forall₂ (fun p v => decode p.bytes = .ok v)
        (pieces 4 src pos (replicate offs.length none) offs) vs := by
  induction offs generalizing pos vs with
  | nil =>
    cases h
    exact ⟨le_rfl, .nil⟩
  | cons beg offs ih =>
    obtain ⟨hrange, h⟩ := check_bind_eq_ok.mp h
    obtain ⟨v, vs, rfl, hv, hvs⟩ := bind_cons_inv h
    have hle : beg ≤ offs.headD src.length := by
      simp only [Bool.and_eq_true, decide_eq_true_eq] at hrange
      exact hrange.1
    obtain ⟨hasc, hread⟩ := ih hvs (pos + 4)
    exact ⟨⟨le_rfl, hasc.mono hle⟩, .cons hv hread⟩

/-- Elements of a fixed size stand one after the other. -/
theorem ReadTable.inline (hlen : n * size ≤ src.length)
    (h : fromSszInline decode src size 0 n = .ok vs) :
    ReadTable decode src (replicate n (some size)) vs where
  header := by rwa [headLen_replicate, Option.getD_some]
  ascends := by
    rw [offsets_of_inline (by simp)]
    exact Nat.zero_le _
  read := fromSszInline_ok h _

private theorem ReadTable.objects (hlen : n * 4 ≤ src.length)
    (h : fromSszObjects message decode src (offsets 4 src 0 (replicate n none)) = .ok vs) :
    ReadTable decode src (replicate n none) vs := by
  obtain ⟨hasc, hread⟩ := fromSszObjects_ok h 0
  rw [length_offsets, countP_replicate, if_pos (by rfl)] at hread
  exact ⟨by rwa [headLen_replicate, Option.getD_none], hasc.mono (Nat.zero_le _), hread⟩

private theorem fromSszArray_ok (h : fromSszArray decode fixedSize n src = .ok vs) :
    ReadTable decode src (replicate n fixedSize) vs := by
  unfold fromSszArray at h
  split at h
  next hn =>
    subst hn
    cases h
    exact ⟨Nat.zero_le _, Nat.zero_le _, .nil⟩
  · cases fixedSize with
    | some size =>
      obtain ⟨hlen, h⟩ := check_bind_eq_ok.mp h
      exact .inline (of_decide_eq_true hlen) h
    | none =>
      obtain ⟨hlen, h⟩ := check_bind_eq_ok.mp h
      exact .objects (of_decide_eq_true hlen) h

private theorem fromSszVector_ok (h : fromSszVector decode fixedSize src = .ok vs) :
    ReadTable decode src (vectorShape fixedSize src) vs := by
  unfold fromSszVector at h
  split at h
  · cases h
  next size _ =>
    obtain ⟨_, h⟩ := check_bind_eq_ok.mp h
    exact .inline (Nat.div_mul_le_self _ _) h
  · rw [vectorShape]
    split at h
    next hempty =>
      cases h
      rw [if_pos hempty]
      exact ⟨Nat.zero_le _, Nat.zero_le _, .nil⟩
    next hempty =>
      rw [if_neg hempty]
      obtain ⟨_, h⟩ := check_bind_eq_ok.mp h
      obtain ⟨_, h⟩ := check_bind_eq_ok.mp h
      obtain ⟨hlen, h⟩ := check_bind_eq_ok.mp h
      exact .objects (of_decide_eq_true hlen) h

private theorem checkOffsets_ok {prev stop : Nat} (hprev : prev ≤ stop)
    (h : checkOffsets prev stop offs = .ok ()) : Ascends prev offs stop := by
  induction offs generalizing prev with
  | nil => exact hprev
  | cons o offs ih =>
    obtain ⟨hrange, h⟩ := check_bind_eq_ok.mp h
    simp only [Bool.and_eq_true, decide_eq_true_eq] at hrange
    exact ⟨hrange.1, ih hrange.2 h⟩

end

/-! ### Writing back what was read -/

variable {fixedSize : Option Nat}

/-- A decoded part is written back as it was read when its bytes are. -/
theorem part_eq_iff {bytes : Bytes} {p : Part} (hshape : p.shape = fixedSize) :
    part fixedSize bytes = p ↔ bytes = p.bytes := by
  subst hshape
  cases p with
  | inline bs => exact Part.inline.injEq _ _ ▸ .rfl
  | object bs => exact Part.object.injEq _ _ ▸ .rfl

/-- What decoding and encoding one type have to do with each other: a value that was read is written
in as many bytes as its type takes, and back to what it was read from when that meets `P`. -/
def Faithful (fixedSize : Option Nat) (decode : Bytes → Read Val) (encode : Val → Bytes)
    (P : Bytes → Prop) : Prop :=
  ∀ bs v, bs.length < 2 ^ 32 → decode bs = .ok v →
    (∀ n, fixedSize = some n → (encode v).length = n) ∧ (encode v = bs ↔ P bs)

section

variable {decode : Bytes → Read Val} {encode : Val → Bytes} {P : Bytes → Prop} {vs : List Val}
  {ps : List Part} {bs : Bytes}

section

variable (hcodec : Faithful fixedSize decode encode P)

include hcodec

private theorem Faithful.shape_parts
    (hread : List.Forall₂ (fun p v => decode p.bytes = .ok v) ps vs)
    (hlen : ∀ p ∈ ps, p.bytes.length < 2 ^ 32) :
    (vs.map fun x => part fixedSize (encode x)).map Part.shape = replicate ps.length fixedSize := by
  induction hread with
  | nil => rfl
  | cons hv _ ih =>
    rw [forall_mem_cons] at hlen
    rw [map_cons, map_cons, ih hlen.2, shape_part (hcodec _ _ hlen.1 hv).1]
    rfl

private theorem Faithful.parts_eq_iff
    (hread : List.Forall₂ (fun p v => decode p.bytes = .ok v) ps vs)
    (hlen : ∀ p ∈ ps, p.bytes.length < 2 ^ 32) (hshape : ∀ p ∈ ps, p.shape = fixedSize) :
    (vs.map fun x => part fixedSize (encode x)) = ps ↔ ∀ p ∈ ps, P p.bytes := by
  induction hread with
  | nil => simp
  | cons hv _ ih =>
    rw [forall_mem_cons] at hlen hshape
    rw [map_cons, cons.injEq, ih hlen.2 hshape.2, part_eq_iff hshape.1,
      (hcodec _ _ hlen.1 hv).2, forall_mem_cons]

/-- A table of elements. -/
theorem Faithful.table {n : Nat} (hlen : bs.length < 2 ^ 32)
    (h : ReadTable decode bs (replicate n fixedSize) vs) :
    (∀ m, fixedSize = some m →
      (Base.table 4 (vs.map fun x => part fixedSize (encode x))).length = n * m) ∧
    (Base.table 4 (vs.map fun x => part fixedSize (encode x)) = bs ↔
      NoGap bs (replicate n fixedSize) ∧ ∀ p ∈ cut 4 bs (replicate n fixedSize), P p.bytes) := by
  have hcut : (cut 4 bs (replicate n fixedSize)).map Part.shape =
      replicate n fixedSize := shape_pieces (by have := h.header; omega)
  have hcount : (cut 4 bs (replicate n fixedSize)).length = n := by
    simpa using congrArg length hcut
  have hsmall : ∀ p ∈ cut 4 bs (replicate n fixedSize), p.bytes.length < 2 ^ 32 :=
    fun p hp => (length_le_of_mem_pieces hp).trans_lt hlen
  have hshape : ∀ p ∈ cut 4 bs (replicate n fixedSize), p.shape = fixedSize := by
    intro p hp
    have hmem := mem_map_of_mem (f := Part.shape) hp
    rw [hcut] at hmem
    exact eq_of_mem_replicate hmem
  have hparts := hcodec.shape_parts h.read hsmall
  rw [hcount] at hparts
  constructor
  · rintro m rfl
    rw [length_table, hparts, tails_of_inline (by rw [hparts]; simp), headLen_replicate,
      Option.getD_some, length_nil, add_zero]
  · rw [table_eq_iff hparts h.header h.ascends hlen, hcodec.parts_eq_iff h.read hsmall hshape]
    rfl

/-- A vector has no fixed size. -/
theorem Faithful.vector (hlen : bs.length < 2 ^ 32)
    (h : fromSszVector decode fixedSize bs = .ok vs) :
    Base.table 4 (vs.map fun x => part fixedSize (encode x)) = bs ↔
      NoGap bs (vectorShape fixedSize bs) ∧
        ∀ p ∈ cut 4 bs (vectorShape fixedSize bs), P p.bytes := by
  have hread := fromSszVector_ok h
  obtain ⟨n, hn⟩ : ∃ n, vectorShape fixedSize bs = replicate n fixedSize := by
    cases fixedSize with
    | some size | none => exact ⟨_, rfl⟩
  rw [hn] at hread ⊢
  exact (hcodec.table hlen hread).2

end

end

private theorem faithful_copy (size : Nat) (message : String) :
    Faithful (some size) (fromSszCopy size message)
      (fun v => leBytes size v.number) (fun bs => bs.length = size) := by
  intro bs v _ h
  obtain ⟨hle, h⟩ := check_bind_eq_ok.mp h
  cases h
  have htake : (bs.take size).length = size := by
    rw [length_take, Nat.min_eq_left (of_decide_eq_true hle)]
  have hback : leBytes size (leValue (bs.take size)) = bs.take size := by
    have h := leBytes_leValue (bs.take size)
    rwa [htake] at h
  refine ⟨fun n hn => by rw [length_leBytes, Option.some.inj hn], ?_⟩
  change leBytes size (leValue (bs.take size)) = bs ↔ bs.length = size
  rw [hback]
  constructor
  · intro h
    rw [h] at htake
    exact htake
  · intro h
    exact take_of_length_le h.le

private theorem faithful_bool (raw : Bool) :
    Faithful (some 1) (fromSsz raw .bool) (toSsz raw .bool) (fun bs => bs.length = 1) := by
  intro bs v _ h
  obtain ⟨hle, h⟩ := check_bind_eq_ok.mp h
  obtain ⟨hbool, h⟩ := check_bind_eq_ok.mp h
  cases h
  cases bs with
  | nil => exact absurd hle (by decide)
  | cons b bs =>
    have hbyte : toSsz raw .bool (.bool b) = [b] := by
      cases raw with
      | true => rfl
      | false =>
        have hb : b.toNat ≤ 1 := UInt8.le_iff_toNat_le.mp (of_decide_eq_true hbool)
        by_cases hzero : b = 0
        · subst hzero
          rfl
        · have hone : b = 1 := by
            apply UInt8.toNat_inj.mp
            have := mt UInt8.toNat_inj.mp hzero
            change b.toNat ≠ 0 at this
            change b.toNat = 1
            omega
          subst hone
          rfl
    refine ⟨fun n hn => by rw [headD_cons, hbyte, ← Option.some.inj hn]; rfl, ?_⟩
    rw [headD_cons, hbyte]
    simp [eq_comm]

private theorem faithful_bitlist (maxN : Nat) :
    Faithful none (fromSszBitlist maxN) (fun v => bitlistBytes v.bitList)
      (fun bs => bs.getLast? ≠ some 0) := by
  intro bs v _ h
  obtain ⟨_, h⟩ := check_bind_eq_ok.mp h
  obtain ⟨hfound, h⟩ := check_bind_eq_ok.mp h
  obtain ⟨_, h⟩ := check_bind_eq_ok.mp h
  cases h
  have hne : leValue bs ≠ 0 := by
    simp only [Bool.and_eq_true, bne_iff_ne] at hfound
    exact hfound.2
  exact ⟨fun n hn => (nomatch hn), packBits_delimited_iff hne⟩

/-- The parts of members of a fixed size stand in the head, which is the whole encoding. -/
theorem headLen_shape {ts : Tys} (h : ts.fixedSize = some n) :
    headLen 4 ts.shape = n ∧ none ∉ ts.shape := by
  induction ts using Tys.list_induction generalizing n with
  | nil => exact ⟨Option.some.inj h, by simp [Tys.shape]⟩
  | cons t ts ih =>
    rw [Tys.fixedSize] at h
    split at h
    next m k hm hk =>
      obtain ⟨hlen, hnone⟩ := ih hk
      cases h
      rw [Tys.shape, hm, headLen, hlen]
      exact ⟨rfl, by simp [hnone]⟩
    · cases h

mutual

private theorem faithful : ∀ (t : Ty) (raw : Bool),
    Faithful t.fixedSize (fromSsz raw t) (toSsz raw t) (Tight t)
  | .bool, raw => faithful_bool raw
  | .num size, _ => faithful_copy size _
  | .uint256, _ => faithful_copy 32 _
  | .bitvector n, _ | .bitset n, _ => faithful_copy ((n + 7) / 8) _
  | .bitlist maxN, _ => faithful_bitlist maxN
  | .string, _ => by
    intro bs v _ h
    cases h
    exact ⟨fun n hn => (nomatch hn), iff_of_true rfl trivial⟩
  | .boundedString n, _ => by
    intro bs v _ h
    obtain ⟨_, h⟩ := check_bind_eq_ok.mp h
    cases h
    exact ⟨fun n hn => (nomatch hn), iff_of_true rfl trivial⟩
  | .vector elem, raw => by
    intro bs v hlen h
    obtain ⟨vs, hvs, h⟩ := bind_eq_ok.mp h
    cases h
    exact ⟨fun n hn => (nomatch hn), (faithful elem (raw || elem.memcpyOk)).vector hlen hvs⟩
  | .boundedList elem n, raw => by
    intro bs v hlen h
    obtain ⟨vs, hvs, h⟩ := bind_eq_ok.mp h
    obtain ⟨_, h⟩ := check_bind_eq_ok.mp h
    cases h
    exact ⟨fun n hn => (nomatch hn), (faithful elem (raw || elem.memcpyOk)).vector hlen hvs⟩
  | .array elem n, raw => by
    intro bs v hlen h
    obtain ⟨vs, hvs, h⟩ := bind_eq_ok.mp h
    cases h
    obtain ⟨hsize, hiff⟩ :=
      (faithful elem (raw || elem.memcpyOk)).table hlen (fromSszArray_ok hvs)
    refine ⟨fun m hm => ?_, hiff⟩
    obtain ⟨k, hk, rfl⟩ := Option.map_eq_some_iff.mp hm
    exact hsize k hk
  | .optional elem, raw => by
    intro bs v hlen h
    refine ⟨fun n hn => (nomatch hn), ?_⟩
    cases bs with
    | nil => cases h
    | cons selector rest =>
      rw [fromSsz] at h
      split at h
      next hnone =>
        subst hnone
        obtain ⟨hempty, h⟩ := check_bind_eq_ok.mp h
        cases h
        obtain rfl := eq_nil_of_length_eq_zero (of_decide_eq_true hempty)
        exact iff_of_true rfl (fun h => absurd rfl h)
      next hsome =>
        obtain ⟨hone, h⟩ := check_bind_eq_ok.mp h
        obtain rfl := of_decide_eq_true hone
        obtain ⟨x, hx, h⟩ : ∃ x, fromSsz raw elem rest = .ok x ∧ Except.ok (.some x) = .ok v :=
          bind_eq_ok.mp h
        cases h
        have hrest := (faithful elem raw rest x
          (lt_trans (Nat.lt_succ_self rest.length) hlen) hx).2
        rw [toSsz, cons.injEq, hrest]
        exact ⟨fun h _ => h.2, fun h => ⟨rfl, h hsome⟩⟩
  | .struct _ size members, raw => by
    intro bs v hlen h
    obtain ⟨hheader, h⟩ := check_bind_eq_ok.mp h
    obtain ⟨_, hoffsets, h⟩ := bind_eq_ok.mp h
    obtain ⟨vs, hvs, h⟩ := bind_eq_ok.mp h
    cases h
    have hheader := of_decide_eq_true hheader
    have hcut : (cut 4 bs members.shape).map Part.shape = members.shape :=
      shape_pieces (by omega)
    obtain ⟨hshape, hiff⟩ := faithful_members members (raw || memcpyLayout size members) hcut
      (fun p hp => (length_le_of_mem_pieces hp).trans_lt hlen) hvs
    constructor
    · intro n hn
      obtain ⟨hlen, hnone⟩ := headLen_shape hn
      change (table 4 (toSszMembers _ members vs)).length = n
      rw [length_table, hshape, tails_of_inline (by rwa [hshape]), hlen]
      rfl
    · change table 4 (toSszMembers _ members vs) = bs ↔ _
      rw [table_eq_iff hshape hheader (checkOffsets_ok hheader hoffsets) hlen, hiff]
      rfl

private theorem faithful_members : ∀ (ts : Tys) (raw : Bool) {ps : List Part} {vs : List Val},
    ps.map Part.shape = ts.shape → (∀ p ∈ ps, p.bytes.length < 2 ^ 32) →
    fromSszMembers raw ts ps = .ok vs →
    (toSszMembers raw ts vs).map Part.shape = ts.shape ∧
      (toSszMembers raw ts vs = ps ↔ TightMembers ts ps)
  | .nil, raw, ps, vs, hshape, hlen, h => by
    obtain rfl := map_eq_nil_iff.mp hshape
    cases h
    exact ⟨rfl, iff_of_true rfl trivial⟩
  | .cons t ts, raw, [], vs, hshape, hlen, h => nomatch hshape
  | .cons t ts, raw, p :: ps, vs, hshape, hlen, h => by
    obtain ⟨v, vs, rfl, hv, hvs⟩ := bind_cons_inv h
    rw [map_cons, Tys.shape, cons.injEq] at hshape
    rw [forall_mem_cons] at hlen
    obtain ⟨hsize, hone⟩ := faithful t raw p.bytes v hlen.1 hv
    obtain ⟨hrest, hall⟩ := faithful_members ts raw hshape.2 hlen.2 hvs
    constructor
    · rw [toSszMembers, map_cons, hrest, shape_part hsize]
      rfl
    · rw [toSszMembers, cons.injEq, part_eq_iff hshape.1, hone, hall]
      rfl

end

/-- Accepted bytes are the encoding of the value that was decoded when they are tight, and only
then. -/
theorem convertToSsz_convertFromSsz_iff (t : Ty) (bs : Bytes) (v : Val)
    (h : convertFromSsz t bs = .ok v) : convertToSsz t v = bs ↔ Tight t bs := by
  obtain ⟨hlen, h⟩ := check_bind_eq_ok.mp h
  exact (faithful t false bs v (of_decide_eq_true hlen) h).2

/-- A container with a number and a string, written without a gap. -/
theorem convertToSsz_convertFromSsz_tight :
    convertFromSsz (.struct false 40 (.cons (.num 2) (.cons .string .nil)))
        [7, 0, 6, 0, 0, 0, 104] = .ok (.list [.num 7, .string [104]]) ∧
      convertToSsz (.struct false 40 (.cons (.num 2) (.cons .string .nil)))
        (.list [.num 7, .string [104]]) = [7, 0, 6, 0, 0, 0, 104] :=
  ⟨rfl, (convertToSsz_convertFromSsz_iff _ _ _ rfl).mpr (by decide)⟩

/-- A byte behind a number, a byte between the header of a container and its string, a list that
ends where it starts, and a zero byte behind the delimiter of a bit list are accepted and lost. -/
theorem convertFromSsz_accepts_more : (convertFromSsz (.num 4) [1, 0, 0, 0, 9] = .ok (.num 1) ∧
      convertToSsz (.num 4) (.num 1) = [1, 0, 0, 0]) ∧
    (convertFromSsz (.struct false 32 (.cons .string .nil)) [5, 0, 0, 0, 9, 104] =
        .ok (.list [.string [104]]) ∧
      convertToSsz (.struct false 32 (.cons .string .nil)) (.list [.string [104]]) =
        [4, 0, 0, 0, 104]) ∧
    (convertFromSsz (.vector .string) [0, 0, 0, 0] = .ok (.list []) ∧
      convertToSsz (.vector .string) (.list []) = []) ∧
    (convertFromSsz (.bitlist 8) [3, 0] = .ok (.bits [true]) ∧
      convertToSsz (.bitlist 8) (.bits [true]) = [3]) :=
  ⟨⟨rfl, rfl⟩, ⟨rfl, rfl⟩, ⟨rfl, rfl⟩, ⟨rfl, rfl⟩⟩

end PsiServe.Ssz
