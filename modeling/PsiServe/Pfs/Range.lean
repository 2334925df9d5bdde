import PsiServe.Base.LittleEndian

/-!
# Ranges of stored content

The content store: `cas::get_range`, `cas::read` and the loop over chunks that they share
(`libraries/pfs/src/cas.cpp:165–244`), `block_store::read_range` (`block_store.cpp:53–72`), and the
host call `psiIpfsGet` (`libraries/psiserve/src/host_api.cpp:1110–1144`). Sums and differences are
those of `uint64_t`; what goes outside of an array is undefined.
-/

namespace PsiServe.Pfs

open Base List

/-- An integer as a `uint64_t`. -/
def u64 (i : Int) : Nat := (i % 2 ^ 64).toNat

/-- A number as a signed integer of `w` bits. -/
def signed (w n : Nat) : Int := if n % 2 ^ w < 2 ^ (w - 1) then n % 2 ^ w else n % 2 ^ w - 2 ^ w

/-- The largest size of a `std::vector<uint8_t>`; reserving more throws. -/
def maxSize : Nat := 2 ^ 63 - 1

def chunkSize : Nat := 256 * 1024

/-- Where a chunk lies: a part of a block. -/
structure ChunkRef where
  blockId : Nat
  offset : Nat
  size : Nat

/-- What is stored for a content (`schema.hpp:19–25`). -/
structure CasEntry where
  totalSize : Nat
  inlineData : Bytes
  chunks : List ChunkRef

/-- The entries and the blocks of the database. -/
structure Cas (κ : Type) where
  entries : κ → Option CasEntry
  blocks : Nat → Option Bytes

inductive Outcome (α : Type) where
  | returns (a : α)
  | throws
  | undefined
  deriving DecidableEq

/-- Part of an array by iterators or `subspan`, which do not check. -/
def slice (data : Bytes) (offset length : Nat) : Outcome Bytes :=
  if offset + length ≤ data.length then .returns ((data.drop offset).take length) else .undefined

def readRange (block : Option Bytes) (offset length : Nat) : Outcome Bytes :=
  match block with
  | none => .throws
  | some b =>
    if b.length < (offset + length) % 2 ^ 64 then .throws
    else if maxSize < length then .throws
    else slice b offset length

/-- The loop over the chunks: the bytes that it gives to the callback, and how it ends. -/
def readChunks (blocks : Nat → Option Bytes) (offset length : Nat) :
    Nat → List ChunkRef → Bytes × Outcome Unit
  | _, [] => ([], .returns ())
  | filePos, c :: cs =>
    let chunkEnd := (filePos + c.size) % 2 ^ 64
    if (offset + length) % 2 ^ 64 ≤ filePos then ([], .returns ())
    else if chunkEnd ≤ offset then readChunks blocks offset length chunkEnd cs
    else
      let readStart := if filePos < offset then offset - filePos else 0
      let readEnd := min c.size ((offset + length) % 2 ^ 64 - filePos)
      match readRange (blocks c.blockId) ((c.offset + readStart) % 2 ^ 64)
        (u64 (readEnd - readStart)) with
      | .returns piece =>
        let rest := readChunks blocks offset length chunkEnd cs
        (piece ++ rest.1, rest.2)
      | .throws => ([], .throws)
      | .undefined => ([], .undefined)

/-- The bytes given to a callback, if the call returns. -/
def collected : Bytes × Outcome Unit → Outcome Bytes
  | (given, .returns _) => .returns given
  | (_, .throws) => .throws
  | (_, .undefined) => .undefined

variable {κ : Type}

def getRange (s : Cas κ) (c : κ) (offset length : Nat) : Outcome Bytes :=
  match s.entries c with
  | none => .throws
  | some e =>
    if e.totalSize < (offset + length) % 2 ^ 64 then .throws
    else if e.inlineData ≠ [] then slice e.inlineData offset length
    else if maxSize < length then .throws
    else collected (readChunks s.blocks offset length 0 e.chunks)

def read (s : Cas κ) (c : κ) (offset length : Nat) : Bytes × Outcome Unit :=
  match s.entries c with
  | none => ([], .throws)
  | some e =>
    if e.totalSize < (offset + length) % 2 ^ 64 then ([], .throws)
    else if e.inlineData ≠ [] then
      match slice e.inlineData offset length with
      | .returns span => (span, .returns ())
      | .throws => ([], .throws)
      | .undefined => ([], .undefined)
    else readChunks s.blocks offset length 0 e.chunks

/-- The host call with its result and the bytes it copies to the guest. The content identifier is
`none` if its text is not one; the errors are `io_failure` and `not_found`. -/
def psiIpfsGet (ipfs : Option (Cas κ)) (cid : Option κ) (offset : Int) (bufLen : Nat) :
    Outcome (Int × Bytes) :=
  match ipfs, cid with
  | none, _ => .returns (-4, [])
  | some _, none => .returns (-11, [])
  | some s, some c =>
    match s.entries c with
    | none => .returns (-11, [])
    | some e =>
      let remaining := if offset < signed 64 e.totalSize then u64 (e.totalSize - offset) else 0
      let toRead := min remaining bufLen
      if toRead = 0 then .returns (0, [])
      else
        match read s c (u64 offset) toRead with
        | (given, .returns _) => .returns (signed 32 given.length, given)
        | (given, .throws) => .returns (-11, given)
        | (_, .undefined) => .undefined

/-- The chunks that `cas::put` cuts a content into (`cas.cpp:50–73`). -/
def Cut (blocks : Nat → Option Bytes) : Bytes → List ChunkRef → Prop
  | d, [] => d = []
  | d, c :: cs =>
    d ≠ [] ∧ blocks c.blockId = some (d.take chunkSize) ∧ c.offset = 0 ∧
      c.size = (d.take chunkSize).length ∧ Cut blocks (d.drop chunkSize) cs

/-- A content as `cas::put` stores it; it has been an array in memory. -/
structure Stored (s : Cas κ) (c : κ) (e : CasEntry) (d : Bytes) : Prop where
  fits : d.length < 2 ^ 63
  entry : s.entries c = some e
  totalSize : e.totalSize = d.length
  small : d.length ≤ chunkSize → e.inlineData = d ∧ e.chunks = []
  large : chunkSize < d.length → e.inlineData = [] ∧ Cut s.blocks d e.chunks

/-- The range itself, where it lies within the content. -/
def exactRange (d : Bytes) (offset length : Nat) : Outcome Bytes :=
  if offset + length ≤ d.length then .returns ((d.drop offset).take length) else .throws

variable {blocks : Nat → Option Bytes} {d : Bytes} {cs : List ChunkRef}
  {filePos offset length : Nat}

/-- Reading within a block. -/
theorem readRange_within {b : Bytes} (h : offset + length ≤ b.length)
    (hfits : b.length < 2 ^ 63) :
    readRange (some b) offset length = .returns ((b.drop offset).take length) := by
  have hmax : maxSize = 2 ^ 63 - 1 := rfl
  simp only [readRange, slice]
  rw [if_neg (by omega), if_neg (by omega), if_pos h]

/-- A piece of two parts that begins in the first one. -/
theorem take_drop_append {p r : Bytes} {skip n : Nat} (h : skip ≤ p.length) :
    ((p ++ r).drop skip).take (n - skip) =
      (p.drop skip).take (min p.length n - skip) ++ r.take (n - p.length) := by
  rw [drop_append_of_le_length h, take_append, length_drop]
  congr 1
  · rw [take_eq_take_iff, length_drop]
    omega
  · congr 1
    omega

/-- Within the content the loop gives what is left of the range from the position it is at. -/
theorem readChunks_within (hcut : Cut blocks d cs) (hstop : offset + length ≤ filePos + d.length)
    (hfits : filePos + d.length < 2 ^ 63) :
    readChunks blocks offset length filePos cs =
      ((d.drop (offset - filePos)).take (offset + length - max offset filePos), .returns ()) := by
  induction cs generalizing d filePos with
  | nil =>
    cases hcut
    simp [readChunks]
  | cons c cs ih =>
    obtain ⟨-, hblock, hoff, hsize, hcut⟩ := hcut
    have hparts := take_append_drop chunkSize d
    generalize d.take chunkSize = p at hblock hsize hparts
    generalize d.drop chunkSize = r at hcut hparts
    subst hparts
    rw [length_append] at hstop hfits
    have hsum : (offset + length) % 2 ^ 64 = offset + length := Nat.mod_eq_of_lt (by omega)
    have hend : (filePos + p.length) % 2 ^ 64 = filePos + p.length := Nat.mod_eq_of_lt (by omega)
    have hrest := ih hcut (by omega) (by omega : filePos + p.length + r.length < 2 ^ 63)
    simp only [readChunks, hsum, hsize, hend, hrest, hblock, hoff]
    split
    next h =>
      rw [Nat.sub_eq_zero_of_le (by omega), take_zero]
    next h =>
    split
    next hskip =>
      rw [drop_append, drop_of_length_le (by omega : p.length ≤ offset - filePos), nil_append]
      have hdrop : offset - (filePos + p.length) = offset - filePos - p.length := by omega
      have htake : max offset (filePos + p.length) = max offset filePos := by omega
      rw [hdrop, htake]
    next hskip =>
      have hstart : (if filePos < offset then offset - filePos else 0) = offset - filePos := by
        split <;> omega
      have hlen : u64 ((min p.length (offset + length - filePos) : Nat) -
          (offset - filePos : Nat)) =
          min p.length (offset + length - filePos) - (offset - filePos) := by
        unfold u64
        omega
      simp only [hstart, hlen]
      rw [Nat.zero_add, Nat.mod_eq_of_lt (by omega), readRange_within (by omega) (by omega)]
      have hnext : offset - (filePos + p.length) = 0 := by omega
      have hmax : max offset filePos = filePos + (offset - filePos) := by omega
      have hmax' : max offset (filePos + p.length) = filePos + p.length := by omega
      rw [hnext, hmax, hmax', drop_zero, Nat.sub_add_eq, Nat.sub_add_eq,
        take_drop_append (by omega : offset - filePos ≤ p.length)]

/-- A sum that wraps around: the loop gives nothing. It throws if the sum comes out in the chunk of
the offset, where no vector is as long as the difference. -/
theorem readChunks_wrapped (hcut : Cut blocks d cs) (hpos : filePos ≤ offset)
    (hstart : d ≠ [] → filePos % chunkSize = 0) (hfits : filePos + d.length < 2 ^ 63)
    (hwrap : 2 ^ 64 ≤ offset + length) (hoffset : offset < 2 ^ 64) (hlength : length < 2 ^ 64) :
    readChunks blocks offset length filePos cs =
      ([], if offset < filePos + d.length ∧
          offset / chunkSize * chunkSize < (offset + length) % 2 ^ 64 then .throws
        else .returns ()) := by
  induction cs generalizing d filePos with
  | nil =>
    cases hcut
    rw [readChunks, if_neg]
    rw [length_nil]
    omega
  | cons c cs ih =>
    obtain ⟨hne, hblock, hoff, hsize, hcut⟩ := hcut
    have hchunk : chunkSize = 262144 := rfl
    have haligned := hstart hne
    rw [length_take] at hsize
    simp only [hchunk] at ih haligned hsize hblock hcut ⊢
    have hend : (filePos + c.size) % 2 ^ 64 = filePos + c.size := Nat.mod_eq_of_lt (by omega)
    simp only [readChunks, hend, hblock, hoff]
    split
    next h => rw [if_neg (by omega)]
    next h =>
    split
    next hskip =>
      have hlen := length_drop (i := 262144) (l := d)
      have htotal : filePos + c.size + (d.drop 262144).length = filePos + d.length := by omega
      rw [ih hcut hskip _ (by omega), htotal]
      intro hrest
      have hrest := length_pos_iff.mpr hrest
      omega
    next hskip =>
      rw [if_pos (by omega : filePos < offset)]
      have hlong : maxSize < u64 ((min c.size ((offset + length) % 2 ^ 64 - filePos) : Nat) -
          (offset - filePos : Nat)) := by
        unfold u64 maxSize
        omega
      rw [if_pos (by omega)]
      simp only [readRange, if_pos hlong, ite_self]

/-- `get_range` collects what `read` gives, unless it cannot reserve the length. -/
theorem getRange_eq (s : Cas κ) (c : κ) (offset length : Nat) :
    getRange s c offset length = collected (read s c offset length) ∨
      maxSize < length ∧ getRange s c offset length = .throws := by
  unfold getRange read
  split
  next => exact .inl rfl
  next e _ =>
  split
  next => exact .inl rfl
  next =>
  split
  next =>
    left
    cases slice e.inlineData offset length <;> rfl
  next =>
  split
  next hlong => exact .inr ⟨hlong, rfl⟩
  next => exact .inl rfl

/-- Both functions give the range, and throw where there is none. -/
def Exact (s : Cas κ) (c : κ) (d : Bytes) (offset length : Nat) : Prop :=
  getRange s c offset length = exactRange d offset length ∧
    collected (read s c offset length) = exactRange d offset length

/-- The sum of offset and length is below `2 ^ 64`, or comes out beyond the content, or in the chunk
of the offset. -/
def SumOk (d : Bytes) (offset length : Nat) : Prop :=
  offset + length < 2 ^ 64 ∨ d.length < (offset + length) % 2 ^ 64 ∨
    chunkSize < d.length ∧ offset < d.length ∧
      offset / chunkSize * chunkSize < (offset + length) % 2 ^ 64

/-- The guest is given its part of the content or nothing. -/
def Delivers (s : Cas κ) (c : κ) (d : Bytes) (offset : Int) (bufLen : Nat) : Prop :=
  ∃ raw given, psiIpfsGet (some s) (some c) offset bufLen = .returns (raw, given) ∧
    (given = [] ∨ 0 ≤ offset ∧ given = (d.drop offset.toNat).take bufLen)

/-- A buffer that reaches from before the start of an inline content up to it. -/
def Before (d : Bytes) (offset : Int) (bufLen : Nat) : Prop :=
  d ≠ [] ∧ d.length ≤ chunkSize ∧ offset < 0 ∧ 0 ≤ offset + bufLen

section

variable {s : Cas κ} {c : κ} {e : CasEntry} (h : Stored s c e d)
include h

private theorem Stored.inline (hne : e.inlineData ≠ []) : e.inlineData = d ∧
    d.length ≤ chunkSize := by
  by_cases hsmall : d.length ≤ chunkSize
  · exact ⟨(h.small hsmall).1, hsmall⟩
  · exact absurd (h.large (by omega)).1 hne

private theorem Stored.cut (hempty : e.inlineData = []) : Cut s.blocks d e.chunks := by
  by_cases hsmall : d.length ≤ chunkSize
  · obtain ⟨hinline, hchunks⟩ := h.small hsmall
    rw [hchunks]
    exact hinline.symm.trans hempty
  · exact (h.large (by omega)).2

private theorem read_beyond (hbeyond : d.length < (offset + length) % 2 ^ 64) :
    read s c offset length = ([], .throws) := by
  simp only [read, h.entry, h.totalSize, if_pos hbeyond]

private theorem read_within (hwithin : offset + length ≤ d.length) :
    read s c offset length = ((d.drop offset).take length, .returns ()) := by
  have hfits := h.fits
  have hsum : (offset + length) % 2 ^ 64 = offset + length := Nat.mod_eq_of_lt (by omega)
  simp only [read, h.entry, h.totalSize, hsum, if_neg (not_lt.mpr hwithin)]
  split
  next hne => rw [(h.inline hne).1, slice, if_pos hwithin]
  next hempty =>
    rw [readChunks_within (h.cut (not_not.mp hempty)) (by omega) (by omega)]
    simp

/-- A sum that wraps around to a place in the content. -/
theorem read_wrapped (hwrap : 2 ^ 64 ≤ offset + length) (hoffset : offset < 2 ^ 64)
    (hlength : length < 2 ^ 64) (hover : ¬d.length < (offset + length) % 2 ^ 64) :
    read s c offset length = ([], if e.inlineData ≠ [] then .undefined
      else if offset < d.length ∧ offset / chunkSize * chunkSize < (offset + length) % 2 ^ 64 then
        .throws
      else .returns ()) := by
  have hfits := h.fits
  simp only [read, h.entry, h.totalSize, if_neg hover]
  split
  next hne => rw [(h.inline hne).1, slice, if_neg (by omega)]
  next hempty =>
    rw [readChunks_wrapped (h.cut (not_not.mp hempty)) (Nat.zero_le _) (fun _ => rfl) (by omega)
      hwrap hoffset hlength, Nat.zero_add]

private theorem exact_iff (hoffset : offset < 2 ^ 64) (hlength : length < 2 ^ 64) :
    Exact s c d offset length ↔ SumOk d offset length := by
  have hfits := h.fits
  have hget := getRange_eq s c offset length
  unfold Exact exactRange SumOk
  by_cases hwithin : offset + length ≤ d.length
  · rw [read_within h hwithin] at hget ⊢
    rw [if_pos hwithin]
    refine iff_of_true ⟨hget.resolve_right fun hlong => ?_, rfl⟩ (.inl (by omega))
    exact absurd hlong.1 (by unfold maxSize; omega)
  rw [if_neg hwithin]
  have hthrows : collected (read s c offset length) = .throws →
      getRange s c offset length = .throws := by
    intro hread
    rw [hread] at hget
    exact hget.elim id And.right
  rw [and_iff_right_of_imp hthrows]
  by_cases hover : d.length < (offset + length) % 2 ^ 64
  · rw [read_beyond h hover]
    exact iff_of_true rfl (.inr (.inl hover))
  have hwrap : 2 ^ 64 ≤ offset + length := by omega
  rw [read_wrapped h hwrap hoffset hlength hover]
  by_cases hempty : e.inlineData = []
  · rw [if_neg (not_not.mpr hempty)]
    split
    next hlate =>
      refine iff_of_true rfl (.inr (.inr ⟨?_, hlate⟩))
      by_contra hsmall
      rw [← (h.small (by omega)).1, hempty] at hlate
      exact absurd hlate.1 (Nat.not_lt_zero _)
    next hlate =>
      refine iff_of_false nofun ?_
      omega
  · have hsmall := (h.inline hempty).2
    rw [if_pos hempty]
    refine iff_of_false nofun ?_
    omega

private theorem delivers_iff {offset : Int} {bufLen : Nat} (hlow : -2 ^ 63 ≤ offset)
    (hhigh : offset < 2 ^ 63)
    (hbuf : bufLen < 2 ^ 32) : Delivers s c d offset bufLen ↔ ¬Before d offset bufLen := by
  have hfits := h.fits
  have hsigned : signed 64 d.length = d.length := by
    unfold signed
    omega
  unfold Delivers Before
  simp only [psiIpfsGet, h.entry, h.totalSize, hsigned]
  by_cases hfront : 0 ≤ offset
  · refine iff_of_true ?_ (by omega)
    have hremaining : (if offset < d.length then u64 (d.length - offset) else 0) =
        d.length - offset.toNat := by
      unfold u64
      split <;> omega
    have hoffset : u64 offset = offset.toNat := by
      unfold u64
      omega
    rw [hremaining, hoffset]
    split
    next => exact ⟨0, [], rfl, .inl rfl⟩
    next hsome =>
      rw [read_within h (by omega)]
      refine ⟨_, _, rfl, .inr ⟨hfront, ?_⟩⟩
      rw [take_eq_take_iff, length_drop]
      omega
  · have hremaining : (if offset < d.length then u64 (d.length - offset) else 0) =
        (d.length - offset).toNat := by
      unfold u64
      split <;> omega
    have hoffset : u64 offset = (2 ^ 64 + offset).toNat := by
      unfold u64
      omega
    rw [hremaining, hoffset]
    split
    next => exact iff_of_true ⟨0, [], rfl, .inl rfl⟩ (by omega)
    next hsome =>
    by_cases hreach : 0 ≤ offset + bufLen
    · rw [read_wrapped h (by omega) (by omega) (by omega) (by omega)]
      by_cases hempty : e.inlineData = []
      · rw [if_neg (not_not.mpr hempty), if_neg (by omega)]
        refine iff_of_true ⟨_, [], rfl, .inl rfl⟩ fun hbefore => hbefore.1 ?_
        rw [← (h.small hbefore.2.1).1, hempty]
      · obtain ⟨hinline, hsmall⟩ := h.inline hempty
        rw [if_pos hempty]
        exact iff_of_false nofun (not_not.mpr ⟨hinline ▸ hempty, hsmall, by omega, hreach⟩)
    · rw [read_beyond h (by omega)]
      exact iff_of_true ⟨_, [], rfl, .inl rfl⟩ (by omega)

end

/-- Reading a range of any stored content, and the host call on it. -/
theorem reads_exact_iff {s : Cas κ} {c : κ} {e : CasEntry} {d : Bytes} (h : Stored s c e d) :
    (∀ offset length, offset < 2 ^ 64 → length < 2 ^ 64 →
      (Exact s c d offset length ↔ SumOk d offset length)) ∧
    ∀ (offset : Int) (bufLen : Nat), -2 ^ 63 ≤ offset → offset < 2 ^ 63 → bufLen < 2 ^ 32 →
      (Delivers s c d offset bufLen ↔ ¬Before d offset bufLen) :=
  ⟨fun _ _ => exact_iff h, fun _ _ => delivers_iff h⟩

/-- A store with one content, of one byte. -/
def oneByte : Cas Unit := ⟨fun _ => some ⟨1, [7], []⟩, fun _ => none⟩

private theorem oneByte_stored : Stored oneByte () ⟨1, [7], []⟩ [7] := by
  refine ⟨by decide, rfl, rfl, fun _ => ⟨rfl, rfl⟩, fun hlarge => ?_⟩
  exact absurd hlarge (by decide)

/-- A content of one byte more than a chunk. -/
def longContent : Bytes := replicate (chunkSize + 1) 7

/-- A store with that content, in two chunks. -/
def twoChunks : Cas Unit :=
  ⟨fun _ => some ⟨chunkSize + 1, [], [⟨0, 0, chunkSize⟩, ⟨1, 0, 1⟩]⟩,
    fun id => if id = 0 then some (replicate chunkSize 7) else some [7]⟩

private theorem twoChunks_stored :
    Stored twoChunks () ⟨chunkSize + 1, [], [⟨0, 0, chunkSize⟩, ⟨1, 0, 1⟩]⟩ longContent := by
  have hlen : longContent.length = chunkSize + 1 := length_replicate
  refine ⟨?_, rfl, hlen.symm, fun h => ?_, fun _ => ⟨rfl, ?_⟩⟩
  · rw [hlen]
    decide
  · omega
  · have hchunk : 1 ≤ chunkSize := by decide
    simp [Cut, longContent, twoChunks, take_replicate, drop_replicate, take_of_length_le, hchunk]

/-- A range across the border of the chunks is read, also by the host call. -/
theorem reads_exact_iff_twoChunks : Exact twoChunks () longContent (chunkSize - 1) 2 ∧
    Delivers twoChunks () longContent (chunkSize - 1) 8 :=
  ⟨((reads_exact_iff twoChunks_stored).1 _ _ (by decide) (by decide)).mpr (.inl (by decide)),
    ((reads_exact_iff twoChunks_stored).2 _ _ (by decide) (by decide) (by decide)).mpr
      fun hbefore => absurd hbefore.2.2.1 (by decide)⟩

/-- One byte before a content: the sum with the length wraps around, and the memory in front of the
content is read; the guest gets it from the offset `-1`. -/
theorem byte_before_content_read :
    Stored oneByte () ⟨1, [7], []⟩ [7] ∧ getRange oneByte () (2 ^ 64 - 1) 2 = .undefined ∧
      read oneByte () (2 ^ 64 - 1) 2 = ([], .undefined) ∧
      psiIpfsGet (some oneByte) (some ()) (-1) 2 = .undefined :=
  ⟨oneByte_stored, by decide, by decide, by decide⟩

end PsiServe.Pfs
