import PsiServe.Pssz.Encode
import PsiServe.Ssz.Decode

/-!
# Decoding pSSZ

`from_pssz` and `convert_from_pssz` (`from_pssz.hpp:50–445`). A value is read from a buffer between
two positions. Unlike in SSZ, nothing checks the offsets of an array or of a struct: a range can
leave the bytes of the value that has it, and the buffer, and a position can wrap around. So the
model keeps the buffer and the positions as the source has them, and a read outside of the buffer
ends it.
-/

namespace PsiServe.Pssz

open Base List
open Ssz
open Frac (Val splitRaw)

/-- `a - b` of `uint32_t` -/
def sub32 (a b : Nat) : Nat := (a + 2 ^ 32 - b) % 2 ^ 32

/-- A range of `uint32_t` positions. -/
def wrap32 (r : Nat × Nat) : Nat × Nat := (r.1 % 2 ^ 32, r.2 % 2 ^ 32)

/-- `memcpy` from the buffer. -/
def fetch (src : Bytes) (pos n : Nat) : Read Bytes :=
  if (window src pos (pos + n)).length = n then .ok (window src pos (pos + n))
  else .error .outOfBounds

/-- A type that is copied byte by byte. -/
def fromPsszCopy (size : Nat) (message : String) (src : Bytes) (pos stop : Nat) : Read Nat := do
  check (size ≤ sub32 stop pos) message
  return leValue (← fetch src pos size)

/-- `from_pssz(bitlist<MaxN>&, ...)`; the last byte that is not 0 is searched with an `int32_t`. -/
def fromPsszBitlist (maxN : Nat) (src : Bytes) (pos stop : Nat) : Read Val := do
  check (pos < stop) "pssz bitlist: empty byte span invalid"
  let span := stop - pos
  check (span < 2 ^ 31) "pssz bitlist: missing delimiter bit"
  let bs ← fetch src pos span
  check (leValue bs != 0) "pssz bitlist: missing delimiter bit"
  let bitCount := (leValue bs).log2
  check (bitCount ≤ maxN) "pssz bitlist overflow on decode"
  return .bits (unpackBits bitCount bs)

/-- `s.assign(src + pos, src + end)` -/
def fromPsszString (src : Bytes) (pos stop : Nat) : Read Val :=
  if pos ≤ stop && stop ≤ src.length then .ok (.string (window src pos stop))
  else .error .outOfBounds

/-- The value that memory is copied into. -/
def ofRaw : Ty → Bytes → Val
  | .bool, bs => .bool (bs.headD 0)
  | .array elem n, bs => .list (splitRaw (ofRaw elem) (sizeof elem) n bs)
  | _, bs => .num (leValue bs)

def ofRawMembers : Tys → Bytes → List Val
  | .nil, _ => []
  | .cons t ts, bs => ofRaw t (bs.take (sizeof t)) :: ofRawMembers ts (bs.drop (sizeof t))

/-- The offsets of the objects of a table. -/
def readOffsets (w : Nat) (src : Bytes) : Nat → List (Option Nat) → Read (List Nat)
  | _, [] => .ok []
  | pos, some n :: sh => readOffsets w src (pos + n) sh
  | pos, none :: sh => do
    let o := leValue (← fetch src pos w)
    return o :: (← readOffsets w src (pos + w) sh)

/-- The ranges of the parts of a table that starts at `base`. -/
def ranges (w base stop : Nat) (sh : List (Option Nat)) (offs : List Nat) : List (Nat × Nat) :=
  (spans w stop base sh (offs.map (base + ·))).map wrap32

/-- One value for each range. -/
def fromPsszEach (decode : Nat → Nat → Read Val) : List (Nat × Nat) → Read (List Val)
  | [] => .ok []
  | r :: rs => do
    let v ← decode r.1 r.2
    return v :: (← fromPsszEach decode rs)

section

variable (F : Format) (elem : Ty) (decode : Nat → Nat → Read Val) (src : Bytes) (pos stop : Nat)

/-- `from_pssz(std::array<T, N>&, ...)` -/
def fromPsszArray (n : Nat) : Read (List Val) :=
  if elem.bitwise then do
    check (n * sizeof elem ≤ sub32 stop pos) "pssz array: underrun"
    return splitRaw (ofRaw elem) (sizeof elem) n (← fetch src pos (n * sizeof elem))
  else
    match psszFixedSize elem with
    | some size => do
      check (n * size ≤ sub32 stop pos) "pssz array: underrun"
      fromPsszEach decode (ranges F.offsetBytes pos stop (replicate n (some size)) [])
    | none => do
      check (n * F.offsetBytes ≤ sub32 stop pos) "pssz array: offset table underrun"
      let offs ← readOffsets F.offsetBytes src pos (replicate n none)
      fromPsszEach decode (ranges F.offsetBytes pos stop (replicate n none) offs)

/-- The ranges of the elements of a vector are checked. -/
def decodeWithin (beg stop' : Nat) : Read Val := do
  check (pos ≤ beg && stop' ≤ stop && beg ≤ stop') "pssz: vector element offset out of range"
  decode beg stop'

/-- `from_pssz(std::vector<T>&, ...)` -/
def fromPsszVector : Read (List Val) :=
  let span := sub32 stop pos
  if psszFixedSize elem = some 0 then .error .divideByZero
  else if elem.bitwise then do
    check (span % sizeof elem = 0) "pssz: vector span not divisible by element size"
    let n := span / sizeof elem
    return splitRaw (ofRaw elem) (sizeof elem) n (← fetch src pos (n * sizeof elem))
  else
    match psszFixedSize elem with
    | some size => do
      check (span % size = 0) "pssz: vector span not divisible by element size"
      fromPsszEach decode
        (ranges F.offsetBytes pos stop (replicate (span / size) (some size)) [])
    | none =>
      if span = 0 then .ok []
      else do
        check (F.offsetBytes ≤ span) "pssz: vector too short for first offset"
        let firstOff := leValue (← fetch src pos F.offsetBytes)
        check (firstOff % F.offsetBytes = 0 && firstOff ≤ span)
          "pssz: invalid first offset in vector"
        let n := firstOff / F.offsetBytes
        check (n * F.offsetBytes ≤ span) "pssz: truncated offset table"
        let offs ← readOffsets F.offsetBytes src pos (replicate n none)
        fromPsszEach (decodeWithin decode pos stop)
          (ranges F.offsetBytes pos stop (replicate n none) offs)

end

mutual

/-- `from_pssz` -/
def fromPssz (F : Format) : Ty → Bytes → Nat → Nat → Read Val
  | .bool, src, pos, stop => do
    check (1 ≤ sub32 stop pos) "pssz underrun reading bool"
    let b := (← fetch src pos 1).headD 0
    check (b ≤ 1) "pssz: invalid bool encoding"
    return .bool b
  | .num size, src, pos, stop =>
    return .num (← fromPsszCopy size "pssz underrun reading primitive" src pos stop)
  | .uint256, src, pos, stop =>
    return .num (← fromPsszCopy 32 "pssz underrun reading uint256" src pos stop)
  | .bitvector n, src, pos, stop =>
    return .num (← fromPsszCopy ((n + 7) / 8) "pssz underrun reading bitvector" src pos stop)
  | .bitset n, src, pos, stop =>
    return .num ((← fromPsszCopy ((n + 7) / 8) "pssz underrun reading bitset" src pos stop) % 2 ^ n)
  | .bitlist maxN, src, pos, stop => fromPsszBitlist maxN src pos stop
  | .string, src, pos, stop => fromPsszString src pos stop
  | .boundedString n, src, pos, stop => do
    check (sub32 stop pos ≤ n) "pssz: bounded_string overflow"
    fromPsszString src pos stop
  | .vector elem, src, pos, stop =>
    return .list (← fromPsszVector F elem (fromPssz F elem src) src pos stop)
  | .boundedList elem n, src, pos, stop => do
    let vs ← fromPsszVector F elem (fromPssz F elem src) src pos stop
    check (vs.length ≤ n) "pssz: bounded_list overflow"
    return .list vs
  | .array elem n, src, pos, stop =>
    return .list (← fromPsszArray F elem (fromPssz F elem src) src pos stop n)
  | .optional elem, src, pos, stop =>
    if optionalNeedsSelector elem then do
      check (1 ≤ sub32 stop pos) "pssz: optional selector byte missing"
      let selector := (← fetch src pos 1).headD 0
      if selector = 0 then do
        check (sub32 stop pos = 1) "pssz: optional selector 0 must have empty payload"
        return .nullopt
      else do
        check (selector = 1) "pssz: invalid optional selector byte"
        return .some (← fromPssz F elem src ((pos + 1) % 2 ^ 32) stop)
    else if sub32 stop pos = 0 then return .nullopt
    else return .some (← fromPssz F elem src pos stop)
  | .struct definitionWillNotChange size members, src, pos, stop =>
    if copied definitionWillNotChange size members then do
      check (size ≤ sub32 stop pos) "pssz DWNC: underrun"
      return .list (ofRawMembers members (← fetch src pos size))
    else do
      let fixedStart ←
        if definitionWillNotChange then pure pos
        else do
          check (F.headerBytes ≤ sub32 stop pos) "pssz: not enough bytes for header"
          -- the length of the fixed region that was written is read and not used
          let _ ← fetch src pos F.headerBytes
          pure ((pos + F.headerBytes) % 2 ^ 32)
      let fixedEnd := (fixedStart + fixedHeaderSize F members) % 2 ^ 32
      check (fixedEnd ≤ stop) "pssz: not enough bytes for fixed region"
      let offs ← readOffsets F.offsetBytes src fixedStart (fieldShape members)
      return .list (← fromPsszMembers F members src
        (ranges F.offsetBytes fixedStart stop (fieldShape members) offs))

def fromPsszMembers (F : Format) : Tys → Bytes → List (Nat × Nat) → Read (List Val)
  | .cons t ts, src, r :: rs => do
    let v ← fromPssz F t src r.1 r.2
    return v :: (← fromPsszMembers F ts src rs)
  | _, _, _ => .ok []

end

/-- `convert_from_pssz` -/
def convertFromPssz (F : Format) (t : Ty) (bs : Bytes) : Read Val := do
  check (bs.length < 2 ^ 32) "pssz buffer too large"
  fromPssz F t bs 0 bs.length

end PsiServe.Pssz
