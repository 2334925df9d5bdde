import PsiServe.Base.Fallible
import PsiServe.Ssz.Encode

/-!
# Decoding SSZ

`from_ssz` and `convert_from_ssz` (`from_ssz.hpp:62–415`). The source passes a buffer with the
positions where a value starts and ends, as `uint32_t`; the model passes the bytes between them. A
position that wraps around lies before the start, and is refused by the same check as an offset that
leads behind the end. The elements and members are the parts that the offsets cut out, and where the
source copies from memory, `raw`, nothing looks at the bytes of a `bool`.
-/

namespace PsiServe.Ssz

open Base
open Frac (Val)

/-- How decoding ends early. -/
inductive Fault where
  /-- `check` throws. -/
  | check (message : String)
  | divideByZero
  /-- Bytes outside of the buffer are read; only `from_pssz` does so. -/
  | outOfBounds
deriving DecidableEq, Repr

abbrev Read (α : Type) := Except Fault α

/-- `check(p, message)` -/
def check (p : Bool) (message : String) : Read Unit :=
  if p then .ok () else .error (.check message)

variable {p : Bool} {message : String}

private theorem check_eq_ok {u : Unit} : check p message = .ok u ↔ p = true := by
  cases p with
  | false => exact ⟨fun h => (nomatch h), fun h => (nomatch h)⟩
  | true => exact ⟨fun _ => rfl, fun _ => rfl⟩

/-- A check that passed, and what follows it. -/
theorem check_bind_eq_ok {α : Type} {f : Unit → Read α} {a : α} :
    (check p message >>= f) = .ok a ↔ p = true ∧ f () = .ok a := by
  rw [bind_eq_ok]
  constructor
  · rintro ⟨u, hp, hf⟩
    exact ⟨check_eq_ok.mp hp, hf⟩
  · rintro ⟨hp, hf⟩
    exact ⟨(), check_eq_ok.mpr hp, hf⟩

/-- A type that is copied byte by byte. -/
def fromSszCopy (size : Nat) (message : String) (bs : Bytes) : Read Val := do
  check (size ≤ bs.length) message
  return .num (leValue (bs.take size))

/-- `from_ssz(bitlist<MaxN>&, ...)`: the highest bit is the delimiter. The position of the last byte
that is not 0 is searched with an `int32_t`. -/
def fromSszBitlist (maxN : Nat) (bs : Bytes) : Read Val := do
  check (0 < bs.length) "ssz bitlist: empty byte span invalid"
  check (bs.length < 2 ^ 31 && leValue bs != 0) "ssz bitlist: missing delimiter bit"
  let bitCount := (leValue bs).log2
  check (bitCount ≤ maxN) "ssz bitlist: bit_count exceeds bound"
  return .bits (unpackBits bitCount bs)

/-- The ranges of the objects of an array or a list, checked one by one before each is decoded. -/
def fromSszObjects (message : String) (decode : Bytes → Read Val) (src : Bytes) :
    List Nat → Read (List Val)
  | [] => .ok []
  | beg :: offs => do
    let stop := offs.headD src.length
    check (beg ≤ stop && stop ≤ src.length) message
    let v ← decode (window src beg stop)
    return v :: (← fromSszObjects message decode src offs)

/-- Elements of a fixed size. -/
def fromSszInline (decode : Bytes → Read Val) (src : Bytes) (size : Nat) :
    Nat → Nat → Read (List Val)
  | _, 0 => .ok []
  | pos, n + 1 => do
    let v ← decode (window src pos (pos + size))
    return v :: (← fromSszInline decode src size (pos + size) n)

/-- `from_ssz(std::array<T, N>&, ...)` -/
def fromSszArray (decode : Bytes → Read Val) (fixedSize : Option Nat) (n : Nat) (bs : Bytes) :
    Read (List Val) :=
  if n = 0 then .ok []
  else
    match fixedSize with
    | some size => do
      check (n * size ≤ bs.length) "ssz underrun reading fixed array"
      fromSszInline decode bs size 0 n
    | none => do
      check (n * 4 ≤ bs.length) "ssz underrun reading variable array header"
      fromSszObjects "ssz: variable array element offset out of range" decode bs
        (offsets 4 bs 0 (List.replicate n none))

/-- `from_ssz(std::vector<T>&, ...)` -/
def fromSszVector (decode : Bytes → Read Val) (fixedSize : Option Nat) (bs : Bytes) :
    Read (List Val) :=
  match fixedSize with
  | some 0 => .error .divideByZero
  | some size => do
    check (bs.length % size = 0) "ssz: list span not divisible by element size"
    fromSszInline decode bs size 0 (bs.length / size)
  | none =>
    if bs.length = 0 then .ok []
    else do
      check (4 ≤ bs.length) "ssz: variable list too short for header"
      let firstOffset := leValue (window bs 0 4)
      check (firstOffset % 4 = 0 && firstOffset ≤ bs.length)
        "ssz: invalid first offset in variable list"
      let n := firstOffset / 4
      check (n * 4 ≤ bs.length) "ssz: truncated variable list offset table"
      fromSszObjects "ssz: variable list element offset out of range" decode bs
        (offsets 4 bs 0 (List.replicate n none))

/-- The offsets of a container are not below its header, and do not go back. -/
def checkOffsets (prev : Nat) (stop : Nat) : List Nat → Read Unit
  | [] => .ok ()
  | o :: offs => do
    check (prev ≤ o && o ≤ stop) "ssz container: variable offset out of range"
    checkOffsets o stop offs

mutual

/-- `from_ssz` -/
def fromSsz (raw : Bool) : Ty → Bytes → Read Val
  | .bool, bs => do
    check (1 ≤ bs.length) "ssz underrun reading bool"
    let b := bs.headD 0
    check (raw || b ≤ 1) "ssz: invalid bool encoding"
    return .bool b
  | .num size, bs => fromSszCopy size "ssz underrun reading primitive" bs
  | .uint256, bs => fromSszCopy 32 "ssz underrun reading uint256" bs
  | .bitvector n, bs => fromSszCopy ((n + 7) / 8) "ssz underrun reading bitvector" bs
  | .bitset n, bs => fromSszCopy ((n + 7) / 8) "ssz underrun reading bitset" bs
  | .bitlist maxN, bs => fromSszBitlist maxN bs
  | .string, bs => .ok (.string bs)
  | .boundedString n, bs => do
    check (bs.length ≤ n) "ssz: bounded_string overflow on decode"
    return .string bs
  | .vector elem, bs =>
    return .list (← fromSszVector (fromSsz (raw || elem.memcpyOk) elem) elem.fixedSize bs)
  | .boundedList elem n, bs => do
    let vs ← fromSszVector (fromSsz (raw || elem.memcpyOk) elem) elem.fixedSize bs
    check (vs.length ≤ n) "ssz: bounded_list overflow on decode"
    return .list vs
  | .array elem n, bs =>
    return .list (← fromSszArray (fromSsz (raw || elem.memcpyOk) elem) elem.fixedSize n bs)
  | .optional elem, bs =>
    match bs with
    | [] => .error (.check "ssz: optional selector byte missing")
    | selector :: rest =>
      if selector = 0 then do
        check (rest.length = 0) "ssz: optional selector 0 must have empty payload"
        return .nullopt
      else do
        check (selector = 1) "ssz: invalid optional selector byte"
        return .some (← fromSsz raw elem rest)
  | .struct _ size members, bs => do
    let header := headLen 4 members.shape
    check (header ≤ bs.length) "ssz container: not enough bytes for fixed region"
    checkOffsets header bs.length (offsets 4 bs 0 members.shape)
    return .list (← fromSszMembers (raw || memcpyLayout size members) members
      (cut 4 bs members.shape))

def fromSszMembers (raw : Bool) : Tys → List Part → Read (List Val)
  | .cons t ts, p :: ps => do
    let v ← fromSsz raw t p.bytes
    return v :: (← fromSszMembers raw ts ps)
  | _, _ => .ok []

end

/-- `convert_from_ssz` -/
def convertFromSsz (t : Ty) (bs : Bytes) : Read Val := do
  check (bs.length < 2 ^ 32) "ssz buffer too large"
  fromSsz false t bs

end PsiServe.Ssz
