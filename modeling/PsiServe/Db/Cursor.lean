import Mathlib.Order.Lattice
import Mathlib.Order.Nat

/-!
# Cursors of a table

`upper_bound` of the database host (`libraries/psiserve/include/psiserve/db_host.hpp:565–576`). The
calls of psitri that it makes are parameters. `Follows` says what is assumed of them: they walk the
keys of the table in their order and report what they find by one convention.
-/

namespace PsiServe.Db

/-- Where a cursor stands: before the rows, on a row or behind the rows. -/
inductive Position (K : Type) where
  | rend
  | row (key : K)
  | stop
  deriving DecidableEq

/-- The calls of psitri's cursor; the first two report a `bool` and move the cursor. -/
structure Inner (C K : Type) where
  lowerBound : C → K → Bool × C
  next : C → Bool × C
  key : C → K

/-- What psitri reports with `true`: a row, or the end. -/
inductive Convention where
  | hasRow
  | atEnd

inductive Error where
  | invalidHandle

variable {C K : Type} [LinearOrder K]

/-- `db_host::upper_bound`; `db_host.hpp:565–576`. -/
def upperBound (inner : Inner C K) (cursor : Option C) (key : K) : Except Error (Bool × C) :=
  match cursor with
  | none => .error .invalidHandle
  | some c =>
    let (atEnd, c) := inner.lowerBound c key
    .ok (if !atEnd && inner.key c == key then inner.next c else (atEnd, c))

private theorem upperBound_some (inner : Inner C K) (c : C) (key : K) :
    upperBound inner (some c) key = .ok (if !(inner.lowerBound c key).1 &&
        inner.key (inner.lowerBound c key).2 == key then inner.next (inner.lowerBound c key).2
      else inner.lowerBound c key) :=
  rfl

def Convention.reports : Convention → Option K → Bool
  | .hasRow, found => found.isSome
  | .atEnd, found => found.isNone

/-- A call has moved the cursor to the row that was found, or behind the rows, and reports it. -/
def Reaches (v : Convention) (position : C → Position K) (found : Option K) (r : Bool × C) : Prop :=
  r.1 = v.reports found ∧ position r.2 = found.elim .stop .row

/-- The assumptions on psitri. Nothing is said about `key` off the rows. -/
structure Follows (inner : Inner C K) (v : Convention) (keys : List K)
    (position : C → Position K) : Prop where
  sorted : keys.Pairwise (· < ·)
  lower_bound : ∀ c key, Reaches v position (keys.find? (key ≤ ·)) (inner.lowerBound c key)
  next_row : ∀ c key, position c = .row key →
    Reaches v position (keys.find? (key < ·)) (inner.next c)
  next_stop : ∀ c, position c = .stop → Reaches v position none (inner.next c)
  key_row : ∀ c key, position c = .row key → inner.key c = key

private theorem find?_le_of_mem {l : List K} (hl : l.Pairwise (· < ·)) {key : K} (h : key ∈ l) :
    l.find? (key ≤ ·) = some key := by
  obtain ⟨as, bs, rfl⟩ := List.append_of_mem h
  refine List.find?_eq_some_iff_append.mpr ⟨by simp, as, bs, rfl, fun a ha => ?_⟩
  simpa using (List.pairwise_append.mp hl).2.2 a ha key List.mem_cons_self

private theorem find?_le_of_notMem {l : List K} {key : K} (h : key ∉ l) :
    l.find? (key ≤ ·) = l.find? (key < ·) := by
  rw [← List.head?_filter, ← List.head?_filter]
  congr 1
  refine List.filter_congr fun k hk => ?_
  have hne : key ≠ k := fun heq => h (heq ▸ hk)
  simp [le_iff_lt_or_eq, hne]

section

variable {inner : Inner C K} {v : Convention} {keys : List K} {position : C → Position K} {key : K}
  (h : Follows inner v keys position) (c : C)

include h

/-- On a key of the table: the cursor stays there, or moves on and reports the end. -/
private theorem upperBound_of_mem (hmem : key ∈ keys) :
    ∃ r, upperBound inner (some c) key = .ok r ∧
      ¬Reaches .hasRow position (keys.find? (key < ·)) r := by
  obtain ⟨hreport, hat⟩ := h.lower_bound c key
  rw [find?_le_of_mem h.sorted hmem] at hreport hat
  cases v with
  | hasRow =>
    refine ⟨inner.lowerBound c key, by simp [upperBound_some, hreport, Convention.reports],
      fun hr => ?_⟩
    have hrow := hat.symm.trans hr.2
    cases hfound : keys.find? (key < ·) with
    | none => simp [hfound] at hrow
    | some k =>
      have hlt : key < k := by simpa using List.find?_some hfound
      simp [hfound, hlt.ne] at hrow
  | atEnd =>
    have hkey := h.key_row _ _ hat
    have hnext := h.next_row _ _ hat
    refine ⟨inner.next (inner.lowerBound c key).2, ?_, fun hr => ?_⟩
    · simp [upperBound_some, hreport, hkey, Convention.reports]
    · have heq := hnext.1.symm.trans hr.1
      cases hfound : keys.find? (key < ·) <;> simp [hfound, Convention.reports] at heq

/-- On another key the cursor is right, and so is the report if psitri reports rows. -/
private theorem upperBound_of_notMem (hmem : key ∉ keys) :
    ∃ r, upperBound inner (some c) key = .ok r ∧ Reaches v position (keys.find? (key < ·)) r := by
  have hlower := h.lower_bound c key
  rw [find?_le_of_notMem hmem] at hlower
  by_cases htest : (!(inner.lowerBound c key).1 &&
      inner.key (inner.lowerBound c key).2 == key) = true
  · refine ⟨inner.next (inner.lowerBound c key).2, by rw [upperBound_some, if_pos htest], ?_⟩
    obtain ⟨-, hat⟩ := hlower
    cases hfound : keys.find? (key < ·) with
    | none =>
      rw [hfound] at hat
      exact h.next_stop _ hat
    | some k =>
      -- a greater key was found, so that `key()` is not the one asked for
      have hlt : key < k := by simpa using List.find?_some hfound
      rw [hfound] at hat
      rw [h.key_row _ _ hat] at htest
      simp [hlt.ne'] at htest
  · exact ⟨inner.lowerBound c key, by rw [upperBound_some, if_neg htest], hlower⟩

/-- `upper_bound` goes to the first row with a greater key and reports that there is one exactly
if psitri reports rows and the key itself is not in the table. -/
theorem upperBound_exact_iff : (∃ r, upperBound inner (some c) key = .ok r ∧
      Reaches .hasRow position (keys.find? (key < ·)) r) ↔ v = .hasRow ∧ key ∉ keys := by
  constructor
  · rintro ⟨r, hr, hreaches⟩
    have hmem : key ∉ keys := fun hmem => by
      obtain ⟨r', hr', hnot⟩ := upperBound_of_mem h c hmem
      cases hr.symm.trans hr'
      exact hnot hreaches
    obtain ⟨r', hr', hreaches'⟩ := upperBound_of_notMem h c hmem
    cases hr.symm.trans hr'
    refine ⟨?_, hmem⟩
    have heq := hreaches.1.symm.trans hreaches'.1
    cases v with
    | hasRow => rfl
    | atEnd => cases hfound : keys.find? (key < ·) <;> simp [hfound, Convention.reports] at heq
  · rintro ⟨rfl, hmem⟩
    exact upperBound_of_notMem h c hmem

end

/-- A cursor over a list of keys, for which `key()` gives zero off the rows. -/
def listCursor (v : Convention) (keys : List Nat) : Inner (Position Nat) Nat where
  lowerBound _ key := (v.reports (keys.find? (key ≤ ·)), (keys.find? (key ≤ ·)).elim .stop .row)
  next
    | .rend => (v.reports keys.head?, keys.head?.elim .stop .row)
    | .row key => (v.reports (keys.find? (key < ·)), (keys.find? (key < ·)).elim .stop .row)
    | .stop => (v.reports (none : Option Nat), .stop)
  key
    | .row key => key
    | _ => 0

private theorem follows_listCursor (v : Convention) {keys : List Nat}
    (hkeys : keys.Pairwise (· < ·)) : Follows (listCursor v keys) v keys id where
  sorted := hkeys
  lower_bound _ _ := ⟨rfl, rfl⟩
  next_row c key hc := by
    cases hc
    exact ⟨rfl, rfl⟩
  next_stop c hc := by
    cases hc
    exact ⟨rfl, rfl⟩
  key_row c key hc := by
    cases hc
    rfl

/-- Between two keys the cursor goes to the second one. -/
theorem upperBound_exact_between : ∃ r, upperBound (listCursor .hasRow [1, 3]) (some .rend) 2 =
    .ok r ∧ Reaches .hasRow id (some 3) r :=
  (upperBound_exact_iff (follows_listCursor .hasRow (by decide : [1, 3].Pairwise (· < ·)))
    .rend).mpr
    ⟨rfl, by decide⟩

/-- On a key the cursor stays where it is, or moves on and reports that there is no row. -/
theorem upperBound_stays_on_key :
    (∀ v, Follows (listCursor v [1, 2]) v [1, 2] id) ∧
      upperBound (listCursor .hasRow [1, 2]) (some .rend) 1 = .ok (true, .row 1) ∧
      upperBound (listCursor .atEnd [1, 2]) (some .rend) 1 = .ok (false, .row 2) :=
  ⟨fun v => follows_listCursor v (by simp), rfl, rfl⟩

end PsiServe.Db
