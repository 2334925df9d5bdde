import PsiServe.Pfs.Range

/-!
# The quota of a tenant

`store::update_quota`, and the transactions of `write`, `remove` and `set_quota` over the records of
one tenant (`libraries/pfs/src/store.cpp:57–76, 104–142, 151–174, 391–409`). The usage and the limit
are a record of their own at the path `$meta`, next to the entries of files and directories; what
`from_frac` makes of a record of the other kind is a parameter, `none` if it throws.
-/

namespace PsiServe.Pfs

open Function

inductive EntryType where
  | file
  | directory

/-- An entry, as far as the quota depends on it. -/
structure FsEntry where
  type : EntryType
  size : Nat

structure FsQuota where
  limit : Nat := 0
  used : Nat := 0

inductive Record where
  | entry (e : FsEntry)
  | quota (q : FsQuota)

inductive StoreError where
  | quotaExceeded
  | malformed

abbrev Records := String → Option Record

variable (crossQuota : FsEntry → Option FsQuota) (crossEntry : FsQuota → Option FsEntry)

def quota (tx : Records) : Option FsQuota :=
  match tx "$meta" with
  | none => some {}
  | some (.quota q) => some q
  | some (.entry e) => crossQuota e

def updateQuota (tx : Records) (sizeDelta : Int) : Except StoreError Records :=
  match quota crossQuota tx with
  | none => .error .malformed
  | some q =>
    let used := u64 (q.used + sizeDelta)
    if 0 < q.limit ∧ q.limit < used then .error .quotaExceeded
    else .ok (update tx "$meta" (some (.quota { q with used := used })))

def setQuota (tx : Records) (limit : Nat) : Except StoreError Records :=
  match quota crossQuota tx with
  | none => .error .malformed
  | some q => .ok (update tx "$meta" (some (.quota { q with limit := limit })))

def entryOf : Record → Option FsEntry
  | .entry e => some e
  | .quota q => crossEntry q

def write (tx : Records) (path : String) (size : Nat) : Except StoreError Records :=
  let upsert := updateQuota crossQuota (update tx path (some (.entry ⟨.file, size⟩)))
  match tx path with
  | none => upsert size
  | some r =>
    match entryOf crossEntry r with
    | none => .error .malformed
    | some old => upsert (size - old.size)

def remove (tx : Records) (path : String) : Except StoreError Records :=
  match tx path with
  | none => .ok tx
  | some r =>
    match entryOf crossEntry r with
    | none => .error .malformed
    | some ⟨.file, size⟩ => updateQuota crossQuota (update tx path none) (-size)
    | some ⟨.directory, _⟩ => .ok (update tx path none)

/-- The tenant has no limit, or is within it once it has given up some bytes. -/
def Room (tx : Records) (freed : Nat) : Prop :=
  ∀ q, quota crossQuota tx = some q → q.limit = 0 ∨ u64 (q.used - freed) ≤ q.limit

private theorem updateQuota_accepts_iff (tx : Records) {delta : Int} {freed : Nat}
    (h : delta = -freed) :
    updateQuota crossQuota tx delta ≠ .error .quotaExceeded ↔ Room crossQuota tx freed := by
  subst h
  unfold updateQuota Room
  cases quota crossQuota tx with
  | none => simp
  | some q =>
    simp only [← Int.sub_eq_add_neg, Option.some.injEq, forall_eq']
    split
    next hover =>
      simp only [ne_eq, not_true_eq_false, false_iff]
      omega
    next hroom =>
      simp only [ne_eq, reduceCtorEq, not_false_eq_true, true_iff]
      omega

/-- A removal, and a write that replaces a file by one that is not larger, keep to the quota exactly
if there is room for what remains. -/
theorem shrinking_accepted_iff (tx : Records) (path : String) :
    (remove crossQuota crossEntry tx path ≠ .error .quotaExceeded ↔
      ∀ size, (tx path).bind (entryOf crossEntry) = some ⟨.file, size⟩ →
        Room crossQuota (update tx path none) size) ∧
    ∀ size new, (tx path).bind (entryOf crossEntry) = some ⟨.file, size⟩ → new ≤ size →
      (write crossQuota crossEntry tx path new ≠ .error .quotaExceeded ↔
        Room crossQuota (update tx path (some (.entry ⟨.file, new⟩))) (size - new)) := by
  unfold remove write
  cases tx path with
  | none => simp
  | some r =>
    cases hr : entryOf crossEntry r with
    | none => simp [hr]
    | some e =>
      obtain ⟨type, size⟩ := e
      cases type with
      | file =>
        simp only [Option.bind_some, hr, Option.some.injEq, FsEntry.mk.injEq, true_and, forall_eq']
        refine ⟨updateQuota_accepts_iff crossQuota _ rfl, ?_⟩
        rintro _ new rfl hnew
        exact updateQuota_accepts_iff crossQuota _ (by omega)
      | directory => simp [hr]

/-- With ten bytes used and a limit of nine, a file of three bytes can be replaced by two. -/
theorem shrinking_accepted_iff_limited :
    let tx := update (update (fun _ => none) "f" (some (.entry ⟨.file, 3⟩)))
      "$meta" (some (.quota ⟨9, 10⟩))
    write (fun _ => none) (fun _ => none) tx "f" 2 ≠ .error .quotaExceeded := by
  intro tx
  refine ((shrinking_accepted_iff _ _ tx "f").2 3 2 rfl (by decide)).mpr fun q hq => ?_
  cases hq
  exact .inr (by decide)

/-- With ten bytes used and the limit lowered to five, a file of three bytes cannot be removed. -/
theorem remove_over_quota :
    let tx : Records := update (update (fun _ => none) "f" (some (.entry ⟨.file, 3⟩)))
      "$meta" (some (.quota ⟨0, 10⟩))
    ((setQuota (fun _ => none) tx 5).bind fun tx => remove (fun _ => none) (fun _ => none) tx "f") =
      .error .quotaExceeded := by
  rfl

end PsiServe.Pfs
