import VeriTxn.OccValidation

/-!
# SILO: row words and validation

`Row_silo` keeps a word with the id of the last writer and a lock bit.  A
transaction works on copies; `validate_silo` locks the rows it writes in the order
of their primary keys, checks that no accessed row was written since, and installs the
copies.

A lock that is refused here is never granted: nobody else runs, and the
`no-wait` mode, which gives its locks back and tries again, meets itself again.
-/

namespace VeriTxn.Silo

open Serial

variable {R D : Type}

/-- A row with its `Row_silo` manager; the lock bit of `_tid_word` is `locked`. -/
structure Row (D : Type) where
  data : D
  tid : Nat
  locked : Bool

/-- `Row_silo::access`: the copy and the word's id, when the row is not locked. -/
def Row.access (row : Row D) : Option (D × Nat) :=
  if row.locked then none else some (row.data, row.tid)

/-- `Row_silo::validate(tid, in_write_set)`. -/
def Row.validate (row : Row D) (tid : Nat) (inWriteSet : Bool) : Bool :=
  if inWriteSet then tid = row.tid else if row.locked then false else tid = row.tid

/-- `Row_silo::lock`, `try_lock`. -/
def Row.tryLock (row : Row D) : Option (Row D) :=
  if row.locked then none else some { row with locked := true }

/-- `Row_silo::write(data, tid)`, with its assertion. -/
def Row.write (row : Row D) (data : D) (tid : Nat) : Option (Row D) :=
  if row.tid < tid ∧ row.locked then some ⟨data, tid, true⟩ else none

/-- `Row_silo::release`, with its assertion. -/
def Row.release (row : Row D) : Option (Row D) :=
  if row.locked then some { row with locked := false } else none

/-- An `Access`: `data` is the local copy. -/
structure Access (R D : Type) where
  type : AccessT
  origRow : R
  data : D
  tid : Nat

/-- The largest id among the accesses, from 0. -/
def maxTid (accesses : List (Access R D)) : Nat :=
  accesses.foldl (fun maxTid a => max maxTid a.tid) 0

variable [DecidableEq R]

/-- The locking loop: the rows, the number of locks taken, and whether every word still
    had the id that was read. -/
def lockRows (rows : R → Row D) : List (Access R D) → Option ((R → Row D) × Nat × Bool)
  | [] => some (rows, 0, true)
  | a :: writeSet => do
      let row ← (rows a.origRow).tryLock
      let rows := Function.update rows a.origRow row
      if row.tid ≠ a.tid then some (rows, 1, false)
      else
        let (rows, numLocks, ok) ← lockRows rows writeSet
        some (rows, numLocks + 1, ok)

/-- The release loop after a failed validation. -/
def releaseRows (rows : R → Row D) : List (Access R D) → Option (R → Row D)
  | [] => some rows
  | a :: writeSet => do
      let row ← (rows a.origRow).release
      releaseRows (Function.update rows a.origRow row) writeSet

/-- The loop that installs the copies and unlocks. -/
def writeRows (rows : R → Row D) (curTid : Nat) : List (Access R D) → Option (R → Row D)
  | [] => some rows
  | a :: writeSet => do
      let row ← (rows a.origRow).write a.data curTid
      let row ← row.release
      writeRows (Function.update rows a.origRow row) curTid writeSet

/-- `txn_man::validate_silo`: the result, the rows and `_cur_tid`. -/
def validateSilo (preAbort : Bool) (primaryKey : R → Nat) (rows : R → Row D) (curTid : Nat)
    (accesses : List (Access R D)) : Option (RC × (R → Row D) × Nat) := do
  let writeSet := accesses.filter fun a => a.type = .wr
  let readSet := accesses.filter fun a => a.type ≠ .wr
  let writeSet := Occ.sortLoop (fun a b => primaryKey b.origRow < primaryKey a.origRow)
    (writeSet.length - 1) writeSet
  if preAbort && (writeSet ++ readSet).any fun a => (rows a.origRow).tid ≠ a.tid then
    return (.abort, rows, curTid)
  let (rows, numLocks, ok) ← lockRows rows writeSet
  if ok && readSet.all (fun a => (rows a.origRow).validate a.tid false) &&
      writeSet.all fun a => (rows a.origRow).validate a.tid true then
    let max := maxTid (readSet ++ writeSet)
    let curTid := if max > curTid then max + 1 else curTid + 1
    let rows ← writeRows rows curTid writeSet
    return (.rcok, rows, curTid)
  else
    let rows ← releaseRows rows (writeSet.take numLocks)
    return (.abort, rows, curTid)

/-! ### What the loops do to the data -/

/-- The writes a list of accesses installs. -/
def writePairs (accesses : List (Access R D)) : List (R × D) :=
  accesses.map fun a => (a.origRow, a.data)

theorem data_update {rows : R → Row D} {r : R} {row : Row D} (h : row.data = (rows r).data) :
    (fun q => (Function.update rows r row q).data) = fun q => (rows q).data := by
  funext q
  by_cases hq : q = r
  · subst hq
    rw [Function.update_self, h]
  · rw [Function.update_of_ne hq]

theorem lockRows_data {rows rows' : R → Row D} {writeSet : List (Access R D)} {numLocks : Nat}
    {ok : Bool} (h : lockRows rows writeSet = some (rows', numLocks, ok)) :
    (fun r => (rows' r).data) = fun r => (rows r).data := by
  induction writeSet generalizing rows numLocks with
  | nil =>
      cases h
      rfl
  | cons a writeSet ih =>
      obtain ⟨row, hlock, h⟩ := Option.bind_eq_some_iff.mp h
      have hrow : row.data = (rows a.origRow).data := by
        unfold Row.tryLock at hlock
        split at hlock
        · cases hlock
        · cases hlock
          rfl
      split at h
      · cases h
        exact data_update hrow
      · obtain ⟨⟨rows₁, n, ok₁⟩, hrest, h⟩ := Option.bind_eq_some_iff.mp h
        cases h
        exact (ih hrest).trans (data_update hrow)

theorem releaseRows_data {rows rows' : R → Row D} {writeSet : List (Access R D)}
    (h : releaseRows rows writeSet = some rows') :
    (fun r => (rows' r).data) = fun r => (rows r).data := by
  induction writeSet generalizing rows with
  | nil =>
      cases h
      rfl
  | cons a writeSet ih =>
      obtain ⟨row, hrelease, h⟩ := Option.bind_eq_some_iff.mp h
      refine (ih h).trans (data_update ?_)
      unfold Row.release at hrelease
      split at hrelease
      · cases hrelease
        rfl
      · cases hrelease

theorem writeRows_data {rows rows' : R → Row D} {curTid : Nat} {writeSet : List (Access R D)}
    (h : writeRows rows curTid writeSet = some rows') :
    (fun r => (rows' r).data) = install (fun r => (rows r).data) (writePairs writeSet) := by
  induction writeSet generalizing rows with
  | nil =>
      cases h
      rfl
  | cons a writeSet ih =>
      obtain ⟨row, hwrite, h⟩ := Option.bind_eq_some_iff.mp h
      obtain ⟨row', hrelease, h⟩ := Option.bind_eq_some_iff.mp h
      have hdata : row'.data = a.data := by
        unfold Row.write at hwrite
        split at hwrite
        · cases hwrite
          unfold Row.release at hrelease
          split at hrelease
          · cases hrelease
            rfl
          · cases hrelease
        · cases hwrite
      have hpairs : writePairs (a :: writeSet) = (a.origRow, a.data) :: writePairs writeSet := rfl
      rw [ih h, hpairs, install_cons]
      congr 1
      funext r
      by_cases hr : r = a.origRow
      · subst hr
        simp [hdata]
      · simp [Function.update_of_ne hr]

/-- Validation installs the copies of the write set, or changes no data. -/
theorem validateSilo_cases {preAbort : Bool} {primaryKey : R → Nat} {rows rows' : R → Row D}
    {curTid curTid' : Nat} {accesses : List (Access R D)} {rc : RC}
    (h : validateSilo preAbort primaryKey rows curTid accesses = some (rc, rows', curTid')) :
    (rc = .rcok ∧ ∃ writeSet, writeSet.Perm (accesses.filter fun a => a.type = .wr) ∧
      (fun r => (rows' r).data) = install (fun r => (rows r).data) (writePairs writeSet)) ∨
    (rc = .abort ∧ (fun r => (rows' r).data) = fun r => (rows r).data) := by
  unfold validateSilo at h
  simp only at h
  split at h
  · cases h
    exact Or.inr ⟨rfl, rfl⟩
  · obtain ⟨⟨rows₁, numLocks, ok⟩, hlock, h⟩ := Option.bind_eq_some_iff.mp h
    have hdata := lockRows_data hlock
    simp only at h
    split at h
    · obtain ⟨rows₂, hwrite, h⟩ := Option.bind_eq_some_iff.mp h
      cases h
      refine Or.inl ⟨rfl, _, ?_, (writeRows_data hwrite).trans (by rw [hdata])⟩
      exact Occ.sortLoop_perm _ _ _
    · obtain ⟨rows₂, hrelease, h⟩ := Option.bind_eq_some_iff.mp h
      cases h
      exact Or.inr ⟨rfl, (releaseRows_data hrelease).trans hdata⟩

end VeriTxn.Silo
