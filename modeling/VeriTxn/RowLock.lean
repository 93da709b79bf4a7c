import VeriTxn.Serial
import VeriTxn.Types

/-!
# NO_WAIT: row locks and cleanup

Under a locking scheme `get_row` hands out the row itself, guarded by
`Row_lock`.  A conflicting request is refused at once; the changes a transaction
makes are in the shared row from then on, and `cleanup` undoes them on abort
from the copy taken when the row was obtained for writing.
-/

namespace VeriTxn.NoWait

variable {T R D : Type}

/-- An entry of `owners`. -/
structure LockEntry (T : Type) where
  type : LockT
  txn : T

/-- A row with its `Row_lock` manager; under NO_WAIT nobody ever waits, and
    `owner_cnt` is the length of `owners`. -/
structure Row (T D : Type) where
  data : D
  owners : List (LockEntry T)
  lockType : LockT

/-- `Row_lock::conflict_lock`. -/
def conflictLock (l₁ l₂ : LockT) : Bool :=
  if l₁ = .none ∨ l₂ = .none then false
  else if l₁ = .ex ∨ l₂ = .ex then true
  else false

/-- `Row_lock::lock_get(type, txn)`; `none` is Abort. -/
def Row.lockGet (row : Row T D) (type : LockT) (txn : T) : Option (Row T D) :=
  if conflictLock row.lockType type then none
  else some { row with owners := ⟨type, txn⟩ :: row.owners, lockType := type }

/-- The walk along `owners` to the entry of `txn`, which it unlinks. -/
def dropOwner [DecidableEq T] (txn : T) : List (LockEntry T) → Option (List (LockEntry T))
  | [] => none
  | e :: owners => if e.txn = txn then some owners else (dropOwner txn owners).map (e :: ·)

/-- `Row_lock::lock_release(txn)`; `none` when the entry is nowhere to be found
    and the assertion fails. -/
def Row.lockRelease [DecidableEq T] (row : Row T D) (txn : T) : Option (Row T D) :=
  (dropOwner txn row.owners).map fun owners =>
    { row with owners := owners, lockType := if owners = [] then .none else row.lockType }

/-- The lock `row_t::get_row` asks for. -/
def lockFor (type : AccessT) : LockT :=
  if type = .rd ∨ type = .scan then .sh else .ex

/-- An `Access`; its `data` is the row itself.  `origData` is meaningful for
    write accesses only. -/
structure Access (R D : Type) where
  type : AccessT
  origRow : R
  origData : D

variable [DecidableEq T] [DecidableEq R]

/-- `txn_man::get_row(row, type)`: `none` when the lock is refused, else the
    rows with the lock taken and the new access. -/
def getRow (rows : R → Row T D) (txn : T) (r : R) (type : AccessT) :
    Option ((R → Row T D) × Access R D) :=
  ((rows r).lockGet (lockFor type) txn).map fun row =>
    (Function.update rows r row, ⟨type, r, (rows r).data⟩)

/-- `row_t::return_row(type, txn, row)`: roll an `XP` back, then unlock. -/
def returnRow (rows : R → Row T D) (txn : T) (a : Access R D) : Option (R → Row T D) :=
  let row := rows a.origRow
  let row := if a.type = .xp then { row with data := a.origData } else row
  (row.lockRelease txn).map fun row => Function.update rows a.origRow row

def returnRows (rows : R → Row T D) (txn : T) : List (Access R D) → Option (R → Row T D)
  | [] => some rows
  | a :: accesses => (returnRow rows txn a).bind fun rows => returnRows rows txn accesses

/-- `create_log_entry()`: a record with the row's present data for every write
    access, whatever the outcome. -/
def createLogEntry (rows : R → Row T D) (accesses : List (Access R D)) : List (R × D) :=
  (accesses.filter fun a => a.type = .wr).map fun a => (a.origRow, (rows a.origRow).data)

/-- `cleanup(rc)`: the log entry, then the `return_row` loop from the last
    access to the first with the write accesses of an aborted transaction as
    `XP`. -/
def cleanup (rows : R → Row T D) (txn : T) (rc : RC) (accesses : List (Access R D)) :
    Option (List (R × D) × (R → Row T D)) := do
  let entry := createLogEntry rows accesses
  let rows ← returnRows rows txn
    (accesses.map fun a => if a.type = .wr ∧ rc = .abort then { a with type := .xp } else a).reverse
  return (entry, rows)

/-! ### What the loop does to the data -/

omit [DecidableEq T] in
theorem Row.lockGet_data {row row' : Row T D} {type : LockT} {txn : T}
    (h : row.lockGet type txn = some row') :
    row'.data = row.data ∧ row'.lockType = type ∧ conflictLock row.lockType type = false := by
  unfold Row.lockGet at h
  split at h
  · cases h
  · rename_i hconflict
    cases h
    exact ⟨rfl, rfl, Bool.eq_false_iff.mpr hconflict⟩

theorem Row.lockRelease_data {row row' : Row T D} {txn : T}
    (h : row.lockRelease txn = some row') : row'.data = row.data := by
  obtain ⟨owners, _, rfl⟩ := Option.map_eq_some_iff.mp h
  rfl

/-- The rows rolled back, with the contents they get. -/
def undoPairs (accesses : List (Access R D)) : List (R × D) :=
  accesses.filterMap fun a => if a.type = .xp then some (a.origRow, a.origData) else none

theorem returnRows_data {rows rows' : R → Row T D} {txn : T} {accesses : List (Access R D)}
    (h : returnRows rows txn accesses = some rows') :
    (fun r => (rows' r).data) = Serial.install (fun r => (rows r).data) (undoPairs accesses) := by
  induction accesses generalizing rows with
  | nil =>
      cases h
      rfl
  | cons a accesses ih =>
      obtain ⟨mid, hmid, hrest⟩ := Option.bind_eq_some_iff.mp h
      obtain ⟨row, hrelease, rfl⟩ := Option.map_eq_some_iff.mp hmid
      have hdata := Row.lockRelease_data hrelease
      rw [ih hrest]
      by_cases hxp : a.type = .xp
      · simp only [hxp, if_true] at hdata
        have hstep : (fun r => (Function.update rows a.origRow row r).data) =
            Function.update (fun r => (rows r).data) a.origRow a.origData := by
          funext r
          by_cases hr : r = a.origRow
          · subst hr
            simp [hdata]
          · simp [Function.update_of_ne hr]
        simp only [undoPairs, List.filterMap_cons, hxp, if_true, Serial.install_cons, hstep]
      · simp only [hxp, if_false] at hdata
        have hstep : (fun r => (Function.update rows a.origRow row r).data) =
            fun r => (rows r).data := by
          funext r
          by_cases hr : r = a.origRow
          · subst hr
            simp [hdata]
          · simp [Function.update_of_ne hr]
        simp only [undoPairs, List.filterMap_cons, hxp, if_false, hstep]

/-- `cleanup` logs the data as it finds it and, on abort, restores the copies. -/
theorem cleanup_cases {rows : R → Row T D} {txn : T} {rc : RC} {accesses : List (Access R D)}
    {result : List (R × D) × (R → Row T D)} (h : cleanup rows txn rc accesses = some result) :
    result.1 = createLogEntry rows accesses ∧
      (fun r => (result.2 r).data) = Serial.install (fun r => (rows r).data)
        (undoPairs (accesses.map fun a =>
          if a.type = .wr ∧ rc = .abort then { a with type := .xp } else a).reverse) := by
  obtain ⟨cleaned, hclean, h⟩ := Option.bind_eq_some_iff.mp h
  cases h
  exact ⟨rfl, returnRows_data hclean⟩

end VeriTxn.NoWait
