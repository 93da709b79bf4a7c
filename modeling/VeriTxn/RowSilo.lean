import VeriTxn.Silo
import Mathlib.Data.Nat.Bitwise

/-!
# The word of a SILO row

`Row_silo` keeps the id of the last writer and the lock in one 64-bit word: the
topmost bit is `LOCK_BIT`.  The operations here work on the word as the source does,
each of them as one atomic step, and `toRow` takes a row apart into id and
lock.  As long as the ids stay below the lock bit, the operations on the word
are the operations on the parts.
-/

namespace VeriTxn.Silo

variable {R D : Type}

/-- `LOCK_BIT` -/
def lockBit : BitVec 64 := 1#64 <<< 63

/-- A row with its `Row_silo` manager. -/
structure RowSilo (D : Type) where
  data : D
  tidWord : BitVec 64

namespace RowSilo

/-- `_tid_word & LOCK_BIT` -/
def lockedBit (row : RowSilo D) : Bool := row.tidWord &&& lockBit ≠ 0#64

def getTid (row : RowSilo D) : Nat := (row.tidWord &&& ~~~lockBit).toNat

/-- One round of `Row_silo::access` that returns; as long as the row is locked it spins. -/
def access (row : RowSilo D) : Option (D × Nat) :=
  if row.lockedBit then none else some (row.data, row.getTid)

def validate (row : RowSilo D) (tid : Nat) (inWriteSet : Bool) : Bool :=
  if inWriteSet then tid = row.getTid
  else if row.lockedBit then false
  else tid = row.getTid

/-- `Row_silo::try_lock`, and the round of `Row_silo::lock` that returns. -/
def tryLock (row : RowSilo D) : Option (RowSilo D) :=
  if row.lockedBit then none else some { row with tidWord := row.tidWord ||| lockBit }

/-- `Row_silo::write`; `none` when its assertion fails. -/
def write (row : RowSilo D) (data : D) (tid : Nat) : Option (RowSilo D) :=
  if row.getTid < tid ∧ row.lockedBit then some ⟨data, BitVec.ofNat 64 tid ||| lockBit⟩ else none

/-- `Row_silo::release`; `none` when its assertion fails. -/
def release (row : RowSilo D) : Option (RowSilo D) :=
  if row.lockedBit then some { row with tidWord := row.tidWord &&& ~~~lockBit } else none

/-- `Row_silo::init` -/
def init (data : D) : RowSilo D := ⟨data, 0#64⟩

/-- Id and lock taken apart. -/
def toRow (row : RowSilo D) : Row D := ⟨row.data, row.getTid, row.lockedBit⟩

/-! ### The lock bit -/

theorem lockBit_eq : lockBit = BitVec.twoPow 64 63 := by decide

theorem getLsbD_cleared (word : BitVec 64) (i : Nat) :
    (word &&& ~~~lockBit).getLsbD i = (word.getLsbD i && decide (i ≠ 63)) := by
  rw [lockBit_eq]
  by_cases hi : i < 64
  · by_cases heq : 63 = i
    · simp [← heq]
    · simp [hi, Ne.symm heq]
  · simp [BitVec.getLsbD_of_ge word i (by omega)]

theorem getLsbD_set (word : BitVec 64) (i : Nat) :
    (word ||| lockBit).getLsbD i = (word.getLsbD i || decide (i = 63)) := by
  rw [lockBit_eq]
  by_cases heq : 63 = i
  · simp [← heq]
  · simp [heq, Ne.symm heq]

theorem cleared_set (word : BitVec 64) :
    (word ||| lockBit) &&& ~~~lockBit = word &&& ~~~lockBit := by
  refine BitVec.eq_of_getLsbD_eq fun i _ => ?_
  rw [getLsbD_cleared, getLsbD_cleared, getLsbD_set]
  by_cases hi : i = 63 <;> simp [hi]

theorem cleared_cleared (word : BitVec 64) :
    (word &&& ~~~lockBit) &&& ~~~lockBit = word &&& ~~~lockBit := by
  rw [BitVec.and_assoc, BitVec.and_self]

theorem lockedBit_eq (row : RowSilo D) : row.lockedBit = row.tidWord.getLsbD 63 := by
  unfold lockedBit
  rw [lockBit_eq, BitVec.and_twoPow]
  cases row.tidWord.getLsbD 63 <;> decide

/-- The bits of an id are below the lock bit. -/
theorem getTid_lt (row : RowSilo D) : row.getTid < 2 ^ 63 := by
  unfold getTid
  refine Nat.lt_pow_two_of_testBit _ fun i hi => ?_
  rw [BitVec.testBit_toNat, getLsbD_cleared]
  by_cases heq : i = 63
  · simp [heq]
  · simp [BitVec.getLsbD_of_ge row.tidWord i (by omega)]

/-- An id below the lock bit is read back from the word it was written to. -/
theorem cleared_ofNat {tid : Nat} (h : tid < 2 ^ 63) :
    ((BitVec.ofNat 64 tid ||| lockBit) &&& ~~~lockBit).toNat = tid := by
  have hbits : BitVec.ofNat 64 tid &&& ~~~lockBit = BitVec.ofNat 64 tid := by
    refine BitVec.eq_of_getLsbD_eq fun i hi => ?_
    rw [getLsbD_cleared]
    by_cases heq : i = 63
    · rw [heq, BitVec.getLsbD_ofNat, Nat.testBit_lt_two_pow h]
      rfl
    · simp [heq]
  rw [cleared_set, hbits, BitVec.toNat_ofNat, Nat.mod_eq_of_lt (by omega)]

/-! ### The operations on the parts -/

theorem toRow_init (data : D) : (init data).toRow = ⟨data, 0, false⟩ := by
  simp [toRow, init, getTid, lockedBit]

theorem toRow_access (row : RowSilo D) : row.access = row.toRow.access := rfl

theorem toRow_validate (row : RowSilo D) (tid : Nat) (inWriteSet : Bool) :
    row.validate tid inWriteSet = row.toRow.validate tid inWriteSet := rfl

theorem toRow_tryLock (row : RowSilo D) : row.tryLock.map toRow = row.toRow.tryLock := by
  unfold tryLock Row.tryLock
  by_cases hlocked : row.lockedBit
  · simp [hlocked, toRow]
  · simp only [hlocked, toRow, Bool.false_eq_true, if_false, Option.map_some, Option.some.injEq,
      Row.mk.injEq, true_and]
    constructor
    · simp only [getTid, cleared_set]
    · rw [lockedBit_eq, getLsbD_set, decide_eq_true rfl, Bool.or_true]

theorem toRow_write (row : RowSilo D) (data : D) {tid : Nat} (h : tid < 2 ^ 63) :
    (row.write data tid).map toRow = row.toRow.write data tid := by
  unfold write Row.write
  by_cases hassert : row.getTid < tid ∧ row.lockedBit
  · rw [if_pos hassert, if_pos (show row.toRow.tid < tid ∧ row.toRow.locked from hassert)]
    simp only [toRow, Option.map_some, Option.some.injEq, Row.mk.injEq, true_and]
    constructor
    · exact cleared_ofNat h
    · rw [lockedBit_eq, getLsbD_set, decide_eq_true rfl, Bool.or_true]
  · rw [if_neg hassert, if_neg (show ¬ (row.toRow.tid < tid ∧ row.toRow.locked) from hassert),
      Option.map_none]

theorem toRow_release (row : RowSilo D) : row.release.map toRow = row.toRow.release := by
  unfold release Row.release
  by_cases hlocked : row.lockedBit
  · simp only [hlocked, toRow, if_true, Option.map_some, Option.some.injEq, Row.mk.injEq, true_and]
    constructor
    · simp only [getTid, cleared_cleared]
    · rw [lockedBit_eq, getLsbD_cleared, decide_eq_false (by decide), Bool.and_false]
  · simp [hlocked, toRow]

end RowSilo

end VeriTxn.Silo
