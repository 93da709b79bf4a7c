import Mathlib.Algebra.GroupWithZero.Nat

/-!
# Shared enumerations

The enumerations of `common/global_common.h` that the modelled functions
branch on.
-/

namespace VeriTxn

/-- `RC`: the outcome of an operation. -/
inductive RC where
  | rcok | commit | abort | wait | error | finish
deriving DecidableEq, Repr

/-- `access_t`: how a transaction holds a row. -/
inductive AccessT where
  | rd | wr | xp | scan
deriving DecidableEq, Repr

/-- `lock_t`: the mode of a row lock. -/
inductive LockT where
  | ex | sh | none
deriving DecidableEq, Repr

/-- `latch_t`: the mode of a page latch. -/
inductive LatchT where
  | ex | sh | none
deriving DecidableEq, Repr

/-- `idx_acc_t`: what an index operation is going to do with the leaf. -/
inductive IdxAccT where
  | insert | read | none | ex
deriving DecidableEq, Repr

/-- `idx_key_t`, a `uint64_t`. -/
abbrev IdxKey := Fin (2 ^ 64)

instance neZeroIdxKey : NeZero (2 ^ 64 : Nat) := ⟨by decide⟩

/-- `MAX_ROW_PER_TXN`. -/
def maxRowPerTxn : Nat := 128

/-- Arithmetic of `uint64_t`. -/
def wrap64 (n : Nat) : Nat := n % 2 ^ 64

end VeriTxn
