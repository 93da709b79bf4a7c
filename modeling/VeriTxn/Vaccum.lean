import VeriTxn.HashChain

/-!
# Vacuuming a hash chain

When a read-only node receives a hash and the page's chain has grown beyond
`VACCUM_TRIGGER`, `update_verify_hash` trims it to what counts at
`Stats::get_min_begin_ts`.  That function keeps the larger of two begin timestamps, so
the bound is the latest of them and not the earliest.
-/

namespace VeriTxn.HashChain

/-- `VACCUM_TRIGGER` of `config.h`. -/
def vaccumTrigger : Nat := 128

/-- `Stats::get_min_begin_ts`; `0` is a thread without a transaction. -/
def getMinBeginTs (beginTs : List Nat) : Nat :=
  beginTs.foldl (fun res tmp => if tmp ≠ 0 ∧ tmp > res then tmp else res) 0

/-- The vacuum step of `IndexEnc::update_verify_hash`. -/
def vaccumStep (c : HashChain) (beginTs : List Nat) : HashChain :=
  if c.items.length > vaccumTrigger then c.vaccum (getMinBeginTs beginTs) else c

end VeriTxn.HashChain
