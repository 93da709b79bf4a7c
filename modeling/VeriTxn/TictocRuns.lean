import VeriTxn.Leases
import VeriTxn.OccValidation
import VeriTxn.RowTictoc

/-!
# TicToc: interleaved transactions

Threads run transactions one at a time over rows with a timestamp word each.  `access` copies a row
between two loads of its word; `validate_tictoc` locks the write set, raises the commit timestamp
above the leases of the locked rows and renews the leases of the rows that were only read.  Every
load, store and compare-and-swap of a word is a step of `Row`, and the copies are steps, too.  As in
`Row.step`, timestamps stay below 2^48.

`PRE_ABORT` and `VALIDATION_LOCK` are parameters.  A transaction counts as committed when its last
lease is renewed; from then on its versions are announced, and `write_data` stores them.
-/

namespace VeriTxn.Tictoc

open Lease Serial Transition

variable {Thd R D : Type}

/-- An `Access`; `value` is what the row held when `get_row` copied it to `data`. -/
structure Access (R D : Type) where
  type : AccessT
  origRow : R
  value : D
  data : D
  wts : Nat
  rts : Nat

structure Txn (R D : Type) where
  prog : Program R D
  accesses : List (Access R D)

def Access.op (a : Access R D) : Op R D := ⟨a.origRow, decide (a.type = .wr), a.value⟩

def Txn.ops (txn : Txn R D) : List (Op R D) := txn.accesses.map Access.op

def Txn.values (txn : Txn R D) : List D := txn.accesses.map Access.value

/-- The local copies, the `i`-th with the contents `f i`. -/
def localCopies (f : Nat → D) : Nat → List (Access R D) → List (Access R D)
  | _, [] => []
  | i, a :: accesses => { a with data := f i } :: localCopies f (i + 1) accesses

/-- The transaction at `finish`. -/
def Txn.finish (txn : Txn R D) : Txn R D :=
  { txn with accesses := localCopies (txn.prog.result txn.values) 0 txn.accesses }

structure Config (R : Type) where
  preAbort : Bool
  validationNoWait : Bool
  primaryKey : R → Nat

def Config.writeSet (cfg : Config R) (txn : Txn R D) : List (Access R D) :=
  let writeSet := txn.accesses.filter fun a => a.type = .wr
  Occ.sortLoop (fun a b => cfg.primaryKey b.origRow < cfg.primaryKey a.origRow)
    (writeSet.length - 1) writeSet

def Txn.readSet (txn : Txn R D) : List (Access R D) :=
  txn.accesses.filter fun a => a.type ≠ .wr

/-- One round of the loop that finds `commit_rts` and `commit_wts`. -/
def raise (ts : Nat × Nat) (a : Access R D) : Nat × Nat :=
  if a.type = .rd ∧ a.wts > ts.1 then (a.wts, ts.2)
  else if a.type = .wr ∧ a.rts + 1 > ts.2 then (ts.1, a.rts + 1)
  else ts

/-- `commit_wts` before the locks. -/
def Txn.commitWts (txn : Txn R D) : Nat :=
  let (commitRts, commitWts) := txn.accesses.foldl raise (0, 0)
  if commitRts > commitWts then commitRts else commitWts

/-- Where a thread is.  Lists of accesses are what a loop has still to do, `held` the part of the
    write set that is locked, and `c` is `commit_wts`.  Where a call to the row takes several steps,
    `Row.threads` says how far it is. -/
inductive Phase (R D : Type) where
  | idle
  | executing (txn : Txn R D)
  /-- `access` has loaded the word `v` -/
  | copying (txn : Txn R D) (r : R) (writes : Bool) (v : Nat)
  /-- the row is copied, and the word not compared yet -/
  | comparing (txn : Txn R D) (r : R) (writes : Bool) (v : Nat) (copy : D)
  | preAborting (txn : Txn R D) (todo : List (Access R D)) (c : Nat)
  | locking (txn : Txn R D) (held todo : List (Access R D)) (c : Nat)
  /-- `a` is locked and its `wts` not compared yet -/
  | checking (txn : Txn R D) (held : List (Access R D)) (a : Access R D)
      (todo : List (Access R D)) (c : Nat)
  /-- `try_lock` has failed: the locks are given back -/
  | backingOff (txn : Txn R D) (todo : List (Access R D)) (c : Nat)
  /-- the loop over `get_rts` -/
  | raising (txn : Txn R D) (todo : List (Access R D)) (c : Nat)
  | validating (txn : Txn R D) (todo : List (Access R D)) (c : Nat)
  /-- in `try_renew` of `a` -/
  | renewing (txn : Txn R D) (a : Access R D) (todo : List (Access R D)) (c : Nat)
  | writing (todo : List (Access R D)) (c : Nat)
  /-- `write_data` of `a` has stored the word, and not copied the data -/
  | filling (a : Access R D) (todo : List (Access R D)) (c : Nat)
  | unlocking (a : Access R D) (todo : List (Access R D)) (c : Nat)
  | aborting (todo : List (Access R D))

/-- A committed transaction, the `place`-th one. -/
structure Commit (R D : Type) where
  wts : Nat
  place : Nat
  prog : Program R D
  ops : List (Op R D)

/-- `stored` is the versions that `write_data` has stored in the words, the newest first, and `pend`
    the one of a committed transaction that is still to be stored. -/
structure Sys (Thd R D : Type) where
  rows : R → Row Thd
  data : R → D
  phase : Thd → Phase R D
  committed : List (Commit R D)
  stored : R → List (Version D)
  pend : R → Option (Version D)

inductive TxnAction (Thd R D : Type) where
  | start (thd : Thd) (prog : Program R D)
  /-- the next step of the thread -/
  | work (thd : Thd)
  /-- `finish(Abort)` by the transaction's own decision -/
  | giveUp (thd : Thd)

def Sys.init (base : R → D) : Sys Thd R D where
  rows _ := .init
  data := base
  phase _ := .idle
  committed := []
  stored r := [⟨0, 0, base r⟩]
  pend _ := none

/-- Where validation starts, and starts over after a refused lock. -/
def Config.enter (cfg : Config R) (txn : Txn R D) (c : Nat) : Phase R D :=
  if cfg.preAbort then .preAborting txn (cfg.writeSet txn ++ txn.readSet) c
  else .locking txn [] (cfg.writeSet txn) c

variable [DecidableEq Thd] [DecidableEq R]

def Sys.goto (s : Sys Thd R D) (t : Thd) (phase : Phase R D) : Sys Thd R D :=
  { s with phase := Function.update s.phase t phase }

def Sys.setRow (s : Sys Thd R D) (r : R) (row : Row Thd) : Sys Thd R D :=
  { s with rows := Function.update s.rows r row }

/-- A call to a row begins, or goes on. -/
def Row.call (row : Row Thd) (t : Thd) (begins : Thread → Bool) (call : Action Thd) :
    Option (Row Thd) :=
  row.step (if begins (row.threads t) then call else .work t)

/-- The thread is in no call to the row, and does not hold its lock. -/
def Thread.isIdle : Thread → Bool
  | .idle => true
  | _ => false

/-- The thread is in no call to the row, and holds its lock. -/
def Thread.isHeld : Thread → Bool
  | .held | .heldRts _ => true
  | _ => false

/-- A step of `release`; after the last one the thread goes on. -/
def Sys.release (s : Sys Thd R D) (t : Thd) (r : R) (next : Phase R D) : Option (Sys Thd R D) := do
  let row ← (s.rows r).call t Thread.isHeld (.release t)
  some (if (row.threads t).isIdle then (s.setRow r row).goto t next else s.setRow r row)

/-- A step of `lock` or `try_lock`. -/
def Sys.lock (s : Sys Thd R D) (t : Thd) (r : R) (noWait : Bool) (taken refused : Phase R D) :
    Option (Sys Thd R D) := do
  let row ← (s.rows r).call t Thread.isIdle (if noWait then .tryLock t else .lock t)
  some (if (row.threads t).isHeld then (s.setRow r row).goto t taken
    else if (row.threads t).isIdle then (s.setRow r row).goto t refused
    else s.setRow r row)

/-- A step of `try_renew` after its begin; `leases` has one more if it returns true. -/
def Sys.renew (s : Sys Thd R D) (t : Thd) (r : R) (ok failed : Phase R D) :
    Option (Sys Thd R D) := do
  let row ← (s.rows r).step (.work t)
  some (if (row.threads t).isIdle then
      (s.setRow r row).goto t
        (if (s.rows r).leases.length < row.leases.length then ok else failed)
    else s.setRow r row)

/-- A step of the first part of `write_data`, which ends when the word is stored. -/
def Sys.write (s : Sys Thd R D) (t : Thd) (r : R) (wts : Nat) (next : Phase R D) :
    Option (Sys Thd R D) := do
  let row ← (s.rows r).call t Thread.isHeld (.writeData t wts)
  some (if (row.threads t).isHeld then
      { (s.setRow r row).goto t next with
        stored := Function.update s.stored r ((s.pend r).toList ++ s.stored r)
        pend := Function.update s.pend r none }
    else s.setRow r row)

/-- The version that a transaction announces for a row. -/
def announcement (writeSet : List (Access R D)) (c place : Nat) (r : R) : Option (Version D) :=
  (writeSet.find? fun a => decide (a.origRow = r)).map fun a => ⟨c, place, a.data⟩

/-- The versions of the write set are announced. -/
def Sys.commit (s : Sys Thd R D) (t : Thd) (txn : Txn R D) (writeSet : List (Access R D))
    (c : Nat) : Sys Thd R D :=
  { s.goto t (.writing writeSet c) with
    committed := ⟨c, s.committed.length + 1, txn.prog, txn.ops⟩ :: s.committed
    pend := fun r => (announcement writeSet c (s.committed.length + 1) r).or (s.pend r) }

/-- The next step of a thread; `none` while it waits. -/
def Sys.work (cfg : Config R) (s : Sys Thd R D) (t : Thd) : Option (Sys Thd R D) :=
  match s.phase t with
  | .idle => none
  | .executing txn =>
      match txn.prog.next txn.values with
      | none => some (s.goto t (cfg.enter txn.finish txn.commitWts))
      | some (r, writes) =>
          -- a transaction asks for every row once
          if r ∈ txn.accesses.map Access.origRow ∨ isLocked (s.rows r).word then none
          else some (s.goto t (.copying txn r writes (s.rows r).word))
  | .copying txn r writes v => some (s.goto t (.comparing txn r writes v (s.data r)))
  | .comparing txn r writes v copy =>
      if (s.rows r).word ||| rtsMask = v ||| rtsMask then
        let a : Access R D := ⟨if writes then .wr else .rd, r, copy, copy, wtsOf v, getRts v⟩
        some (s.goto t (.executing { txn with accesses := txn.accesses ++ [a] }))
      else some (s.goto t (.executing txn))
  | .preAborting txn [] c => some (s.goto t (.locking txn [] (cfg.writeSet txn) c))
  | .preAborting txn (a :: todo) c =>
      let v := (s.rows a.origRow).word
      if wtsOf v ≠ a.wts ∧ (a.type = .wr ∨ c > getRts v) then some (s.goto t (.aborting []))
      else some (s.goto t (.preAborting txn todo c))
  | .locking txn _ [] c => some (s.goto t (.raising txn (cfg.writeSet txn) c))
  | .locking txn held (a :: todo) c =>
      s.lock t a.origRow cfg.validationNoWait (.checking txn held a todo c)
        (.backingOff txn held c)
  | .checking txn held a todo c =>
      if wtsOf (s.rows a.origRow).word ≠ a.wts then some (s.goto t (.aborting (held ++ [a])))
      else some (s.goto t (.locking txn (held ++ [a]) todo c))
  | .backingOff txn [] c => some (s.goto t (cfg.enter txn c))
  | .backingOff txn (a :: todo) c => s.release t a.origRow (.backingOff txn todo c)
  | .raising txn [] c => some (s.goto t (.validating txn txn.readSet c))
  | .raising txn (a :: todo) c => do
      let row ← (s.rows a.origRow).step (.getRts t)
      let rts := getRts (s.rows a.origRow).word
      some ((s.setRow a.origRow row).goto t
        (.raising txn todo (if rts + 1 > c then rts + 1 else c)))
  | .validating txn [] c => some (s.commit t txn (cfg.writeSet txn) c)
  | .validating txn (a :: todo) c =>
      if a.rts < c then do
        let row ← (s.rows a.origRow).step (.tryRenew t a.wts c)
        some ((s.setRow a.origRow row).goto t (.renewing txn a todo c))
      else some (s.goto t (.validating txn todo c))
  | .renewing txn a todo c =>
      s.renew t a.origRow (.validating txn todo c) (.aborting (cfg.writeSet txn))
  | .writing [] _ => some (s.goto t .idle)
  | .writing (a :: todo) c => s.write t a.origRow c (.filling a todo c)
  | .filling a todo c =>
      some ({ s with data := Function.update s.data a.origRow a.data }.goto t (.unlocking a todo c))
  | .unlocking a todo c => s.release t a.origRow (.writing todo c)
  | .aborting [] => some (s.goto t .idle)
  | .aborting (a :: todo) => s.release t a.origRow (.aborting todo)

def step (cfg : Config R) (s : Sys Thd R D) : TxnAction Thd R D → Option (Sys Thd R D)
  | .start t prog =>
      match s.phase t with
      | .idle => some (s.goto t (.executing ⟨prog, []⟩))
      | _ => none
  | .work t => s.work cfg t
  | .giveUp t =>
      match s.phase t with
      | .executing _ => some (s.goto t .idle)
      | _ => none

/-- A renewal that is about to swap its word finds a lease that does not reach beyond its own. -/
def Lengthens (s : Sys Thd R D) : TxnAction Thd R D → Prop
  | .work t =>
      match s.phase t with
      | .renewing _ a _ _ => Extends (s.rows a.origRow) (.work t)
      | _ => True
  | .start _ _ | .giveUp _ => True

end VeriTxn.Tictoc
