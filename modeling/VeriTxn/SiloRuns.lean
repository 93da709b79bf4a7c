import VeriTxn.RowSilo
import VeriTxn.Transition

/-!
# SILO: interleaved transactions

Threads run transactions one at a time, and every operation on a row is a step of its own:
the copy made by `get_row`, each `get_tid`, lock, validation, write and release of
`validate_silo`.  The two options are parameters: with `pre_abort` the ids are compared before
the locks are taken (and again before every new attempt), and with the `no-wait` locks a refused
lock makes the thread give its locks back and start over, where the other kind waits.

The state keeps the committed transactions with what their accesses returned, and counts for
every thread the locks it took and gave back.  A transaction counts as committed from the moment
its id is chosen.
-/

namespace VeriTxn.Silo

open Serial Transition

variable {Thd R D : Type}

/-- A transaction with the copies its accesses returned. -/
structure Txn (R D : Type) where
  prog : Program R D
  accesses : List (Access R D)

/-- An access as an observation: the row, whether it writes, the value returned. -/
def Access.op (a : Access R D) : Op R D := ⟨a.origRow, decide (a.type = .wr), a.data⟩

def Txn.ops (txn : Txn R D) : List (Op R D) := txn.accesses.map Access.op

def Txn.values (txn : Txn R D) : List D := txn.accesses.map Access.data

/-- The access list at `finish`: the `i`-th local copy has the contents `f i`. -/
def localCopies (f : Nat → D) : Nat → List (Access R D) → List (Access R D)
  | _, [] => []
  | i, a :: accesses => { a with data := f i } :: localCopies f (i + 1) accesses

def Txn.finalAccesses (txn : Txn R D) : List (Access R D) :=
  localCopies (txn.prog.result txn.values) 0 txn.accesses

/-- `pre_abort`, `validation_lock` and the keys that order the locks. -/
structure Config (R : Type) where
  preAbort : Bool
  validationNoWait : Bool
  primaryKey : R → Nat

def Config.writeSet (cfg : Config R) (txn : Txn R D) : List (Access R D) :=
  let writeSet := txn.finalAccesses.filter fun a => a.type = .wr
  Occ.sortLoop (fun a b => cfg.primaryKey b.origRow < cfg.primaryKey a.origRow)
    (writeSet.length - 1) writeSet

def Txn.readSet (txn : Txn R D) : List (Access R D) :=
  txn.finalAccesses.filter fun a => a.type ≠ .wr

/-- Where a thread is.  Lists of accesses are what a loop has still to do, and `held` the part
    of the write set that is locked. -/
inductive Phase (R D : Type) where
  | idle
  /-- between the accesses of the transaction -/
  | executing (txn : Txn R D)
  /-- the `get_tid` comparisons ahead of the locks -/
  | preAborting (txn : Txn R D) (todo : List (Access R D))
  | locking (txn : Txn R D) (held todo : List (Access R D))
  /-- `a` is locked and its id not compared yet -/
  | checking (txn : Txn R D) (held : List (Access R D)) (a : Access R D)
      (todo : List (Access R D))
  /-- a lock was refused: the others are given back -/
  | backingOff (txn : Txn R D) (todo : List (Access R D))
  | validatingReads (txn : Txn R D) (todo : List (Access R D)) (maxTid : Nat)
  | validatingWrites (txn : Txn R D) (todo : List (Access R D)) (maxTid : Nat)
  | writing (todo : List (Access R D))
  /-- `a` is written and still locked -/
  | unlocking (a : Access R D) (todo : List (Access R D))
  /-- `final` with `rc == Abort`: the first `num_locks` rows are given back -/
  | aborting (todo : List (Access R D))
  /-- an assertion has failed -/
  | failed

structure Sys (Thd R D : Type) where
  rows : R → RowSilo D
  phase : Thd → Phase R D
  curTid : Thd → Nat
  committed : List (Program R D × List (Op R D))
  locks : Thd → R → Nat
  releases : Thd → R → Nat

inductive Action (Thd R D : Type) where
  | start (thd : Thd) (prog : Program R D)
  /-- the next operation of the thread -/
  | work (thd : Thd)
  /-- `finish(Abort)` by the transaction's own decision -/
  | giveUp (thd : Thd)

def Action.thd : Action Thd R D → Thd
  | .start t _ => t
  | .work t => t
  | .giveUp t => t

def Sys.init (store : R → D) : Sys Thd R D where
  rows r := RowSilo.init (store r)
  phase _ := .idle
  curTid _ := 0
  committed := []
  locks _ _ := 0
  releases _ _ := 0

/-- Where `validate_silo` starts, and starts over after a refused lock. -/
def Config.enter (cfg : Config R) (txn : Txn R D) : Phase R D :=
  if cfg.preAbort then .preAborting txn (cfg.writeSet txn ++ txn.readSet)
  else .locking txn [] (cfg.writeSet txn)

variable [DecidableEq Thd] [DecidableEq R]

def bump (count : Thd → R → Nat) (t : Thd) (r : R) : Thd → R → Nat :=
  fun u q => if u = t ∧ q = r then count u q + 1 else count u q

def Sys.goto (s : Sys Thd R D) (t : Thd) (phase : Phase R D) : Sys Thd R D :=
  { s with phase := Function.update s.phase t phase }

/-- A call of `lock` or `try_lock` that returns with the lock. -/
def Sys.lock (s : Sys Thd R D) (t : Thd) (r : R) (row : RowSilo D) (phase : Phase R D) :
    Sys Thd R D :=
  { s with
    rows := Function.update s.rows r row
    phase := Function.update s.phase t phase
    locks := bump s.locks t r }

/-- A call of `release`. -/
def Sys.release (s : Sys Thd R D) (t : Thd) (r : R) (phase : Phase R D) : Sys Thd R D :=
  match (s.rows r).release with
  | none => s.goto t .failed
  | some row =>
      { s with
        rows := Function.update s.rows r row
        phase := Function.update s.phase t phase
        releases := bump s.releases t r }

/-- A call of `write` with the thread's id. -/
def Sys.write (s : Sys Thd R D) (t : Thd) (a : Access R D) (phase : Phase R D) : Sys Thd R D :=
  match (s.rows a.origRow).write a.data (s.curTid t) with
  | none => s.goto t .failed
  | some row =>
      { s with
        rows := Function.update s.rows a.origRow row
        phase := Function.update s.phase t phase }

/-- The new `_cur_tid`. -/
def nextTid (maxTid curTid : Nat) : Nat :=
  (if maxTid > curTid then maxTid + 1 else curTid + 1) % 2 ^ 64

/-- All validations have succeeded. -/
def Sys.commit (s : Sys Thd R D) (t : Thd) (txn : Txn R D) (maxTid : Nat) (phase : Phase R D) :
    Sys Thd R D :=
  { s with
    phase := Function.update s.phase t phase
    curTid := Function.update s.curTid t (nextTid maxTid (s.curTid t))
    committed := s.committed ++ [(txn.prog, txn.ops)] }

/-- The next operation of a thread; `none` while it waits. -/
def Sys.work (cfg : Config R) (s : Sys Thd R D) (t : Thd) : Option (Sys Thd R D) :=
  match s.phase t with
  | .idle => none
  | .failed => none
  | .executing txn =>
      match txn.prog.next txn.values with
      | none => some (s.goto t (cfg.enter txn))
      | some (r, writes) =>
          -- a transaction asks for every row once
          if r ∈ txn.accesses.map Access.origRow then none
          else
            match (s.rows r).access with
            | none => none
            | some (copy, tid) =>
                let a : Access R D := ⟨if writes then .wr else .rd, r, copy, tid⟩
                some (s.goto t (.executing { txn with accesses := txn.accesses ++ [a] }))
  | .preAborting txn [] => some (s.goto t (.locking txn [] (cfg.writeSet txn)))
  | .preAborting txn (a :: todo) =>
      if (s.rows a.origRow).getTid ≠ a.tid then some (s.goto t (.aborting []))
      else some (s.goto t (.preAborting txn todo))
  | .locking txn _ [] => some (s.goto t (.validatingReads txn txn.readSet 0))
  | .locking txn held (a :: todo) =>
      match (s.rows a.origRow).tryLock with
      | some row => some (s.lock t a.origRow row (.checking txn held a todo))
      | none => if cfg.validationNoWait then some (s.goto t (.backingOff txn held)) else none
  | .checking txn held a todo =>
      -- `assert_lock`, in the `no-wait` loop only
      if cfg.validationNoWait && !(s.rows a.origRow).lockedBit then some (s.goto t .failed)
      else if (s.rows a.origRow).getTid ≠ a.tid then some (s.goto t (.aborting (held ++ [a])))
      else some (s.goto t (.locking txn (held ++ [a]) todo))
  | .backingOff txn [] => some (s.goto t (cfg.enter txn))
  | .backingOff txn (a :: todo) => some (s.release t a.origRow (.backingOff txn todo))
  | .validatingReads txn [] maxTid =>
      some (s.goto t (.validatingWrites txn (cfg.writeSet txn) maxTid))
  | .validatingReads txn (a :: todo) maxTid =>
      if (s.rows a.origRow).validate a.tid false then
        some (s.goto t (.validatingReads txn todo (if a.tid > maxTid then a.tid else maxTid)))
      else some (s.goto t (.aborting (cfg.writeSet txn)))
  | .validatingWrites txn [] maxTid =>
      some (s.commit t txn maxTid (.writing (cfg.writeSet txn)))
  | .validatingWrites txn (a :: todo) maxTid =>
      if (s.rows a.origRow).validate a.tid true then
        some (s.goto t (.validatingWrites txn todo (if a.tid > maxTid then a.tid else maxTid)))
      else some (s.goto t (.aborting (cfg.writeSet txn)))
  | .writing [] => some (s.goto t .idle)
  | .writing (a :: todo) => some (s.write t a (.unlocking a todo))
  | .unlocking a todo => some (s.release t a.origRow (.writing todo))
  | .aborting [] => some (s.goto t .idle)
  | .aborting (a :: todo) => some (s.release t a.origRow (.aborting todo))

def step (cfg : Config R) (s : Sys Thd R D) : Action Thd R D → Option (Sys Thd R D)
  | .start t prog =>
      match s.phase t with
      | .idle => some (s.goto t (.executing ⟨prog, []⟩))
      | _ => none
  | .work t => s.work cfg t
  | .giveUp t =>
      match s.phase t with
      | .executing _ => some (s.goto t .idle)
      | _ => none

/-! ### What a step does -/

/-- The steps of a thread, by the phase it is in. -/
inductive Moves (cfg : Config R) (s : Sys Thd R D) (t : Thd) : Sys Thd R D → Prop where
  | start (prog : Program R D) (hphase : s.phase t = .idle) :
      Moves cfg s t (s.goto t (.executing ⟨prog, []⟩))
  | giveUp (txn : Txn R D) (hphase : s.phase t = .executing txn) : Moves cfg s t (s.goto t .idle)
  | access (txn : Txn R D) (r : R) (writes : Bool) (hphase : s.phase t = .executing txn)
      (hnext : txn.prog.next txn.values = some (r, writes))
      (hfresh : r ∉ txn.accesses.map Access.origRow) (hfree : (s.rows r).lockedBit = false) :
      Moves cfg s t (s.goto t (.executing { txn with accesses := txn.accesses ++
        [⟨if writes then .wr else .rd, r, (s.rows r).data, (s.rows r).getTid⟩] }))
  | enter (txn : Txn R D)
      (hphase : s.phase t = .executing txn ∧ txn.prog.next txn.values = none ∨
        s.phase t = .backingOff txn []) : Moves cfg s t (s.goto t (cfg.enter txn))
  | preAbortFails (txn : Txn R D) (todo : List (Access R D))
      (hphase : s.phase t = .preAborting txn todo) : Moves cfg s t (s.goto t (.aborting []))
  | preAbort (txn : Txn R D) (a : Access R D) (todo : List (Access R D))
      (hphase : s.phase t = .preAborting txn (a :: todo)) :
      Moves cfg s t (s.goto t (.preAborting txn todo))
  | preAborted (txn : Txn R D) (hphase : s.phase t = .preAborting txn []) :
      Moves cfg s t (s.goto t (.locking txn [] (cfg.writeSet txn)))
  | lock (txn : Txn R D) (held : List (Access R D)) (a : Access R D) (todo : List (Access R D))
      (row : RowSilo D) (hphase : s.phase t = .locking txn held (a :: todo))
      (hlock : (s.rows a.origRow).tryLock = some row) :
      Moves cfg s t (s.lock t a.origRow row (.checking txn held a todo))
  | refused (txn : Txn R D) (held todo : List (Access R D))
      (hphase : s.phase t = .locking txn held todo) : Moves cfg s t (s.goto t (.backingOff txn held))
  | assertFails (txn : Txn R D) (held : List (Access R D)) (a : Access R D)
      (todo : List (Access R D)) (hphase : s.phase t = .checking txn held a todo)
      (hfree : (s.rows a.origRow).lockedBit = false) : Moves cfg s t (s.goto t .failed)
  | checkFails (txn : Txn R D) (held : List (Access R D)) (a : Access R D)
      (todo : List (Access R D)) (hphase : s.phase t = .checking txn held a todo) :
      Moves cfg s t (s.goto t (.aborting (held ++ [a])))
  | check (txn : Txn R D) (held : List (Access R D)) (a : Access R D)
      (todo : List (Access R D)) (hphase : s.phase t = .checking txn held a todo)
      (hsame : (s.rows a.origRow).getTid = a.tid) :
      Moves cfg s t (s.goto t (.locking txn (held ++ [a]) todo))
  | backOff (txn : Txn R D) (a : Access R D) (todo : List (Access R D))
      (hphase : s.phase t = .backingOff txn (a :: todo)) :
      Moves cfg s t (s.release t a.origRow (.backingOff txn todo))
  | locked (txn : Txn R D) (held : List (Access R D)) (hphase : s.phase t = .locking txn held []) :
      Moves cfg s t (s.goto t (.validatingReads txn txn.readSet 0))
  | validateRead (txn : Txn R D) (a : Access R D) (todo : List (Access R D)) (maxTid : Nat)
      (hphase : s.phase t = .validatingReads txn (a :: todo) maxTid)
      (hfree : (s.rows a.origRow).lockedBit = false)
      (hsame : (s.rows a.origRow).getTid = a.tid) :
      Moves cfg s t (s.goto t (.validatingReads txn todo (max maxTid a.tid)))
  | validatedReads (txn : Txn R D) (maxTid : Nat)
      (hphase : s.phase t = .validatingReads txn [] maxTid) :
      Moves cfg s t (s.goto t (.validatingWrites txn (cfg.writeSet txn) maxTid))
  | validateWrite (txn : Txn R D) (a : Access R D) (todo : List (Access R D)) (maxTid : Nat)
      (hphase : s.phase t = .validatingWrites txn (a :: todo) maxTid) :
      Moves cfg s t (s.goto t (.validatingWrites txn todo (max maxTid a.tid)))
  | invalid (txn : Txn R D) (todo : List (Access R D)) (maxTid : Nat)
      (hphase : s.phase t = .validatingReads txn todo maxTid ∨
        s.phase t = .validatingWrites txn todo maxTid) :
      Moves cfg s t (s.goto t (.aborting (cfg.writeSet txn)))
  | commit (txn : Txn R D) (maxTid : Nat) (hphase : s.phase t = .validatingWrites txn [] maxTid) :
      Moves cfg s t (s.commit t txn maxTid (.writing (cfg.writeSet txn)))
  | write (a : Access R D) (todo : List (Access R D)) (hphase : s.phase t = .writing (a :: todo)) :
      Moves cfg s t (s.write t a (.unlocking a todo))
  | unlock (a : Access R D) (todo : List (Access R D)) (hphase : s.phase t = .unlocking a todo) :
      Moves cfg s t (s.release t a.origRow (.writing todo))
  | giveBack (a : Access R D) (todo : List (Access R D))
      (hphase : s.phase t = .aborting (a :: todo)) :
      Moves cfg s t (s.release t a.origRow (.aborting todo))
  | done (hphase : s.phase t = .writing [] ∨ s.phase t = .aborting []) :
      Moves cfg s t (s.goto t .idle)

theorem ite_gt_eq_max (m n : Nat) : (if n > m then n else m) = max m n := by
  split <;> omega

theorem RowSilo.validate_false {row : RowSilo D} {tid : Nat} (h : row.validate tid false = true) :
    row.lockedBit = false ∧ row.getTid = tid := by
  unfold RowSilo.validate at h
  cases hlocked : row.lockedBit with
  | true => simp [hlocked] at h
  | false =>
      simp only [Bool.false_eq_true, if_false, hlocked, decide_eq_true_eq] at h
      exact ⟨rfl, h.symm⟩

theorem work_moves {cfg : Config R} {s s' : Sys Thd R D} {t : Thd}
    (h : s.work cfg t = some s') : Moves cfg s t s' := by
  unfold Sys.work at h
  split at h
  next => cases h
  next => cases h
  next txn hphase =>
    split at h
    next hnext =>
      cases h
      exact .enter txn (Or.inl ⟨hphase, hnext⟩)
    next r writes hnext =>
      split at h
      next => cases h
      next hfresh =>
        unfold RowSilo.access at h
        cases hlocked : (s.rows r).lockedBit with
        | true =>
            simp only [hlocked, if_true] at h
            cases h
        | false =>
            simp only [hlocked, Bool.false_eq_true, if_false] at h
            cases h
            exact .access txn r writes hphase hnext hfresh hlocked
  next txn hphase =>
    cases h
    exact .preAborted txn hphase
  next txn a todo hphase =>
    split at h
    · cases h
      exact .preAbortFails txn _ hphase
    · cases h
      exact .preAbort txn a todo hphase
  next txn held hphase =>
    cases h
    exact .locked txn held hphase
  next txn held a todo hphase =>
    split at h
    next row hlock =>
      cases h
      exact .lock txn held a todo row hphase hlock
    next =>
      split at h
      · cases h
        exact .refused txn held _ hphase
      · cases h
  next txn held a todo hphase =>
    split at h
    next hassert =>
      cases h
      simp only [Bool.and_eq_true, Bool.not_eq_true'] at hassert
      exact .assertFails txn held a todo hphase hassert.2
    next =>
      split at h
      next =>
        cases h
        exact .checkFails txn held a todo hphase
      next hsame =>
        cases h
        exact .check txn held a todo hphase (not_not.mp hsame)
  next txn hphase =>
    cases h
    exact .enter txn (Or.inr hphase)
  next txn a todo hphase =>
    cases h
    exact .backOff txn a todo hphase
  next txn maxTid hphase =>
    cases h
    exact .validatedReads txn maxTid hphase
  next txn a todo maxTid hphase =>
    split at h
    next hvalid =>
      cases h
      rw [ite_gt_eq_max]
      obtain ⟨hfree, hsame⟩ := RowSilo.validate_false hvalid
      exact .validateRead txn a todo maxTid hphase hfree hsame
    next =>
      cases h
      exact .invalid txn _ maxTid (Or.inl hphase)
  next txn maxTid hphase =>
    cases h
    exact .commit txn maxTid hphase
  next txn a todo maxTid hphase =>
    split at h
    next =>
      cases h
      rw [ite_gt_eq_max]
      exact .validateWrite txn a todo maxTid hphase
    next =>
      cases h
      exact .invalid txn _ maxTid (Or.inr hphase)
  next hphase =>
    cases h
    exact .done (Or.inl hphase)
  next a todo hphase =>
    cases h
    exact .write a todo hphase
  next a todo hphase =>
    cases h
    exact .unlock a todo hphase
  next hphase =>
    cases h
    exact .done (Or.inr hphase)
  next a todo hphase =>
    cases h
    exact .giveBack a todo hphase

theorem step_moves {cfg : Config R} {s s' : Sys Thd R D} {a : Action Thd R D}
    (h : step cfg s a = some s') : Moves cfg s a.thd s' := by
  cases a with
  | start t prog =>
      simp only [step] at h
      split at h
      next hphase =>
        cases h
        exact .start prog hphase
      next => cases h
  | work t => exact work_moves h
  | giveUp t =>
      simp only [step] at h
      split at h
      next txn hphase =>
        cases h
        exact .giveUp txn hphase
      next => cases h

end VeriTxn.Silo
