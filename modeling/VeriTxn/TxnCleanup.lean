import VeriTxn.TxnExits

/-!
# Every transaction ends in one cleanup

A thread runs a transaction under `NO_WAIT` while others lock, change and unlock the same
rows.  Its locks are the entries of `owners` with its name, and `cleanup` gives back one
for every access.  A body that ends in `finish` therefore ends clean; a plain `return`
leaves the accesses and their locks to the thread's next transaction.
-/

namespace VeriTxn

open Bytes Transition NoWait

variable {T R : Type}

/-- Where a body is. -/
inductive Progress (R : Type) where
  | running (course : Course R)
  | returned (rc : RC)

/-- A thread with its transaction: the rows, its accesses (`row_cnt` is their number),
    its counters, and how often `cleanup` ran. -/
structure Thread (T R : Type) where
  rows : R → Row T (List Byte)
  accesses : List (Access R (List Byte))
  wrCnt : Nat
  insertCnt : Nat
  cleanups : Nat
  progress : Progress R

/-- The locks that `txn` holds on a row. -/
def locksOf [DecidableEq T] (txn : T) (row : Row T (List Byte)) : Nat :=
  row.owners.countP fun e => e.txn = txn

/-- A step: a call with what comes back from outside the thread, or a change of a row by
    others. -/
inductive Thread.Action (T R : Type) where
  | indexRead (found : Lookup R)
  | indexNext (item : Option R)
  | readShared
  | getRow
  | insertRow
  | startDelivery (started : Bool)
  | exit
  | others (r : R) (row : Row T (List Byte))

namespace Thread

variable [DecidableEq T] [DecidableEq R]

def go (s : Thread T R) (course : Course R) : Thread T R := { s with progress := .running course }

/-- `get_row`: NULL when the lock is refused. -/
def getRow (txn : T) (s : Thread T R) (r : R) (type : AccessT)
    (k : Option (List Byte) → Course R) : Thread T R :=
  match NoWait.getRow s.rows txn r type with
  | none => s.go (k none)
  | some (rows, access) =>
      { s with
        rows := rows
        accesses := s.accesses ++ [access]
        wrCnt := if type = .wr then s.wrCnt + 1 else s.wrCnt
        progress := .running (k (some (rows r).data)) }

/-- `insert_row`, which counts the rows unless the index is a B+-tree. -/
def insertRow (btree : Bool) (s : Thread T R) (k : Course R) : Option (Thread T R) :=
  if btree then some (s.go k)
  else if s.insertCnt < maxRowPerTxn then
    some { s with insertCnt := s.insertCnt + 1, progress := .running k }
  else none

/-- `finish(rc)`: `cleanup(rc)`, then the counters are 0.  A page version that has changed
    since `get_row` makes `finish` call itself for ever; that is no step. -/
def finish (txn : T) (s : Thread T R) (rc : RC) (result : Option RC) : Option (Thread T R) :=
  (cleanup s.rows txn rc s.accesses).map fun (_, rows) =>
    { rows := rows
      accesses := []
      wrCnt := 0
      insertCnt := 0
      cleanups := s.cleanups + 1
      progress := .returned (result.getD rc) }

/-- A step of the thread or of others, who leave the locks of `txn` alone. -/
def step (btree : Bool) (txn : T) (s : Thread T R) (a : Action T R) : Option (Thread T R) :=
  match a, s.progress with
  | .others r row, _ =>
      if locksOf txn row = locksOf txn (s.rows r) then
        some { s with rows := Function.update s.rows r row }
      else none
  | .indexRead found, .running (.indexRead _ _ k) => some (s.go (k found))
  | .indexNext item, .running (.indexNext _ _ k) => some (s.go (k item))
  | .readShared, .running (.readShared r k) => some (s.go (k (s.rows r).data))
  | .getRow, .running (.getRow r type k) => some (s.getRow txn r type k)
  | .insertRow, .running (.insertRow k) => s.insertRow btree k
  | .startDelivery started, .running (.startDelivery _ k) => some (s.go (k started))
  | .exit, .running (.finish rc result) => s.finish txn rc result
  | .exit, .running (.ret rc) => some { s with progress := .returned rc }
  | _, _ => none

/-- The thread is about to run a transaction and has nothing left of the last one. -/
structure Starts (txn : T) (course : Course R) (s : Thread T R) : Prop where
  progress : s.progress = .running course
  accesses : s.accesses = []
  wrCnt : s.wrCnt = 0
  insertCnt : s.insertCnt = 0
  cleanups : s.cleanups = 0
  locks : ∀ r, locksOf txn (s.rows r) = 0

/-- One cleanup has run and left nothing. -/
structure EndsClean (txn : T) (s : Thread T R) : Prop where
  cleanups : s.cleanups = 1
  accesses : s.accesses = []
  wrCnt : s.wrCnt = 0
  insertCnt : s.insertCnt = 0
  locks : ∀ r, locksOf txn (s.rows r) = 0

/-! ### Locks and accesses -/

/-- The accesses to a row. -/
def accessesTo (accesses : List (Access R (List Byte))) (r : R) : Nat :=
  accesses.countP fun a => a.origRow = r

omit [DecidableEq R] in
theorem locksOf_dropOwner {txn : T} {owners owners' : List (LockEntry T)}
    (h : dropOwner txn owners = some owners') :
    owners'.countP (fun e => e.txn = txn) + 1 = owners.countP (fun e => e.txn = txn) := by
  induction owners generalizing owners' with
  | nil => cases h
  | cons e owners ih =>
      rw [dropOwner] at h
      split at h
      · rename_i htxn
        cases h
        simp [htxn]
      · rename_i htxn
        obtain ⟨rest, hrest, rfl⟩ := Option.map_eq_some_iff.mp h
        simpa [htxn] using ih hrest

/-- Giving rows back gives one lock back for each. -/
theorem locksOf_returnRows {txn : T} {rows rows' : R → Row T (List Byte)}
    {accesses : List (Access R (List Byte))} (h : returnRows rows txn accesses = some rows')
    (r : R) : locksOf txn (rows' r) + accessesTo accesses r = locksOf txn (rows r) := by
  induction accesses generalizing rows with
  | nil =>
      cases h
      rfl
  | cons a accesses ih =>
      obtain ⟨mid, hmid, hrest⟩ := Option.bind_eq_some_iff.mp h
      obtain ⟨row, hrelease, rfl⟩ := Option.map_eq_some_iff.mp hmid
      obtain ⟨owners, hdrop, rfl⟩ := Option.map_eq_some_iff.mp hrelease
      have hrest := ih hrest
      by_cases hr : a.origRow = r
      · subst hr
        have hlocks := locksOf_dropOwner hdrop
        have howners : (if a.type = .xp then { rows a.origRow with data := a.origData }
            else rows a.origRow).owners = (rows a.origRow).owners := by
          split
          · rfl
          · rfl
        rw [howners] at hlocks
        simp only [Function.update_self, locksOf, accessesTo, List.countP_cons_of_pos,
          decide_true] at hrest ⊢
        omega
      · rw [Function.update_of_ne (Ne.symm hr)] at hrest
        simpa [accessesTo, hr] using hrest

theorem locksOf_cleanup {txn : T} {rows : R → Row T (List Byte)} {rc : RC}
    {accesses : List (Access R (List Byte))}
    {result : List (R × List Byte) × (R → Row T (List Byte))}
    (h : cleanup rows txn rc accesses = some result) (r : R) :
    locksOf txn (result.2 r) + accessesTo accesses r = locksOf txn (rows r) := by
  obtain ⟨rows', hreturn, heq⟩ := Option.bind_eq_some_iff.mp h
  cases heq
  have hlocks := locksOf_returnRows hreturn r
  have hcount : accessesTo (accesses.map fun a =>
      if a.type = .wr ∧ rc = .abort then { a with type := .xp } else a).reverse r =
      accessesTo accesses r := by
    rw [accessesTo, accessesTo, List.countP_reverse, List.countP_map]
    refine List.countP_congr fun a _ => ?_
    by_cases hxp : a.type = .wr ∧ rc = .abort
    · simp [hxp]
    · simp [hxp]
  rw [hcount] at hlocks
  exact hlocks

/-- One lock for every access, and no cleanup yet. -/
def Balanced (txn : T) (s : Thread T R) : Prop :=
  s.cleanups = 0 ∧ ∀ r, locksOf txn (s.rows r) = accessesTo s.accesses r

/-- While a body runs its locks are balanced and it ends in one of the ways of `P`; when it
    has returned, `finish` has left nothing or `cleanup` has not run. -/
def Bound (P : Course.Exit → Prop) (txn : T) (s : Thread T R) : Prop :=
  match s.progress with
  | .running course => s.Balanced txn ∧ course.Every P
  | .returned _ => (P .finish ∧ s.EndsClean txn) ∨ (P .ret ∧ s.cleanups = 0)

variable {btree : Bool} {txn : T} {s s' : Thread T R} {course : Course R}

theorem Starts.balanced (h : s.Starts txn course) : s.Balanced txn := by
  refine ⟨h.cleanups, fun r => ?_⟩
  rw [h.locks r, h.accesses]
  rfl

theorem Balanced.go (h : s.Balanced txn) (course : Course R) :
    (s.go course).Balanced txn := h

/-- The change of a row by others is none of the locks of `txn`. -/
theorem locksOf_others {r : R} {row : Row T (List Byte)}
    (h : locksOf txn row = locksOf txn (s.rows r)) (q : R) :
    locksOf txn (Function.update s.rows r row q) = locksOf txn (s.rows q) := by
  by_cases hq : q = r
  · subst hq
    rw [Function.update_self, h]
  · rw [Function.update_of_ne hq]

theorem Balanced.getRow (h : s.Balanced txn) (r : R) (type : AccessT)
    (k : Option (List Byte) → Course R) : (s.getRow txn r type k).Balanced txn := by
  unfold Thread.getRow
  cases hget : NoWait.getRow s.rows txn r type with
  | none => exact h
  | some result =>
      obtain ⟨row, hlock, rfl⟩ := Option.map_eq_some_iff.mp hget
      unfold Row.lockGet at hlock
      split at hlock
      · cases hlock
      · cases hlock
        refine ⟨h.1, fun q => ?_⟩
        have hq := h.2 q
        simp only [accessesTo, List.countP_append, List.countP_singleton] at hq ⊢
        by_cases hqr : q = r
        · subst hqr
          simp only [Function.update_self, locksOf, List.countP_cons_of_pos, decide_true,
            if_true] at hq ⊢
          rw [hq]
        · simp only [Function.update_of_ne hqr, Ne.symm hqr, decide_false, Bool.false_eq_true,
            if_false, Nat.add_zero]
          exact hq

omit [DecidableEq T] in
theorem getRow_progress (txn : T) (s : Thread T R) (r : R) (type : AccessT)
    (k : Option (List Byte) → Course R) :
    ∃ data, (s.getRow txn r type k).progress = .running (k data) := by
  unfold Thread.getRow
  cases NoWait.getRow s.rows txn r type with
  | none => exact ⟨none, rfl⟩
  | some result => exact ⟨_, rfl⟩

theorem Balanced.finish (h : s.Balanced txn) {rc : RC} {result : Option RC}
    (hstep : s.finish txn rc result = some s') :
    s'.EndsClean txn ∧ s'.progress = .returned (result.getD rc) := by
  obtain ⟨⟨entry, rows⟩, hclean, rfl⟩ := Option.map_eq_some_iff.mp hstep
  refine ⟨⟨by simp [h.1], rfl, rfl, rfl, fun r => ?_⟩, rfl⟩
  have hlocks := locksOf_cleanup hclean r
  have hheld := h.2 r
  simp only at hlocks ⊢
  omega

/-- What a call of a running body does: the body goes on with one of the courses the call
    may go on with, or it ends. -/
theorem step_running {a : Action T R} (hbalanced : s.Balanced txn)
    (hcourse : s.progress = .running course) (hcall : ∀ r row, a ≠ .others r row)
    (hstep : s.step btree txn a = some s') :
    (∃ course', s'.Balanced txn ∧ s'.progress = .running course' ∧
      ∀ P, course.Every P → course'.Every P) ∨
    (∃ rc, s'.progress = .returned rc ∧ s'.EndsClean txn ∧ ∀ P, course.Every P → P .finish) ∨
    (∃ rc, s'.progress = .returned rc ∧ s'.cleanups = 0 ∧ ∀ P, course.Every P → P .ret) := by
  unfold step at hstep
  rw [hcourse] at hstep
  cases a with
  | others r row => exact absurd rfl (hcall r row)
  | indexRead found =>
      cases course with
      | indexRead index key k =>
          cases hstep
          exact Or.inl ⟨k found, hbalanced, rfl, fun P h => h found⟩
      | _ => cases hstep
  | indexNext item =>
      cases course with
      | indexNext index last k =>
          cases hstep
          exact Or.inl ⟨k item, hbalanced, rfl, fun P h => h item⟩
      | _ => cases hstep
  | readShared =>
      cases course with
      | readShared r k =>
          cases hstep
          exact Or.inl ⟨k _, hbalanced, rfl, fun P h => h _⟩
      | _ => cases hstep
  | getRow =>
      cases course with
      | getRow r type k =>
          cases hstep
          obtain ⟨data, hprogress⟩ := getRow_progress txn s r type k
          exact Or.inl ⟨k data, hbalanced.getRow r type k, hprogress, fun P h => h data⟩
      | _ => cases hstep
  | insertRow =>
      cases course with
      | insertRow k =>
          change s.insertRow btree k = some s' at hstep
          unfold Thread.insertRow at hstep
          split at hstep
          · cases hstep
            exact Or.inl ⟨k, hbalanced, rfl, fun P h => h⟩
          · split at hstep
            · cases hstep
              exact Or.inl ⟨k, hbalanced, rfl, fun P h => h⟩
            · cases hstep
      | _ => cases hstep
  | startDelivery started =>
      cases course with
      | startDelivery wId k =>
          cases hstep
          exact Or.inl ⟨k started, hbalanced, rfl, fun P h => h started⟩
      | _ => cases hstep
  | exit =>
      cases course with
      | finish rc result =>
          obtain ⟨hclean, hprogress⟩ := hbalanced.finish hstep
          exact Or.inr (Or.inl ⟨_, hprogress, hclean, fun P h => h⟩)
      | ret rc =>
          cases hstep
          exact Or.inr (Or.inr ⟨rc, rfl, hbalanced.1, fun P h => h⟩)
      | _ => cases hstep

/-- A step of others changes neither the course nor what the thread holds. -/
theorem step_others {r : R} {row : Row T (List Byte)}
    (hstep : s.step btree txn (.others r row) = some s') :
    s'.progress = s.progress ∧ s'.accesses = s.accesses ∧ s'.wrCnt = s.wrCnt ∧
      s'.insertCnt = s.insertCnt ∧ s'.cleanups = s.cleanups ∧
      ∀ q, locksOf txn (s'.rows q) = locksOf txn (s.rows q) := by
  simp only [step] at hstep
  split at hstep
  · rename_i hlocks
    cases hstep
    exact ⟨rfl, rfl, rfl, rfl, rfl, locksOf_others hlocks⟩
  · cases hstep

theorem Bound.step {P : Course.Exit → Prop} (h : s.Bound P txn) {a : Action T R}
    (hstep : s.step btree txn a = some s') : s'.Bound P txn := by
  by_cases hcall : ∀ r row, a ≠ .others r row
  · unfold Bound at h
    cases hcourse : s.progress with
    | running course =>
        rw [hcourse] at h
        unfold Bound
        rcases step_running h.1 hcourse hcall hstep with ⟨course', hbalanced, hprogress, hexits⟩ |
          ⟨rc, hprogress, hclean, hexits⟩ | ⟨rc, hprogress, hnone, hexits⟩
        · rw [hprogress]
          exact ⟨hbalanced, hexits P h.2⟩
        · rw [hprogress]
          exact Or.inl ⟨hexits P h.2, hclean⟩
        · rw [hprogress]
          exact Or.inr ⟨hexits P h.2, hnone⟩
    | returned rc =>
        -- a body that has returned makes no more calls
        unfold Thread.step at hstep
        rw [hcourse] at hstep
        cases a with
        | others r row => exact absurd rfl (hcall r row)
        | _ => cases hstep
  · push Not at hcall
    obtain ⟨r, row, rfl⟩ := hcall
    obtain ⟨hprogress, haccesses, hwr, hinsert, hcleanups, hlocks⟩ := step_others hstep
    unfold Bound at h ⊢
    rw [hprogress]
    cases hcourse : s.progress with
    | running course =>
        rw [hcourse] at h
        refine ⟨⟨hcleanups.trans h.1.1, fun q => ?_⟩, h.2⟩
        rw [hlocks q, haccesses]
        exact h.1.2 q
    | returned rc =>
        rw [hcourse] at h
        rcases h with ⟨hfinish, hclean⟩ | ⟨hret, hnone⟩
        · refine Or.inl ⟨hfinish, hcleanups.trans hclean.cleanups, haccesses.trans hclean.accesses,
            hwr.trans hclean.wrCnt, hinsert.trans hclean.insertCnt, fun q => ?_⟩
          exact (hlocks q).trans (hclean.locks q)
        · exact Or.inr ⟨hret, hcleanups.trans hnone⟩

theorem Bound.runs {P : Course.Exit → Prop} (h : s.Bound P txn) {as : List (Action T R)}
    (hrun : runs (Thread.step btree txn) s as = some s') : s'.Bound P txn := by
  induction as generalizing s with
  | nil =>
      cases hrun
      exact h
  | cons a as ih =>
      obtain ⟨s₁, hfirst, hrest⟩ := runs_cons_eq_some.mp hrun
      exact ih (h.step hfirst) hrest

/-- A balanced body all of whose ends are a `finish` ends clean. -/
theorem endsClean_of_every (hbalanced : s.Balanced txn) (hcourse : s.progress = .running course)
    (hexits : course.Every Course.Exit.IsFinish) {as : List (Action T R)} {rc : RC}
    (hrun : runs (step btree txn) s as = some s') (hret : s'.progress = .returned rc) :
    s'.EndsClean txn := by
  have hbound : s.Bound Course.Exit.IsFinish txn := by
    unfold Bound
    rw [hcourse]
    exact ⟨hbalanced, hexits⟩
  have hend := hbound.runs hrun
  unfold Bound at hend
  rw [hret] at hend
  rcases hend with ⟨-, hclean⟩ | ⟨hfalse, -⟩
  · exact hclean
  · cases hfalse

/-- One all of whose ends are a plain `return` does not. -/
theorem not_endsClean_of_every (hbalanced : s.Balanced txn)
    (hcourse : s.progress = .running course) (hexits : course.Every Course.Exit.IsRet)
    {as : List (Action T R)} {rc : RC} (hrun : runs (step btree txn) s as = some s')
    (hret : s'.progress = .returned rc) : ¬ s'.EndsClean txn := by
  have hbound : s.Bound Course.Exit.IsRet txn := by
    unfold Bound
    rw [hcourse]
    exact ⟨hbalanced, hexits⟩
  have hend := hbound.runs hrun
  unfold Bound at hend
  rw [hret] at hend
  rcases hend with ⟨hfalse, -⟩ | ⟨-, hnone⟩
  · cases hfalse
  · intro hclean
    have hone := hclean.cleanups
    rw [hnone] at hone
    exact absurd hone (by decide)

/-- What the first call of a run returned. -/
def firstCall : List (Action T R) → Option (Action T R)
  | [] => none
  | .others _ _ :: as => firstCall as
  | a :: _ => some a

/-- Up to its first call the thread is where it started. -/
theorem runs_firstCall (hbalanced : s.Balanced txn) (hcourse : s.progress = .running course)
    {as : List (Action T R)} {rc : RC} (hrun : runs (step btree txn) s as = some s')
    (hret : s'.progress = .returned rc) :
    ∃ (a : Action T R) (s₁ s₂ : Thread T R) (bs : List (Action T R)),
      firstCall as = some a ∧ s₁.Balanced txn ∧ s₁.progress = .running course ∧
      (∀ r row, a ≠ .others r row) ∧ s₁.step btree txn a = some s₂ ∧
      runs (step btree txn) s₂ bs = some s' := by
  induction as generalizing s with
  | nil =>
      cases hrun
      rw [hcourse] at hret
      cases hret
  | cons a as ih =>
      obtain ⟨s₁, hfirst, hrest⟩ := runs_cons_eq_some.mp hrun
      by_cases hcall : ∀ r row, a ≠ .others r row
      · refine ⟨a, s, s₁, as, ?_, hbalanced, hcourse, hcall, hfirst, hrest⟩
        cases a with
        | others r row => exact absurd rfl (hcall r row)
        | _ => rfl
      · push Not at hcall
        obtain ⟨r, row, rfl⟩ := hcall
        obtain ⟨hprogress, haccesses, -, -, hcleanups, hlocks⟩ := step_others hfirst
        refine ih ⟨hcleanups.trans hbalanced.1, fun q => ?_⟩ (hprogress.trans hcourse) hrest
        rw [hlocks q, haccesses]
        exact hbalanced.2 q

end Thread

/-! ### The six bodies -/

open Tpcc Ycsb

/-- A stored procedure with its query, and with what else its course depends on. -/
inductive Procedure : Type → Type 1 where
  | payment (whUpdate : Bool) (query : PaymentQuery) : Procedure RowRef
  | newOrder (query : NewOrderQuery) (olNumber : Nat → UInt64) : Procedure RowRef
  | orderStatus (query : Course.OrderStatusQuery) : Procedure RowRef
  | delivery (wId : UInt64) : Procedure RowRef
  | stockLevel (query : Course.StockLevelQuery) (primaryKey : RowRef → UInt64)
      (supply : Nat → UInt64) : Procedure RowRef
  | ycsb {R : Type} (primaryKey : R → Nat) (requests : List Ycsb.Request) : Procedure R

/-- `run_txn`. -/
def Procedure.course : Procedure R → Course R
  | .payment whUpdate query => Course.runPayment whUpdate query
  | .newOrder query olNumber => Course.runNewOrder query olNumber
  | .orderStatus query => Course.runOrderStatus query
  | .delivery wId => Course.runDelivery wId
  | .stockLevel query primaryKey supply => Course.runStockLevel query primaryKey supply
  | .ycsb primaryKey requests => Course.runTxn primaryKey requests

/-- An order-status does not look for a last name that is not there, and a delivery finds
    that its warehouse is being delivered already. -/
def Procedure.Finishes : Procedure R → List (Thread.Action T R) → Prop
  | .orderStatus query, as =>
      query.byLastName = true → Thread.firstCall as ≠ some (.indexRead .absent)
  | .delivery _, as => Thread.firstCall as = some (.startDelivery false)
  | _, _ => True

namespace Thread

variable [DecidableEq T] [DecidableEq R]

/-- An order-status by last name ends clean unless the name is not found. -/
theorem orderStatus_byLastName_iff {btree : Bool} {txn : T} {query : Course.OrderStatusQuery}
    [DecidableEq RowRef] {s s' : Thread T RowRef} (hname : query.byLastName = true)
    (hbalanced : s.Balanced txn)
    (hcourse : s.progress = .running (Course.runOrderStatus query))
    {as : List (Action T RowRef)} {rc : RC} (hrun : runs (step btree txn) s as = some s')
    (hret : s'.progress = .returned rc) :
    s'.EndsClean txn ↔ firstCall as ≠ some (.indexRead .absent) := by
  obtain ⟨a, s₁, s₂, bs, hfirst, hbalanced₁, hcourse₁, hcall, hstep, hrest⟩ :=
    runs_firstCall hbalanced hcourse hrun hret
  rw [Course.runOrderStatus, if_pos hname] at hcourse₁
  unfold step at hstep
  rw [hcourse₁] at hstep
  cases a with
  | others r row => exact absurd rfl (hcall r row)
  | indexRead found =>
      cases hstep
      rw [hfirst]
      cases found with
      | absent =>
          exact iff_of_false (not_endsClean_of_every (hbalanced₁.go (.ret .abort)) rfl trivial hrest
            hret) (by simp)
      | error =>
          exact iff_of_true (endsClean_of_every (hbalanced₁.go .crash) rfl trivial hrest hret)
            (by simp)
      | found first next =>
          refine iff_of_true (endsClean_of_every (hbalanced₁.go _) rfl ?_ hrest hret) (by simp)
          simp only
          split
          · trivial
          · exact fun data => Course.every_readOrAbort trivial fun _ _ =>
              Course.every_statusOfOrder trivial query _
  | _ => cases hstep

/-- A delivery ends clean exactly if it is not started. -/
theorem delivery_iff {btree : Bool} {txn : T} {wId : UInt64} [DecidableEq RowRef]
    {s s' : Thread T RowRef} (hbalanced : s.Balanced txn)
    (hcourse : s.progress = .running (Course.runDelivery wId))
    {as : List (Action T RowRef)} {rc : RC} (hrun : runs (step btree txn) s as = some s')
    (hret : s'.progress = .returned rc) :
    s'.EndsClean txn ↔ firstCall as = some (.startDelivery false) := by
  obtain ⟨a, s₁, s₂, bs, hfirst, hbalanced₁, hcourse₁, hcall, hstep, hrest⟩ :=
    runs_firstCall hbalanced hcourse hrun hret
  unfold step at hstep
  rw [hcourse₁] at hstep
  cases a with
  | others r row => exact absurd rfl (hcall r row)
  | startDelivery started =>
      cases hstep
      rw [hfirst]
      cases started with
      | true =>
          have hnot := not_endsClean_of_every (hbalanced₁.go _) rfl
            (Course.every_deliverDistricts trivial wId [1, 2, 3, 4, 5, 6, 7, 8, 9, 10]) hrest hret
          exact iff_of_false hnot (by simp)
      | false =>
          exact iff_of_true (endsClean_of_every (hbalanced₁.go (.finish .rcok none)) rfl trivial
            hrest hret) rfl
  | _ => cases hstep

/-- A transaction that starts clean and returns ends in one cleanup, with no access and no
    lock left, exactly if it is not an order-status whose last name is not found and not a
    delivery that is started. -/
theorem ends_in_one_cleanup_iff (btree : Bool) (txn : T) (p : Procedure R) (s s' : Thread T R)
    (hstart : s.Starts txn p.course) (as : List (Action T R))
    (hrun : runs (step btree txn) s as = some s') (hret : ∃ rc, s'.progress = .returned rc) :
    s'.EndsClean txn ↔ p.Finishes as := by
  obtain ⟨rc, hret⟩ := hret
  have hbalanced := hstart.balanced
  have hcourse := hstart.progress
  cases p with
  | payment whUpdate query =>
      exact iff_of_true (endsClean_of_every hbalanced hcourse
        (Course.every_runPayment trivial whUpdate query) hrun hret) trivial
  | newOrder query olNumber =>
      exact iff_of_true (endsClean_of_every hbalanced hcourse
        (Course.every_ofBody trivial _) hrun hret) trivial
  | orderStatus query =>
      cases hname : query.byLastName with
      | true =>
          rw [orderStatus_byLastName_iff hname hbalanced hcourse hrun hret]
          simp [Procedure.Finishes, hname]
      | false =>
          have hexits : (Course.runOrderStatus query).Every Course.Exit.IsFinish := by
            rw [Course.runOrderStatus, if_neg (by simp [hname])]
            exact Course.every_readUnchecked fun _ => Course.every_statusOfOrder trivial query _
          exact iff_of_true (endsClean_of_every hbalanced hcourse hexits hrun hret)
            (by simp [Procedure.Finishes, hname])
  | delivery wId => exact delivery_iff hbalanced hcourse hrun hret
  | stockLevel query primaryKey supply =>
      exact iff_of_true (endsClean_of_every hbalanced hcourse
        (Course.every_runStockLevel trivial query primaryKey supply) hrun hret) trivial
  | ycsb primaryKey requests =>
      exact iff_of_true (endsClean_of_every hbalanced hcourse
        (Course.every_runRequests trivial primaryKey _ requests) hrun hret) trivial

/-- A thread about to run `course` among rows that nobody has locked. -/
def fresh (course : Course RowRef) : Thread Nat RowRef :=
  ⟨fun _ => ⟨[], [], .none⟩, [], 0, 0, 0, .running course⟩

theorem fresh_starts (course : Course RowRef) : (fresh course).Starts 1 course :=
  ⟨rfl, rfl, rfl, rfl, rfl, fun _ => rfl⟩

/-- A payment whose district is not found. -/
def noDistrict : List (Action Nat RowRef) :=
  [.indexRead (.found ⟨.warehouse, 0⟩ []), .getRow, .indexRead .absent, .exit]

/-- The payment gives the lock on the warehouse back. -/
theorem payment_ends_clean :
    ∃ s', runs (step true 1) (fresh (Course.runPayment true ⟨1, 1, 1, 1, 1, 1, [], 0, false⟩))
      noDistrict = some s' ∧ s'.EndsClean 1 :=
  ⟨_, rfl, (ends_in_one_cleanup_iff true 1 (.payment true ⟨1, 1, 1, 1, 1, 1, [], 0, false⟩) _ _
    (fresh_starts _) noDistrict rfl ⟨.abort, rfl⟩).mpr trivial⟩

/-- A delivery that finds no order line of the second district. -/
def secondDistrictEmpty : List (Action Nat RowRef) :=
  [.startDelivery true, .indexRead (.found ⟨.orderLine, 0⟩ []), .readShared,
    .indexRead (.found ⟨.order, 0⟩ []), .getRow, .indexRead .absent,
    .indexRead (.found ⟨.customer, 0⟩ []), .indexRead .absent, .exit]

/-- The delivery returns Abort and keeps the lock on the order of the first district. -/
theorem delivery_keeps_lock :
    ∃ s', runs (step true 1) (fresh (Course.runDelivery 1)) secondDistrictEmpty = some s' ∧
      s'.progress = .returned .abort ∧ s'.accesses.length = 1 ∧ s'.cleanups = 0 ∧
      locksOf 1 (s'.rows ⟨.order, 0⟩) = 1 ∧ ¬ s'.EndsClean 1 := by
  refine ⟨_, rfl, rfl, rfl, rfl, rfl, fun h => ?_⟩
  exact absurd h.cleanups (by decide)

end Thread

end VeriTxn
