import VeriTxn.OccValidation
import VeriTxn.Transition

/-!
# OCC: interleaved transactions

Threads run transactions one at a time.  The atomic steps are the start of a
transaction (its `start_ts` is drawn with `get_next_ts` from the untrusted
counter), one `Row_occ::access` per row, and the latched validation-and-write of
`per_row_validate`.  The state keeps the committed transactions with the values
their accesses returned, in commit order.

`start_ts` and `wts` come from different counters, and the untrusted one runs
ahead, so a row rewritten after a transaction's access can carry a `wts` that
its `start_ts` is not below.  As long as this does not happen, the commit order
is a serial order.
-/

namespace VeriTxn.Occ

set_option linter.unusedSectionVars false

open Serial Transition

variable {Thd R D : Type}

/-- A transaction between its start and its validation. -/
structure Active (R D : Type) where
  prog : Program R D
  startTs : Nat
  accesses : List (Access R D)

structure Sys (Thd R D : Type) where
  rows : R → Row D
  timestamp : Nat
  timestampEnc : Nat
  currTs : Thd → Nat
  active : Thd → Option (Active R D)
  committed : List (Program R D × List (Op R D))

inductive Action (Thd R D : Type) where
  /-- `run_txn_ecall` of a transaction, at system clock `now` -/
  | start (thd : Thd) (prog : Program R D) (now : Nat)
  /-- `get_row` of the next row the transaction asks for -/
  | access (thd : Thd)
  /-- `finish(RCOK)` -/
  | validate (thd : Thd)
  /-- `finish(Abort)` by the transaction's own decision -/
  | giveUp (thd : Thd)

/-- An access as an observation: the row, whether it writes, the value returned. -/
def Access.op (a : Access R D) : Op R D := ⟨a.origRow, decide (a.type = .wr), a.data⟩

def Active.ops (t : Active R D) : List (Op R D) := t.accesses.map Access.op

def Active.values (t : Active R D) : List D := t.accesses.map Access.data

/-- The access list at `finish`: the `i`-th local copy has the contents `f i`. -/
def localCopies (f : Nat → D) : Nat → List (Access R D) → List (Access R D)
  | _, [] => []
  | i, a :: accesses => { a with data := f i } :: localCopies f (i + 1) accesses

def Active.finalAccesses (t : Active R D) : List (Access R D) :=
  localCopies (t.prog.result t.values) 0 t.accesses

def Sys.init [DecidableEq Thd] (store : R → D) : Sys Thd R D where
  rows r := ⟨store r, 0⟩
  timestamp := initialTimestamp
  timestampEnc := initialTimestamp
  currTs _ := 0
  active _ := none
  committed := []

variable [DecidableEq Thd] [DecidableEq R]

/-- The interleaved system.  A transaction may only ask for rows it has not
    accessed yet. -/
def step (cfg : TsConfig) (names : RowNames R) (thdId : Thd → Nat) (s : Sys Thd R D) :
    Action Thd R D → Option (Sys Thd R D)
  | .start thd prog now =>
      match s.active thd with
      | some _ => none
      | none =>
          (getNextTs cfg now (thdId thd) (s.currTs thd) s.timestamp).map
            fun (startTs, currTs, timestamp) =>
              { s with
                timestamp := timestamp
                currTs := Function.update s.currTs thd currTs
                active := Function.update s.active thd (some ⟨prog, startTs, []⟩) }
  | .access thd =>
      match s.active thd with
      | none => none
      | some t =>
          match t.prog.next t.values with
          | none => none
          | some (r, writes) =>
              if r ∈ t.accesses.map Access.origRow then none
              else
                match (s.rows r).access t.startTs with
                -- `get_row` returns NULL and the transaction is cleaned up
                | none => some { s with active := Function.update s.active thd none }
                | some copy =>
                    let a : Access R D :=
                      ⟨if writes then .wr else .rd, r, copy, (s.rows r).wts⟩
                    some { s with
                      active := Function.update s.active thd
                        (some { t with accesses := t.accesses ++ [a] }) }
  | .validate thd =>
      match s.active thd with
      | none => none
      | some t =>
          if t.prog.next t.values = none then
            match perRowValidate cfg names s.rows s.timestampEnc t.startTs t.finalAccesses with
            | none => none
            | some v =>
                some { s with
                  rows := v.rows
                  timestampEnc := v.timestampEnc
                  active := Function.update s.active thd none
                  committed :=
                    if v.rc = .rcok then s.committed ++ [(t.prog, t.ops)] else s.committed }
          else none
  | .giveUp thd =>
      match s.active thd with
      | none => none
      | some _ => some { s with active := Function.update s.active thd none }

/-- The row contents. -/
def Sys.store (s : Sys Thd R D) : R → D := fun r => (s.rows r).data

/-- The condition on a validation: every row of the transaction that was
    rewritten since its access carries a `wts` above the transaction's
    `start_ts`. -/
def StaleIsNewer (s : Sys Thd R D) : Action Thd R D → Prop
  | .validate thd =>
      ∀ t, s.active thd = some t → ∀ a ∈ t.accesses,
        (s.rows a.origRow).wts ≠ a.wts → t.startTs < (s.rows a.origRow).wts
  | _ => True

omit [DecidableEq Thd] [DecidableEq R] in
instance StaleIsNewer.decidable (s : Sys Thd R D) (a : Action Thd R D) :
    Decidable (StaleIsNewer s a) :=
  match a with
  | .validate thd => inferInstanceAs (Decidable (∀ t ∈ s.active thd, ∀ a ∈ t.accesses,
      (s.rows a.origRow).wts ≠ a.wts → t.startTs < (s.rows a.origRow).wts))
  | .start _ _ _ | .access _ | .giveUp _ => .isTrue trivial

/-! ### Writes of a commit -/

/-- The local copies of the write accesses are the program's write set. -/
theorem writePairs_localCopies (prog : Program R D) (values : List D) (i : Nat)
    (accesses : List (Access R D)) :
    writePairs (localCopies (prog.result values) i accesses) =
      prog.writesFrom values i (accesses.map Access.op) := by
  induction accesses generalizing i with
  | nil => rfl
  | cons a accesses ih =>
      have hrest := ih (i + 1)
      simp only [writePairs] at hrest
      by_cases hwr : a.type = .wr
      · simp [localCopies, writePairs, Program.writesFrom, Access.op, hwr, hrest]
      · simp [localCopies, writePairs, Program.writesFrom, Access.op, hwr, hrest]

theorem origRow_localCopies (f : Nat → D) (i : Nat) (accesses : List (Access R D)) :
    (localCopies f i accesses).map Access.origRow = accesses.map Access.origRow := by
  induction accesses generalizing i with
  | nil => rfl
  | cons a accesses ih => simp [localCopies, ih]

/-! ### The invariant -/

/-- A transaction's accesses follow its program, are of distinct rows, and each
    copy is current unless the row carries a later `wts` by now. -/
structure Active.Good (t : Active R D) (rows : R → Row D) : Prop where
  continues : t.prog.Continues [] t.ops
  distinct : (t.accesses.map Access.origRow).Nodup
  current : ∀ a ∈ t.accesses, a.wts ≤ (rows a.origRow).wts ∧
    (a.wts = (rows a.origRow).wts → a.data = (rows a.origRow).data)

structure Inv (store : R → D) (s : Sys Thd R D) : Prop where
  serial : SerialHistory s.committed store s.store
  good : ∀ thd t, s.active thd = some t → t.Good s.rows

theorem inv_init (store : R → D) : Inv store (Sys.init store : Sys Thd R D) where
  serial := rfl
  good := by intro thd t h; cases h

theorem Active.Good.newer {t : Active R D} {rows rows' : R → Row D} (h : t.Good rows)
    (hnewer : ∀ r, (rows r).Newer (rows' r)) : t.Good rows' where
  continues := h.continues
  distinct := h.distinct
  current := by
    intro a ha
    obtain ⟨hle, hdata⟩ := h.current a ha
    rcases hnewer a.origRow with hsame | hlt
    · rw [hsame]
      exact ⟨hle, hdata⟩
    · exact ⟨by omega, fun heq => by omega⟩

/-- Reading one more row keeps a transaction good. -/
theorem Active.Good.access {t : Active R D} {rows : R → Row D} (h : t.Good rows)
    {r : R} {writes : Bool} (hnext : t.prog.next t.values = some (r, writes))
    (hfresh : r ∉ t.accesses.map Access.origRow) :
    Active.Good { t with accesses := t.accesses ++
      [⟨if writes then .wr else .rd, r, (rows r).data, (rows r).wts⟩] } rows where
  continues := by
    have hvalues : t.ops.map Op.value = t.values := by simp [Active.ops, Active.values, Access.op]
    have hop : (⟨if writes then .wr else .rd, r, (rows r).data, (rows r).wts⟩ : Access R D).op =
        ⟨r, writes, (rows r).data⟩ := by cases writes <;> rfl
    simp only [Active.ops, List.map_append, List.map_cons, List.map_nil, hop]
    exact Program.Continues.snoc h.continues (by rw [List.nil_append]; exact hvalues ▸ hnext)
  distinct := by
    simp only [List.map_append, List.map_cons, List.map_nil]
    exact List.nodup_append.mpr ⟨h.distinct, List.nodup_singleton _, by
      intro x hx y hy heq
      rw [List.mem_singleton.mp hy] at heq
      exact hfresh (heq ▸ hx)⟩
  current := by
    intro a ha
    rcases List.mem_append.mp ha with hold | hnew
    · exact h.current a hold
    · rw [List.mem_singleton.mp hnew]
      exact ⟨Nat.le_refl _, fun _ => rfl⟩

/-- A commit whose stale accesses would have been caught executes the program
    on the store it commits to. -/
theorem Active.Good.executes {t : Active R D} {rows rows' : R → Row D} (h : t.Good rows)
    {names : RowNames R} (hdone : t.prog.next t.values = none)
    (hcaught : ∀ a ∈ t.accesses, (rows a.origRow).wts ≠ a.wts →
      t.startTs < (rows a.origRow).wts)
    (hvalid : ∀ a ∈ t.finalAccesses, (rows a.origRow).wts ≤ t.startTs)
    (hdata : (fun r => (rows' r).data) = install (fun r => (rows r).data)
      (writePairs (sortAccesses names t.finalAccesses).reverse)) :
    Executes t.prog t.ops (fun r => (rows r).data) (fun r => (rows' r).data) := by
  have hrows : t.finalAccesses.map Access.origRow = t.accesses.map Access.origRow :=
    origRow_localCopies _ _ _
  have hvalues : t.ops.map Op.value = t.values := by simp [Active.ops, Active.values, Access.op]
  refine ⟨⟨h.continues, hvalues ▸ hdone⟩, ?_, ?_⟩
  · intro o ho
    obtain ⟨a, ha, rfl⟩ := List.mem_map.mp ho
    -- validation passed, so the row was not rewritten since the access
    have hrow : a.origRow ∈ t.finalAccesses.map Access.origRow :=
      hrows ▸ List.mem_map_of_mem ha
    obtain ⟨b, hb, hbrow⟩ := List.mem_map.mp hrow
    have hle : (rows a.origRow).wts ≤ t.startTs := hbrow ▸ hvalid b hb
    have hsame : (rows a.origRow).wts = a.wts := by
      by_contra hne
      exact absurd (hcaught a ha hne) (Nat.not_lt.mpr hle)
    exact (h.current a ha).2 hsame.symm
  · have hpairs : (writePairs (sortAccesses names t.finalAccesses).reverse).Perm
        (writePairs t.finalAccesses) :=
      ((List.reverse_perm _).trans (sortAccesses_perm names _)).filterMap _
    have hnodup : ((writePairs t.finalAccesses).map Prod.fst).Nodup :=
      (hrows ▸ h.distinct).sublist (writePairs_rows_sublist _)
    rw [hdata, install_perm hpairs ((hpairs.map Prod.fst).nodup_iff.mpr hnodup),
      Program.writeSet, hvalues]
    exact congrArg _ (writePairs_localCopies t.prog t.values 0 t.accesses)

/-- Replacing one thread's transaction by a good one, or by none. -/
theorem good_update {active : Thd → Option (Active R D)} {rows rows' : R → Row D} {thd : Thd}
    {next : Option (Active R D)} (h : ∀ thd t, active thd = some t → t.Good rows)
    (hnewer : ∀ r, (rows r).Newer (rows' r)) (hnext : ∀ t, next = some t → t.Good rows') :
    ∀ thd' t, Function.update active thd next thd' = some t → t.Good rows' := by
  intro thd' t ht
  by_cases hthd : thd' = thd
  · subst hthd
    exact hnext t (by simpa using ht)
  · rw [Function.update_of_ne hthd] at ht
    exact (h thd' t ht).newer hnewer

/-- One step preserves the invariant, given the condition on validations. -/
theorem inv_step {cfg : TsConfig} {names : RowNames R} {thdId : Thd → Nat} {store : R → D}
    (s : Sys Thd R D) (a : Action Thd R D) (s' : Sys Thd R D) (h : Inv store s)
    (hcaught : StaleIsNewer s a) (hstep : step cfg names thdId s a = some s') : Inv store s' := by
  have hkeep : ∀ r, (s.rows r).Newer (s.rows r) := fun _ => Or.inl rfl
  cases a with
  | start thd prog now =>
      simp only [step] at hstep
      split at hstep
      · cases hstep
      · obtain ⟨drawn, _, rfl⟩ := Option.map_eq_some_iff.mp hstep
        refine ⟨h.serial, good_update h.good hkeep ?_⟩
        rintro t ⟨⟩
        exact ⟨trivial, List.nodup_nil, by simp⟩
  | access thd =>
      simp only [step] at hstep
      split at hstep
      · cases hstep
      · rename_i t ht
        split at hstep
        · cases hstep
        · rename_i r writes hnext
          split at hstep
          · cases hstep
          · rename_i hfresh
            split at hstep
            · cases hstep
              exact ⟨h.serial, good_update h.good hkeep (by rintro t ⟨⟩)⟩
            · rename_i copy hcopy
              have hdata : copy = (s.rows r).data := by
                unfold Row.access at hcopy
                split at hcopy <;> cases hcopy
                rfl
              cases hstep
              refine ⟨h.serial, good_update h.good hkeep ?_⟩
              rintro t' ⟨⟩
              rw [hdata]
              exact (h.good thd t ht).access hnext hfresh
  | validate thd =>
      simp only [step] at hstep
      split at hstep
      · cases hstep
      · rename_i t ht
        split at hstep
        · rename_i hdone
          split at hstep
          · cases hstep
          · rename_i v hvalidate
            cases hstep
            obtain ⟨-, ⟨hrc, hvalid, -, hnewer, hdata⟩ | ⟨hrc, -, hrows⟩⟩ :=
              perRowValidate_cases hvalidate
            · have hexec := (h.good thd t ht).executes hdone (hcaught t ht) hvalid hdata
              refine ⟨?_, good_update h.good hnewer (by rintro t ⟨⟩)⟩
              simp only [hrc, if_true]
              exact h.serial.snoc hexec
            · refine ⟨?_, good_update h.good (hrows ▸ hkeep) (by rintro t ⟨⟩)⟩
              simp only [hrc, hrows, reduceCtorEq, if_false]
              exact h.serial
        · cases hstep
  | giveUp thd =>
      simp only [step] at hstep
      split at hstep
      · cases hstep
      · cases hstep
        exact ⟨h.serial, good_update h.good hkeep (by rintro t ⟨⟩)⟩

/-- **OCC is serializable as long as every stale access is newer than its
    reader.**  In every run of any number of transactions on any threads in
    which no validation meets a row rewritten since its access with a `wts` not
    above `start_ts`, the committed transactions are serializable, in commit
    order, with the values they read and the rows they left. -/
theorem occ_serializable (cfg : TsConfig) (names : RowNames R) (thdId : Thd → Nat)
    (store : R → D) (actions : List (Action Thd R D)) (s : Sys Thd R D)
    (hcaught : AllSteps (step cfg names thdId) StaleIsNewer (Sys.init store) actions)
    (hrun : runs (step cfg names thdId) (Sys.init store) actions = some s) :
    Serializable s.committed store s.store :=
  ⟨s.committed, List.Perm.refl _,
    (runs_invariant inv_step (inv_init store) hcaught hrun).serial⟩

/-! ### A lost update

Two transactions increment the only row.  The second one starts and reads
before the first one commits; the first commit's `end_ts` is 1, drawn from the
enclave's own counter, and the second transaction's `start_ts` is 2. -/

/-- Read one row for writing and add one to it. -/
def increment : Program Unit Nat where
  next values := if values = [] then some ((), true) else none
  result values _ := values.headD 0 + 1

def oneRow : RowNames Unit := ⟨fun _ => "MAIN_TABLE", fun _ => 0⟩

/-- Both start and read the row, then both validate. -/
def lostUpdateRun : List (Action Bool Unit Nat) :=
  [.start false increment 0, .start true increment 0, .access false, .access true,
    .validate false, .validate true]

/-- The first transaction reads before the second one commits, and the third one starts after that;
    when the first one validates, the row carries a `wts` above its `start_ts`. -/
def refusedRun : List (Action (Nat) Unit Nat) :=
  [.start 0 increment 0, .access 0, .start 1 increment 0, .access 1, .validate 1,
    .start 2 increment 0, .access 2, .validate 2, .validate 0]

/-- The stale transaction is refused, and the two others are serial. -/
theorem occ_serializable_stale_refused :
    ∃ s, runs (step TsConfig.default oneRow fun _ => 0)
        (Sys.init (fun _ => 0) : Sys (Nat) Unit Nat) refusedRun = some s ∧
      s.committed.length = 2 ∧ s.store () = 2 ∧ Serializable s.committed (fun _ => 0) s.store := by
  have hcaught : AllSteps (step TsConfig.default oneRow fun _ => 0) StaleIsNewer
      (Sys.init (fun _ => 0) : Sys (Nat) Unit Nat) refusedRun := by
    decide
  exact ⟨_, rfl, rfl, rfl,
    occ_serializable TsConfig.default oneRow (fun _ => 0) (fun _ => 0) refusedRun _ hcaught rfl⟩

/-- Both increments commit with the value 0 read, and no serial order of them
    does that: one update is lost. -/
theorem occ_update_lost :
    ∃ s, runs (step TsConfig.default oneRow fun _ => 0)
        (Sys.init (fun _ => 0) : Sys Bool Unit Nat) lostUpdateRun = some s ∧
      s.store () = 1 ∧ ¬ Serializable s.committed (fun _ => 0) s.store := by
  refine ⟨_, rfl, rfl, ?_⟩
  rintro ⟨order, hperm, hserial⟩
  have horder : order = List.replicate 2 (increment, [⟨(), true, 0⟩]) :=
    List.perm_replicate.mp hperm
  subst horder
  obtain ⟨mid, ⟨-, -, rfl⟩, _, ⟨-, hreads, -⟩, -⟩ := hserial
  -- the second of the two must read the 1 that the first one wrote
  exact absurd (hreads _ (List.mem_singleton_self _)) (by decide)

end VeriTxn.Occ
