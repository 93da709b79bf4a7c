import VeriTxn.Serial
import VeriTxn.Timestamps

/-!
# OCC: row managers and per-row validation

`Row_occ` keeps for every row the timestamp of its last update.  A read is
admitted, and an access validated, when the transaction's `start_ts` is not
below it.  `OptCC::per_row_validate` sorts the accesses by table name and
primary key, latches and validates them in that order, draws `end_ts` from the
enclave's counter and hands the local copies back through `cleanup`.
-/

namespace VeriTxn.Occ

variable {R D : Type}

/-- A row with its `Row_occ` manager. -/
structure Row (D : Type) where
  data : D
  wts : Nat
deriving DecidableEq

/-- `Row_occ::access(txn, R_REQ)`: the copy for `cur_row`, or `none` for Abort. -/
def Row.access (row : Row D) (startTs : Nat) : Option D :=
  if startTs < row.wts then none else some row.data

/-- `Row_occ::validate(ts)`. -/
def Row.validate (row : Row D) (ts : Nat) : Bool :=
  if ts < row.wts then false else true

/-- `Row_occ::write(data, ts)`, with the assertion of `PER_ROW_VALID`. -/
def Row.write (row : Row D) (data : D) (ts : Nat) : Option (Row D) :=
  if row.wts < ts then some ⟨data, ts⟩ else none

/-- An `Access` of the transaction manager.  `data` is the local copy, and `wts`
    the row's write timestamp when the copy was made; the latter is kept for the
    analysis only, no function below reads it. -/
structure Access (R D : Type) where
  type : AccessT
  origRow : R
  data : D
  wts : Nat

/-- The row attributes `per_row_validate` sorts by. -/
structure RowNames (R : Type) where
  tableName : R → String
  primaryKey : R → Nat

/-- The comparison of the sorting loops: `accesses[j]` is to be swapped with
    `accesses[j+1]`. -/
def RowNames.outOfOrder (names : RowNames R) (a b : Access R D) : Bool :=
  decide (names.tableName b.origRow < names.tableName a.origRow) ||
    (decide (names.tableName a.origRow = names.tableName b.origRow) &&
      decide (names.primaryKey b.origRow < names.primaryKey a.origRow))

/-- The inner loop: `n` comparisons of neighbours from the front. -/
def bubble (swap : α → α → Bool) : Nat → List α → List α
  | n + 1, a :: b :: rest =>
      if swap a b then b :: bubble swap n (a :: rest) else a :: bubble swap n (b :: rest)
  | _, accesses => accesses

/-- The outer loop, `i` counting down to 1. -/
def sortLoop (swap : α → α → Bool) : Nat → List α → List α
  | 0, accesses => accesses
  | i + 1, accesses => sortLoop swap i (bubble swap (i + 1) accesses)

/-- The accesses after the sorting loops of `per_row_validate`. -/
def sortAccesses (names : RowNames R) (accesses : List (Access R D)) : List (Access R D) :=
  sortLoop names.outOfOrder (accesses.length - 1) accesses

/-- The validation loop: how many rows were latched and whether all passed. -/
def latchAndValidate (rows : R → Row D) (startTs : Nat) : List (Access R D) → Nat × Bool
  | [] => (0, true)
  | a :: accesses =>
      if (rows a.origRow).validate startTs then
        let (lockCnt, ok) := latchAndValidate rows startTs accesses
        (lockCnt + 1, ok)
      else (1, false)

variable [DecidableEq R]

/-- `row_t::return_row` for one access: a write access installs its copy. -/
def returnRow (rows : R → Row D) (endTs : Nat) (a : Access R D) : Option (R → Row D) :=
  if a.type = .wr then
    ((rows a.origRow).write a.data endTs).map fun row => Function.update rows a.origRow row
  else some rows

/-- The `return_row` loop over accesses already in the order it visits them. -/
def returnRows (rows : R → Row D) (endTs : Nat) : List (Access R D) → Option (R → Row D)
  | [] => some rows
  | a :: accesses => (returnRow rows endTs a).bind fun rows => returnRows rows endTs accesses

/-- `create_log_entry()`: one record for every write access, naming the row and
    carrying `orig_row->data` as it is at this moment. -/
def createLogEntry (rows : R → Row D) (accesses : List (Access R D)) : List (R × D) :=
  (accesses.filter fun a => a.type = .wr).map fun a => (a.origRow, (rows a.origRow).data)

/-- `cleanup(rc)`: the log entry is built first; the `return_row` loop then runs
    from the last access to the first, every write access of an aborted
    transaction having become an `XP`. -/
def cleanup (rows : R → Row D) (endTs : Nat) (rc : RC) (accesses : List (Access R D)) :
    Option (List (R × D) × (R → Row D)) := do
  let entry := createLogEntry rows accesses
  let rows ← returnRows rows endTs
    (accesses.map fun a => if a.type = .wr ∧ rc = .abort then { a with type := .xp } else a).reverse
  return (entry, rows)

/-- What a call of `per_row_validate` leaves: its result, the rows, the
    enclave's counter and the log entry sent. -/
structure Validated (R D : Type) where
  rc : RC
  rows : R → Row D
  timestampEnc : Nat
  entry : List (R × D)

/-- `OptCC::per_row_validate(txn)`.  The row latches are not recursive: a
    transaction that comes to a row it has latched already never returns. -/
def perRowValidate (cfg : TsConfig) (names : RowNames R) (rows : R → Row D) (timestampEnc : Nat)
    (startTs : Nat) (accesses : List (Access R D)) : Option (Validated R D) :=
  let sorted := sortAccesses names accesses
  let (lockCnt, ok) := latchAndValidate rows startTs sorted
  if ((sorted.take lockCnt).map Access.origRow).Nodup then
    if ok then do
      let (endTs, timestampEnc) ← ManagerEnc.getTs cfg timestampEnc
      let (entry, rows) ← cleanup rows endTs .rcok sorted
      return ⟨.rcok, rows, timestampEnc, entry⟩
    else do
      let (entry, rows) ← cleanup rows 0 .abort sorted
      return ⟨.abort, rows, timestampEnc, entry⟩
  else none

/-! ### The sorting loops permute -/

theorem bubble_perm (swap : α → α → Bool) (n : Nat) (accesses : List α) :
    (bubble swap n accesses).Perm accesses := by
  induction n generalizing accesses with
  | zero => simp [bubble]
  | succ n ih =>
      match accesses with
      | [] => simp [bubble]
      | [a] => simp [bubble]
      | a :: b :: rest =>
          rw [bubble]
          split
          · exact ((ih (a :: rest)).cons b).trans (List.Perm.swap a b rest)
          · exact (ih (b :: rest)).cons a

theorem sortLoop_perm (swap : α → α → Bool) (i : Nat) (accesses : List α) :
    (sortLoop swap i accesses).Perm accesses := by
  induction i generalizing accesses with
  | zero => exact List.Perm.refl _
  | succ i ih => exact (ih _).trans (bubble_perm swap (i + 1) accesses)

omit [DecidableEq R] in
theorem sortAccesses_perm (names : RowNames R) (accesses : List (Access R D)) :
    (sortAccesses names accesses).Perm accesses :=
  sortLoop_perm _ _ _

/-! ### What validation and cleanup do -/

omit [DecidableEq R] in
/-- Validation passes exactly when no accessed row was updated after `start_ts`. -/
theorem latchAndValidate_iff (rows : R → Row D) (startTs : Nat) (accesses : List (Access R D)) :
    (latchAndValidate rows startTs accesses).2 = true ↔
      ∀ a ∈ accesses, (rows a.origRow).wts ≤ startTs := by
  induction accesses with
  | nil => simp [latchAndValidate]
  | cons a accesses ih =>
      simp only [latchAndValidate, List.forall_mem_cons]
      by_cases hlt : startTs < (rows a.origRow).wts
      · have hfail : (rows a.origRow).validate startTs = false := if_pos hlt
        simp [hfail, Nat.not_le.mpr hlt]
      · have hpass : (rows a.origRow).validate startTs = true := if_neg hlt
        simp only [hpass, if_true, ih]
        exact ⟨fun h => ⟨Nat.not_lt.mp hlt, h⟩, fun h => h.2⟩

omit [DecidableEq R] in
/-- When validation passes, every access was latched. -/
theorem latchAndValidate_all (rows : R → Row D) (startTs : Nat) (accesses : List (Access R D))
    (hok : (latchAndValidate rows startTs accesses).2 = true) :
    (latchAndValidate rows startTs accesses).1 = accesses.length := by
  induction accesses with
  | nil => rfl
  | cons a accesses ih =>
      simp only [latchAndValidate] at hok ⊢
      split
      · rename_i hpass
        simp only [hpass, if_true] at hok
        simp only [ih hok, List.length_cons]
      · rename_i hfail
        simp [hfail] at hok

omit [DecidableEq R] in
theorem Row.validate_iff (row : Row D) (ts : Nat) : row.validate ts = true ↔ row.wts ≤ ts := by
  unfold Row.validate
  split <;> simp_all

/-- The writes a list of accesses installs, in the order it is visited. -/
def writePairs (accesses : List (Access R D)) : List (R × D) :=
  accesses.filterMap fun a => if a.type = .wr then some (a.origRow, a.data) else none

omit [DecidableEq R] in
theorem mem_writePairs {accesses : List (Access R D)} {w : R × D} :
    w ∈ writePairs accesses ↔ ∃ a ∈ accesses, a.type = .wr ∧ w = (a.origRow, a.data) := by
  simp only [writePairs, List.mem_filterMap]
  constructor
  · rintro ⟨a, ha, hw⟩
    by_cases hwr : a.type = .wr
    · rw [if_pos hwr] at hw
      exact ⟨a, ha, hwr, (Option.some.inj hw).symm⟩
    · rw [if_neg hwr] at hw
      cases hw
  · rintro ⟨a, ha, hwr, rfl⟩
    exact ⟨a, ha, if_pos hwr⟩

omit [DecidableEq R] in
theorem writePairs_rows_sublist (accesses : List (Access R D)) :
    ((writePairs accesses).map Prod.fst).Sublist (accesses.map Access.origRow) := by
  induction accesses with
  | nil => simp [writePairs]
  | cons a accesses ih =>
      by_cases hwr : a.type = .wr
      · simpa [writePairs, hwr] using ih
      · exact List.Sublist.cons _ (by simpa [writePairs, hwr] using ih)

/-- A row after `cleanup` is the row before it or carries a later `wts`. -/
def Row.Newer (row row' : Row D) : Prop := row' = row ∨ row.wts < row'.wts

theorem Row.Newer.trans {row row' row'' : Row D} (h : row.Newer row') (h' : row'.Newer row'') :
    row.Newer row'' := by
  rcases h with rfl | hlt
  · exact h'
  · rcases h' with rfl | hlt'
    · exact Or.inr hlt
    · exact Or.inr (Nat.lt_trans hlt hlt')

theorem returnRows_newer {rows rows' : R → Row D} {endTs : Nat} {accesses : List (Access R D)}
    (h : returnRows rows endTs accesses = some rows') (r : R) : (rows r).Newer (rows' r) := by
  induction accesses generalizing rows with
  | nil =>
      cases h
      exact Or.inl rfl
  | cons a accesses ih =>
      obtain ⟨mid, hmid, hrest⟩ := Option.bind_eq_some_iff.mp h
      refine Row.Newer.trans ?_ (ih hrest)
      unfold returnRow at hmid
      split at hmid
      · obtain ⟨row, hwrite, rfl⟩ := Option.map_eq_some_iff.mp hmid
        unfold Row.write at hwrite
        split at hwrite
        · cases hwrite
          by_cases hr : r = a.origRow
          · subst hr
            exact Or.inr (by simpa using ‹_›)
          · exact Or.inl (by rw [Function.update_of_ne hr])
        · cases hwrite
      · cases hmid
        exact Or.inl rfl

/-- The data left by the loop is the data before it with the write accesses
    installed one after another. -/
theorem returnRows_data {rows rows' : R → Row D} {endTs : Nat} {accesses : List (Access R D)}
    (h : returnRows rows endTs accesses = some rows') :
    (fun r => (rows' r).data) = Serial.install (fun r => (rows r).data) (writePairs accesses) := by
  induction accesses generalizing rows with
  | nil =>
      cases h
      rfl
  | cons a accesses ih =>
      obtain ⟨mid, hmid, hrest⟩ := Option.bind_eq_some_iff.mp h
      rw [ih hrest]
      unfold returnRow at hmid
      split at hmid
      · rename_i hwr
        obtain ⟨row, hwrite, rfl⟩ := Option.map_eq_some_iff.mp hmid
        have hdata : row.data = a.data := by
          unfold Row.write at hwrite
          split at hwrite <;> cases hwrite
          rfl
        have hstep : (fun r => (Function.update rows a.origRow row r).data) =
            Function.update (fun r => (rows r).data) a.origRow a.data := by
          funext r
          by_cases hr : r = a.origRow
          · subst hr
            simp [hdata]
          · simp [Function.update_of_ne hr]
        simp only [writePairs, List.filterMap_cons, hwr, if_true, Serial.install_cons, hstep]
      · rename_i hwr
        cases hmid
        simp only [writePairs, List.filterMap_cons, hwr, if_false]

/-- Accesses that write nothing leave every row as it was. -/
theorem returnRows_of_no_write (rows : R → Row D) (endTs : Nat) (accesses : List (Access R D))
    (h : ∀ a ∈ accesses, a.type ≠ .wr) : returnRows rows endTs accesses = some rows := by
  induction accesses with
  | nil => rfl
  | cons a accesses ih =>
      simp only [returnRows, returnRow, if_neg (h a (by simp)), Option.bind_some]
      exact ih fun b hb => h b (by simp [hb])

/-- `cleanup(Abort)` logs the rows as they are and changes none of them. -/
theorem cleanup_abort (rows : R → Row D) (endTs : Nat) (accesses : List (Access R D)) :
    cleanup rows endTs .abort accesses = some (createLogEntry rows accesses, rows) := by
  rw [cleanup, returnRows_of_no_write]
  · rfl
  · intro a ha
    simp only [List.mem_reverse, List.mem_map] at ha
    obtain ⟨b, _, rfl⟩ := ha
    split
    · simp
    · rename_i hb
      simpa using hb

/-- `cleanup(RCOK)` logs the rows as they are before the loop rewrites them. -/
theorem cleanup_rcok {rows : R → Row D} {endTs : Nat} {accesses : List (Access R D)}
    {result : List (R × D) × (R → Row D)} (h : cleanup rows endTs .rcok accesses = some result) :
    result.1 = createLogEntry rows accesses ∧
      returnRows rows endTs accesses.reverse = some result.2 := by
  simp only [cleanup, reduceCtorEq, and_false, if_false, List.map_id'] at h
  obtain ⟨cleaned, hclean, h⟩ := Option.bind_eq_some_iff.mp h
  cases h
  exact ⟨rfl, hclean⟩

/-- The loop writes every row once, with a timestamp that is new to all rows. -/
theorem returnRows_of_fresh {rows : R → Row D} {endTs : Nat} {accesses : List (Access R D)}
    (hrows : (accesses.map Access.origRow).Nodup)
    (hfresh : ∀ a ∈ accesses, (rows a.origRow).wts < endTs) :
    ∃ rows', returnRows rows endTs accesses = some rows' ∧
      ∀ r, (rows' r).wts = (rows r).wts ∨ (rows' r).wts = endTs := by
  induction accesses generalizing rows with
  | nil => exact ⟨rows, rfl, fun _ => .inl rfl⟩
  | cons a accesses ih =>
      obtain ⟨hnew, hrest⟩ := List.nodup_cons.mp hrows
      have htail : ∀ b ∈ accesses, (rows b.origRow).wts < endTs :=
        fun b hb => hfresh b (List.mem_cons_of_mem _ hb)
      rw [returnRows, returnRow]
      split
      · have hwrite : (rows a.origRow).write a.data endTs = some ⟨a.data, endTs⟩ :=
          if_pos (hfresh a (List.mem_cons_self ..))
        rw [hwrite, Option.map_some, Option.bind_some]
        have hother : ∀ b ∈ accesses, Function.update rows a.origRow ⟨a.data, endTs⟩ b.origRow =
            rows b.origRow := by
          intro b hb
          refine Function.update_of_ne (fun heq => hnew ?_) _ _
          exact heq ▸ List.mem_map_of_mem hb
        have hstill : ∀ b ∈ accesses,
            (Function.update rows a.origRow ⟨a.data, endTs⟩ b.origRow).wts < endTs := by
          intro b hb
          rw [hother b hb]
          exact htail b hb
        obtain ⟨rows', hreturn, hwts⟩ := ih hrest hstill
        refine ⟨rows', hreturn, fun r => ?_⟩
        by_cases hr : r = a.origRow
        · subst hr
          have := hwts a.origRow
          rw [Function.update_self, or_self] at this
          exact .inr this
        · have := hwts r
          rwa [Function.update_of_ne hr] at this
      · exact ih hrest htail

/-- `cleanup(RCOK)` with a timestamp that is new to all rows. -/
theorem cleanup_of_fresh {rows : R → Row D} {endTs : Nat} {accesses : List (Access R D)}
    (hrows : (accesses.map Access.origRow).Nodup) (hfresh : ∀ r, (rows r).wts < endTs) :
    ∃ rows', cleanup rows endTs .rcok accesses = some (createLogEntry rows accesses, rows') ∧
      ∀ r, (rows' r).wts = (rows r).wts ∨ (rows' r).wts = endTs := by
  have hreverse : (accesses.reverse.map Access.origRow).Nodup := by
    rw [List.map_reverse]
    exact List.nodup_reverse.mpr hrows
  have hnewer : ∀ a ∈ accesses.reverse, (rows a.origRow).wts < endTs := fun a _ => hfresh a.origRow
  obtain ⟨rows', hreturn, hwts⟩ := returnRows_of_fresh hreverse hnewer
  refine ⟨rows', ?_, hwts⟩
  simp only [cleanup, reduceCtorEq, and_false, if_false, List.map_id', hreturn]
  rfl

/-- **What `per_row_validate` can do.**  Either every access passed, the rows are
    rewritten in the sorted order from the back and no row goes back in time, or
    the transaction aborts and no row changes.  The entry sent holds the rows of
    the state before. -/
theorem perRowValidate_cases {cfg : TsConfig} {names : RowNames R} {rows : R → Row D}
    {timestampEnc startTs : Nat} {accesses : List (Access R D)} {v : Validated R D}
    (h : perRowValidate cfg names rows timestampEnc startTs accesses = some v) :
    v.entry = createLogEntry rows (sortAccesses names accesses) ∧
      ((v.rc = .rcok ∧ (∀ a ∈ accesses, (rows a.origRow).wts ≤ startTs) ∧
          (accesses.map Access.origRow).Nodup ∧ (∀ r, (rows r).Newer (v.rows r)) ∧
          (fun r => (v.rows r).data) = Serial.install (fun r => (rows r).data)
            (writePairs (sortAccesses names accesses).reverse)) ∨
        (v.rc = .abort ∧ (∃ a ∈ accesses, startTs < (rows a.origRow).wts) ∧ v.rows = rows)) := by
  have hperm := sortAccesses_perm names accesses
  simp only [perRowValidate] at h
  split at h
  · rename_i hlatched
    split at h
    · rename_i hok
      obtain ⟨drawn, _, h⟩ := Option.bind_eq_some_iff.mp h
      obtain ⟨cleaned, hclean, h⟩ := Option.bind_eq_some_iff.mp h
      cases h
      obtain ⟨hentry, hreturn⟩ := cleanup_rcok hclean
      have hall := latchAndValidate_all rows startTs _ hok
      rw [hall, List.take_length] at hlatched
      refine ⟨hentry, Or.inl ⟨rfl, fun a ha => ?_, ?_, returnRows_newer hreturn,
        returnRows_data hreturn⟩⟩
      · exact (latchAndValidate_iff _ _ _).mp hok a (hperm.mem_iff.mpr ha)
      · exact (hperm.map Access.origRow).nodup_iff.mp hlatched
    · rename_i hfail
      rw [cleanup_abort] at h
      cases h
      refine ⟨rfl, Or.inr ⟨rfl, ?_, rfl⟩⟩
      rw [latchAndValidate_iff] at hfail
      obtain ⟨a, hfail⟩ := not_forall.mp hfail
      obtain ⟨ha, hlt⟩ := Classical.not_imp.mp hfail
      exact ⟨a, hperm.mem_iff.mp ha, Nat.not_le.mp hlt⟩
  · cases h

end VeriTxn.Occ
