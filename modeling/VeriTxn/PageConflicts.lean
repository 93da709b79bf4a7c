import VeriTxn.OccValidation

/-!
# `finish` and page versions

With `FULL_TPCC`, `txn_man::finish` first compares the version that a row's page had when the row
was read with the one it has now.  Where they differ it calls itself with Abort, which makes the
same comparison again.  Under `OCC` a transaction without such a conflict is validated row by row,
or cleaned up if it is to abort anyway.
-/

namespace VeriTxn.PageConflicts

open Occ

variable {R D P : Type}

/-- An `Access`, with the version of the row's page at the time of `get_row`. -/
structure PageAccess (R D : Type) extends Access R D where
  origPgVersion : Int32

/-- What `finish` reads: the transaction, the rows, the enclave's counter and the current versions
    of the pages. -/
structure Ctx (R D P : Type) where
  cfg : TsConfig
  names : RowNames R
  rows : R → Row D
  fromPage : R → P
  version : P → Int32
  timestampEnc : Nat
  startTs : Nat
  endTs : Nat
  accesses : List (PageAccess R D)

/-- The accesses as `validate` and `cleanup` see them. -/
def Ctx.plain (c : Ctx R D P) : List (Access R D) := c.accesses.map PageAccess.toAccess

/-- What a call of `finish` leaves: its result, the calls of `cleanup` it made, and the rows. -/
structure Finished (R D : Type) where
  rc : RC
  cleanups : List RC
  rows : R → Row D

/-- The loop over the accesses: whether it finds a page that has changed. -/
def changedPage (c : Ctx R D P) : List (PageAccess R D) → Bool
  | [] => false
  | a :: accesses =>
      if a.origPgVersion ≠ c.version (c.fromPage a.origRow) then true else changedPage c accesses

/-- `txn_man::finish`; `none` when it has not returned after `fuel` calls of itself. -/
def finish [DecidableEq R] (c : Ctx R D P) : Nat → RC → Option (Finished R D)
  | 0, _ => none
  | fuel + 1, rc =>
      if changedPage c c.accesses then finish c fuel .abort
      else if rc = .rcok then
        (perRowValidate c.cfg c.names c.rows c.timestampEnc c.startTs c.plain).map fun v =>
          ⟨v.rc, [v.rc], v.rows⟩
      else
        (cleanup c.rows c.endTs rc c.plain).map fun cleaned => ⟨rc, [rc], cleaned.2⟩

/-- Some access's page has another version now. -/
def Conflict (c : Ctx R D P) : Prop :=
  ∃ a ∈ c.accesses, a.origPgVersion ≠ c.version (c.fromPage a.origRow)

/-- `finish` returns, and with a conflict it has cleaned up once and returns Abort. -/
def EndsRight [DecidableEq R] (c : Ctx R D P) (rc : RC) : Prop :=
  ∃ fuel out, finish c fuel rc = some out ∧
    (Conflict c → out.rc = .abort ∧ out.cleanups = [.abort])

theorem changedPage_iff (c : Ctx R D P) (accesses : List (PageAccess R D)) :
    changedPage c accesses = true ↔
      ∃ a ∈ accesses, a.origPgVersion ≠ c.version (c.fromPage a.origRow) := by
  induction accesses with
  | nil => simp [changedPage]
  | cons a accesses ih =>
      rw [changedPage]
      by_cases h : a.origPgVersion ≠ c.version (c.fromPage a.origRow)
      · simp [h]
      · simp [h, ih]

variable [DecidableEq R]

/-- With a conflict every call ends in the next one. -/
theorem finish_of_conflict {c : Ctx R D P} (h : Conflict c) (fuel : Nat) (rc : RC) :
    finish c fuel rc = none := by
  have hchanged : changedPage c c.accesses = true := (changedPage_iff c c.accesses).mpr h
  induction fuel generalizing rc with
  | zero => rfl
  | succ fuel ih => rw [finish, if_pos hchanged, ih]

theorem finish_of_no_conflict {c : Ctx R D P} (h : ¬ Conflict c) (fuel : Nat) (rc : RC) :
    finish c (fuel + 1) rc =
      if rc = .rcok then
        (perRowValidate c.cfg c.names c.rows c.timestampEnc c.startTs c.plain).map fun v =>
          ⟨v.rc, [v.rc], v.rows⟩
      else
        (cleanup c.rows c.endTs rc c.plain).map fun cleaned => ⟨rc, [rc], cleaned.2⟩ := by
  have hsame : ¬ changedPage c c.accesses = true := fun hchanged =>
    h ((changedPage_iff c c.accesses).mp hchanged)
  rw [finish, if_neg hsame]

/-! ### When `validate` and `cleanup` return -/

/-- The rows that are written. -/
def written (accesses : List (Access R D)) : List R :=
  (accesses.filter fun a => a.type = .wr).map Access.origRow

/-- No row is written twice, and each was last written before `ts`. -/
def Writable (rows : R → Row D) (ts : Nat) (accesses : List (Access R D)) : Prop :=
  (written accesses).Nodup ∧ ∀ r ∈ written accesses, (rows r).wts < ts

theorem returnRows_isSome_iff (rows : R → Row D) (ts : Nat) (accesses : List (Access R D)) :
    (returnRows rows ts accesses).isSome = true ↔ Writable rows ts accesses := by
  induction accesses generalizing rows with
  | nil => simp [returnRows, Writable, written]
  | cons a accesses ih =>
      rw [returnRows, returnRow]
      by_cases hwr : a.type = .wr
      · have hwritten : written (a :: accesses) = a.origRow :: written accesses := by
          simp [written, hwr]
        rw [if_pos hwr, Writable, hwritten, List.nodup_cons, List.forall_mem_cons, Row.write]
        by_cases hlt : (rows a.origRow).wts < ts
        · rw [if_pos hlt, Option.map_some, Option.bind_some, ih, and_iff_right hlt]
          constructor
          · rintro ⟨hnodup, hbefore⟩
            have hnot : a.origRow ∉ written accesses := fun hmem => by
              have hself := hbefore a.origRow hmem
              rw [Function.update_self] at hself
              exact Nat.lt_irrefl _ hself
            refine ⟨⟨hnot, hnodup⟩, fun r hr => ?_⟩
            have hne : r ≠ a.origRow := fun heq => hnot (heq ▸ hr)
            have hkept := hbefore r hr
            rwa [Function.update_of_ne hne] at hkept
          · rintro ⟨⟨hnot, hnodup⟩, hbefore⟩
            refine ⟨hnodup, fun r hr => ?_⟩
            have hne : r ≠ a.origRow := fun heq => hnot (heq ▸ hr)
            rw [Function.update_of_ne hne]
            exact hbefore r hr
        · simp [hlt]
      · have hwritten : written (a :: accesses) = written accesses := by simp [written, hwr]
        rw [if_neg hwr, Option.bind_some, ih, Writable, Writable, hwritten]

omit [DecidableEq R] in
theorem Writable.perm {rows : R → Row D} {ts : Nat} {accesses accesses' : List (Access R D)}
    (hperm : accesses.Perm accesses') (h : Writable rows ts accesses) :
    Writable rows ts accesses' := by
  have hwritten : (written accesses).Perm (written accesses') := (hperm.filter _).map _
  exact ⟨hwritten.nodup_iff.mp h.1, fun r hr => h.2 r (hwritten.mem_iff.mpr hr)⟩

theorem cleanup_isSome_iff (rows : R → Row D) (ts : Nat) (rc : RC) (accesses : List (Access R D)) :
    (cleanup rows ts rc accesses).isSome = true ↔ rc = .abort ∨ Writable rows ts accesses := by
  by_cases habort : rc = .abort
  · rw [habort, cleanup_abort]
    simp
  · have hsame : (accesses.map fun a => if a.type = .wr ∧ rc = .abort then { a with type := .xp }
        else a) = accesses := by
      simp [habort]
    have hreturn : (cleanup rows ts rc accesses).isSome =
        (returnRows rows ts accesses.reverse).isSome := by
      rw [cleanup, hsame]
      cases returnRows rows ts accesses.reverse with
      | none => rfl
      | some rows' => rfl
    rw [hreturn, returnRows_isSome_iff, or_iff_right habort]
    exact ⟨Writable.perm accesses.reverse_perm, Writable.perm accesses.reverse_perm.symm⟩

/-- The rows that `per_row_validate` latches: up to the first that was updated after `start_ts`. -/
def latched (c : Ctx R D P) : List R :=
  ((sortAccesses c.names c.plain).take
    (latchAndValidate c.rows c.startTs (sortAccesses c.names c.plain)).1).map Access.origRow

/-- No row is latched twice, and if no accessed row was updated since `start_ts`, the counter gives
    a timestamp above that of every row that is written. -/
def Validates (c : Ctx R D P) : Prop :=
  (latched c).Nodup ∧ ((∀ a ∈ c.plain, (c.rows a.origRow).wts ≤ c.startTs) →
    ∃ drawn, ManagerEnc.getTs c.cfg c.timestampEnc = some drawn ∧
      ∀ r ∈ written c.plain, (c.rows r).wts < drawn.1)

/-- A commit returns if a timestamp can be drawn and the rows are written with it. -/
theorem validated_isSome {cfg : TsConfig} {ts : Nat} {rows : R → Row D}
    {accesses : List (Access R D)} :
    (do
      let (endTs, timestampEnc) ← ManagerEnc.getTs cfg ts
      let (entry, rows) ← cleanup rows endTs .rcok accesses
      return (⟨.rcok, rows, timestampEnc, entry⟩ : Validated R D) : Option _).isSome = true ↔
      ∃ drawn, ManagerEnc.getTs cfg ts = some drawn ∧
        (cleanup rows drawn.1 .rcok accesses).isSome = true := by
  cases ManagerEnc.getTs cfg ts with
  | none => simp
  | some drawn =>
      cases hclean : cleanup rows drawn.1 .rcok accesses with
      | none => simp [hclean]
      | some cleaned => simp [hclean]

theorem perRowValidate_isSome_iff (c : Ctx R D P) :
    (perRowValidate c.cfg c.names c.rows c.timestampEnc c.startTs c.plain).isSome = true ↔
      Validates c := by
  have hperm := sortAccesses_perm c.names c.plain
  simp only [perRowValidate]
  by_cases hnodup : (latched c).Nodup
  · have hlatched := hnodup
    unfold latched at hlatched
    simp only [Validates, hnodup, true_and, if_pos hlatched]
    by_cases hok : (latchAndValidate c.rows c.startTs (sortAccesses c.names c.plain)).2 = true
    · have hvalid : ∀ a ∈ c.plain, (c.rows a.origRow).wts ≤ c.startTs := fun a ha =>
        (latchAndValidate_iff _ _ _).mp hok a (hperm.mem_iff.mpr ha)
      have hall := latchAndValidate_all c.rows c.startTs _ hok
      rw [hall, List.take_length] at hlatched
      rw [if_pos hok, validated_isSome, forall_prop_of_true hvalid]
      refine exists_congr fun drawn => and_congr_right fun _ => ?_
      rw [cleanup_isSome_iff, or_iff_right (by decide)]
      have hwritten : (written (sortAccesses c.names c.plain)).Perm (written c.plain) :=
        (hperm.filter _).map _
      constructor
      · intro h r hr
        exact h.2 r (hwritten.mem_iff.mpr hr)
      · intro h
        refine ⟨hlatched.sublist ?_, fun r hr => h r (hwritten.mem_iff.mp hr)⟩
        exact List.filter_sublist.map _
    · rw [if_neg hok, cleanup_abort]
      refine iff_of_true rfl fun hvalid => absurd ?_ hok
      exact (latchAndValidate_iff _ _ _).mpr fun a ha => hvalid a (hperm.mem_iff.mp ha)
  · have hlatched := hnodup
    unfold latched at hlatched
    rw [if_neg hlatched]
    exact iff_of_false (by simp) fun h => hnodup h.1

/-- `finish` ends as it should exactly if no page has changed and what it calls then returns. -/
theorem finish_ends_right_iff (c : Ctx R D P) (rc : RC) :
    EndsRight c rc ↔ ¬ Conflict c ∧ (rc = .rcok → Validates c) ∧
      (rc ≠ .rcok → rc ≠ .abort → Writable c.rows c.endTs c.plain) := by
  by_cases hconflict : Conflict c
  · refine iff_of_false ?_ fun h => h.1 hconflict
    rintro ⟨fuel, out, hrun, -⟩
    rw [finish_of_conflict hconflict] at hrun
    cases hrun
  have hends : EndsRight c rc ↔ (finish c 1 rc).isSome = true := by
    constructor
    · rintro ⟨fuel, out, hrun, -⟩
      cases fuel with
      | zero => cases hrun
      | succ fuel =>
          rw [finish_of_no_conflict hconflict] at hrun
          rw [finish_of_no_conflict hconflict, hrun]
          rfl
    · intro h
      obtain ⟨out, hrun⟩ := Option.isSome_iff_exists.mp h
      exact ⟨1, out, hrun, fun h => absurd h hconflict⟩
  rw [hends, finish_of_no_conflict hconflict]
  by_cases hrc : rc = .rcok
  · rw [if_pos hrc, Option.isSome_map, perRowValidate_isSome_iff]
    simp [hconflict, hrc]
  · rw [if_neg hrc, Option.isSome_map, cleanup_isSome_iff]
    by_cases habort : rc = .abort
    · simp [hconflict, habort]
    · simp [hconflict, hrc, habort]

/-- One row was read, and then an insertion gave its page another version. -/
def insertedMeanwhile : Ctx Unit Unit Unit where
  cfg := .default
  names := ⟨fun _ => "ORDER", fun _ => 7⟩
  rows _ := ⟨(), 0⟩
  fromPage _ := ()
  version _ := 1
  timestampEnc := initialTimestamp
  startTs := 1
  endTs := 0
  accesses := [{ type := .rd, origRow := (), data := (), wts := 0, origPgVersion := 0 }]

/-- `finish` never returns. -/
theorem finish_calls_itself :
    (∀ fuel, finish insertedMeanwhile fuel .rcok = none) ∧
      ¬ ∀ (c : Ctx Unit Unit Unit) (rc : RC), EndsRight c rc := by
  have hconflict : Conflict insertedMeanwhile :=
    ⟨_, List.mem_singleton_self _, by decide⟩
  have hnever := fun fuel => finish_of_conflict hconflict fuel .rcok
  refine ⟨hnever, fun hall => ?_⟩
  obtain ⟨fuel, out, hrun, -⟩ := hall insertedMeanwhile .rcok
  rw [hnever fuel] at hrun
  cases hrun

end VeriTxn.PageConflicts
