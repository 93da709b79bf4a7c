import Mathlib.Data.Fintype.Card
import Mathlib.Data.String.Basic
import Mathlib.Logic.Relation
import VeriTxn.OccValidation
import VeriTxn.Transition

/-!
# OCC validation never deadlocks

`OptCC::per_row_validate` sorts the accesses by table name and primary key and latches
them in that order, so that a validator only waits for a row behind all the rows it has
latched.  It stops at the first access that fails, leaves `cleanup`, which sets `row_cnt` to
0, in between, and then releases the `lock_cnt` latches it counted itself.

Every call of `latch` and of `release` is one step, and so is everything between two of them.
-/

namespace VeriTxn.Occ

/-! ### The sorting loops sort -/

section Sorting

variable {α : Type} {swap : α → α → Bool}

/-- The rounds of the inner loop stay among its elements. -/
theorem bubble_append {n : Nat} {front : List α} (back : List α) (h : n < front.length) :
    bubble swap n (front ++ back) = bubble swap n front ++ back := by
  induction n generalizing front with
  | zero => simp only [bubble]
  | succ n ih =>
      obtain ⟨a, front, rfl⟩ := List.exists_cons_of_length_pos (Nat.zero_lt_of_lt h)
      obtain ⟨b, rest, rfl⟩ : ∃ b rest, front = b :: rest :=
        List.exists_cons_of_length_pos (by rw [List.length_cons] at h; omega)
      · simp only [List.length_cons] at h
        simp only [List.cons_append, bubble]
        split
        · rw [← List.cons_append, ih (by simp only [List.length_cons]; omega), List.cons_append]
        · rw [← List.cons_append, ih (by simp only [List.length_cons]; omega), List.cons_append]

/-- The inner loop brings an element to the end that no other one has to follow. -/
theorem bubble_last (hasymm : ∀ a b, swap a b = true → swap b a = false)
    (htrans : ∀ a b c, swap a b = false → swap b c = false → swap a c = false) (n : Nat)
    (elems : List α) (h : elems.length = n + 1) :
    ∃ front last, bubble swap n elems = front ++ [last] ∧ ∀ a ∈ front, swap a last = false := by
  induction n generalizing elems with
  | zero =>
      obtain ⟨a, rfl⟩ := List.length_eq_one_iff.mp h
      exact ⟨[], a, rfl, by simp⟩
  | succ n ih =>
      match elems, h with
      | a :: b :: rest, h =>
          simp only [List.length_cons, Nat.add_right_cancel_iff] at h
          rw [bubble]
          -- `first` goes to the front, `carried` is compared on
          have hround : ∀ first carried, swap first carried = false →
              ∃ front last, first :: bubble swap n (carried :: rest) = front ++ [last] ∧
                ∀ x ∈ front, swap x last = false := by
            intro first carried hle
            obtain ⟨front, last, hbubble, hlast⟩ :=
              ih (carried :: rest) (by simp only [List.length_cons]; omega)
            refine ⟨first :: front, last, by rw [hbubble, List.cons_append], ?_⟩
            have hcarried : carried ∈ front ++ [last] :=
              hbubble ▸ (bubble_perm swap n _).mem_iff.mpr (List.mem_cons_self ..)
            intro x hx
            rcases List.mem_cons.mp hx with rfl | hx
            · rcases List.mem_append.mp hcarried with hfront | hlast'
              · exact htrans _ _ _ hle (hlast _ hfront)
              · exact List.mem_singleton.mp hlast' ▸ hle
            · exact hlast x hx
          split
          · rename_i hswap
            exact hround b a (hasymm a b hswap)
          · rename_i hswap
            exact hround a b (by simpa using hswap)

theorem sortLoop_sorted (hasymm : ∀ a b, swap a b = true → swap b a = false)
    (htrans : ∀ a b c, swap a b = false → swap b c = false → swap a c = false) (i : Nat)
    (front back : List α) (hlen : front.length = i + 1)
    (hback : back.Pairwise fun a b => swap a b = false)
    (hbetween : ∀ a ∈ front, ∀ b ∈ back, swap a b = false) :
    (sortLoop swap i (front ++ back)).Pairwise fun a b => swap a b = false := by
  induction i generalizing front back with
  | zero =>
      obtain ⟨a, rfl⟩ := List.length_eq_one_iff.mp hlen
      exact List.pairwise_cons.mpr ⟨hbetween a (by simp), hback⟩
  | succ i ih =>
      obtain ⟨front', last, hbubble, hlast⟩ := bubble_last hasymm htrans (i + 1) front hlen
      have hperm : (front' ++ [last]).Perm front := hbubble ▸ bubble_perm swap (i + 1) front
      have hmem : ∀ a ∈ front' ++ [last], ∀ b ∈ back, swap a b = false := fun a ha =>
        hbetween a (hperm.mem_iff.mp ha)
      rw [sortLoop, bubble_append back (by omega), hbubble, List.append_assoc]
      refine ih front' ([last] ++ back) ?_ ?_ ?_
      · have hcount := hperm.length_eq
        rw [List.length_append, List.length_singleton, hlen] at hcount
        omega
      · exact List.pairwise_cons.mpr ⟨hmem last (by simp), hback⟩
      · intro a ha b hb
        rcases List.mem_append.mp hb with hb | hb
        · exact List.mem_singleton.mp hb ▸ hlast a ha
        · exact hmem a (List.mem_append_left _ ha) b hb

end Sorting

variable {T R D : Type}

/-- The order of table names and, within a table, of primary keys. -/
def RowNames.Before (names : RowNames R) (r r' : R) : Prop :=
  names.tableName r < names.tableName r' ∨
    names.tableName r = names.tableName r' ∧ names.primaryKey r < names.primaryKey r'

theorem RowNames.outOfOrder_iff (names : RowNames R) (a b : Access R D) :
    names.outOfOrder a b = true ↔ names.Before b.origRow a.origRow := by
  rw [RowNames.outOfOrder, Bool.or_eq_true, Bool.and_eq_true, decide_eq_true_iff,
    decide_eq_true_iff, decide_eq_true_iff, RowNames.Before, eq_comm]

theorem RowNames.Before.trans {names : RowNames R} {r r' r'' : R} (h : names.Before r r')
    (h' : names.Before r' r'') : names.Before r r'' := by
  rcases h with h | ⟨heq, h⟩
  · rcases h' with h' | ⟨heq', -⟩
    · exact .inl (lt_trans h h')
    · exact .inl (heq' ▸ h)
  · rcases h' with h' | ⟨heq', h'⟩
    · exact .inl (heq ▸ h')
    · exact .inr ⟨heq.trans heq', lt_trans h h'⟩

theorem RowNames.Before.irrefl (names : RowNames R) (r : R) : ¬ names.Before r r := by
  rintro (h | ⟨-, h⟩)
  · exact lt_irrefl _ h
  · exact lt_irrefl _ h

/-- Rows with other names come one before the other. -/
theorem RowNames.before_total (names : RowNames R) {r r' : R} (h : ¬ names.Before r' r) :
    names.Before r r' ∨
      names.tableName r = names.tableName r' ∧ names.primaryKey r = names.primaryKey r' := by
  rcases lt_trichotomy (names.tableName r) (names.tableName r') with hlt | heq | hgt
  · exact .inl (.inl hlt)
  · rcases lt_trichotomy (names.primaryKey r) (names.primaryKey r') with hlt | heq' | hgt
    · exact .inl (.inr ⟨heq, hlt⟩)
    · exact .inr ⟨heq, heq'⟩
    · exact absurd (.inr ⟨heq.symm, hgt⟩) h
  · exact absurd (.inl hgt) h

/-- The accesses of a transaction in ascending order of their rows. -/
def RowNames.Ascending (names : RowNames R) (accesses : List (Access R D)) : Prop :=
  accesses.Pairwise fun a b => names.Before a.origRow b.origRow

/-- Rows are told apart by table name and primary key. -/
def RowNames.Unique (names : RowNames R) : Prop :=
  ∀ r r', names.tableName r = names.tableName r' → names.primaryKey r = names.primaryKey r' → r = r'

/-- The sorting loops leave distinct rows in strictly ascending order. -/
theorem sortAccesses_ascending {names : RowNames R} (hunique : names.Unique)
    {accesses : List (Access R D)} (hrows : (accesses.map Access.origRow).Nodup) :
    names.Ascending (sortAccesses names accesses) := by
  have hasymm : ∀ a b : Access R D, names.outOfOrder a b = true → names.outOfOrder b a = false := by
    intro a b hab
    rw [← Bool.not_eq_true, names.outOfOrder_iff]
    intro hba
    exact RowNames.Before.irrefl names _ (hba.trans ((names.outOfOrder_iff a b).mp hab))
  have htrans : ∀ a b c : Access R D, names.outOfOrder a b = false →
      names.outOfOrder b c = false → names.outOfOrder a c = false := by
    intro a b c hab hbc
    rw [← Bool.not_eq_true, names.outOfOrder_iff] at hab hbc ⊢
    intro hca
    rcases names.before_total hab with h | ⟨ht, hp⟩
    · exact hbc (hca.trans h)
    · refine hbc ?_
      rw [RowNames.Before, ← ht, ← hp]
      exact hca
  have hsorted : (sortAccesses names accesses).Pairwise fun a b => names.outOfOrder a b = false := by
    cases accesses with
    | nil => exact List.Pairwise.nil
    | cons a accesses =>
        have h := sortLoop_sorted hasymm htrans accesses.length (a :: accesses) [] rfl
          List.Pairwise.nil (by simp)
        rwa [List.append_nil] at h
  have hnodup : ((sortAccesses names accesses).map Access.origRow).Nodup :=
    ((sortAccesses_perm names accesses).map Access.origRow).nodup_iff.mpr hrows
  refine (hsorted.and (List.pairwise_map.mp hnodup)).imp ?_
  rintro a b ⟨hle, hne⟩
  rw [← Bool.not_eq_true, names.outOfOrder_iff] at hle
  rcases names.before_total hle with h | ⟨ht, hp⟩
  · exact h
  · exact absurd (hunique _ _ ht hp) hne

/-! ### Validators -/

/-- Where a call of `per_row_validate` is. -/
inductive Phase where
  | sorting
  /-- at the head of the loop, or waiting in `latch` -/
  | latching
  /-- has latched `accesses[lock_cnt - 1]` -/
  | validating
  | cleaning
  /-- in the last loop, at `i` -/
  | releasing (rc : RC) (i : Nat)
  | returned (rc : RC)
deriving DecidableEq

/-- A transaction in `per_row_validate`, with its local variables. -/
structure Validator (R D : Type) where
  accesses : List (Access R D)
  rowCnt : Nat
  startTs : Nat
  ok : Bool
  lockCnt : Nat
  phase : Phase

/-- The call on a transaction with these accesses. -/
def Validator.start (startTs : Nat) (accesses : List (Access R D)) : Validator R D :=
  ⟨accesses, accesses.length, startTs, true, 0, .sorting⟩

/-- The rows with their latches, the enclave's counter and the validators.  How often a
    validator latched and released a row is counted for the analysis only. -/
structure Latches (T R D : Type) where
  rows : R → Row D
  latch : R → Option T
  timestampEnc : Nat
  validators : T → Validator R D
  latched : T → R → Nat
  released : T → R → Nat

def Latches.init (rows : R → Row D) (timestampEnc : Nat) (validators : T → Validator R D) :
    Latches T R D :=
  ⟨rows, fun _ => none, timestampEnc, validators, fun _ _ => 0, fun _ _ => 0⟩

variable [DecidableEq T] [DecidableEq R]

def Latches.set (s : Latches T R D) (t : T) (v : Validator R D) : Latches T R D :=
  { s with validators := Function.update s.validators t v }

/-- One more call of `t` for row `r`. -/
def count (calls : T → R → Nat) (t : T) (r : R) : T → R → Nat :=
  Function.update calls t (Function.update (calls t) r (calls t r + 1))

/-- `cleanup(rc)` of a validator, after `get_ts` if it passed. -/
def Latches.clean (cfg : TsConfig) (s : Latches T R D) (v : Validator R D) :
    Option (RC × (R → Row D) × Nat) :=
  let accesses := v.accesses.take v.rowCnt
  if v.ok then do
    let (endTs, timestampEnc) ← ManagerEnc.getTs cfg s.timestampEnc
    let (_, rows) ← cleanup s.rows endTs .rcok accesses
    return (.rcok, rows, timestampEnc)
  else do
    let (_, rows) ← cleanup s.rows 0 .abort accesses
    return (.abort, rows, s.timestampEnc)

/-- The next step of validator `t`.  `latch` waits while the row is latched; `release` of a
    row that `t` has not latched has no result. -/
def Latches.step (cfg : TsConfig) (names : RowNames R) (s : Latches T R D) (t : T) :
    Option (Latches T R D) :=
  let v := s.validators t
  match v.phase with
  | .sorting =>
      some (s.set t { v with accesses := sortAccesses names v.accesses, phase := .latching })
  | .latching =>
      if v.lockCnt < v.rowCnt ∧ v.ok then do
        let a ← v.accesses[v.lockCnt]?
        if s.latch a.origRow = none then
          some { s.set t { v with lockCnt := v.lockCnt + 1, phase := .validating } with
            latch := Function.update s.latch a.origRow (some t)
            latched := count s.latched t a.origRow }
        else none
      else some (s.set t { v with phase := .cleaning })
  | .validating => do
      let a ← v.accesses[v.lockCnt - 1]?
      some (s.set t { v with ok := (s.rows a.origRow).validate v.startTs, phase := .latching })
  | .cleaning => do
      let (rc, rows, timestampEnc) ← s.clean cfg v
      some { s.set t { v with rowCnt := 0, phase := .releasing rc 0 } with
        rows := rows
        timestampEnc := timestampEnc }
  | .releasing rc i =>
      if i < v.lockCnt then do
        let a ← v.accesses[i]?
        if s.latch a.origRow = some t then
          some { s.set t { v with phase := .releasing rc (i + 1) } with
            latch := Function.update s.latch a.origRow none
            released := count s.released t a.origRow }
        else none
      else some (s.set t { v with phase := .returned rc })
  | .returned _ => none

/-- `t` is in `latch` for row `r`, or about to call it. -/
def Latches.Wants (s : Latches T R D) (t : T) (r : R) : Prop :=
  let v := s.validators t
  v.phase = .latching ∧ v.lockCnt < v.rowCnt ∧ v.ok = true ∧
    ∃ a, v.accesses[v.lockCnt]? = some a ∧ a.origRow = r

/-- `t` waits for a row that `u` has latched. -/
def Latches.WaitsFor (s : Latches T R D) (t u : T) : Prop :=
  ∃ r, s.Wants t r ∧ s.latch r = some u

/-! ### What a validator holds -/

/-- How many latches the last loop has released. -/
def Validator.releasedCnt (v : Validator R D) : Nat :=
  match v.phase with
  | .releasing _ i => i
  | .returned _ => v.lockCnt
  | _ => 0

/-- The steps that a call has made. -/
def Validator.steps (v : Validator R D) : Nat :=
  match v.phase with
  | .sorting => 0
  | .latching => 2 * v.lockCnt + 1
  | .validating => 2 * v.lockCnt
  | .cleaning => 2 * v.lockCnt + 2
  | .releasing _ i => 2 * v.lockCnt + 3 + i
  | .returned _ => 3 * v.lockCnt + 4

/-- The rows of the first `n` accesses. -/
def Validator.firstRows (v : Validator R D) (n : Nat) : List R :=
  (v.accesses.take n).map Access.origRow

/-- The rows that are latched now. -/
def Validator.heldRows (v : Validator R D) : List R :=
  (v.firstRows v.lockCnt).drop v.releasedCnt

/-- The next timestamp is new to all rows, and the counter is not going to wrap around in the next
    `n` draws. -/
structure Latches.Timed (cfg : TsConfig) (s : Latches T R D) (n : Nat) : Prop where
  fresh : ∀ r, (s.rows r).wts < cfg.drawn s.timestampEnc
  room : s.timestampEnc + n * cfg.stride < 2 ^ 64

/-- A validator that was called with `accesses`, the rows it has latched, and how often it
    latched and released each row. -/
structure Validator.Ok (names : RowNames R) (accesses : List (Access R D)) (v : Validator R D)
    (held : R → Prop) (latched released : R → Nat) : Prop where
  perm : v.accesses.Perm accesses
  ascending : v.phase ≠ .sorting → names.Ascending v.accesses
  lockCnt_le : v.lockCnt ≤ v.accesses.length
  rowCnt_le : v.rowCnt ≤ v.accesses.length
  sorting : v.phase = .sorting → v.lockCnt = 0
  validating : v.phase = .validating → 0 < v.lockCnt
  releasedCnt_le : v.releasedCnt ≤ v.lockCnt
  held : ∀ r, held r ↔ r ∈ v.heldRows
  latched : ∀ r, latched r = (v.firstRows v.lockCnt).count r
  released : ∀ r, released r = (v.firstRows v.releasedCnt).count r

section Ok

variable {names : RowNames R} {accesses : List (Access R D)} {v : Validator R D}
  {held : R → Prop} {latched released : R → Nat}

omit [DecidableEq R] in
theorem Validator.firstRows_succ {n : Nat} {a : Access R D} (ha : v.accesses[n]? = some a) :
    v.firstRows (n + 1) = v.firstRows n ++ [a.origRow] := by
  rw [Validator.firstRows, List.take_add_one, ha, List.map_append]
  rfl

theorem Validator.start_ok (names : RowNames R) (startTs : Nat) (accesses : List (Access R D)) :
    (Validator.start startTs accesses).Ok names accesses (fun _ => False) (fun _ => 0)
      (fun _ => 0) where
  perm := List.Perm.refl _
  ascending h := absurd rfl h
  lockCnt_le := Nat.zero_le _
  rowCnt_le := Nat.le_refl _
  sorting _ := rfl
  validating h := nomatch h
  releasedCnt_le := Nat.le_refl _
  held r := by simp [Validator.heldRows, Validator.firstRows, Validator.start]
  latched r := rfl
  released r := rfl

/-- A step that neither latches nor releases. -/
theorem Validator.Ok.local (h : v.Ok names accesses held latched released) {rowCnt : Nat}
    (ok : Bool) (phase : Phase) (hrowCnt : rowCnt ≤ v.rowCnt)
    (hreleased : Validator.releasedCnt { v with phase := phase } = v.releasedCnt)
    (hsorted : v.phase ≠ .sorting) (hphase : phase ≠ .sorting ∧ phase ≠ .validating) :
    ({ v with rowCnt := rowCnt, ok := ok, phase := phase } : Validator R D).Ok names accesses held
      latched released where
  perm := h.perm
  ascending _ := h.ascending hsorted
  lockCnt_le := h.lockCnt_le
  rowCnt_le := hrowCnt.trans h.rowCnt_le
  sorting hsort := absurd hsort hphase.1
  validating hval := absurd hval hphase.2
  releasedCnt_le := hreleased.trans_le h.releasedCnt_le
  held r := by
    rw [h.held, Validator.heldRows, ← hreleased]
    rfl
  latched := h.latched
  released r := by
    rw [h.released, ← hreleased]
    rfl

/-- The sorting loops. -/
theorem Validator.Ok.sort (h : v.Ok names accesses held latched released) (hunique : names.Unique)
    (hrows : (accesses.map Access.origRow).Nodup) (hphase : v.phase = .sorting) :
    ({ v with accesses := sortAccesses names v.accesses, phase := .latching } :
      Validator R D).Ok names accesses held latched released := by
  have hperm := sortAccesses_perm names v.accesses
  have hnone := h.sorting hphase
  have hrel : v.releasedCnt = 0 := by rw [Validator.releasedCnt, hphase]
  constructor
  · exact hperm.trans h.perm
  · intro _
    exact sortAccesses_ascending hunique ((h.perm.map Access.origRow).nodup_iff.mpr hrows)
  · rw [hnone]
    exact Nat.zero_le _
  · rw [hperm.length_eq]
    exact h.rowCnt_le
  · exact fun hsort => nomatch hsort
  · exact fun hval => nomatch hval
  · exact Nat.zero_le _
  · intro r
    rw [h.held, Validator.heldRows, Validator.heldRows, Validator.firstRows, Validator.firstRows,
      hnone]
    simp
  · intro r
    rw [h.latched, Validator.firstRows, Validator.firstRows, hnone]
    rfl
  · intro r
    rw [h.released, Validator.firstRows, Validator.firstRows, hrel]
    rfl

/-- `latch` on the next row. -/
theorem Validator.Ok.latch {a : Access R D} (h : v.Ok names accesses held latched released)
    (hphase : v.phase = .latching) (ha : v.accesses[v.lockCnt]? = some a) :
    ({ v with lockCnt := v.lockCnt + 1, phase := .validating } : Validator R D).Ok names accesses
      (fun r => held r ∨ r = a.origRow)
      (Function.update latched a.origRow (latched a.origRow + 1)) released := by
  have hlt : v.lockCnt < v.accesses.length := (List.getElem?_eq_some_iff.mp ha).1
  have hrel : v.releasedCnt = 0 := by rw [Validator.releasedCnt, hphase]
  have hfirst := Validator.firstRows_succ ha
  constructor
  · exact h.perm
  · intro _
    exact h.ascending (by rw [hphase]; exact Phase.noConfusion)
  · exact hlt
  · exact h.rowCnt_le
  · exact fun hsort => nomatch hsort
  · exact fun _ => Nat.succ_pos _
  · exact Nat.zero_le _
  · intro r
    have hheld : v.heldRows = v.firstRows v.lockCnt := by
      rw [Validator.heldRows, hrel, List.drop_zero]
    change _ ↔ r ∈ (v.firstRows (v.lockCnt + 1)).drop 0
    rw [h.held, hheld, List.drop_zero, hfirst, List.mem_append, List.mem_singleton]
  · intro r
    change _ = (v.firstRows (v.lockCnt + 1)).count r
    rw [hfirst, List.count_append, ← h.latched, List.count_singleton]
    by_cases hr : r = a.origRow
    · subst hr
      simp
    · simp [Function.update_of_ne hr, Ne.symm hr]
  · intro r
    rw [h.released, hrel]
    rfl

/-- The rows it counts are distinct. -/
theorem Validator.Ok.nodup_firstRows (h : v.Ok names accesses held latched released)
    (hrows : (accesses.map Access.origRow).Nodup) (n : Nat) : (v.firstRows n).Nodup := by
  have hall : (v.accesses.map Access.origRow).Nodup :=
    (h.perm.map Access.origRow).nodup_iff.mpr hrows
  rw [Validator.firstRows, List.map_take]
  exact hall.sublist (List.take_sublist _ _)

/-- `release` in the last loop. -/
theorem Validator.Ok.release {a : Access R D} {rc : RC} {i : Nat}
    (h : v.Ok names accesses held latched released) (hrows : (accesses.map Access.origRow).Nodup)
    (hphase : v.phase = .releasing rc i) (hi : i < v.lockCnt) (ha : v.accesses[i]? = some a) :
    held a.origRow ∧
    ({ v with phase := .releasing rc (i + 1) } : Validator R D).Ok names accesses
      (fun r => held r ∧ r ≠ a.origRow) latched
      (Function.update released a.origRow (released a.origRow + 1)) := by
  have hrel : v.releasedCnt = i := by rw [Validator.releasedCnt, hphase]
  have hnodup := h.nodup_firstRows hrows v.lockCnt
  have hget : (v.firstRows v.lockCnt)[i]? = some a.origRow := by
    rw [Validator.firstRows, List.getElem?_map, List.getElem?_take_of_lt hi, ha]
    rfl
  have hsplit : (v.firstRows v.lockCnt).drop i =
      a.origRow :: (v.firstRows v.lockCnt).drop (i + 1) := by
    obtain ⟨hlt, hval⟩ := List.getElem?_eq_some_iff.mp hget
    rw [List.drop_eq_getElem_cons hlt, hval]
  have hheld : v.heldRows = a.origRow :: (v.firstRows v.lockCnt).drop (i + 1) := by
    rw [Validator.heldRows, hrel, hsplit]
  have hout : a.origRow ∉ (v.firstRows v.lockCnt).drop (i + 1) :=
    (List.nodup_cons.mp (hsplit ▸ hnodup.sublist (List.drop_sublist _ _))).1
  refine ⟨(h.held _).mpr (hheld ▸ List.mem_cons_self ..), ?_⟩
  constructor
  · exact h.perm
  · intro _
    exact h.ascending (by rw [hphase]; exact Phase.noConfusion)
  · exact h.lockCnt_le
  · exact h.rowCnt_le
  · exact fun hsort => nomatch hsort
  · exact fun hval => nomatch hval
  · exact hi
  · intro r
    change _ ↔ r ∈ (v.firstRows v.lockCnt).drop (i + 1)
    rw [h.held, hheld, List.mem_cons]
    constructor
    · rintro ⟨rfl | hr, hne⟩
      · exact absurd rfl hne
      · exact hr
    · intro hr
      refine ⟨.inr hr, ?_⟩
      rintro rfl
      exact hout hr
  · exact h.latched
  · intro r
    change _ = (v.firstRows (i + 1)).count r
    rw [Validator.firstRows_succ ha, List.count_append, List.count_singleton]
    have hbefore := h.released r
    rw [hrel] at hbefore
    by_cases hr : r = a.origRow
    · subst hr
      simp [hbefore]
    · simp [Function.update_of_ne hr, Ne.symm hr, hbefore]

/-- What is latched is latched once, and what is released was latched before. -/
theorem Validator.Ok.counts (h : v.Ok names accesses held latched released)
    (hrows : (accesses.map Access.origRow).Nodup) (r : R) :
    released r ≤ latched r ∧ latched r ≤ 1 ∧ (held r ↔ released r < latched r) := by
  have hnodup := h.nodup_firstRows hrows v.lockCnt
  have htake : v.firstRows v.releasedCnt = (v.firstRows v.lockCnt).take v.releasedCnt := by
    rw [Validator.firstRows, Validator.firstRows, ← List.map_take, List.take_take,
      Nat.min_eq_left h.releasedCnt_le]
  have hcount : (v.firstRows v.lockCnt).count r =
      (v.firstRows v.releasedCnt).count r + v.heldRows.count r := by
    rw [htake, Validator.heldRows, ← List.count_append, List.take_append_drop]
  have hone := List.nodup_iff_count_le_one.mp hnodup r
  rw [h.released, h.latched, h.held, ← List.count_pos_iff]
  omega

/-- A row it wants comes behind all rows it holds. -/
theorem Validator.Ok.before_of_held {a : Access R D} {r : R}
    (h : v.Ok names accesses held latched released) (hphase : v.phase = .latching)
    (ha : v.accesses[v.lockCnt]? = some a) (hr : held r) : names.Before r a.origRow := by
  have hasc := h.ascending (by rw [hphase]; exact Phase.noConfusion)
  obtain ⟨hlt, hval⟩ := List.getElem?_eq_some_iff.mp ha
  have hmem : r ∈ v.firstRows v.lockCnt := List.mem_of_mem_drop ((h.held r).mp hr)
  obtain ⟨b, hb, rfl⟩ := List.mem_map.mp hmem
  have hsplit : (v.accesses.take v.lockCnt ++ v.accesses.drop v.lockCnt).Pairwise
      fun a b => names.Before a.origRow b.origRow := by
    rw [List.take_append_drop]
    exact hasc
  refine (List.pairwise_append.mp hsplit).2.2 b hb a ?_
  rw [List.drop_eq_getElem_cons hlt, hval]
  exact List.mem_cons_self ..

end Ok

/-! ### Runs -/

/-- Every validator is in order with the latches. -/
def Latches.Inv (names : RowNames R) (accesses : T → List (Access R D)) (s : Latches T R D) :
    Prop :=
  ∀ t, (s.validators t).Ok names (accesses t) (fun r => s.latch r = some t) (s.latched t)
    (s.released t)

variable {cfg : TsConfig} {names : RowNames R} {accesses : T → List (Access R D)}
  {s s' : Latches T R D} {t : T}

/-- A step of `t` that gives or takes nothing of the others. -/
theorem Latches.Inv.move (h : s.Inv names accesses)
    (hothers : ∀ u ≠ t, s'.validators u = s.validators u ∧ s'.latched u = s.latched u ∧
      s'.released u = s.released u ∧ ∀ r, s'.latch r = some u ↔ s.latch r = some u)
    (hthis : (s'.validators t).Ok names (accesses t) (fun r => s'.latch r = some t) (s'.latched t)
      (s'.released t)) : s'.Inv names accesses := by
  intro u
  by_cases hu : u = t
  · exact hu ▸ hthis
  · obtain ⟨hv, hl, hr, hlatch⟩ := hothers u hu
    have heq : (fun r => s'.latch r = some u) = fun r => s.latch r = some u :=
      funext fun r => propext (hlatch r)
    rw [hv, hl, hr, heq]
    exact h u

/-- A step that changes nothing but the validator, the rows and the counter. -/
theorem Latches.Inv.set (h : s.Inv names accesses) {v : Validator R D}
    (hv : v.Ok names (accesses t) (fun r => s.latch r = some t) (s.latched t) (s.released t))
    (rows : R → Row D) (timestampEnc : Nat) :
    Latches.Inv names accesses
      { s.set t v with rows := rows, timestampEnc := timestampEnc } := by
  refine h.move (t := t) (fun u hu => ?_) ?_
  · exact ⟨Function.update_of_ne hu _ _, rfl, rfl, fun r => Iff.rfl⟩
  · simpa only [Latches.set, Function.update_self] using hv

theorem Latches.Inv.step (h : s.Inv names accesses) (hunique : names.Unique)
    (hrows : ∀ t, ((accesses t).map Access.origRow).Nodup)
    (hstep : s.step cfg names t = some s') : s'.Inv names accesses := by
  have hok := h t
  dsimp only [Latches.step] at hstep
  cases hphase : (s.validators t).phase with
  | sorting =>
      rw [hphase] at hstep
      dsimp only at hstep
      cases hstep
      exact h.set (hok.sort hunique (hrows t) hphase) s.rows s.timestampEnc
  | latching =>
      rw [hphase] at hstep
      dsimp only at hstep
      split at hstep
      · rename_i hmore
        obtain ⟨a, ha, hstep⟩ := Option.bind_eq_some_iff.mp hstep
        split at hstep
        · rename_i hfree
          cases hstep
          refine h.move (t := t) (fun u hu => ?_) ?_
          · refine ⟨Function.update_of_ne hu _ _, Function.update_of_ne hu _ _, rfl, fun r => ?_⟩
            by_cases hr : r = a.origRow
            · subst hr
              simp [hfree, Ne.symm hu]
            · simp only [Function.update_of_ne hr]
          · have hlatch : (fun r => Function.update s.latch a.origRow (some t) r = some t) =
                fun r => s.latch r = some t ∨ r = a.origRow := by
              funext r
              by_cases hr : r = a.origRow
              · subst hr
                simp
              · simp [hr]
            simp only [Latches.set, Function.update_self, count, hlatch]
            exact hok.latch hphase ha
        · cases hstep
      · cases hstep
        refine h.set (hok.local _ .cleaning le_rfl ?_ ?_ ?_) s.rows s.timestampEnc
        · rw [Validator.releasedCnt, Validator.releasedCnt, hphase]
        · simp [hphase]
        · simp
  | validating =>
      rw [hphase] at hstep
      dsimp only at hstep
      obtain ⟨a, -, hstep⟩ := Option.bind_eq_some_iff.mp hstep
      cases hstep
      refine h.set (hok.local _ .latching le_rfl ?_ ?_ ?_) s.rows s.timestampEnc
      · rw [Validator.releasedCnt, Validator.releasedCnt, hphase]
      · simp [hphase]
      · simp
  | cleaning =>
      rw [hphase] at hstep
      dsimp only at hstep
      obtain ⟨⟨rc, rows, timestampEnc⟩, -, hstep⟩ := Option.bind_eq_some_iff.mp hstep
      cases hstep
      refine h.set (hok.local _ (.releasing rc 0) (Nat.zero_le _) ?_ ?_ ?_) rows timestampEnc
      · rw [Validator.releasedCnt, Validator.releasedCnt, hphase]
      · simp [hphase]
      · simp
  | releasing rc i =>
      rw [hphase] at hstep
      dsimp only at hstep
      split at hstep
      · rename_i hi
        obtain ⟨a, ha, hstep⟩ := Option.bind_eq_some_iff.mp hstep
        split at hstep
        · rename_i hmine
          cases hstep
          refine h.move (t := t) (fun u hu => ?_) ?_
          · refine ⟨Function.update_of_ne hu _ _, rfl, Function.update_of_ne hu _ _, fun r => ?_⟩
            by_cases hr : r = a.origRow
            · subst hr
              simp [hmine, Ne.symm hu]
            · simp only [Function.update_of_ne hr]
          · have hlatch : (fun r => Function.update s.latch a.origRow none r = some t) =
                fun r => s.latch r = some t ∧ r ≠ a.origRow := by
              funext r
              by_cases hr : r = a.origRow
              · subst hr
                simp
              · simp [hr]
            simp only [Latches.set, Function.update_self, count, hlatch]
            exact (hok.release (hrows t) hphase hi ha).2
        · cases hstep
      · rename_i hi
        cases hstep
        have hall : i = (s.validators t).lockCnt := by
          have hle := hok.releasedCnt_le
          rw [Validator.releasedCnt, hphase] at hle
          dsimp only at hle
          omega
        refine h.set (hok.local _ (.returned rc) le_rfl ?_ ?_ ?_) s.rows s.timestampEnc
        · rw [Validator.releasedCnt, Validator.releasedCnt, hphase]
          exact hall.symm
        · simp [hphase]
        · simp
  | returned rc =>
      rw [hphase] at hstep
      dsimp only at hstep
      cases hstep

omit [DecidableEq T] in
theorem Latches.inv_init (names : RowNames R) (rows : R → Row D) (timestampEnc : Nat)
    (startTs : T → Nat) (accesses : T → List (Access R D)) :
    (Latches.init rows timestampEnc fun t => Validator.start (startTs t) (accesses t)).Inv names
      accesses := by
  intro t
  have hnone : (fun _ : R => (none : Option T) = some t) = fun _ => False := by simp
  have hstart := Validator.start_ok names (startTs t) (accesses t)
  rw [← hnone] at hstart
  exact hstart

omit [DecidableEq T] in
/-- Along a chain of waits the rows wanted ascend. -/
theorem Latches.Inv.before_of_waits (h : s.Inv names accesses) {t u : T} {r r' : R}
    (hwaits : Relation.TransGen s.WaitsFor t u) (ht : s.Wants t r) (hu : s.Wants u r') :
    names.Before r r' := by
  -- one wait: the row wanted is held by the next, behind whose rows it wants its own
  have hone : ∀ {t u : T} {r r' : R}, s.WaitsFor t u → s.Wants t r → s.Wants u r' →
      names.Before r r' := by
    rintro t u r r' ⟨q, hq, hheld⟩ ht ⟨hphase, -, -, a, ha, rfl⟩
    have hqr : q = r := by
      obtain ⟨-, -, -, b, hb, rfl⟩ := hq
      obtain ⟨-, -, -, c, hc, rfl⟩ := ht
      rw [hb, Option.some.injEq] at hc
      rw [hc]
    exact (h u).before_of_held hphase ha (hqr ▸ hheld)
  induction hwaits generalizing r' with
  | single hwait => exact hone hwait ht hu
  | tail _ hwait ih =>
      obtain ⟨q, hq, -⟩ := id hwait
      exact (ih hq).trans (hone hwait hq hu)

omit [DecidableEq T] in
theorem Latches.Inv.acyclic (h : s.Inv names accesses) (t : T) :
    ¬ Relation.TransGen s.WaitsFor t t := by
  intro hcycle
  obtain ⟨u, ⟨r, hr, -⟩, -⟩ := Relation.TransGen.head'_iff.mp hcycle
  exact RowNames.Before.irrefl names r (h.before_of_waits hcycle hr hr)

/-! ### Progress -/

/-- What a step leaves of the other validators, and what it does to the rows and the counter. -/
theorem Latches.Inv.step_cases (h : s.Inv names accesses) (hstep : s.step cfg names t = some s') :
    (∀ u ≠ t, s'.validators u = s.validators u) ∧
    (s'.validators t).steps = (s.validators t).steps + 1 ∧
    ((s'.rows = s.rows ∧ s'.timestampEnc = s.timestampEnc) ∨
      ∃ rc, s.clean cfg (s.validators t) = some (rc, s'.rows, s'.timestampEnc)) := by
  have hok := h t
  dsimp only [Latches.step] at hstep
  cases hphase : (s.validators t).phase with
  | sorting =>
      rw [hphase] at hstep
      cases hstep
      refine ⟨fun u hu => Function.update_of_ne hu _ _, ?_, .inl ⟨rfl, rfl⟩⟩
      simp only [Latches.set, Function.update_self, Validator.steps, hphase, hok.sorting hphase]
  | latching =>
      rw [hphase] at hstep
      dsimp only at hstep
      split at hstep
      · obtain ⟨a, -, hstep⟩ := Option.bind_eq_some_iff.mp hstep
        split at hstep
        · cases hstep
          refine ⟨fun u hu => Function.update_of_ne hu _ _, ?_, .inl ⟨rfl, rfl⟩⟩
          simp only [Latches.set, Function.update_self, Validator.steps, hphase]
          omega
        · cases hstep
      · cases hstep
        refine ⟨fun u hu => Function.update_of_ne hu _ _, ?_, .inl ⟨rfl, rfl⟩⟩
        simp only [Latches.set, Function.update_self, Validator.steps, hphase]
  | validating =>
      rw [hphase] at hstep
      obtain ⟨a, -, hstep⟩ := Option.bind_eq_some_iff.mp hstep
      cases hstep
      refine ⟨fun u hu => Function.update_of_ne hu _ _, ?_, .inl ⟨rfl, rfl⟩⟩
      simp only [Latches.set, Function.update_self, Validator.steps, hphase]
  | cleaning =>
      rw [hphase] at hstep
      obtain ⟨⟨rc, rows, timestampEnc⟩, hclean, hstep⟩ := Option.bind_eq_some_iff.mp hstep
      cases hstep
      refine ⟨fun u hu => Function.update_of_ne hu _ _, ?_, .inr ⟨rc, hclean⟩⟩
      simp only [Latches.set, Function.update_self, Validator.steps, hphase]
  | releasing rc i =>
      rw [hphase] at hstep
      dsimp only at hstep
      split at hstep
      · obtain ⟨a, -, hstep⟩ := Option.bind_eq_some_iff.mp hstep
        split at hstep
        · cases hstep
          refine ⟨fun u hu => Function.update_of_ne hu _ _, ?_, .inl ⟨rfl, rfl⟩⟩
          simp only [Latches.set, Function.update_self, Validator.steps, hphase]
          omega
        · cases hstep
      · rename_i hi
        cases hstep
        have hle := hok.releasedCnt_le
        rw [Validator.releasedCnt, hphase] at hle
        dsimp only at hle
        refine ⟨fun u hu => Function.update_of_ne hu _ _, ?_, .inl ⟨rfl, rfl⟩⟩
        simp only [Latches.set, Function.update_self, Validator.steps, hphase]
        omega
  | returned rc =>
      rw [hphase] at hstep
      cases hstep

omit [DecidableEq T] in
/-- `cleanup` of a validator neither fails nor leaves a row with a timestamp to come. -/
theorem Latches.Timed.clean {n : Nat} (h : s.Timed cfg (n + 1)) (hdraws : cfg.Draws)
    {v : Validator R D} (hrows : (v.accesses.map Access.origRow).Nodup) :
    ∃ rc rows timestampEnc, s.clean cfg v = some (rc, rows, timestampEnc) ∧
      (∀ r, (rows r).wts < cfg.drawn timestampEnc) ∧
      timestampEnc ≤ s.timestampEnc + cfg.stride := by
  have htake : ((v.accesses.take v.rowCnt).map Access.origRow).Nodup := by
    rw [List.map_take]
    exact hrows.sublist (List.take_sublist ..)
  have hroom : s.timestampEnc + cfg.stride < 2 ^ 64 := by
    have := h.room
    rw [Nat.add_mul, Nat.one_mul] at this
    omega
  unfold Latches.clean
  cases v.ok with
  | true =>
      obtain ⟨rows, hclean, hwts⟩ := cleanup_of_fresh htake h.fresh
      refine ⟨.rcok, rows, s.timestampEnc + cfg.stride, ?_, fun r => ?_, Nat.le_refl _⟩
      · rw [if_pos rfl, ManagerEnc.getTs_of_draws hdraws hroom]
        show (cleanup s.rows _ .rcok _).bind _ = _
        rw [hclean]
        rfl
      · have hnext := hdraws.drawn_lt s.timestampEnc
        rcases hwts r with hsame | hnew
        · rw [hsame]
          exact Nat.lt_trans (h.fresh r) hnext
        · rw [hnew]
          exact hnext
  | false =>
      refine ⟨.abort, s.rows, s.timestampEnc, ?_, h.fresh, Nat.le_add_right ..⟩
      rw [if_neg Bool.false_ne_true, cleanup_abort]
      rfl

theorem Latches.Timed.step {n : Nat} (h : s.Timed cfg (n + 1)) (hdraws : cfg.Draws)
    (hinv : s.Inv names accesses) (hrows : ∀ t, ((accesses t).map Access.origRow).Nodup)
    (hstep : s.step cfg names t = some s') : s'.Timed cfg n := by
  have hroom := h.room
  rw [Nat.add_mul, Nat.one_mul] at hroom
  obtain ⟨-, -, ⟨hsame, hts⟩ | ⟨rc, hclean⟩⟩ := hinv.step_cases hstep
  · refine ⟨fun r => ?_, ?_⟩
    · rw [hsame, hts]
      exact h.fresh r
    · rw [hts]
      omega
  · obtain ⟨rc', rows, timestampEnc, hclean', hfresh, hle⟩ := h.clean hdraws
      (((hinv t).perm.map Access.origRow).nodup_iff.mpr (hrows t))
    cases hclean.symm.trans hclean'
    exact ⟨hfresh, by omega⟩

omit [DecidableEq T] in
/-- A validator that has returned holds nothing. -/
theorem Latches.Inv.not_returned (h : s.Inv names accesses) {r : R} (hlatch : s.latch r = some t)
    (rc : RC) : (s.validators t).phase ≠ .returned rc := by
  intro hphase
  have hmem := ((h t).held r).mp hlatch
  rw [Validator.heldRows, Validator.releasedCnt, hphase, Validator.firstRows, ← List.map_drop,
    List.drop_take_self] at hmem
  cases hmem

/-- The last loop finds every latch in its own hands. -/
theorem Latches.Inv.releases (h : s.Inv names accesses)
    (hrows : ∀ t, ((accesses t).map Access.origRow).Nodup) {rc : RC} {i : Nat}
    (hphase : (s.validators t).phase = .releasing rc i) : (s.step cfg names t).isSome := by
  have hok := h t
  dsimp only [Latches.step]
  rw [hphase]
  dsimp only
  split
  · rename_i hi
    have hlt : i < (s.validators t).accesses.length := Nat.lt_of_lt_of_le hi hok.lockCnt_le
    have ha := List.getElem?_eq_getElem hlt
    have hmine := (hok.release (hrows t) hphase hi ha).1
    rw [ha, Option.bind_eq_bind, Option.bind_some, if_pos hmine]
    rfl
  · rfl

/-- A validator that has not returned makes a step, or waits for a latch that another one holds. -/
theorem Latches.Inv.enabled (h : s.Inv names accesses) {n : Nat} (htimed : s.Timed cfg (n + 1))
    (hdraws : cfg.Draws) (hrows : ∀ t, ((accesses t).map Access.origRow).Nodup)
    (hrunning : ∀ rc, (s.validators t).phase ≠ .returned rc) :
    (s.step cfg names t).isSome ∨ ∃ u, s.WaitsFor t u := by
  have hok := h t
  dsimp only [Latches.step]
  cases hphase : (s.validators t).phase with
  | sorting => exact .inl rfl
  | latching =>
      dsimp only
      split
      · rename_i hmore
        have hlt : (s.validators t).lockCnt < (s.validators t).accesses.length :=
          Nat.lt_of_lt_of_le hmore.1 hok.rowCnt_le
        have ha := List.getElem?_eq_getElem hlt
        rw [ha, Option.bind_eq_bind, Option.bind_some]
        cases hlatch : s.latch ((s.validators t).accesses[(s.validators t).lockCnt]).origRow with
        | none => exact .inl (by rw [if_pos rfl]; rfl)
        | some u => exact .inr ⟨u, _, ⟨hphase, hmore.1, hmore.2, _, ha, rfl⟩, hlatch⟩
      · exact .inl rfl
  | validating =>
      have hpos := hok.validating hphase
      have hlt : (s.validators t).lockCnt - 1 < (s.validators t).accesses.length := by
        have := hok.lockCnt_le
        omega
      dsimp only
      rw [List.getElem?_eq_getElem hlt]
      exact .inl rfl
  | cleaning =>
      obtain ⟨rc, rows, timestampEnc, hclean, -, -⟩ := htimed.clean hdraws
        ((hok.perm.map Access.origRow).nodup_iff.mpr (hrows t))
      dsimp only
      rw [hclean]
      exact .inl rfl
  | releasing rc i =>
      have hnext : (s.step cfg names t).isSome := h.releases hrows hphase
      dsimp only [Latches.step] at hnext
      rw [hphase] at hnext
      exact .inl hnext
  | returned rc => exact absurd hphase (hrunning rc)

/-- Of finitely many validators one makes a step until all have returned. -/
theorem Latches.Inv.someone_steps [Finite T] (h : s.Inv names accesses)
    (henabled : ∀ t, (∀ rc, (s.validators t).phase ≠ .returned rc) →
      (s.step cfg names t).isSome ∨ ∃ u, s.WaitsFor t u)
    (hrunning : ∀ rc, (s.validators t).phase ≠ .returned rc) :
    ∃ u, (s.step cfg names u).isSome := by
  have : IsTrans T (Function.swap (Relation.TransGen s.WaitsFor)) :=
    ⟨fun _ _ _ hab hbc => hbc.trans hab⟩
  have : Std.Irrefl (Function.swap (Relation.TransGen s.WaitsFor)) := ⟨h.acyclic⟩
  have hwf := Finite.wellFounded_of_trans_of_irrefl (Function.swap (Relation.TransGen s.WaitsFor))
  induction t using hwf.induction with
  | _ t ih =>
      rcases henabled t hrunning with hstep | ⟨u, hwaits⟩
      · exact ⟨t, hstep⟩
      · obtain ⟨r, -, hlatch⟩ := id hwaits
        exact ih u (.single hwaits) (h.not_returned hlatch)

/-- What holds along a run: a step is one step of one call, and draws at most one timestamp. -/
theorem Latches.Inv.runs (h : s.Inv names accesses) (hunique : names.Unique)
    (hrows : ∀ t, ((accesses t).map Access.origRow).Nodup) {sched : List T}
    (hrun : Transition.runs (Latches.step cfg names) s sched = some s') :
    s'.Inv names accesses ∧
    (∀ t, (s'.validators t).steps = (s.validators t).steps + sched.count t) ∧
    (cfg.Draws → ∀ n, s.Timed cfg (n + sched.length) → s'.Timed cfg n) := by
  induction sched generalizing s with
  | nil =>
      cases hrun
      exact ⟨h, fun _ => rfl, fun _ _ htimed => htimed⟩
  | cons u sched ih =>
      obtain ⟨mid, hstep, hrest⟩ := Transition.runs_cons_eq_some.mp hrun
      obtain ⟨hothers, hthis, -⟩ := h.step_cases hstep
      obtain ⟨hinv, hsteps, htimed⟩ := ih (h.step hunique hrows hstep) hrest
      refine ⟨hinv, fun t => ?_, fun hdraws n hn => ?_⟩
      · rw [hsteps t, List.count_cons]
        by_cases ht : t = u
        · rw [ht, hthis, beq_self_eq_true, if_pos rfl]
          omega
        · rw [hothers t ht, if_neg fun heq => ht (eq_of_beq heq).symm]
          rfl
      · exact htimed hdraws n (Latches.Timed.step (n := n + sched.length) hn hdraws h hrows hstep)

omit [DecidableEq T] in
theorem Latches.Inv.steps_le (h : s.Inv names accesses) (t : T) :
    (s.validators t).steps ≤ 3 * (accesses t).length + 4 := by
  have hok := h t
  have hlock := hok.lockCnt_le
  have hreleased := hok.releasedCnt_le
  rw [hok.perm.length_eq] at hlock
  unfold Validator.releasedCnt at hreleased
  unfold Validator.steps
  cases hphase : (s.validators t).phase <;> rw [hphase] at hreleased <;> dsimp only at hreleased ⊢ <;>
    omega

/-- **Validators never wait in a circle.**  In every state they reach, the accesses are sorted,
    no waits close a cycle, and what was latched is released once: a release never finds the
    latch taken by another, and nothing is left when the call returns.  A call ends after a
    bounded number of steps, and as long as there are timestamps to draw, all that keeps a
    validator from its next step is a latch that another one holds. -/
theorem per_row_validate_no_deadlock (cfg : TsConfig) {names : RowNames R}
    (hunique : names.Unique) (rows : R → Row D) (timestampEnc : Nat) (startTs : T → Nat)
    {accesses : T → List (Access R D)} (hrows : ∀ t, ((accesses t).map Access.origRow).Nodup)
    {sched : List T} {s : Latches T R D}
    (hrun : Transition.runs (Latches.step cfg names) (Latches.init rows timestampEnc fun t =>
      Validator.start (startTs t) (accesses t)) sched = some s) :
    (∀ t, (s.validators t).accesses.Perm (accesses t) ∧
      ((s.validators t).phase ≠ .sorting → names.Ascending (s.validators t).accesses)) ∧
    (∀ t, ¬ Relation.TransGen s.WaitsFor t t) ∧
    (∀ t r, s.released t r ≤ s.latched t r ∧ s.latched t r ≤ 1 ∧
      (s.latch r = some t ↔ s.released t r < s.latched t r)) ∧
    (∀ t rc, (s.validators t).phase = .returned rc → ∀ r, s.released t r = s.latched t r) ∧
    (∀ t, sched.count t ≤ 3 * (accesses t).length + 4) ∧
    (∀ t rc i, (s.validators t).phase = .releasing rc i → (s.step cfg names t).isSome) ∧
    (cfg.Draws → (∀ r, (rows r).wts < timestampEnc) →
      timestampEnc + (sched.length + 1) * cfg.stride < 2 ^ 64 →
      (∀ t, (∀ rc, (s.validators t).phase ≠ .returned rc) →
        (s.step cfg names t).isSome ∨ ∃ u, s.WaitsFor t u) ∧
      (Finite T → ∀ t, (∀ rc, (s.validators t).phase ≠ .returned rc) →
        ∃ u, (s.step cfg names u).isSome)) := by
  have hinit := Latches.inv_init (T := T) names rows timestampEnc startTs accesses
  obtain ⟨hinv, hsteps, htimed⟩ := hinit.runs hunique hrows hrun
  refine ⟨fun t => ⟨(hinv t).perm, (hinv t).ascending⟩, hinv.acyclic,
    fun t r => (hinv t).counts (hrows t) r, fun t rc hphase r => ?_, fun t => ?_,
    fun t rc i hphase => hinv.releases hrows hphase, fun hdraws hwts hroom => ?_⟩
  · have hall : (s.validators t).releasedCnt = (s.validators t).lockCnt := by
      rw [Validator.releasedCnt, hphase]
    rw [(hinv t).released, (hinv t).latched, hall]
  · refine Nat.le_trans ?_ (hinv.steps_le t)
    rw [hsteps t]
    exact Nat.le_add_left ..
  · have htimed' : s.Timed cfg 1 := by
      refine htimed hdraws 1 ⟨fun r => Nat.lt_of_lt_of_le (hwts r) (cfg.le_drawn _), ?_⟩
      rw [Nat.add_comm 1]
      exact hroom
    have henabled : ∀ t, (∀ rc, (s.validators t).phase ≠ .returned rc) →
        (s.step cfg names t).isSome ∨ ∃ u, s.WaitsFor t u :=
      fun t => hinv.enabled (n := 0) htimed' hdraws hrows
    exact ⟨henabled, fun _ t => hinv.someone_steps henabled⟩

/-- Two validators that accessed two rows in opposite orders. -/
def crossing (t : Bool) : List (Access Nat Unit) :=
  if t then [⟨.wr, 1, (), 0⟩, ⟨.rd, 0, (), 0⟩] else [⟨.rd, 0, (), 0⟩, ⟨.wr, 1, (), 0⟩]

def crossed (sched : List Bool) : Option (Latches Bool Nat Unit) :=
  Transition.runs (Latches.step .default ⟨fun _ => "MAIN_TABLE", fun r => r⟩)
    (Latches.init (fun _ => ⟨(), 0⟩) 1 fun t => Validator.start 0 (crossing t)) sched

/-- One waits for the other, which passes; then it fails, and both have released everything. -/
theorem per_row_validate_no_deadlock_two_rows :
    (∃ s, crossed [true, false, true, true] = some s ∧ s.latch 0 = some true ∧
      (∀ t, ¬ Relation.TransGen s.WaitsFor t t) ∧
      ∃ u, (s.step .default ⟨fun _ => "MAIN_TABLE", fun r => r⟩ u).isSome) ∧
    ∃ s, crossed ([true, false] ++ .replicate 9 true ++ .replicate 9 false) = some s ∧
      (s.validators true).phase = .returned .rcok ∧
      (s.validators false).phase = .returned .abort ∧ s.latched false 1 = 1 ∧
      ∀ t r, s.released t r = s.latched t r := by
  have hunique : (⟨fun _ => "MAIN_TABLE", fun r => r⟩ : RowNames Nat).Unique :=
    fun r r' _ hkey => hkey
  have hrows : ∀ t, ((crossing t).map Access.origRow).Nodup := by decide
  have hdraws : TsConfig.default.Draws := .inl ⟨rfl, fun h => absurd h Bool.false_ne_true⟩
  constructor
  · have hsome : ((crossed [true, false, true, true]).map fun s =>
        (s.latch 0, (s.validators true).phase)) = some (some true, .latching) := by
      decide
    obtain ⟨s, hrun, hs⟩ := Option.map_eq_some_iff.mp hsome
    obtain ⟨hlatch, hphase⟩ := Prod.mk.inj hs
    obtain ⟨-, hacyclic, -, -, -, -, hprogress⟩ := per_row_validate_no_deadlock .default hunique
      (fun _ => ⟨(), 0⟩) 1 (fun _ => 0) hrows hrun
    refine ⟨s, hrun, hlatch, hacyclic, ?_⟩
    refine (hprogress hdraws (fun _ => Nat.one_pos) (by decide)).2 inferInstance true fun rc => ?_
    rw [hphase]
    exact Phase.noConfusion
  · have hsome : ((crossed ([true, false] ++ .replicate 9 true ++ .replicate 9 false)).map fun s =>
        ((s.validators true).phase, (s.validators false).phase, s.latched false 1)) =
        some (.returned .rcok, .returned .abort, 1) := by
      decide
    obtain ⟨s, hrun, hs⟩ := Option.map_eq_some_iff.mp hsome
    obtain ⟨hpassed, hs⟩ := Prod.mk.inj hs
    obtain ⟨hfailed, hlatched⟩ := Prod.mk.inj hs
    obtain ⟨-, -, -, hreturned, -⟩ := per_row_validate_no_deadlock .default hunique
      (fun _ => ⟨(), 0⟩) 1 (fun _ => 0) hrows hrun
    refine ⟨s, hrun, hpassed, hfailed, hlatched, fun t => ?_⟩
    cases t with
    | true => exact hreturned true _ hpassed
    | false => exact hreturned false _ hfailed

end VeriTxn.Occ
