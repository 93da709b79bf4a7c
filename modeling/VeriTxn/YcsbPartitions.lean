import VeriTxn.Types
import Mathlib.Data.List.Range
import Mathlib.Algebra.Order.Group.Nat

/-!
# The partitions of the YCSB table

`init_table` deals the keys out to the partitions in turn.  `key_to_part`, by which transactions
and the parallel loader choose a partition, divides the keys into as many ranges.
-/

namespace VeriTxn.YcsbWl

/-- A row in the index, by its key, and the partition that `index_insert` was given. -/
structure Loaded where
  key : Nat
  partId : Int32
deriving DecidableEq

/-- `ycsb_wl::key_to_part`. -/
def keyToPart (synthTableSize partCnt key : Nat) : Int32 :=
  let rowsPerPart := synthTableSize / partCnt
  .ofNat (key / rowsPerPart)

/-- The `for` loop over the partitions from `partId` on: the rows, and `total_row` unless the loop
    has gone to `ins_done`. -/
def dealRound (synthTableSize : Nat) : (parts partId totalRow : Nat) → List Loaded × Option Nat
  | 0, _, totalRow => ([], some totalRow)
  | parts + 1, partId, totalRow =>
      if totalRow > synthTableSize then ([], none)
      else
        let (rows, rest) := dealRound synthTableSize parts (partId + 1) (totalRow + 1)
        (⟨totalRow, .ofNat partId⟩ :: rows, rest)

/-- The `while` loop of `ycsb_wl::init_table`, for so many rounds. -/
def dealRows (synthTableSize partCnt : Nat) : (rounds totalRow : Nat) → Option (List Loaded)
  | 0, _ => none
  | rounds + 1, totalRow =>
      let (rows, rest) := dealRound synthTableSize partCnt 0 totalRow
      match rest with
      | none => some rows
      | some totalRow => (dealRows synthTableSize partCnt rounds totalRow).map (rows ++ ·)

/-- `ycsb_wl::init_table`.  Every round but the last inserts a row, so that these rounds do. -/
def initTable (synthTableSize partCnt : Nat) : Option (List Loaded) :=
  dealRows synthTableSize partCnt (synthTableSize + 2) 0

/-- Every key below the table size is in the partition that `run_txn` reads, and in no other. -/
def ReadWhereLoaded (synthTableSize partCnt : Nat) (rows : List Loaded) : Prop :=
  ∀ key < synthTableSize, (∃ row ∈ rows, row.key = key) ∧
    ∀ row ∈ rows, row.key = key → row.partId = keyToPart synthTableSize partCnt key

/-! ### The keys in turn -/

variable {synthTableSize partCnt : Nat}

theorem dealRound_eq (parts partId totalRow : Nat) (h : totalRow ≤ synthTableSize + 1) :
    dealRound synthTableSize parts partId totalRow =
      ((List.range' totalRow (min parts (synthTableSize + 1 - totalRow))).map fun key =>
        ⟨key, .ofNat (key - totalRow + partId)⟩,
       if totalRow + parts ≤ synthTableSize + 1 then some (totalRow + parts) else none) := by
  induction parts generalizing partId totalRow with
  | zero => simp [dealRound, h]
  | succ parts ih =>
      rw [dealRound]
      by_cases hdone : totalRow > synthTableSize
      · have hall : synthTableSize + 1 - totalRow = 0 := by omega
        rw [if_pos hdone, hall, Nat.min_zero, if_neg (by omega)]
        rfl
      · have hmin : min (parts + 1) (synthTableSize + 1 - totalRow) =
            min parts (synthTableSize + 1 - (totalRow + 1)) + 1 := by omega
        rw [if_neg hdone, ih (partId + 1) (totalRow + 1) (by omega), hmin, List.range'_succ,
          List.map_cons, Nat.sub_self, Nat.zero_add]
        have hsum : totalRow + 1 + parts = totalRow + (parts + 1) := by omega
        rw [hsum]
        refine Prod.ext ?_ rfl
        simp only [List.cons.injEq, true_and]
        refine List.map_congr_left fun key hkey => ?_
        have := List.left_le_of_mem_range' hkey
        rw [Loaded.mk.injEq]
        exact ⟨rfl, by congr 1; omega⟩

/-- From the start of a round on, every key goes to the partition of its remainder. -/
theorem dealRows_eq (hpos : 0 < partCnt) (rounds turn : Nat)
    (hle : turn * partCnt ≤ synthTableSize + 1) (hrounds : synthTableSize + 1 < turn + rounds) :
    dealRows synthTableSize partCnt rounds (turn * partCnt) =
      some ((List.range' (turn * partCnt) (synthTableSize + 1 - turn * partCnt)).map fun key =>
        ⟨key, .ofNat (key % partCnt)⟩) := by
  induction rounds generalizing turn with
  | zero =>
      have := Nat.le_mul_of_pos_right turn hpos
      omega
  | succ rounds ih =>
      have hround : ∀ n ≤ partCnt, (List.range' (turn * partCnt) n).map
          (fun key => (⟨key, .ofNat (key - turn * partCnt + 0)⟩ : Loaded)) =
          (List.range' (turn * partCnt) n).map fun key => ⟨key, .ofNat (key % partCnt)⟩ := by
        intro n hn
        refine List.map_congr_left fun key hkey => ?_
        obtain ⟨hle, hlt⟩ := List.mem_range'_1.mp hkey
        obtain ⟨i, rfl⟩ := Nat.exists_eq_add_of_le hle
        have hi : i < partCnt := by omega
        rw [Nat.add_sub_cancel_left, Nat.add_zero, Nat.add_comm, Nat.add_mul_mod_self_right,
          Nat.mod_eq_of_lt hi]
      have hturn : turn * partCnt + partCnt = (turn + 1) * partCnt := by rw [Nat.succ_mul]
      rw [dealRows, dealRound_eq _ _ _ hle]
      by_cases hmore : turn * partCnt + partCnt ≤ synthTableSize + 1
      · rw [if_pos hmore, Nat.min_eq_left (by omega), hround _ le_rfl, hturn]
        simp only
        rw [ih (turn + 1) (by omega) (by omega), Option.map_some, ← hturn, ← List.map_append,
          List.range'_append_1]
        congr 3
        omega
      · rw [if_neg hmore, Nat.min_eq_right (by omega), hround _ (by omega)]

/-- `init_table` comes to an end, and gives every key to the partition of its remainder. -/
theorem initTable_eq (hpos : 0 < partCnt) :
    initTable synthTableSize partCnt =
      some ((List.range' 0 (synthTableSize + 1)).map fun key => ⟨key, .ofNat (key % partCnt)⟩) := by
  have hrounds : synthTableSize + 1 < 0 + (synthTableSize + 2) := by omega
  have hdeal := dealRows_eq hpos (synthTableSize + 2) 0 (by omega) hrounds
  rw [Nat.zero_mul] at hdeal
  exact hdeal

/-! ### Where transactions look -/

/-- **The rows are read where `init_table` put them if and only if there is one partition, or no
    partition with more than one row.** -/
theorem read_where_loaded_iff (hpos : 0 < partCnt) (hdvd : partCnt ∣ synthTableSize) :
    (∃ rows, initTable synthTableSize partCnt = some rows ∧
      ReadWhereLoaded synthTableSize partCnt rows) ↔ partCnt = 1 ∨ synthTableSize ≤ partCnt := by
  rw [initTable_eq hpos]
  constructor
  · rintro ⟨rows, hrows, hread⟩
    cases hrows
    by_contra hmore
    rw [not_or, Nat.not_le] at hmore
    obtain ⟨rowsPerPart, rfl⟩ := hdvd
    have hper : 1 < rowsPerPart := by
      by_contra hle
      have := Nat.mul_le_mul_left partCnt (Nat.not_lt.mp hle)
      omega
    have hone : (⟨1, .ofNat (1 % partCnt)⟩ : Loaded) ∈
        (List.range' 0 (partCnt * rowsPerPart + 1)).map fun key =>
          (⟨key, .ofNat (key % partCnt)⟩ : Loaded) :=
      List.mem_map.mpr ⟨1, List.mem_range'_1.mpr (by omega), rfl⟩
    have hparts := (hread 1 (by omega)).2 _ hone rfl
    rw [Nat.mod_eq_of_lt (by omega), keyToPart] at hparts
    simp only [Nat.mul_div_cancel_left _ hpos, Nat.div_eq_of_lt hper] at hparts
    exact absurd hparts (by decide)
  · intro h
    refine ⟨_, rfl, fun key hkey =>
      ⟨⟨⟨key, .ofNat (key % partCnt)⟩, List.mem_map.mpr ⟨key, ?_, rfl⟩, rfl⟩, ?_⟩⟩
    · exact List.mem_range'_1.mpr (by omega)
    · intro row hrow hkeyRow
      obtain ⟨k, -, rfl⟩ := List.mem_map.mp hrow
      simp only at hkeyRow
      subst hkeyRow
      rw [keyToPart]
      rcases h with rfl | hle
      · rw [Nat.div_one, Nat.mod_one, Nat.div_eq_of_lt hkey]
      · have hsame : synthTableSize = partCnt := le_antisymm hle (Nat.le_of_dvd (by omega) hdvd)
        rw [hsame, Nat.div_self hpos, Nat.div_one, Nat.mod_eq_of_lt (by omega)]

/-- One partition, the setting of `config.h`. -/
theorem read_where_loaded_iff_one_partition :
    (∃ rows, initTable 8 1 = some rows ∧ ReadWhereLoaded 8 1 rows) ↔ 1 = 1 ∨ 8 ≤ 1 :=
  read_where_loaded_iff (by decide) (by decide)

/-- With two partitions of two rows the key 1 is loaded into partition 1 and looked for in 0. -/
theorem key_in_other_partition :
    ∃ rows, initTable 4 2 = some rows ∧ ⟨1, 1⟩ ∈ rows ∧ keyToPart 4 2 1 = 0 ∧
      ¬ ReadWhereLoaded 4 2 rows := by
  refine ⟨_, rfl, by decide, by decide, fun h => ?_⟩
  have := (h 1 (by decide)).2 ⟨1, 1⟩ (by decide) rfl
  exact absurd this (by decide)

end VeriTxn.YcsbWl
