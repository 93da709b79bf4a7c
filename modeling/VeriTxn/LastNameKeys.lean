import VeriTxn.Tpcc
import Mathlib.Tactic.Ring

/-!
# Looking up customers by last name

`custNPKey` folds the letters of a last name with two bits for each and adds the district's number
behind three more.  The 1000 names of `Lastname` have folds that differ by at least 2, so that names
and districts of one warehouse do not meet; the numbers of two districts that lie 16 apart do.
-/

namespace VeriTxn.LastNameKeys

open Bytes Tpcc

/-- The table of `Lastname`. -/
def syllable : Nat → List Byte
  | 0 => [66, 65, 82]
  | 1 => [79, 85, 71, 72, 84]
  | 2 => [65, 66, 76, 69]
  | 3 => [80, 82, 73]
  | 4 => [80, 82, 69, 83]
  | 5 => [69, 83, 69]
  | 6 => [65, 78, 84, 73]
  | 7 => [67, 65, 76, 76, 89]
  | 8 => [65, 84, 73, 79, 78]
  | 9 => [69, 73, 78, 71]
  | _ => []

/-- The letters that `Lastname` puts into `name`. -/
def letters (num : Nat) : List Byte :=
  syllable (num / 100) ++ syllable (num / 10 % 10) ++ syllable (num % 10)

/-- `Lastname`, with the NUL. -/
def lastname (num : Nat) : List Byte := letters num ++ [0]

/-- A customer: warehouse, district, id, and the number of the last name. -/
structure Customer where
  wId : Nat
  dId : Nat
  cId : Nat
  num : Nat
deriving DecidableEq

/-- The customers of `init_tab_cust`; `nuRand` are the names drawn for those after the first 1000. -/
def customers (numWh : Nat) (nuRand : Nat → Nat → Nat → Nat) : List Customer :=
  (List.range' 1 numWh).flatMap fun w => (List.range' 1 10).flatMap fun d =>
    (List.range' 1 3000).map fun c => ⟨w, d, c, if c ≤ 1000 then c - 1 else nuRand w d c⟩

/-- The key of a name in a district. -/
def lastKey (num dId wId : Nat) : UInt64 := custNPKey (lastname num) (.ofNat dId) (.ofNat wId)

/-- What `index_read` finds in CUSTOMER_LAST_IDX, where `init_tab_cust` enters every customer.
    `PART_CNT` is 1, so that `wh_to_part` is the same partition for all. -/
def lookup (numWh : Nat) (nuRand : Nat → Nat → Nat → Nat) (key : UInt64) : List Customer :=
  (customers numWh nuRand).filter fun c => lastKey c.num c.dId c.wId = key

/-- A name of `Lastname` and a district of the database. -/
def Place (numWh num dId wId : Nat) : Prop :=
  num < 1000 ∧ (1 ≤ dId ∧ dId ≤ 10) ∧ 1 ≤ wId ∧ wId ≤ numWh

/-- Different names, districts and warehouses have different keys, and a lookup finds only customers
    of the name, the district and the warehouse. -/
def Unambiguous (numWh : Nat) (nuRand : Nat → Nat → Nat → Nat) : Prop :=
  (∀ num dId wId num' dId' wId', Place numWh num dId wId → Place numWh num' dId' wId' →
    lastKey num dId wId = lastKey num' dId' wId' →
    lastname num = lastname num' ∧ dId = dId' ∧ wId = wId') ∧
  ∀ num dId wId, Place numWh num dId wId →
    ∀ c ∈ lookup numWh nuRand (lastKey num dId wId),
      lastname c.num = lastname num ∧ c.dId = dId ∧ c.wId = wId

/-! ### The fold of a name -/

/-- The loop of `custNPKey`, without the bound of a word. -/
def fold (s : List Byte) : Nat := s.foldl (fun key c => key * 4 + (c.toNat - 65)) 0

theorem foldl_eq (key : Nat) (s : List Byte) :
    s.foldl (fun key c => key * 4 + (c.toNat - 65)) key = key * 4 ^ s.length + fold s := by
  induction s generalizing key with
  | nil => simp [fold]
  | cons c s ih =>
      have hcons : fold (c :: s) = (c.toNat - 65) * 4 ^ s.length + fold s := by
        rw [fold, List.foldl_cons, ih, Nat.zero_mul, Nat.zero_add]
      rw [List.foldl_cons, ih, hcons, List.length_cons, Nat.pow_succ]
      ring

theorem fold_append (s t : List Byte) : fold (s ++ t) = fold s * 4 ^ t.length + fold t := by
  rw [fold, List.foldl_append, foldl_eq]
  rfl

/-- The last three letters decide the fold modulo 64, and every syllable has three. -/
theorem fold_syllable_mod (s : List Byte) {i : Nat} (h : i < 10) :
    fold (s ++ syllable i) % 64 = fold (syllable i) % 64 := by
  have hlength : ∀ i < 10, 64 ∣ 4 ^ (syllable i).length := by decide
  obtain ⟨k, hk⟩ := hlength i h
  rw [fold_append, hk, Nat.mul_left_comm]
  exact Nat.mul_add_mod ..

/-- No two syllables are neighbours there. -/
theorem syllables_apart : ∀ i < 10, ∀ j < 10,
    fold (syllable i) % 64 = fold (syllable j) % 64 ∨
      (fold (syllable i) + 1) % 64 = fold (syllable j) % 64 ∨
      fold (syllable i) % 64 = (fold (syllable j) + 1) % 64 → i = j := by
  decide +kernel

/-- Folds that differ by at most 1 end in the same syllable and are equal before it. -/
theorem fold_syllable_near {s t : List Byte} {i j : Nat} (hi : i < 10) (hj : j < 10)
    (hle : fold (s ++ syllable i) ≤ fold (t ++ syllable j) + 1)
    (hge : fold (t ++ syllable j) ≤ fold (s ++ syllable i) + 1) : i = j ∧ fold s = fold t := by
  have hsame : i = j := by
    have hs := fold_syllable_mod s hi
    have ht := fold_syllable_mod t hj
    apply syllables_apart i hi j hj
    omega
  subst hsame
  have hlength : ∀ i < 10, 2 ≤ 4 ^ (syllable i).length := by decide
  have htwo := hlength i hi
  rw [fold_append, fold_append] at hle hge
  refine ⟨rfl, ?_⟩
  rcases Nat.lt_trichotomy (fold s) (fold t) with hlt | heq | hlt
  · have := Nat.mul_le_mul_right (4 ^ (syllable i).length) (Nat.succ_le_of_lt hlt)
    rw [Nat.succ_mul] at this
    omega
  · exact heq
  · have := Nat.mul_le_mul_right (4 ^ (syllable i).length) (Nat.succ_le_of_lt hlt)
    rw [Nat.succ_mul] at this
    omega

/-- The names of `Lastname` have folds of their own, and at least 2 apart. -/
theorem fold_letters_near {num num' : Nat} (h : num < 1000) (h' : num' < 1000)
    (hle : fold (letters num) ≤ fold (letters num') + 1)
    (hge : fold (letters num') ≤ fold (letters num) + 1) : num = num' := by
  have hdigit (n : Nat) : n % 10 < 10 := Nat.mod_lt _ (by decide)
  obtain ⟨hlast, hfront⟩ := fold_syllable_near (hdigit num) (hdigit num') hle hge
  obtain ⟨hmiddle, hfront⟩ := fold_syllable_near (hdigit (num / 10)) (hdigit (num' / 10))
    (Nat.le_succ_of_le hfront.le) (Nat.le_succ_of_le hfront.ge)
  obtain ⟨hfirst, -⟩ := fold_syllable_near (s := []) (t := []) (i := num / 100) (j := num' / 100)
    (by omega) (by omega) (Nat.le_succ_of_le hfront.le) (Nat.le_succ_of_le hfront.ge)
  omega

/-! ### Keys as numbers -/

theorem charOffset_toNat : ∀ c : Byte, 65 ≤ c.toNat → c.toNat ≤ 90 →
    (charOffset c).toNat = c.toNat - 65 := by
  have hall : ∀ n < 91, 65 ≤ n → (charOffset (.ofNat n)).toNat = n - 65 := by decide +kernel
  intro c hlow hhigh
  have := hall c.toNat (by omega) hlow
  rwa [UInt8.ofNat_toNat] at this

theorem letters_upper {num : Nat} (h : num < 1000) :
    ∀ c ∈ letters num, 65 ≤ c.toNat ∧ c.toNat ≤ 90 := by
  have hall : ∀ i < 10, (syllable i).all (fun c => 65 ≤ c.toNat ∧ c.toNat ≤ 90) = true := by decide
  have hsyllable (i : Nat) (hi : i < 10) : ∀ c ∈ syllable i, 65 ≤ c.toNat ∧ c.toNat ≤ 90 :=
    fun c hc => of_decide_eq_true (List.all_eq_true.mp (hall i hi) c hc)
  intro c hc
  rw [letters, List.mem_append, List.mem_append] at hc
  rcases hc with (hc | hc) | hc
  · exact hsyllable _ (by omega) c hc
  · exact hsyllable _ (by omega) c hc
  · exact hsyllable _ (by omega) c hc

theorem length_letters {num : Nat} (h : num < 1000) : (letters num).length ≤ 15 := by
  have hsyllable : ∀ i < 10, (syllable i).length ≤ 5 := by decide
  have h₁ := hsyllable (num / 100) (by omega)
  have h₂ := hsyllable (num / 10 % 10) (by omega)
  have h₃ := hsyllable (num % 10) (by omega)
  rw [letters, List.length_append, List.length_append]
  omega

/-- The loop does not overflow while the letters fit: each counts for less than 26. -/
theorem foldl_toNat (s : List Byte) (hs : ∀ c ∈ s, 65 ≤ c.toNat ∧ c.toNat ≤ 90) (key : UInt64)
    (hroom : (key.toNat + 9) * 4 ^ s.length < 2 ^ 60) :
    (s.foldl (fun (key : UInt64) c => (key <<< (2 : UInt64)) + charOffset c) key).toNat =
      s.foldl (fun key c => key * 4 + (c.toNat - 65)) key.toNat ∧
    s.foldl (fun key c => key * 4 + (c.toNat - 65)) key.toNat < 2 ^ 60 := by
  induction s generalizing key with
  | nil =>
      refine ⟨rfl, ?_⟩
      simp only [List.length_nil, Nat.pow_zero, List.foldl_nil] at hroom ⊢
      omega
  | cons c s ih =>
      obtain ⟨hlow, hhigh⟩ := hs c List.mem_cons_self
      have hpow : 0 < 4 ^ s.length := Nat.pow_pos (by decide)
      rw [List.length_cons, Nat.pow_succ] at hroom
      have hkey : key.toNat < 2 ^ 60 := by
        have := Nat.le_mul_of_pos_right (key.toNat + 9) (Nat.mul_pos hpow (by decide : 0 < 4))
        omega
      have hstep : ((key <<< (2 : UInt64)) + charOffset c).toNat =
          key.toNat * 4 + (c.toNat - 65) := by
        rw [UInt64.toNat_add, charOffset_toNat c hlow hhigh, UInt64.toNat_shiftLeft,
          show (2 : UInt64).toNat % 64 = 2 from rfl, Nat.shiftLeft_eq]
        omega
      have hroom' : (key.toNat * 4 + (c.toNat - 65) + 9) * 4 ^ s.length < 2 ^ 60 := by
        calc (key.toNat * 4 + (c.toNat - 65) + 9) * 4 ^ s.length
            ≤ ((key.toNat + 9) * 4) * 4 ^ s.length := by
              apply Nat.mul_le_mul_right
              omega
          _ = (key.toNat + 9) * (4 ^ s.length * 4) := by ring
          _ < 2 ^ 60 := hroom
      rw [← hstep] at hroom'
      rw [List.foldl_cons, List.foldl_cons, ← hstep]
      exact ih (fun c hc => hs c (List.mem_cons_of_mem _ hc)) _ hroom'

theorem cString_lastname {num : Nat} (h : num < 1000) : cString (lastname num) 0 = letters num := by
  have hall : ∀ c ∈ letters num, decide (c ≠ 0) = true := by
    intro c hc
    have := (letters_upper h c hc).1
    rw [decide_eq_true_iff]
    rintro rfl
    exact absurd this (by decide)
  rw [cString, List.drop_zero, lastname, List.takeWhile_append_of_pos hall]
  simp

/-- The key of a name in a district of a few warehouses. -/
theorem lastKey_toNat {num dId wId : Nat} (h : num < 1000) (hd : dId ≤ 10) (hw : wId ≤ 2) :
    (lastKey num dId wId).toNat = 8 * fold (letters num) + (wId * 10 + dId) := by
  have hroom : ((0 : UInt64).toNat + 9) * 4 ^ (letters num).length < 2 ^ 60 :=
    calc ((0 : UInt64).toNat + 9) * 4 ^ (letters num).length
        ≤ 9 * 4 ^ 15 := Nat.mul_le_mul_left _ (Nat.pow_le_pow_right (by decide) (length_letters h))
      _ < 2 ^ 60 := by decide
  obtain ⟨heq, hlt⟩ := foldl_toNat (letters num) (letters_upper h) 0 hroom
  rw [lastKey, custNPKey, cString_lastname h]
  rw [UInt64.toNat_add, UInt64.toNat_add, UInt64.toNat_mul, UInt64.toNat_shiftLeft, heq,
    show (3 : UInt64).toNat % 64 = 3 from rfl, show distPerWare.toNat = 10 from rfl,
    Nat.shiftLeft_eq, UInt64.toNat_ofNat', UInt64.toNat_ofNat']
  change (fold (letters num) * 2 ^ 3 % 2 ^ 64 + _) % 2 ^ 64 = _
  change fold (letters num) < 2 ^ 60 at hlt
  omega

/-! ### One warehouse, and more -/

theorem mem_customers {numWh : Nat} {nuRand : Nat → Nat → Nat → Nat} {c : Customer} :
    c ∈ customers numWh nuRand ↔ (1 ≤ c.wId ∧ c.wId ≤ numWh) ∧ (1 ≤ c.dId ∧ c.dId ≤ 10) ∧
      (1 ≤ c.cId ∧ c.cId ≤ 3000) ∧
      c.num = if c.cId ≤ 1000 then c.cId - 1 else nuRand c.wId c.dId c.cId := by
  simp only [customers, List.mem_flatMap, List.mem_map, List.mem_range'_1]
  constructor
  · rintro ⟨w, hw, d, hd, i, hi, rfl⟩
    dsimp only
    exact ⟨by omega, by omega, by omega, rfl⟩
  · rintro ⟨hw, hd, hi, hnum⟩
    refine ⟨c.wId, by omega, c.dId, by omega, c.cId, by omega, ?_⟩
    rw [← hnum]

/-- Every customer has a name of `Lastname`. -/
theorem place_of_mem {numWh : Nat} {nuRand : Nat → Nat → Nat → Nat}
    (hnames : ∀ w d c, nuRand w d c < 1000) {c : Customer} (h : c ∈ customers numWh nuRand) :
    Place numWh c.num c.dId c.wId := by
  obtain ⟨hw, hd, -, hnum⟩ := mem_customers.mp h
  refine ⟨?_, hd, hw⟩
  rw [hnum]
  split
  · omega
  · exact hnames ..

/-- The numbers of the districts of one warehouse differ by less than 16, folds of names by 2. -/
theorem eq_of_lastKey {num dId wId num' dId' wId' : Nat} (h : Place 1 num dId wId)
    (h' : Place 1 num' dId' wId') (heq : lastKey num dId wId = lastKey num' dId' wId') :
    num = num' ∧ dId = dId' ∧ wId = wId' := by
  obtain ⟨hnum, hd, hw⟩ := h
  obtain ⟨hnum', hd', hw'⟩ := h'
  have hkeys := congrArg UInt64.toNat heq
  rw [lastKey_toNat hnum hd.2 (by omega), lastKey_toNat hnum' hd'.2 (by omega)] at hkeys
  obtain rfl : num = num' := fold_letters_near hnum hnum' (by omega) (by omega)
  exact ⟨rfl, by omega, by omega⟩

/-- BARPRIEING in the district 7 of the warehouse 2, and BARPRESPRI in the first one of all. -/
theorem lastKey_meets : lastKey 39 7 2 = lastKey 43 1 1 := by
  decide +kernel

/-- **The lookups are unambiguous if and only if there is one warehouse.** -/
theorem last_name_keys_unique_iff {numWh : Nat} {nuRand : Nat → Nat → Nat → Nat}
    (hnames : ∀ w d c, nuRand w d c < 1000) : Unambiguous numWh nuRand ↔ numWh ≤ 1 := by
  constructor
  · intro h
    by_contra hmore
    obtain ⟨-, -, hw⟩ := h.1 39 7 2 43 1 1 ⟨by decide, by decide, by decide, by omega⟩
      ⟨by decide, by decide, by decide, by omega⟩ lastKey_meets
    exact absurd hw (by decide)
  · intro hone
    have hplace {num dId wId : Nat} (h : Place numWh num dId wId) : Place 1 num dId wId :=
      ⟨h.1, h.2.1, h.2.2.1, h.2.2.2.trans hone⟩
    constructor
    · intro num dId wId num' dId' wId' h h' heq
      obtain ⟨rfl, hd, hw⟩ := eq_of_lastKey (hplace h) (hplace h') heq
      exact ⟨rfl, hd, hw⟩
    · intro num dId wId h c hc
      obtain ⟨hmem, hkey⟩ := List.mem_filter.mp hc
      obtain ⟨hnum, hd, hw⟩ := eq_of_lastKey (hplace (place_of_mem hnames hmem)) (hplace h)
        (of_decide_eq_true hkey)
      exact ⟨by rw [hnum], hd, hw⟩

theorem last_name_keys_unique_iff_one : Unambiguous 1 (fun _ _ c => c % 1000) ↔ 1 ≤ 1 :=
  last_name_keys_unique_iff fun _ _ c => Nat.mod_lt c (by decide)

/-- With 16 warehouses the 44th customer of the first district is found under another name, in
    another district of another warehouse. -/
theorem finds_another_name : ¬ Unambiguous 16 (fun _ _ c => c % 1000) ∧
    ⟨1, 1, 44, 43⟩ ∈ lookup 16 (fun _ _ c => c % 1000) (lastKey 39 7 2) ∧
    lastname 43 ≠ lastname 39 := by
  have hfound : ⟨1, 1, 44, 43⟩ ∈ lookup 16 (fun _ _ c => c % 1000) (lastKey 39 7 2) := by
    rw [lookup, List.mem_filter, mem_customers]
    exact ⟨by decide, decide_eq_true lastKey_meets.symm⟩
  have hname : lastname 43 ≠ lastname 39 := by decide
  refine ⟨?_, hfound, hname⟩
  intro h
  obtain ⟨heq, -⟩ := h.2 39 7 2 ⟨by decide, by decide, by decide, by decide⟩ _ hfound
  exact hname heq

end VeriTxn.LastNameKeys
