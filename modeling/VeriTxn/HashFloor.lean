import VeriTxn.HashChain
import Mathlib.Data.List.Perm.Subperm

/-!
# A hash chain as a floor map

What a chain is for: the value of the latest of the inserted pairs at or before a time stamp.
The chain holds every inserted pair or, for one that a vacuum took away, a later one that
counts already at the vacuum's argument.
-/

namespace VeriTxn.HashChain

/-- The time stamps ascend strictly. -/
def Strict (items : List HashItem) : Prop := items.Pairwise fun i j => i.commitTs < j.commitTs

/-- Equal time stamps come with equal values. -/
def Agree (pairs : List HashItem) : Prop :=
  ∀ p ∈ pairs, ∀ q ∈ pairs, p.commitTs = q.commitTs → p.value = q.value

/-- `value` is that of the pair with the greatest time stamp at most `ts`, or `-1` without one. -/
def IsFloor (pairs : List HashItem) (ts : Nat) (value : UInt64) : Prop :=
  (∃ p ∈ pairs, p.commitTs ≤ ts ∧ (∀ q ∈ pairs, q.commitTs ≤ ts → q.commitTs ≤ p.commitTs) ∧
    value = p.value) ∨
  ((∀ p ∈ pairs, ts < p.commitTs) ∧ value = -1)

/-- The chain stands for the pairs, at and after the arguments of the vacuums. -/
structure Covers (items pairs : List HashItem) (vaccums : List Nat) : Prop where
  strict : Strict items
  inserted : ∀ i ∈ items, i ∈ pairs
  kept : ∀ p ∈ pairs, p ∈ items ∨
    ∃ j ∈ items, p.commitTs < j.commitTs ∧ ∃ v ∈ vaccums, j.commitTs ≤ v

theorem Strict.ordered {items : List HashItem} (h : Strict items) : (HashChain.mk items).Ordered :=
  List.Pairwise.imp Nat.le_of_lt h

/-- Pairs in another order have the same floor. -/
theorem IsFloor.unique {pairs pairs' : List HashItem} {ts : Nat} {value value' : UInt64}
    (hagree : Agree pairs) (hsame : ∀ p, p ∈ pairs ↔ p ∈ pairs') (h : IsFloor pairs ts value)
    (h' : IsFloor pairs' ts value') : value = value' := by
  rcases h with ⟨p, hp, hle, hmax, rfl⟩ | ⟨hnone, rfl⟩
  · rcases h' with ⟨q, hq, hle', hmax', rfl⟩ | ⟨hnone', -⟩
    · apply hagree p hp q ((hsame q).mpr hq)
      apply Nat.le_antisymm
      · exact hmax' p ((hsame p).mp hp) hle
      · exact hmax q ((hsame q).mpr hq) hle'
    · exact absurd hle (Nat.not_le.mpr (hnone' p ((hsame p).mp hp)))
  · rcases h' with ⟨q, hq, hle', -, -⟩ | ⟨-, rfl⟩
    · exact absurd hle' (Nat.not_le.mpr (hnone q ((hsame q).mpr hq)))
    · rfl

/-- A chain has no more items than there are pairs. -/
theorem Covers.length_le {items pairs : List HashItem} {vaccums : List Nat}
    (h : Covers items pairs vaccums) : items.length ≤ pairs.length := by
  have hnodup : items.Nodup := by
    refine List.Pairwise.imp ?_ h.strict
    rintro i j hlt rfl
    exact Nat.lt_irrefl _ hlt
  exact (List.subperm_of_subset hnodup h.inserted).length_le

/-! ### Lookup -/

theorem newest_cases {items : List HashItem} (hstrict : Strict items) (ts : Nat) :
    (∃ i ∈ items, newest items ts = some i ∧ i.commitTs ≤ ts ∧
      ∀ j ∈ items, j.commitTs ≤ ts → j.commitTs ≤ i.commitTs) ∨
    (newest items ts = none ∧ ∀ i ∈ items, ts < i.commitTs) := by
  induction items with
  | nil => exact Or.inr ⟨rfl, by simp⟩
  | cons i items ih =>
      obtain ⟨hbefore, hrest⟩ := List.pairwise_cons.mp hstrict
      rw [newest_cons]
      rcases ih hrest with ⟨k, hk, hnewest, hle, hmax⟩ | ⟨hnone, hlater⟩
      · refine Or.inl ⟨k, List.mem_cons_of_mem i hk, by rw [hnewest], hle, ?_⟩
        intro j hj hjle
        rcases List.mem_cons.mp hj with rfl | hj
        · exact Nat.le_of_lt (hbefore k hk)
        · exact hmax j hj hjle
      · rw [hnone]
        by_cases hi : i.commitTs ≤ ts
        · refine Or.inl ⟨i, List.mem_cons_self .., by simp [hi], hi, ?_⟩
          intro j hj hjle
          rcases List.mem_cons.mp hj with rfl | hj
          · exact Nat.le_refl _
          · exact absurd hjle (Nat.not_le.mpr (hlater j hj))
        · refine Or.inr ⟨by simp [hi], fun j hj => ?_⟩
          rcases List.mem_cons.mp hj with rfl | hj
          · exact Nat.not_le.mp hi
          · exact hlater j hj

/-- At a time that no vacuum reached, a lookup gives the floor. -/
theorem Covers.get_isFloor {items pairs : List HashItem} {vaccums : List Nat}
    (h : Covers items pairs vaccums) {ts : Nat} (hts : ∀ v ∈ vaccums, v ≤ ts) :
    IsFloor pairs ts ((HashChain.mk items).get ts) := by
  rw [get_eq_newest h.strict.ordered]
  rcases newest_cases h.strict ts with ⟨i, hi, hnewest, hle, hmax⟩ | ⟨hnone, hlater⟩
  · refine Or.inl ⟨i, h.inserted i hi, hle, ?_, by rw [hnewest]⟩
    intro p hp hple
    rcases h.kept p hp with hp | ⟨j, hj, hlt, v, hv, hjv⟩
    · exact hmax p hp hple
    · exact Nat.le_trans (Nat.le_of_lt hlt) (hmax j hj (Nat.le_trans hjv (hts v hv)))
  · refine Or.inr ⟨fun p hp => ?_, by rw [hnone]⟩
    rcases h.kept p hp with hp | ⟨j, hj, hlt, v, hv, hjv⟩
    · exact hlater p hp
    · exact absurd (Nat.le_trans hjv (hts v hv)) (Nat.not_le.mpr (hlater j hj))

/-! ### Insertion -/

/-- `insert` succeeds and adds the item, if it is not there yet. -/
def Adds (item : HashItem) (items items' : List HashItem) : Prop :=
  Strict items' ∧ ∀ i, i ∈ items' ↔ i = item ∨ i ∈ items

theorem insertLoop_adds {ts : Nat} {value : UInt64} {items : List HashItem}
    (hstrict : Strict items) (hlast : ∃ i ∈ items, ts ≤ i.commitTs)
    (hsame : ∀ i ∈ items, i.commitTs = ts → i.value = value) :
    ∃ items', insertLoop ts value items = some items' ∧ Adds ⟨value, ts⟩ items items' := by
  induction items with
  | nil =>
      obtain ⟨i, hi, -⟩ := hlast
      cases hi
  | cons i items ih =>
      obtain ⟨hbefore, hrest⟩ := List.pairwise_cons.mp hstrict
      rw [insertLoop]
      by_cases heq : ts = i.commitTs
      · have hvalue : i.value = value := hsame i (List.mem_cons_self ..) heq.symm
        have hitem : (⟨value, ts⟩ : HashItem) = i := by rw [← hvalue, heq]
        refine ⟨i :: items, by rw [if_pos heq, if_pos hvalue.symm], hstrict, fun j => ?_⟩
        rw [hitem, List.mem_cons]
        exact ⟨Or.inr, fun h => h.elim Or.inl id⟩
      rw [if_neg heq]
      by_cases hgt : i.commitTs > ts
      · refine ⟨_, if_pos hgt, List.pairwise_cons.mpr ⟨fun j hj => ?_, hstrict⟩, fun j => ?_⟩
        · rcases List.mem_cons.mp hj with rfl | hj
          · exact hgt
          · exact Nat.lt_trans hgt (hbefore j hj)
        · exact List.mem_cons
      · have hlt : i.commitTs < ts := Nat.lt_of_le_of_ne (Nat.not_lt.mp hgt) (Ne.symm heq)
        have hlast' : ∃ j ∈ items, ts ≤ j.commitTs := by
          obtain ⟨j, hj, hle⟩ := hlast
          rcases List.mem_cons.mp hj with rfl | hj
          · exact absurd hle (Nat.not_le.mpr hlt)
          · exact ⟨j, hj, hle⟩
        obtain ⟨items', hloop, hstrict', hmem⟩ :=
          ih hrest hlast' fun j hj => hsame j (List.mem_cons_of_mem i hj)
        refine ⟨i :: items', by rw [if_neg hgt, hloop]; rfl, ?_, fun j => ?_⟩
        · refine List.pairwise_cons.mpr ⟨fun j hj => ?_, hstrict'⟩
          rcases (hmem j).mp hj with rfl | hj
          · exact hlt
          · exact hbefore j hj
        · rw [List.mem_cons, hmem, List.mem_cons]
          exact or_left_comm

theorem insert_adds {ts : Nat} {value : UInt64} {items : List HashItem} (hstrict : Strict items)
    (hsame : ∀ i ∈ items, i.commitTs = ts → i.value = value) :
    ∃ items', (HashChain.mk items).insert ts value = some ⟨items'⟩ ∧
      Adds ⟨value, ts⟩ items items' := by
  cases items with
  | nil => exact ⟨[⟨value, ts⟩], rfl, List.pairwise_singleton .., by simp⟩
  | cons head rest =>
      obtain ⟨hbefore, -⟩ := List.pairwise_cons.mp hstrict
      obtain ⟨tail, htail⟩ : ∃ tail, (HashChain.mk (head :: rest)).tail = some tail :=
        ⟨_, List.getLast?_cons⟩
      have hmem : tail ∈ head :: rest := List.mem_of_getLast? htail
      unfold HashChain.insert
      rw [htail]
      simp only [List.head?_cons]
      by_cases happend : ts > tail.commitTs
      · refine ⟨_, if_pos happend, List.pairwise_append.mpr ⟨hstrict, by simp, ?_⟩, fun i => ?_⟩
        · intro i hi j hj
          rw [List.mem_singleton.mp hj]
          exact Nat.lt_of_le_of_lt (hstrict.ordered.le_tail htail i hi) happend
        · rw [List.mem_append, List.mem_singleton]
          exact or_comm
      rw [if_neg happend]
      by_cases hprepend : ts < head.commitTs
      · refine ⟨_, if_pos hprepend, List.pairwise_cons.mpr ⟨fun i hi => ?_, hstrict⟩, fun i => ?_⟩
        · rcases List.mem_cons.mp hi with rfl | hi
          · exact hprepend
          · exact Nat.lt_trans hprepend (hbefore i hi)
        · exact List.mem_cons
      · obtain ⟨items', hloop, hadds⟩ :=
          insertLoop_adds hstrict ⟨tail, hmem, Nat.not_lt.mp happend⟩ hsame
        exact ⟨items', by rw [if_neg hprepend, hloop]; rfl, hadds⟩

theorem Covers.insert {items pairs : List HashItem} {vaccums : List Nat}
    (h : Covers items pairs vaccums) {ts : Nat} {value : UInt64}
    (hagree : Agree (pairs ++ [⟨value, ts⟩])) :
    ∃ items', (HashChain.mk items).insert ts value = some ⟨items'⟩ ∧
      Covers items' (pairs ++ [⟨value, ts⟩]) vaccums := by
  have hsame : ∀ i ∈ items, i.commitTs = ts → i.value = value := by
    intro i hi heq
    exact hagree i (List.mem_append_left _ (h.inserted i hi)) ⟨value, ts⟩ (by simp) heq
  obtain ⟨items', hinsert, hstrict, hmem⟩ := insert_adds h.strict hsame
  refine ⟨items', hinsert, hstrict, fun i hi => ?_, fun p hp => ?_⟩
  · rcases (hmem i).mp hi with rfl | hi
    · simp
    · exact List.mem_append_left _ (h.inserted i hi)
  · rcases List.mem_append.mp hp with hp | hp
    · rcases h.kept p hp with hp | ⟨j, hj, hrest⟩
      · exact Or.inl ((hmem p).mpr (Or.inr hp))
      · exact Or.inr ⟨j, (hmem j).mpr (Or.inr hj), hrest⟩
    · exact Or.inl ((hmem p).mpr (Or.inl (List.mem_singleton.mp hp)))

/-! ### Vacuuming -/

/-- What the loop takes away has a later item, which counts at `validTs`. -/
theorem vaccumLoop_kept {items : List HashItem} (hstrict : Strict items) (validTs : Nat) :
    ∀ i ∈ items, i ∈ vaccumLoop validTs items ∨
      ∃ j ∈ vaccumLoop validTs items, i.commitTs < j.commitTs ∧ j.commitTs ≤ validTs := by
  fun_induction vaccumLoop validTs items with
  | case1 head next rest hle ih =>
      obtain ⟨hbefore, hrest⟩ := List.pairwise_cons.mp hstrict
      have hnext := hbefore next (List.mem_cons_self ..)
      intro i hi
      rcases List.mem_cons.mp hi with rfl | hi
      · rcases ih hrest next (List.mem_cons_self ..) with hmem | ⟨j, hj, hlt, hjle⟩
        · exact Or.inr ⟨next, hmem, hnext, hle⟩
        · exact Or.inr ⟨j, hj, Nat.lt_trans hnext hlt, hjle⟩
      · exact ih hrest i hi
  | case2 head next rest hgt => exact fun i hi => Or.inl hi
  | case3 items hshort => exact fun i hi => Or.inl hi

theorem Covers.vaccum {items pairs : List HashItem} {vaccums : List Nat}
    (h : Covers items pairs vaccums) (validTs : Nat) :
    Covers (vaccumLoop validTs items) pairs (vaccums ++ [validTs]) := by
  have hsuffix := vaccumLoop_suffix validTs items
  refine ⟨List.Pairwise.sublist hsuffix.sublist h.strict, fun i hi => ?_, fun p hp => ?_⟩
  · exact h.inserted i (hsuffix.subset hi)
  · rcases h.kept p hp with hmem | ⟨j, hj, hlt, v, hv, hjv⟩
    · rcases vaccumLoop_kept h.strict validTs p hmem with hmem | ⟨j, hj, hlt, hle⟩
      · exact Or.inl hmem
      · exact Or.inr ⟨j, hj, hlt, validTs, by simp, hle⟩
    · rcases vaccumLoop_kept h.strict validTs j hj with hmem | ⟨k, hk, hjk, hle⟩
      · exact Or.inr ⟨j, hmem, hlt, v, List.mem_append_left _ hv, hjv⟩
      · exact Or.inr ⟨k, hk, Nat.lt_trans hlt hjk, validTs, by simp, hle⟩

end VeriTxn.HashChain
