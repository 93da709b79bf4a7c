import VeriTxn.Types
import Mathlib.Data.List.Basic

/-!
# The chain of page hashes

`hash_chain`: the hashes a page had, each with the time stamp from which it
counts, from `head` to `tail`.  `size` is the length of the list.  Every
operation holds the chain's own lock from its first to its last line.
-/

namespace VeriTxn

/-- `hash_item`. -/
structure HashItem where
  value : UInt64
  commitTs : Nat
deriving DecidableEq, Repr

/-- `hash_chain`, from `head` to `tail`. -/
structure HashChain where
  items : List HashItem
deriving DecidableEq, Repr

namespace HashChain

/-- The constructor. -/
def new : HashChain := ⟨[]⟩

/-- `empty`. -/
def empty (c : HashChain) : Bool := c.items.length = 0

/-- `tail`, null for an empty chain. -/
def tail (c : HashChain) : Option HashItem := c.items.getLast?

/-- The loop of `vaccum`: drop the head while the item after it counts already
    at `validTs`. -/
def vaccumLoop (validTs : Nat) : List HashItem → List HashItem
  | head :: next :: rest =>
      if next.commitTs ≤ validTs then vaccumLoop validTs (next :: rest) else head :: next :: rest
  | items => items

/-- `vaccum`. -/
def vaccum (c : HashChain) (validTs : Nat) : HashChain := ⟨vaccumLoop validTs c.items⟩

/-- The loop of `insert`, which asserts that an item with this time stamp has
    this value, and that the loop does not run off the chain. -/
def insertLoop (ts : Nat) (value : UInt64) : List HashItem → Option (List HashItem)
  | [] => none
  | i :: rest =>
      if ts = i.commitTs then if value = i.value then some (i :: rest) else none
      else if i.commitTs > ts then some (⟨value, ts⟩ :: i :: rest)
      else (insertLoop ts value rest).map (i :: ·)

/-- `insert`. -/
def insert (c : HashChain) (ts : Nat) (value : UInt64) : Option HashChain :=
  match c.items.head?, c.tail with
  | some head, some tail =>
      if ts > tail.commitTs then some ⟨c.items ++ [⟨value, ts⟩]⟩
      else if ts < head.commitTs then some ⟨⟨value, ts⟩ :: c.items⟩
      else (insertLoop ts value c.items).map HashChain.mk
  | _, _ => some ⟨[⟨value, ts⟩]⟩

/-- The loop of `get`: the last item before the first one that counts only
    after `ts`. -/
def getLoop (ts : Nat) (last : HashItem) : List HashItem → HashItem
  | [] => last
  | i :: rest => if ts < i.commitTs then last else getLoop ts i rest

/-- The item `get` answers from, with `FAST_VERI_CHAIN_ACCESS` 1. -/
def itemAt (c : HashChain) (ts : Nat) : Option HashItem :=
  match c.items.head?, c.tail with
  | some head, some tail =>
      if ts ≥ tail.commitTs then some tail
      else if ts < head.commitTs then none
      else some (getLoop ts head c.items)
  | _, _ => none

/-- `get`: `-1` for a page not loaded yet. -/
def get (c : HashChain) (ts : Nat) : UInt64 :=
  match c.itemAt ts with
  | none => -1
  | some item => item.value

/-- `tail->value = value; tail->commit_ts = ts`, two writes through the pointer
    to the last item, which is null for an empty chain. -/
def setTail (c : HashChain) (value : UInt64) (ts : Nat) : Option HashChain :=
  match c.tail with
  | none => none
  | some _ => some ⟨c.items.dropLast ++ [⟨value, ts⟩]⟩

/-- A read at a time not before the last item's gives the last item. -/
theorem get_of_tail {c : HashChain} {tail : HashItem} {ts : Nat} (htail : c.tail = some tail)
    (hts : tail.commitTs ≤ ts) : c.get ts = tail.value := by
  cases hitems : c.items with
  | nil => simp [HashChain.tail, hitems] at htail
  | cons head rest => simp [get, itemAt, hitems, htail, hts]

theorem insert_new (ts : Nat) (value : UInt64) :
    new.insert ts value = some ⟨[⟨value, ts⟩]⟩ := rfl

theorem tail_setTail {c c' : HashChain} {value : UInt64} {ts : Nat}
    (h : c.setTail value ts = some c') : c'.tail = some ⟨value, ts⟩ := by
  unfold setTail at h
  split at h
  · cases h
  · cases h
    simp [HashChain.tail]

theorem setTail_of_tail {c : HashChain} {tail : HashItem} (htail : c.tail = some tail)
    (value : UInt64) (ts : Nat) : ∃ c', c.setTail value ts = some c' ∧
      c'.tail = some ⟨value, ts⟩ := by
  refine ⟨⟨c.items.dropLast ++ [⟨value, ts⟩]⟩, ?_, ?_⟩
  · simp [setTail, htail]
  · simp [HashChain.tail]

/-- A chain is empty exactly if it has no last item. -/
theorem empty_eq_false {c : HashChain} {tail : HashItem} (htail : c.tail = some tail) :
    c.empty = false := by
  cases hitems : c.items with
  | nil => simp [HashChain.tail, hitems] at htail
  | cons head rest => simp [empty, hitems]

theorem eq_new_of_empty {c : HashChain} (h : c.tail = none) : c = new := by
  have hitems : c.items = [] := List.getLast?_eq_none_iff.mp h
  cases c
  cases hitems
  rfl

/-! ### Ordered chains -/

/-- The time stamps ascend from `head` to `tail`. -/
def Ordered (c : HashChain) : Prop := c.items.Pairwise fun i j => i.commitTs ≤ j.commitTs

/-- The newest item that counts at `ts`. -/
def newest (items : List HashItem) (ts : Nat) : Option HashItem :=
  (items.filter fun i => i.commitTs ≤ ts).getLast?

theorem newest_cons (i : HashItem) (items : List HashItem) (ts : Nat) :
    newest (i :: items) ts =
      match newest items ts with
      | some item => some item
      | none => if i.commitTs ≤ ts then some i else none := by
  unfold newest
  by_cases hi : i.commitTs ≤ ts
  · cases hrest : items.filter fun i => i.commitTs ≤ ts with
    | nil => simp [hi, hrest]
    | cons j rest => simp [hi, hrest, List.getLast?_cons]
  · simp only [List.filter_cons, hi, decide_false, Bool.false_eq_true, if_false]
    cases (items.filter fun i => i.commitTs ≤ ts).getLast? with
    | none => rfl
    | some item => rfl

/-- Nothing counts before the first item. -/
theorem newest_eq_none {items : List HashItem} {ts : Nat} (h : ∀ i ∈ items, ts < i.commitTs) :
    newest items ts = none := by
  have hnil : (items.filter fun i => i.commitTs ≤ ts) = [] :=
    List.filter_eq_nil_iff.mpr fun i hi => by simpa using h i hi
  rw [newest, hnil]
  rfl

/-- The scan of `get` stops at the newest item. -/
theorem getLoop_eq {last : HashItem} {items : List HashItem} {ts : Nat}
    (hlast : last.commitTs ≤ ts)
    (hord : items.Pairwise fun i j => i.commitTs ≤ j.commitTs) :
    some (getLoop ts last items) = newest (last :: items) ts := by
  induction items generalizing last with
  | nil => simp [getLoop, newest, hlast]
  | cons i items ih =>
      have hparts := List.pairwise_cons.mp hord
      rw [getLoop]
      split
      · rename_i hlt
        have hnone : newest (i :: items) ts = none := by
          refine newest_eq_none fun j hj => ?_
          rcases List.mem_cons.mp hj with rfl | hj
          · exact hlt
          · exact Nat.lt_of_lt_of_le hlt (hparts.1 j hj)
        rw [newest_cons, hnone, if_pos hlast]
      · rename_i hge
        have hi : i.commitTs ≤ ts := Nat.not_lt.mp hge
        rw [ih hi hparts.2, newest_cons last, newest_cons]
        cases newest items ts with
        | none => simp [hi]
        | some item => rfl

theorem Ordered.le_tail {c : HashChain} (hord : c.Ordered) {tail : HashItem}
    (htail : c.tail = some tail) : ∀ i ∈ c.items, i.commitTs ≤ tail.commitTs := by
  obtain ⟨front, hfront⟩ := List.getLast?_eq_some_iff.mp htail
  intro i hi
  rw [Ordered, hfront] at hord
  rw [hfront] at hi
  rcases List.mem_append.mp hi with hi | hi
  · exact (List.pairwise_append.mp hord).2.2 i hi tail (by simp)
  · exact Nat.le_of_eq (congrArg _ (List.mem_singleton.mp hi))

/-- In an ordered chain `get` answers from the newest item not after `ts`. -/
theorem itemAt_eq_newest {c : HashChain} (hord : c.Ordered) (ts : Nat) :
    c.itemAt ts = newest c.items ts := by
  cases htail : c.tail with
  | none =>
      rw [eq_new_of_empty htail]
      rfl
  | some tail =>
      obtain ⟨head, hhead⟩ : ∃ head, c.items.head? = some head := by
        cases hitems : c.items with
        | nil => simp [HashChain.tail, hitems] at htail
        | cons head rest => exact ⟨head, rfl⟩
      simp only [itemAt, hhead, htail]
      split
      · rename_i hts
        have hall : (c.items.filter fun i => i.commitTs ≤ ts) = c.items :=
          List.filter_eq_self.mpr fun i hi =>
            decide_eq_true (Nat.le_trans (hord.le_tail htail i hi) hts)
        rw [newest, hall]
        exact htail.symm
      · obtain ⟨rest, hitems⟩ : ∃ rest, c.items = head :: rest := by
          cases hitems : c.items with
          | nil => simp [hitems] at hhead
          | cons i rest =>
              rw [hitems] at hhead
              cases hhead
              exact ⟨rest, rfl⟩
        have hparts := hord
        rw [Ordered, hitems] at hparts
        split
        · rename_i hlt
          refine (newest_eq_none fun i hi => ?_).symm
          rw [hitems] at hi
          rcases List.mem_cons.mp hi with rfl | hi
          · exact hlt
          · exact Nat.lt_of_lt_of_le hlt ((List.pairwise_cons.mp hparts).1 i hi)
        · rename_i hge
          have hle : head.commitTs ≤ ts := Nat.not_lt.mp hge
          rw [hitems, getLoop_eq hle hparts, newest_cons, newest_cons]
          cases newest rest ts with
          | none => simp [hle]
          | some item => rfl

theorem get_eq_newest {c : HashChain} (hord : c.Ordered) (ts : Nat) :
    c.get ts = match newest c.items ts with
      | none => -1
      | some item => item.value := by
  rw [get, itemAt_eq_newest hord]

theorem insertLoop_ordered {ts : Nat} {value : UInt64} {items items' : List HashItem}
    (hord : items.Pairwise fun i j => i.commitTs ≤ j.commitTs)
    (h : insertLoop ts value items = some items') :
    (items'.Pairwise fun i j => i.commitTs ≤ j.commitTs) ∧
      ∀ i ∈ items', i ∈ items ∨ i = ⟨value, ts⟩ := by
  induction items generalizing items' with
  | nil => cases h
  | cons i items ih =>
      have hparts := List.pairwise_cons.mp hord
      rw [insertLoop] at h
      split at h
      · split at h
        · cases h
          exact ⟨hord, fun j hj => Or.inl hj⟩
        · cases h
      · split at h
        · rename_i hlt
          cases h
          refine ⟨List.pairwise_cons.mpr ⟨fun j hj => ?_, hord⟩, fun j hj => ?_⟩
          · rcases List.mem_cons.mp hj with rfl | hj
            · exact Nat.le_of_lt hlt
            · exact Nat.le_trans (Nat.le_of_lt hlt) (hparts.1 j hj)
          · rcases List.mem_cons.mp hj with rfl | hj
            · exact Or.inr rfl
            · exact Or.inl hj
        · rename_i hge
          obtain ⟨rest, hrest, rfl⟩ := Option.map_eq_some_iff.mp h
          obtain ⟨hord', hmem⟩ := ih hparts.2 hrest
          refine ⟨List.pairwise_cons.mpr ⟨fun j hj => ?_, hord'⟩, fun j hj => ?_⟩
          · rcases hmem j hj with hj | rfl
            · exact hparts.1 j hj
            · exact Nat.not_lt.mp hge
          · rcases List.mem_cons.mp hj with rfl | hj
            · exact Or.inl List.mem_cons_self
            · exact (hmem j hj).imp_left (List.mem_cons_of_mem _)

/-- `insert` keeps the order, whatever the time stamp. -/
theorem Ordered.insert {c c' : HashChain} {ts : Nat} {value : UInt64} (hord : c.Ordered)
    (h : c.insert ts value = some c') : c'.Ordered := by
  unfold HashChain.insert at h
  split at h
  · rename_i head tail hhead htail
    split at h
    · rename_i hts
      cases h
      refine List.pairwise_append.mpr ⟨hord, by simp, fun i hi j hj => ?_⟩
      rw [List.mem_singleton.mp hj]
      exact Nat.le_trans (hord.le_tail htail i hi) (Nat.le_of_lt hts)
    · split at h
      · rename_i hlt
        cases h
        refine List.pairwise_cons.mpr ⟨fun i hi => ?_, hord⟩
        cases hitems : c.items with
        | nil => simp [hitems] at hi
        | cons j rest =>
            rw [hitems] at hhead hi
            cases hhead
            rcases List.mem_cons.mp hi with rfl | hi
            · exact Nat.le_of_lt hlt
            · rw [Ordered, hitems] at hord
              exact Nat.le_trans (Nat.le_of_lt hlt) ((List.pairwise_cons.mp hord).1 i hi)
      · obtain ⟨items, hloop, rfl⟩ := Option.map_eq_some_iff.mp h
        exact (insertLoop_ordered hord hloop).1
  · cases h
    exact List.pairwise_singleton ..

/-! ### Vacuuming -/

theorem vaccumLoop_suffix (validTs : Nat) (items : List HashItem) :
    vaccumLoop validTs items <:+ items := by
  fun_induction vaccumLoop validTs items with
  | case1 head next rest hle ih => exact ih.trans (List.suffix_cons head _)
  | case2 head next rest hgt => exact List.suffix_rfl
  | case3 items hshort => exact List.suffix_rfl

theorem Ordered.vaccum {c : HashChain} (hord : c.Ordered) (validTs : Nat) :
    (c.vaccum validTs).Ordered :=
  hord.sublist (vaccumLoop_suffix validTs c.items).sublist

/-- Moving the last item forward keeps the order. -/
theorem Ordered.setTail {c c' : HashChain} {value : UInt64} {ts : Nat} (hord : c.Ordered)
    (hts : ∀ i ∈ c.items, i.commitTs ≤ ts) (h : c.setTail value ts = some c') : c'.Ordered := by
  unfold HashChain.setTail at h
  split at h
  · cases h
  · cases h
    refine List.pairwise_append.mpr
      ⟨hord.sublist (List.dropLast_sublist _), by simp, fun i hi j hj => ?_⟩
    rw [List.mem_singleton.mp hj]
    exact hts i (List.dropLast_subset _ hi)

end HashChain

end VeriTxn
