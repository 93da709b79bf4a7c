import VeriTxn.FirstOccurrences
import VeriTxn.NewOrderTxn
import VeriTxn.Shifts
import Mathlib.Data.UInt

/-!
# The items of a new-order

`tpcc_query::gen_new_order` draws `ol_cnt` items and removes those whose `ol_i_id` an earlier one
has, in place and by loops that change each other's variables.  `ol_cnt` has 64 bits, the loop
variables have 32.

The array holds nothing outside its slots.  A loop without a result has run out of fuel or has
used a slot that there is not.
-/

namespace VeriTxn.Tpcc

open FirstOccurrences Shifts

abbrev Items := Nat → Option OrderItem

/-- The loop over `k`. -/
def removeItem (olCnt : UInt64) : (fuel : Nat) → (k : UInt32) → Items → Option Items
  | 0, _, _ => none
  | fuel + 1, k, items =>
      if k.toUInt64 < olCnt - 1 then do
        let _ ← items k.toNat
        let next ← items (k + 1).toNat
        removeItem olCnt fuel (k + 1) (Function.update items k.toNat (some next))
      else some items

/-- The loop over `j`, with what it leaves in `i`, `ol_cnt` and `items`. -/
def compareItems : (fuel : Nat) → (i j : UInt32) → (olCnt : UInt64) → Items →
    Option (UInt32 × UInt64 × Items)
  | 0, _, _, _, _ => none
  | fuel + 1, i, j, olCnt, items =>
      if j < i then do
        let x ← items i.toNat
        let y ← items j.toNat
        if x.olIId = y.olIId then do
          let items ← removeItem olCnt fuel i items
          compareItems fuel (i - 1) (j + 1) (olCnt - 1) items
        else compareItems fuel i (j + 1) olCnt items
      else some (i, olCnt, items)

/-- The loop over `i`. -/
def removeLoop : (fuel : Nat) → (i : UInt32) → (olCnt : UInt64) → Items →
    Option (UInt64 × Items)
  | 0, _, _, _ => none
  | fuel + 1, i, olCnt, items =>
      if i.toUInt64 < olCnt then do
        let (i, olCnt, items) ← compareItems fuel i 0 olCnt items
        removeLoop fuel (i + 1) olCnt items
      else some (olCnt, items)

/-- The assertion of the loops behind it. -/
def itemsDistinct (olCnt : UInt64) (items : Items) : Bool :=
  (List.range olCnt.toNat).all fun i => (List.range i).all fun j =>
    match items i, items j with
    | some x, some y => x.olIId ≠ y.olIId
    | _, _ => false

/-- "Remove duplicate items", with the assertion. -/
def removeDuplicates (fuel : Nat) (olCnt : UInt64) (items : Items) : Option (UInt64 × Items) := do
  let (olCnt, items) ← removeLoop fuel 0 olCnt items
  if itemsDistinct olCnt items then some (olCnt, items) else none

/-- The loops end, use no slot outside the array, and leave the first item of each `ol_i_id`. -/
def RemovesDuplicates (olCnt : UInt64) (items : Vector OrderItem olCnt.toNat) : Prop :=
  ∃ fuel olCnt' items',
    removeDuplicates fuel olCnt (fun k => items.toList[k]?) = some (olCnt', items') ∧
      olCnt'.toNat = (firsts OrderItem.olIId items.toList).length ∧
      Holds items' (firsts OrderItem.olIId items.toList)

/-! ### Removing one item -/

theorem toNat_succ {k : UInt32} (hk : k.toNat + 1 < 2 ^ 32) : (k + 1).toNat = k.toNat + 1 := by
  rw [UInt32.toNat_add, UInt32.toNat_one]
  exact Nat.mod_eq_of_lt hk

theorem toNat_pred {n : UInt64} (hn : 0 < n.toNat) : (n - 1).toNat = n.toNat - 1 :=
  UInt64.toNat_sub_of_le _ _ hn

theorem lt_iff_toNat {k : UInt32} {n : UInt64} : k.toUInt64 < n ↔ k.toNat < n.toNat := by
  rw [UInt64.lt_iff_toNat_lt, UInt32.toNat_toUInt64]

/-- The loop is the one that moves the rest of the array down. -/
theorem removeItem_eq_shiftLoop {olCnt : UInt64} (hcnt : olCnt.toNat ≤ 2 ^ 32) {n fuel : Nat}
    {k : UInt32} (hend : k.toNat + n + 1 = olCnt.toNat) (hfuel : n < fuel) (items : Items) :
    removeItem olCnt fuel k items = shiftLoop (fun _ _ => true) n k.toNat items := by
  have hpred := toNat_pred (n := olCnt) (by omega)
  induction n generalizing fuel k items with
  | zero =>
      obtain ⟨fuel, rfl⟩ := Nat.exists_eq_add_of_lt hfuel
      have hstop : ¬ k.toUInt64 < olCnt - 1 := by
        rw [lt_iff_toNat]
        omega
      rw [Nat.zero_add, removeItem, if_neg hstop, shiftLoop]
  | succ n ih =>
      obtain ⟨fuel, rfl⟩ := Nat.exists_eq_add_of_lt hfuel
      have hk := toNat_succ (k := k) (by omega)
      have hmore : k.toUInt64 < olCnt - 1 := by
        rw [lt_iff_toNat]
        omega
      rw [removeItem, if_pos hmore, shiftLoop, hk]
      cases items k.toNat with
      | none => rfl
      | some x =>
          cases items (k.toNat + 1) with
          | none => rfl
          | some y =>
              simp only [Option.bind_eq_bind, Option.bind_some, if_true]
              rw [ih (by omega) (by omega), hk]

/-- The item at `k` is taken out. -/
theorem removeItem_eq_some {olCnt : UInt64} (hcnt : olCnt.toNat ≤ 2 ^ 32) {k : UInt32}
    {fuel : Nat} {items : Items} {front rest : List OrderItem} {x : OrderItem}
    (hk : k.toNat = front.length) (hend : front.length + rest.length + 1 = olCnt.toNat)
    (hfuel : rest.length < fuel) (h : Holds items (front ++ x :: rest)) :
    ∃ items', removeItem olCnt fuel k items = some items' ∧ Holds items' (front ++ rest) := by
  obtain ⟨hfront, hrest⟩ := holdsAt_append.mp h
  rw [Nat.zero_add] at hrest
  have hcheck : (x :: rest).Pairwise fun _ _ => true = true :=
    List.pairwise_of_forall fun _ _ => rfl
  obtain ⟨items', hloop, hmoved, hsame⟩ := shiftLoop_eq_some rfl hrest hcheck
  refine ⟨items', ?_, holdsAt_append.mpr ⟨?_, ?_⟩⟩
  · rw [removeItem_eq_shiftLoop hcnt (by omega) hfuel, hk, hloop]
  · intro n hn
    rw [hsame (0 + n) (by omega)]
    exact hfront n hn
  · rwa [Nat.zero_add]

/-! ### Comparing one item with those before it -/

/-- No item from `j` up to `i` has the `ol_i_id` of item `i`. -/
def Apart (items : Items) (i j : Nat) : Prop :=
  ∀ n, j ≤ n → n < i → ∃ x y, items i = some x ∧ items n = some y ∧ x.olIId ≠ y.olIId

theorem compareItems_apart {fuel : Nat} {i j : UInt32} {olCnt : UInt64} {items : Items}
    (h : Apart items i.toNat j.toNat) (hfuel : i.toNat - j.toNat < fuel) :
    compareItems fuel i j olCnt items = some (i, olCnt, items) := by
  induction fuel generalizing j with
  | zero => exact absurd hfuel (Nat.not_lt_zero _)
  | succ fuel ih =>
      rw [compareItems]
      by_cases hj : j < i
      · have hlt := UInt32.lt_iff_toNat_lt.mp hj
        have hbound := i.toNat_lt
        obtain ⟨x, y, hx, hy, hne⟩ := h j.toNat (Nat.le_refl _) hlt
        have hnext := toNat_succ (k := j) (by omega)
        rw [if_pos hj, hx, hy]
        simp only [Option.bind_eq_bind, Option.bind_some, if_neg hne]
        refine ih (fun n hn => h n ?_) ?_
        · omega
        · omega
      · rw [if_neg hj]

/-- Item `i` goes, and the loop goes on with the item before it, which is like none of those
    that are left for it. -/
theorem compareItems_found {fuel : Nat} {i j : UInt32} {olCnt : UInt64} {items : Items}
    {front rest : List OrderItem} {x : OrderItem} (hcnt : olCnt.toNat ≤ 2 ^ 32)
    (hend : front.length + rest.length + 1 = olCnt.toNat) (hi : i.toNat = front.length)
    (h : Holds items (front ++ x :: rest)) (hnodup : (front.map OrderItem.olIId).Nodup)
    (hmem : x.olIId ∈ (front.drop j.toNat).map OrderItem.olIId)
    (hfuel : olCnt.toNat < j.toNat + fuel) :
    ∃ items', compareItems fuel i j olCnt items = some (i - 1, olCnt - 1, items') ∧
      Holds items' (front ++ rest) := by
  have hroom := List.length_pos_of_mem hmem
  rw [List.length_map, List.length_drop] at hroom
  induction fuel generalizing j with
  | zero => omega
  | succ fuel ih =>
      have hj : j.toNat < front.length := Nat.lt_of_sub_pos hroom
      have hlt : j < i := by
        rw [UInt32.lt_iff_toNat_lt]
        omega
      have hnext := toNat_succ (k := j) (by omega)
      have hx : items i.toNat = some x := by
        have hget := Holds.getElem h (n := i.toNat) (by simp [hi])
        simpa [hi] using hget
      have hy : items j.toNat = some front[j.toNat] := by
        have hget := Holds.getElem h (n := j.toNat) (by simp; omega)
        simpa [List.getElem_append_left hj] using hget
      rw [compareItems, if_pos hlt, hx, hy]
      simp only [Option.bind_eq_bind, Option.bind_some]
      by_cases heq : x.olIId = front[j.toNat].olIId
      · obtain ⟨items', hremove, hmoved⟩ := removeItem_eq_some hcnt hi hend
          (show rest.length < fuel by omega) h
        have hpred : (i - 1).toNat = front.length - 1 := by
          rw [UInt32.toNat_sub_of_le _ _ (UInt32.le_iff_toNat_le.mpr (by simp; omega)), hi]
          rfl
        refine ⟨items', ?_, hmoved⟩
        rw [if_pos heq, hremove, Option.bind_some]
        refine compareItems_apart (fun n hn hni => ?_) (by omega)
        have hlast : front.length - 1 < front.length := by omega
        have hn' : n < front.length := by omega
        refine ⟨front[front.length - 1], front[n], ?_, ?_, ?_⟩
        · rw [hpred, Holds.getElem hmoved (by simp; omega), List.getElem_append_left hlast]
        · rw [Holds.getElem hmoved (by simp; omega), List.getElem_append_left hn']
        · have hpairs := List.pairwise_iff_getElem.mp (List.pairwise_map.mp hnodup)
          exact (hpairs n (front.length - 1) hn' hlast (hpred ▸ hni)).symm
      · rw [if_neg heq]
        rw [List.drop_eq_getElem_cons hj, List.map_cons, List.mem_cons] at hmem
        have hlater := hmem.resolve_left heq
        have hroom' := List.length_pos_of_mem hlater
        rw [List.length_map, List.length_drop] at hroom'
        refine ih ?_ (by omega) ?_
        · rw [hnext]
          exact hlater
        · rw [hnext]
          exact hroom'

/-! ### The whole loop -/

/-- The loop has dealt with `before` and goes on with `rest`. -/
structure Reached (before rest : List OrderItem) (i : UInt32) (olCnt : UInt64) (items : Items) :
    Prop where
  index : i.toNat = (firsts OrderItem.olIId before).length
  count : olCnt.toNat = (firsts OrderItem.olIId before).length + rest.length
  holds : Holds items (firsts OrderItem.olIId before ++ rest)

section Loop

variable {before rest l : List OrderItem} {x : OrderItem} {i : UInt32} {olCnt : UInt64}
  {items : Items} {fuel : Nat}

/-- A pass for an item whose `ol_i_id` has been there. -/
theorem Reached.drop (h : Reached before (x :: rest) i olCnt items) (hcnt : olCnt.toNat ≤ 2 ^ 32)
    (hx : x.olIId ∈ before.map OrderItem.olIId) (hfuel : olCnt.toNat < fuel) :
    ∃ i' olCnt' items', compareItems fuel i 0 olCnt items = some (i', olCnt', items') ∧
      Reached (before ++ [x]) rest (i' + 1) olCnt' items' := by
  have hcount := h.count
  rw [List.length_cons] at hcount
  obtain ⟨items', hloop, hholds⟩ := compareItems_found (j := 0) hcnt (by omega) h.index h.holds
    (nodup_keys_firsts _ _) ((mem_keys_firsts _ _).mpr hx) (by simpa using hfuel)
  refine ⟨_, _, items', hloop, ?_, ?_, ?_⟩
  · rw [UInt32.sub_add_cancel, firsts_snoc_of_mem hx]
    exact h.index
  · rw [toNat_pred (by omega), firsts_snoc_of_mem hx, hcount]
    omega
  · rw [firsts_snoc_of_mem hx]
    exact hholds

/-- A pass for an item with a new `ol_i_id`. -/
theorem Reached.keep (h : Reached before (x :: rest) i olCnt items)
    (hx : x.olIId ∉ before.map OrderItem.olIId) (hfuel : olCnt.toNat < fuel)
    (hfew : (firsts OrderItem.olIId (before ++ [x])).length < 2 ^ 32) :
    compareItems fuel i 0 olCnt items = some (i, olCnt, items) ∧
      Reached (before ++ [x]) rest (i + 1) olCnt items := by
  have hcount := h.count
  rw [List.length_cons] at hcount
  rw [firsts_snoc_of_notMem hx, List.length_append, List.length_singleton] at hfew
  constructor
  · refine compareItems_apart (fun n _ hn => ?_) (by have := h.index; omega)
    rw [h.index] at hn
    refine ⟨x, (firsts OrderItem.olIId before)[n], ?_, ?_, fun heq => hx ?_⟩
    · have hget := Holds.getElem h.holds (n := i.toNat) (by simp [h.index])
      simpa [h.index] using hget
    · have hget := Holds.getElem h.holds (n := n) (by simp; omega)
      simpa [List.getElem_append_left hn] using hget
    · rw [← mem_keys_firsts, heq]
      exact List.mem_map_of_mem (List.getElem_mem hn)
  · refine ⟨?_, ?_, ?_⟩
    · rw [toNat_succ (by rw [h.index]; exact hfew), firsts_snoc_of_notMem hx, List.length_append,
        List.length_singleton, h.index]
    · rw [firsts_snoc_of_notMem hx, List.length_append, List.length_singleton, hcount]
      omega
    · rw [firsts_snoc_of_notMem hx, List.append_assoc]
      exact h.holds

/-- The loop goes through the items that are left, one pass for each. -/
theorem Reached.removeLoop (hlength : l.length ≤ 2 ^ 32)
    (hfew : (firsts OrderItem.olIId l).length < 2 ^ 32) (hl : before ++ rest = l)
    (h : Reached before rest i olCnt items) (hfuel : rest.length + l.length < fuel) :
    ∃ olCnt' items', removeLoop fuel i olCnt items = some (olCnt', items') ∧
      olCnt'.toNat = (firsts OrderItem.olIId l).length ∧
      Holds items' (firsts OrderItem.olIId l) := by
  induction rest generalizing before i olCnt items fuel with
  | nil =>
      obtain ⟨fuel, rfl⟩ := Nat.exists_eq_add_of_lt hfuel
      rw [List.append_nil] at hl
      subst hl
      have hcount := h.count
      have hend : ¬ i.toUInt64 < olCnt := by
        rw [lt_iff_toNat, h.index, hcount]
        exact Nat.lt_irrefl _
      refine ⟨olCnt, items, ?_, hcount, ?_⟩
      · rw [Tpcc.removeLoop, if_neg hend]
      · rw [← List.append_nil (firsts _ _)]
        exact h.holds
  | cons x rest ih =>
      have hcount := h.count
      have hle : (firsts OrderItem.olIId before).length ≤ before.length := length_firsts_le before
      have htotal := congrArg List.length hl
      rw [List.length_append] at htotal
      rw [List.length_cons] at hcount htotal hfuel
      obtain ⟨fuel, rfl⟩ : ∃ n, fuel = n + 1 := ⟨fuel - 1, by omega⟩
      have hpass : olCnt.toNat < fuel := by omega
      have hmore : i.toUInt64 < olCnt := by
        rw [lt_iff_toNat, h.index]
        omega
      have hnext : (before ++ [x]) ++ rest = l := by rw [List.append_assoc]; exact hl
      rw [Tpcc.removeLoop, if_pos hmore]
      by_cases hx : x.olIId ∈ before.map OrderItem.olIId
      · obtain ⟨i', olCnt', items', hdrop, hreached⟩ := h.drop (by omega) hx hpass
        rw [hdrop]
        exact ih hnext hreached (by omega)
      · have hstill : (firsts OrderItem.olIId (before ++ [x])).length ≤
            (firsts OrderItem.olIId l).length :=
          hnext ▸ length_firsts_append_le (before ++ [x]) rest
        obtain ⟨hkeep, hreached⟩ := h.keep hx hpass (Nat.lt_of_le_of_lt hstill hfew)
        rw [hkeep]
        exact ih hnext hreached (by omega)

end Loop

/-- The assertion holds of items with different `ol_i_id`. -/
theorem itemsDistinct_of_holds {olCnt : UInt64} {items : Items} {l : List OrderItem}
    (hcnt : olCnt.toNat = l.length) (h : Holds items l) (hnodup : (l.map OrderItem.olIId).Nodup) :
    itemsDistinct olCnt items = true := by
  rw [itemsDistinct, List.all_eq_true]
  intro i hi
  rw [List.all_eq_true]
  intro j hj
  rw [List.mem_range] at hi hj
  have hi' : i < l.length := hcnt ▸ hi
  have hj' : j < l.length := Nat.lt_trans hj hi'
  rw [h.getElem hi', h.getElem hj']
  have hpairs := List.pairwise_iff_getElem.mp (List.pairwise_map.mp hnodup)
  simpa using (hpairs j i hj' hi' hj).symm

/-- With fewer than `2 ^ 32` different `ol_i_id` in at most `2 ^ 32` items, two passes for each
    item are fuel enough. -/
theorem removeDuplicates_eq_some {olCnt : UInt64} {items : List OrderItem}
    (hlength : items.length = olCnt.toNat) (hcnt : olCnt.toNat ≤ 2 ^ 32)
    (hfew : (firsts OrderItem.olIId items).length < 2 ^ 32) {fuel : Nat}
    (hfuel : 2 * items.length < fuel) :
    ∃ olCnt' items', removeDuplicates fuel olCnt (fun k => items[k]?) = some (olCnt', items') ∧
      olCnt'.toNat = (firsts OrderItem.olIId items).length ∧
      Holds items' (firsts OrderItem.olIId items) := by
  have hstart : Reached [] items 0 olCnt fun k => items[k]? := by
    refine ⟨rfl, ?_, fun k _ => ?_⟩
    · rw [firsts_nil, List.length_nil, Nat.zero_add, hlength]
    · rw [Nat.zero_add, firsts_nil, List.nil_append]
  have hpasses : items.length + items.length < fuel := by omega
  obtain ⟨olCnt', items', hloop, hcount, hholds⟩ :=
    hstart.removeLoop (hlength ▸ hcnt) hfew (List.nil_append _) hpasses
  have hassert := itemsDistinct_of_holds hcount hholds (nodup_keys_firsts _ _)
  refine ⟨olCnt', items', ?_, hcount, hholds⟩
  rw [removeDuplicates, hloop]
  simp [hassert]

/-! ### Loops that do not end -/

/-- Beyond `2 ^ 32` items the loop over `k` goes on for ever. -/
theorem removeItem_eq_none {olCnt : UInt64} (hcnt : 2 ^ 32 < olCnt.toNat) (fuel : Nat)
    (k : UInt32) (items : Items) : removeItem olCnt fuel k items = none := by
  induction fuel generalizing k items with
  | zero => rfl
  | succ fuel ih =>
      have hmore : k.toUInt64 < olCnt - 1 := by
        have hk := k.toNat_lt
        rw [lt_iff_toNat, toNat_pred (by omega)]
        omega
      rw [removeItem, if_pos hmore]
      cases items k.toNat with
      | none => rfl
      | some x =>
          cases items (k + 1).toNat with
          | none => rfl
          | some y => exact ih _ _

/-- Where an item is like one before it, removing it does not end. -/
def Stuck (olCnt : UInt64) (items : Items) : Prop :=
  ∀ (i : UInt32) (n : Nat) (x y : OrderItem), n < i.toNat → items i.toNat = some x →
    items n = some y → x.olIId = y.olIId → ∀ fuel, removeItem olCnt fuel i items = none

theorem Stuck.compareItems {olCnt : UInt64} {items : Items} (h : Stuck olCnt items) {fuel : Nat}
    {i j : UInt32} {r : UInt32 × UInt64 × Items}
    (hloop : compareItems fuel i j olCnt items = some r) : r = (i, olCnt, items) := by
  induction fuel generalizing j with
  | zero => cases hloop
  | succ fuel ih =>
      rw [Tpcc.compareItems] at hloop
      by_cases hj : j < i
      · rw [if_pos hj] at hloop
        obtain ⟨x, hx, hloop⟩ := Option.bind_eq_some_iff.mp hloop
        obtain ⟨y, hy, hloop⟩ := Option.bind_eq_some_iff.mp hloop
        by_cases heq : x.olIId = y.olIId
        · have hnone := h i j.toNat x y (UInt32.lt_iff_toNat_lt.mp hj) hx hy heq fuel
          rw [if_pos heq, hnone] at hloop
          cases hloop
        · rw [if_neg heq] at hloop
          exact ih hloop
      · rw [if_neg hj] at hloop
        cases hloop
        rfl

/-- The loop over `i` starts again from 0. -/
theorem Stuck.removeLoop {olCnt : UInt64} {items : Items} (h : Stuck olCnt items)
    (hcnt : 2 ^ 32 ≤ olCnt.toNat) (fuel : Nat) (i : UInt32) :
    removeLoop fuel i olCnt items = none := by
  induction fuel generalizing i with
  | zero => rfl
  | succ fuel ih =>
      have hmore : i.toUInt64 < olCnt := by
        rw [lt_iff_toNat]
        exact Nat.lt_of_lt_of_le i.toNat_lt hcnt
      rw [Tpcc.removeLoop, if_pos hmore]
      cases hpass : Tpcc.compareItems fuel i 0 olCnt items with
      | none => rfl
      | some r =>
          rw [h.compareItems hpass]
          exact ih (i + 1)

theorem Stuck.not_removesDuplicates {olCnt : UInt64} {items : Vector OrderItem olCnt.toNat}
    (h : Stuck olCnt fun k => items.toList[k]?) (hcnt : 2 ^ 32 ≤ olCnt.toNat) :
    ¬ RemovesDuplicates olCnt items := by
  rintro ⟨fuel, olCnt', items', hloop, -⟩
  rw [removeDuplicates, h.removeLoop hcnt] at hloop
  cases hloop

theorem stuck_of_large {olCnt : UInt64} (hcnt : 2 ^ 32 < olCnt.toNat) (items : Items) :
    Stuck olCnt items :=
  fun i _ _ _ _ _ _ _ fuel => removeItem_eq_none hcnt fuel i items

theorem stuck_of_nodup {items : List OrderItem} (h : (items.map OrderItem.olIId).Nodup)
    (olCnt : UInt64) : Stuck olCnt fun k => items[k]? := by
  intro i n x y hn hx hy heq
  obtain ⟨hi, rfl⟩ := List.getElem?_eq_some_iff.mp hx
  obtain ⟨hn', rfl⟩ := List.getElem?_eq_some_iff.mp hy
  have hpairs := List.pairwise_iff_getElem.mp (List.pairwise_map.mp h)
  exact absurd heq.symm (hpairs n i.toNat hn' hi hn)

/-- **The removal of duplicate items** ends and leaves the first item of each `ol_i_id`, in order
    and as drawn, exactly if there are fewer than `2 ^ 32` items, or that many with a duplicate. -/
theorem removesDuplicates_iff (olCnt : UInt64) (items : Vector OrderItem olCnt.toNat) :
    RemovesDuplicates olCnt items ↔ olCnt.toNat < 2 ^ 32 ∨
      olCnt.toNat = 2 ^ 32 ∧ ¬ (items.toList.map OrderItem.olIId).Nodup := by
  have hlength : items.toList.length = olCnt.toNat := Vector.length_toList
  have hle : (firsts OrderItem.olIId items.toList).length ≤ items.toList.length :=
    length_firsts_le _
  constructor
  · intro h
    by_contra hcond
    obtain ⟨hlarge, hnodup⟩ := not_or.mp hcond
    rcases Nat.lt_or_eq_of_le (Nat.not_lt.mp hlarge) with hlt | heq
    · exact (stuck_of_large hlt _).not_removesDuplicates (Nat.not_lt.mp hlarge) h
    · have hdistinct := not_not.mp fun hdup => hnodup ⟨heq.symm, hdup⟩
      exact (stuck_of_nodup hdistinct olCnt).not_removesDuplicates (Nat.not_lt.mp hlarge) h
  · rintro (hsmall | ⟨hfull, hdup⟩)
    · exact ⟨_, removeDuplicates_eq_some hlength (by omega) (by omega) (Nat.lt_succ_self _)⟩
    · have hfew : (firsts OrderItem.olIId items.toList).length < items.toList.length :=
        (length_firsts_lt_iff _).mpr hdup
      exact ⟨_, removeDuplicates_eq_some hlength (by omega) (by omega) (Nat.lt_succ_self _)⟩

/-- With `2 ^ 32 + 1` items the loops do not end. -/
theorem too_many_items :
    ¬ ∀ (olCnt : UInt64) (items : Vector OrderItem olCnt.toNat), RemovesDuplicates olCnt items := by
  intro h
  have hlarge : 2 ^ 32 < (4294967297 : UInt64).toNat := by decide
  exact (stuck_of_large hlarge _).not_removesDuplicates (Nat.le_of_lt hlarge)
    (h 4294967297 (Vector.replicate _ ⟨1, 1, 1⟩))

end VeriTxn.Tpcc
