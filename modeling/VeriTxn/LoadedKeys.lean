import VeriTxn.OrderKeys

/-!
# The keys under which orders are loaded

`init_tab_order` enters the lines of an order under the key of its district, and its NEW-ORDER row
under the key of the order.  The transactions enter and look up both under keys of their own, which
are other numbers for every order.
-/

namespace VeriTxn.OrderKeys

open Tpcc

/-- The transactions find the lines and the NEW-ORDER row that are loaded for the order. -/
def Agrees (olCnt : Order → Nat) (x : Order) : Prop :=
  ∀ e ∈ initTabOrder olCnt x, e.table = .orderLine ∨ e.table = .newOrder → e.FoundBy x

section

variable {numWh : Nat} {x : Order}

/-- A loaded order, in any number of warehouses that `g_num_wh` can hold. -/
theorem bounds_of_loaded (hsize : numWh < 2 ^ 32) (hx : x ∈ loadedOrders numWh) :
    (1 ≤ x.wId.toNat ∧ x.wId.toNat < 2 ^ 32) ∧ (1 ≤ x.dId.toNat ∧ x.dId.toNat ≤ 10) ∧
      1 ≤ x.oId.toNat ∧ x.oId.toNat ≤ 3000 := by
  obtain ⟨w, hw, h⟩ := List.mem_flatMap.mp hx
  obtain ⟨d, hd, h⟩ := List.mem_flatMap.mp h
  obtain ⟨o, ho, rfl⟩ := List.mem_map.mp h
  rw [List.mem_range'_1] at hw hd ho
  simp only [UInt64.toNat_ofNat']
  omega

variable (hw : x.wId.toNat < 2 ^ 32) (hd : x.dId.toNat ≤ 10) (ho : x.oId.toNat ≤ 3000)
include hw hd

theorem loaded_distKey_toNat :
    (distKey x.dId x.wId).toNat = x.wId.toNat * 10 + x.dId.toNat := by
  rw [distKey, UInt64.toNat_add, UInt64.toNat_mul, show distPerWare.toNat = 10 from rfl]
  omega

include ho

theorem loaded_orderlineKey_toNat :
    x.orderlineKey.toNat = (x.wId.toNat * 10 + x.dId.toNat) * 3000 + x.oId.toNat := by
  rw [Order.orderlineKey, Tpcc.orderlineKey, UInt64.toNat_add, UInt64.toNat_mul,
    loaded_distKey_toNat hw hd, show custPerDist.toNat = 3000 from rfl]
  omega

/-- Only the lower half of the district's number is left in the upper half of the key. -/
theorem loaded_neworderKey_toNat (hpos : 1 ≤ x.oId.toNat) :
    x.neworderKey.toNat =
      (x.wId.toNat * 10 + x.dId.toNat) % 2 ^ 32 * 2 ^ 32 + (2 ^ 32 - x.oId.toNat) := by
  have hmax : ((2 : UInt64) ^ 32).toNat = 2 ^ 32 := by decide
  have hle : x.oId ≤ (2 : UInt64) ^ 32 := by
    rw [UInt64.le_iff_toNat_le, hmax]
    omega
  rw [Order.neworderKey, Tpcc.neworderKey, UInt64.toNat_add, UInt64.toNat_mul,
    UInt64.toNat_sub_of_le _ _ hle, hmax, loaded_distKey_toNat hw hd]
  omega

end

/-- The lines are under the key of the district. -/
theorem orderlineKey_ne_distKey {numWh : Nat} (hsize : numWh < 2 ^ 32) {x : Order}
    (hx : x ∈ loadedOrders numWh) : distKey x.dId x.wId ≠ x.orderlineKey := by
  obtain ⟨⟨hw, hw'⟩, ⟨hd, hd'⟩, ho, ho'⟩ := bounds_of_loaded hsize hx
  intro heq
  have hkeys := congrArg UInt64.toNat heq
  rw [loaded_distKey_toNat hw' hd', loaded_orderlineKey_toNat hw' hd' ho'] at hkeys
  omega

/-- The NEW-ORDER row is under the key of the order. -/
theorem neworderKey_ne_primaryKey {numWh : Nat} (hsize : numWh < 2 ^ 32) {x : Order}
    (hx : x ∈ loadedOrders numWh) : x.primaryKey ≠ x.neworderKey := by
  obtain ⟨⟨hw, hw'⟩, ⟨hd, hd'⟩, ho, ho'⟩ := bounds_of_loaded hsize hx
  intro heq
  have hkeys : x.orderlineKey.toNat = x.neworderKey.toNat := congrArg UInt64.toNat heq
  rw [loaded_orderlineKey_toNat hw' hd' ho', loaded_neworderKey_toNat hw' hd' ho' ho] at hkeys
  -- the quotient by 2 ^ 32 is at most 10, and 3000 times it is not far from the rest
  rcases Nat.lt_or_ge ((x.wId.toNat * 10 + x.dId.toNat) % 2 ^ 32)
    (3000 * ((x.wId.toNat * 10 + x.dId.toNat) / 2 ^ 32)) with hlt | hge
  · omega
  · omega

/-- The entries of a loaded order are those that `init_tab_order` made for it. -/
theorem initTabOrder_keys {olCnt : Order → Nat} {x : Order} {e : Entry}
    (he : e ∈ initTabOrder olCnt x) : e.order = x ∧
      (e.table = .orderLine → e.key = distKey x.dId x.wId) ∧
      (e.table = .newOrder → e.key = x.primaryKey) := by
  rw [initTabOrder, List.mem_cons, List.mem_append] at he
  rcases he with rfl | he | he
  · exact ⟨rfl, by simp, by simp⟩
  · rw [List.eq_of_mem_replicate he]
    exact ⟨rfl, fun _ => rfl, by simp⟩
  · split at he
    · rw [List.mem_singleton.mp he]
      exact ⟨rfl, by simp, fun _ => rfl⟩
    · cases he

/-- **No line and no NEW-ORDER row of a loaded order is found under the order's keys.** -/
theorem loaded_rows_not_found {numWh : Nat} (hsize : numWh < 2 ^ 32) {olCnt : Order → Nat}
    {x : Order} (hx : x ∈ loadedOrders numWh) (hlines : 0 < olCnt x) :
    (∀ e ∈ (load numWh olCnt).entries, e.order = x →
      e.table = .orderLine ∨ e.table = .newOrder → ¬ e.FoundBy x) ∧ ¬ Agrees olCnt x := by
  have hlost : ∀ e ∈ initTabOrder olCnt x, e.table = .orderLine ∨ e.table = .newOrder →
      ¬ e.FoundBy x := by
    rintro e he htable (⟨horder, -⟩ | ⟨hnew, hkey⟩ | ⟨hline, hkey⟩)
    · rw [horder] at htable
      rcases htable with h | h
      · cases h
      · cases h
    · rw [(initTabOrder_keys he).2.2 hnew] at hkey
      exact neworderKey_ne_primaryKey hsize hx hkey
    · rw [(initTabOrder_keys he).2.1 hline] at hkey
      exact orderlineKey_ne_distKey hsize hx hkey
  constructor
  · intro e he horder
    obtain ⟨y, -, he⟩ := List.mem_flatMap.mp he
    obtain rfl : y = x := (initTabOrder_keys he).1.symm.trans horder
    exact hlost e he
  · intro hagrees
    have hmem : ⟨.orderLine, distKey x.dId x.wId, x⟩ ∈ initTabOrder olCnt x := by
      rw [initTabOrder, List.mem_cons, List.mem_append, List.mem_replicate]
      exact Or.inr (Or.inl ⟨by omega, rfl⟩)
    exact hlost _ hmem (Or.inl rfl) (hagrees _ hmem (Or.inl rfl))

/-- The first order of the first district, with five lines. -/
theorem loaded_rows_not_found_first :
    (∀ e ∈ (load 1 fun _ => 5).entries, e.order = ⟨1, 1, 1⟩ →
      e.table = .orderLine ∨ e.table = .newOrder → ¬ e.FoundBy ⟨1, 1, 1⟩) ∧
      ¬ Agrees (fun _ => 5) ⟨1, 1, 1⟩ :=
  loaded_rows_not_found (by decide)
    (mem_loadedOrders (w := 1) (d := 1) (o := 1) (by decide) (by decide) (by decide)) (by decide)

/-- A line of this order is under 11, and looked for under 33001. -/
theorem line_under_district : ⟨.orderLine, 11, ⟨1, 1, 1⟩⟩ ∈ initTabOrder (fun _ => 5) ⟨1, 1, 1⟩ ∧
    Order.orderlineKey ⟨1, 1, 1⟩ = 33001 ∧
    ¬ ∀ numWh (olCnt : Order → Nat), (∀ x, 5 ≤ olCnt x ∧ olCnt x ≤ 15) →
      ∀ x ∈ loadedOrders numWh, Agrees olCnt x := by
  have hline : ⟨.orderLine, 11, ⟨1, 1, 1⟩⟩ ∈ initTabOrder (fun _ => 5) ⟨1, 1, 1⟩ :=
    List.mem_cons_of_mem _ (List.mem_append_left _ (List.mem_replicate.mpr ⟨by decide, rfl⟩))
  refine ⟨hline, rfl, fun hall => ?_⟩
  have hagrees := hall 1 (fun _ => 5) (fun _ => by decide) ⟨1, 1, 1⟩
    (mem_loadedOrders (w := 1) (d := 1) (o := 1) (by decide) (by decide) (by decide))
  rcases hagrees _ hline (Or.inl rfl) with ⟨h, -⟩ | ⟨h, -⟩ | ⟨-, h⟩
  · cases h
  · cases h
  · exact absurd h (by decide)

end VeriTxn.OrderKeys
