import VeriTxn.NewOrderTxn
import Mathlib.Data.List.Induction

/-!
# The keys of orders

`orderPrimaryKey` and `orderlineKey` leave 3000 ids to a district, as many as `init_tab_order`
loads.  `D_NEXT_O_ID` starts at 3001 and is counted up before it is used, so that the ids of new
orders reach into the keys of the next district from the first one on.  Only behind the last
district of the last warehouse there is room.
-/

namespace VeriTxn.OrderKeys

open Tpcc

/-- An order, by its warehouse, its district and its id there. -/
structure Order where
  wId : UInt64
  dId : UInt64
  oId : UInt64
deriving DecidableEq

def Order.primaryKey (x : Order) : UInt64 := orderPrimaryKey x.wId x.dId x.oId

def Order.neworderKey (x : Order) : UInt64 := Tpcc.neworderKey x.oId x.dId x.wId

def Order.orderlineKey (x : Order) : UInt64 := Tpcc.orderlineKey x.wId x.dId x.oId

/-- A row of an order in the index of its table. -/
structure Entry where
  table : Table
  key : UInt64
  order : Order

/-- `D_NEXT_O_ID` by warehouse and district, the orders, and the entries of the indexes. -/
structure State where
  next : UInt64 → UInt64 → UInt64
  orders : List Order
  entries : List Entry

/-- The orders of `init_tab_order`. -/
def loadedOrders (numWh : Nat) : List Order :=
  (List.range' 1 numWh).flatMap fun w => (List.range' 1 10).flatMap fun d =>
    (List.range' 1 3000).map fun o => ⟨.ofNat w, .ofNat d, .ofNat o⟩

/-- The entries that `init_tab_order` makes for an order of so many lines.  It enters the lines
    under the key of the district and the NEW-ORDER row under that of the order. -/
def initTabOrder (olCnt : Order → Nat) (x : Order) : List Entry :=
  ⟨.order, x.primaryKey, x⟩ :: (List.replicate (olCnt x) ⟨.orderLine, distKey x.dId x.wId, x⟩ ++
    if x.oId > 2100 then [⟨.newOrder, x.primaryKey, x⟩] else [])

/-- The loaded database. -/
def load (numWh : Nat) (olCnt : Order → Nat) : State where
  next _ _ := 3001
  orders := loadedOrders numWh
  entries := (loadedOrders numWh).flatMap (initTabOrder olCnt)

/-- A new-order transaction that commits. -/
def newOrder (s : State) (query : NewOrderQuery) : State :=
  let oId := s.next query.wId query.dId + 1
  let x : Order := ⟨query.wId, query.dId, oId⟩
  { next := fun w d => if w = query.wId ∧ d = query.dId then oId else s.next w d
    orders := x :: s.orders
    entries := ⟨.order, (orderRow query oId).primaryKey, x⟩ ::
      ⟨.newOrder, (newOrderRow query oId).primaryKey, x⟩ ::
      (query.items.map (fun _ => ⟨.orderLine, orderlineKey query.wId query.dId oId, x⟩) ++
        s.entries) }

/-- The state after some new orders. -/
def run (numWh : Nat) (olCnt : Order → Nat) (queries : List NewOrderQuery) : State :=
  queries.foldl newOrder (load numWh olCnt)

/-- The entry is found under the key of the order. -/
def Entry.FoundBy (e : Entry) (x : Order) : Prop :=
  e.table = .order ∧ e.key = x.primaryKey ∨ e.table = .newOrder ∧ e.key = x.neworderKey ∨
    e.table = .orderLine ∧ e.key = x.orderlineKey

/-- Different orders have different keys, and under its keys an order finds its own rows only. -/
def Unique (s : State) : Prop :=
  (∀ x ∈ s.orders, ∀ y ∈ s.orders, x ≠ y → x.primaryKey ≠ y.primaryKey ∧
    x.neworderKey ≠ y.neworderKey ∧ x.orderlineKey ≠ y.orderlineKey) ∧
  ∀ x ∈ s.orders, ∀ e ∈ s.entries, e.FoundBy x → e.order = x

/-- The query is for a district of the database. -/
def Valid (numWh : Nat) (query : NewOrderQuery) : Prop :=
  1 ≤ query.wId.toNat ∧ query.wId.toNat ≤ numWh ∧ 1 ≤ query.dId.toNat ∧ query.dId.toNat ≤ 10

/-- It is for the last district of the last warehouse. -/
def Last (numWh : Nat) (query : NewOrderQuery) : Prop :=
  query.wId.toNat = numWh ∧ query.dId.toNat = 10

/-! ### Keys as numbers -/

/-- An order of the loaded range, or a later one in the last district. -/
structure Placed (numWh : Nat) (x : Order) : Prop where
  warehouse : 1 ≤ x.wId.toNat ∧ x.wId.toNat ≤ numWh
  district : 1 ≤ x.dId.toNat ∧ x.dId.toNat ≤ 10
  id : 1 ≤ x.oId.toNat ∧ x.oId.toNat ≤ 2 ^ 32
  room : x.oId.toNat ≤ 3000 ∨ x.wId.toNat = numWh ∧ x.dId.toNat = 10

theorem distKey_toNat {wId dId : UInt64} (hw : wId.toNat ≤ 3300) (hd : dId.toNat ≤ 10) :
    (distKey dId wId).toNat = wId.toNat * 10 + dId.toNat := by
  rw [distKey, UInt64.toNat_add, UInt64.toNat_mul, show distPerWare.toNat = 10 from rfl]
  omega

theorem orderlineKey_toNat {wId dId oId : UInt64} (hw : wId.toNat ≤ 3300) (hd : dId.toNat ≤ 10)
    (ho : oId.toNat ≤ 2 ^ 32) :
    (orderlineKey wId dId oId).toNat = (wId.toNat * 10 + dId.toNat) * 3000 + oId.toNat := by
  rw [orderlineKey, UInt64.toNat_add, UInt64.toNat_mul, distKey_toNat hw hd,
    show custPerDist.toNat = 3000 from rfl]
  omega

theorem neworderKey_toNat {wId dId oId : UInt64} (hw : wId.toNat ≤ 3300) (hd : dId.toNat ≤ 10)
    (ho : oId.toNat ≤ 2 ^ 32) :
    (neworderKey oId dId wId).toNat =
      (wId.toNat * 10 + dId.toNat) * 2 ^ 32 + (2 ^ 32 - oId.toNat) := by
  have hmax : ((2 : UInt64) ^ 32).toNat = 2 ^ 32 := by decide
  have hle : oId ≤ (2 : UInt64) ^ 32 := by
    rw [UInt64.le_iff_toNat_le, hmax]
    exact ho
  rw [neworderKey, UInt64.toNat_add, UInt64.toNat_mul, distKey_toNat hw hd,
    UInt64.toNat_sub_of_le _ _ hle, hmax]
  omega

section

variable {numWh : Nat} {x y : Order}

theorem eq_of_toNat (hw : x.wId.toNat = y.wId.toNat) (hd : x.dId.toNat = y.dId.toNat)
    (ho : x.oId.toNat = y.oId.toNat) : x = y := by
  cases x
  cases y
  rw [Order.mk.injEq]
  exact ⟨UInt64.toNat_inj.mp hw, UInt64.toNat_inj.mp hd, UInt64.toNat_inj.mp ho⟩

theorem Placed.orderlineKey_toNat (h : Placed numWh x) (hsize : numWh < 3300) :
    x.orderlineKey.toNat = (x.wId.toNat * 10 + x.dId.toNat) * 3000 + x.oId.toNat :=
  OrderKeys.orderlineKey_toNat (by have := h.warehouse; omega) h.district.2 h.id.2

theorem Placed.neworderKey_toNat (h : Placed numWh x) (hsize : numWh < 3300) :
    x.neworderKey.toNat =
      (x.wId.toNat * 10 + x.dId.toNat) * 2 ^ 32 + (2 ^ 32 - x.oId.toNat) :=
  OrderKeys.neworderKey_toNat (by have := h.warehouse; omega) h.district.2 h.id.2

/-- Orders that are placed so have keys of their own. -/
theorem Placed.eq_of_orderlineKey (h : Placed numWh x) (h' : Placed numWh y) (hsize : numWh < 3300)
    (heq : x.orderlineKey = y.orderlineKey) : x = y := by
  have hkeys := congrArg UInt64.toNat heq
  rw [h.orderlineKey_toNat hsize, h'.orderlineKey_toNat hsize] at hkeys
  obtain ⟨hw, hd, ho, hroom⟩ := h
  obtain ⟨hw', hd', ho', hroom'⟩ := h'
  have hsame : x.wId.toNat * 10 + x.dId.toNat = y.wId.toNat * 10 + y.dId.toNat := by omega
  exact eq_of_toNat (by omega) (by omega) (by omega)

theorem Placed.eq_of_neworderKey (h : Placed numWh x) (h' : Placed numWh y) (hsize : numWh < 3300)
    (heq : x.neworderKey = y.neworderKey) : x = y := by
  have hkeys := congrArg UInt64.toNat heq
  rw [h.neworderKey_toNat hsize, h'.neworderKey_toNat hsize] at hkeys
  obtain ⟨hw, hd, ho, -⟩ := h
  obtain ⟨hw', hd', ho', -⟩ := h'
  have hsame : x.wId.toNat * 10 + x.dId.toNat = y.wId.toNat * 10 + y.dId.toNat := by omega
  exact eq_of_toNat (by omega) (by omega) (by omega)

end

/-! ### New orders in the last district -/

theorem mem_loadedOrders {numWh : Nat} {w d o : Nat} (hw : 1 ≤ w ∧ w ≤ numWh)
    (hd : 1 ≤ d ∧ d ≤ 10) (ho : 1 ≤ o ∧ o ≤ 3000) :
    (⟨.ofNat w, .ofNat d, .ofNat o⟩ : Order) ∈ loadedOrders numWh := by
  refine List.mem_flatMap.mpr ⟨w, List.mem_range'_1.mpr (by omega), ?_⟩
  refine List.mem_flatMap.mpr ⟨d, List.mem_range'_1.mpr (by omega), ?_⟩
  exact List.mem_map.mpr ⟨o, List.mem_range'_1.mpr (by omega), rfl⟩

theorem toNat_ofNat_le {n : Nat} (h : n ≤ 3300) : (UInt64.ofNat n).toNat = n := by
  rw [UInt64.toNat_ofNat']
  omega

theorem placed_of_loaded {numWh : Nat} (hsize : numWh < 3300) {x : Order}
    (h : x ∈ loadedOrders numWh) : Placed numWh x ∧ x.oId.toNat ≤ 3000 := by
  obtain ⟨w, hw, h⟩ := List.mem_flatMap.mp h
  obtain ⟨d, hd, h⟩ := List.mem_flatMap.mp h
  obtain ⟨o, ho, rfl⟩ := List.mem_map.mp h
  rw [List.mem_range'_1] at hw hd ho
  have hw' := toNat_ofNat_le (n := w) (by omega)
  have hd' := toNat_ofNat_le (n := d) (by omega)
  have ho' := toNat_ofNat_le (n := o) (by omega)
  constructor
  · constructor <;> simp only [hw', hd', ho'] <;> omega
  · simp only [ho']
    omega

/-- The key of an entry, by its table; a loaded row may be under another key than its order's. -/
def Entry.Keyed (e : Entry) : Prop :=
  match e.table with
  | .order => e.key = e.order.primaryKey
  | .newOrder => e.key = e.order.neworderKey ∨
      e.key = e.order.primaryKey ∧ e.order.oId.toNat ≤ 3000
  | .orderLine => e.key = e.order.orderlineKey ∨ e.key = distKey e.order.dId e.order.wId
  | _ => True

/-- The database after `k` new orders, all of them in the last district. -/
structure Inv (numWh k : Nat) (s : State) : Prop where
  next : ∀ w d, w.toNat = numWh → d.toNat = 10 → 3001 ≤ (s.next w d).toNat ∧
    (s.next w d).toNat ≤ 3001 + k
  placed : ∀ x ∈ s.orders, Placed numWh x
  entries : ∀ e ∈ s.entries, e.order ∈ s.orders ∧ e.Keyed

theorem inv_load {numWh : Nat} (hsize : numWh < 3300) (olCnt : Order → Nat) :
    Inv numWh 0 (load numWh olCnt) where
  next _ _ _ _ := show 3001 ≤ (3001 : UInt64).toNat ∧ (3001 : UInt64).toNat ≤ 3001 by decide
  placed x hx := (placed_of_loaded hsize hx).1
  entries e he := by
    obtain ⟨x, hx, he⟩ := List.mem_flatMap.mp he
    have hids := (placed_of_loaded hsize hx).2
    rcases List.mem_cons.mp he with rfl | he
    · exact ⟨hx, rfl⟩
    · rcases List.mem_append.mp he with he | he
      · rw [List.eq_of_mem_replicate he]
        exact ⟨hx, Or.inr rfl⟩
      · split at he
        · rw [List.mem_singleton.mp he]
          exact ⟨hx, Or.inr ⟨rfl, hids⟩⟩
        · cases he

theorem Inv.newOrder {numWh k : Nat} {s : State} (h : Inv numWh k s) (hsize : numWh < 3300)
    (hpos : 1 ≤ numWh) (hk : k + 3002 ≤ 2 ^ 32) {query : NewOrderQuery} (hlast : Last numWh query) :
    Inv numWh (k + 1) (newOrder s query) := by
  obtain ⟨hge, hle⟩ := h.next query.wId query.dId hlast.1 hlast.2
  have hid : (s.next query.wId query.dId + 1).toNat = (s.next query.wId query.dId).toNat + 1 := by
    rw [UInt64.toNat_add, show (1 : UInt64).toNat = 1 from rfl]
    omega
  refine ⟨fun w d hw hd => ?_, fun x hx => ?_, fun e he => ?_⟩
  · simp only [OrderKeys.newOrder]
    split
    · rw [hid]
      omega
    · have hold := h.next w d hw hd
      omega
  · rcases List.mem_cons.mp hx with rfl | hx
    · have hw := hlast.1
      have hd := hlast.2
      refine ⟨?_, ?_, ?_, Or.inr hlast⟩
      · simp only [hw]
        omega
      · simp only [hd]
        omega
      · simp only [hid]
        omega
    · exact h.placed x hx
  · simp only [OrderKeys.newOrder, List.mem_cons, List.mem_append, List.mem_map] at he
    rcases he with rfl | rfl | ⟨-, -, rfl⟩ | he
    · exact ⟨List.mem_cons_self .., rfl⟩
    · exact ⟨List.mem_cons_self .., Or.inl rfl⟩
    · exact ⟨List.mem_cons_self .., Or.inl rfl⟩
    · obtain ⟨hmem, hkeyed⟩ := h.entries e he
      exact ⟨List.mem_cons_of_mem _ hmem, hkeyed⟩

theorem Inv.unique {numWh k : Nat} {s : State} (h : Inv numWh k s) (hsize : numWh < 3300) :
    Unique s := by
  refine ⟨fun x hx y hy hne => ⟨fun heq => hne ?_, fun heq => hne ?_, fun heq => hne ?_⟩,
    fun x hx e he hfound => ?_⟩
  · exact (h.placed x hx).eq_of_orderlineKey (h.placed y hy) hsize heq
  · exact (h.placed x hx).eq_of_neworderKey (h.placed y hy) hsize heq
  · exact (h.placed x hx).eq_of_orderlineKey (h.placed y hy) hsize heq
  · obtain ⟨hmem, hkeyed⟩ := h.entries e he
    have hplaced := h.placed x hx
    have hown := h.placed e.order hmem
    rcases hfound with ⟨htable, hkey⟩ | ⟨htable, hkey⟩ | ⟨htable, hkey⟩
    · rw [Entry.Keyed, htable] at hkeyed
      exact hown.eq_of_orderlineKey hplaced hsize (hkeyed.symm.trans hkey)
    · rw [Entry.Keyed, htable] at hkeyed
      rcases hkeyed with hkeyed | ⟨hkeyed, hid⟩
      · exact hown.eq_of_neworderKey hplaced hsize (hkeyed.symm.trans hkey)
      · -- a loaded row is under a number below all keys of `neworderKey`
        have hnat : e.order.orderlineKey.toNat = x.neworderKey.toNat :=
          congrArg UInt64.toNat (hkeyed.symm.trans hkey)
        rw [hown.orderlineKey_toNat hsize, hplaced.neworderKey_toNat hsize] at hnat
        obtain ⟨hw, hd, -, -⟩ := hown
        obtain ⟨hw', hd', -, -⟩ := hplaced
        omega
    · rw [Entry.Keyed, htable] at hkeyed
      rcases hkeyed with hkeyed | hkeyed
      · exact hown.eq_of_orderlineKey hplaced hsize (hkeyed.symm.trans hkey)
      · -- loaded lines are under the number of their district, below all order keys
        have hnat := congrArg UInt64.toNat (hkeyed.symm.trans hkey)
        obtain ⟨hw, hd, -, -⟩ := hown
        rw [hplaced.orderlineKey_toNat hsize, distKey_toNat (by omega) hd.2] at hnat
        obtain ⟨hw', hd', ho', -⟩ := hplaced
        omega

theorem inv_run {numWh : Nat} (hsize : numWh < 3300) (hpos : 1 ≤ numWh) (olCnt : Order → Nat)
    {queries : List NewOrderQuery} (hcount : queries.length + 3001 ≤ 2 ^ 32)
    (hlast : ∀ query ∈ queries, Last numWh query) :
    Inv numWh queries.length (run numWh olCnt queries) := by
  induction queries using List.reverseRecOn with
  | nil => exact inv_load hsize olCnt
  | append_singleton queries query ih =>
      rw [List.length_append, List.length_singleton] at hcount ⊢
      rw [run, List.foldl_append]
      have hbefore := ih (by omega) fun q hq => hlast q (List.mem_append_left _ hq)
      exact hbefore.newOrder hsize hpos (by omega)
        (hlast query (List.mem_append_right _ (List.mem_singleton_self _)))

/-! ### New orders elsewhere -/

theorem run_snoc (numWh : Nat) (olCnt : Order → Nat) (queries : List NewOrderQuery)
    (query : NewOrderQuery) :
    run numWh olCnt (queries ++ [query]) = newOrder (run numWh olCnt queries) query := by
  rw [run, List.foldl_append]
  rfl

/-- The first new order of a district has the id 3002. -/
theorem first_id (numWh : Nat) (olCnt : Order → Nat) (queries : List NewOrderQuery) :
    (∀ x ∈ loadedOrders numWh, x ∈ (run numWh olCnt queries).orders) ∧
      ∀ w d, (run numWh olCnt queries).next w d = 3001 ∧
          (∀ query ∈ queries, ¬ (query.wId = w ∧ query.dId = d)) ∨
        ⟨w, d, 3002⟩ ∈ (run numWh olCnt queries).orders := by
  induction queries using List.reverseRecOn with
  | nil => exact ⟨fun x hx => hx, fun w d => Or.inl ⟨rfl, by simp⟩⟩
  | append_singleton queries query ih =>
      obtain ⟨hloaded, hnext⟩ := ih
      rw [run_snoc]
      refine ⟨fun x hx => List.mem_cons_of_mem _ (hloaded x hx), fun w d => ?_⟩
      rcases hnext w d with ⟨hfirst, hnone⟩ | hmem
      · by_cases hhere : query.wId = w ∧ query.dId = d
        · obtain ⟨rfl, rfl⟩ := hhere
          right
          simp only [newOrder, hfirst]
          exact List.mem_cons_self ..
        · left
          constructor
          · simp only [newOrder]
            rw [if_neg fun h => hhere ⟨h.1.symm, h.2.symm⟩]
            exact hfirst
          · intro q hq
            rcases List.mem_append.mp hq with hq | hq
            · exact hnone q hq
            · rw [List.mem_singleton.mp hq]
              exact hhere
      · exact Or.inr (List.mem_cons_of_mem _ hmem)

/-- The order with the id 2 in the next district has the key of that one. -/
theorem not_unique_of_elsewhere {numWh : Nat} (hsize : numWh < 3300) (olCnt : Order → Nat)
    {queries : List NewOrderQuery} {query : NewOrderQuery} (hmem : query ∈ queries)
    (hvalid : Valid numWh query) (hlast : ¬ Last numWh query) :
    ¬ Unique (run numWh olCnt queries) := by
  obtain ⟨hw, hw', hd, hd'⟩ := hvalid
  obtain ⟨hloaded, hfirst⟩ := first_id numWh olCnt queries
  have hnew : (⟨query.wId, query.dId, 3002⟩ : Order) ∈ (run numWh olCnt queries).orders := by
    rcases hfirst query.wId query.dId with ⟨-, hnone⟩ | hnew
    · exact absurd ⟨rfl, rfl⟩ (hnone query hmem)
    · exact hnew
  obtain ⟨w, d, hw₂, hd₂, hnext⟩ : ∃ w d, (1 ≤ w ∧ w ≤ numWh) ∧ (1 ≤ d ∧ d ≤ 10) ∧
      w * 10 + d = query.wId.toNat * 10 + query.dId.toNat + 1 := by
    by_cases hten : query.dId.toNat = 10
    · have hne : query.wId.toNat ≠ numWh := fun heq => hlast ⟨heq, hten⟩
      exact ⟨query.wId.toNat + 1, 1, by omega, by omega, by omega⟩
    · exact ⟨query.wId.toNat, query.dId.toNat + 1, by omega, by omega, by omega⟩
  have hold := hloaded _ (mem_loadedOrders hw₂ hd₂ (show 1 ≤ 2 ∧ 2 ≤ 3000 by decide))
  intro hunique
  refine (hunique.1 _ hnew _ hold fun heq => ?_).1 (UInt64.toNat_inj.mp ?_)
  · have hids : (3002 : UInt64) = .ofNat 2 := congrArg Order.oId heq
    exact absurd hids (by decide)
  · have hkey := @orderlineKey_toNat query.wId query.dId 3002 (by omega) hd' (by decide)
    have hkey₂ := @orderlineKey_toNat (.ofNat w) (.ofNat d) (.ofNat 2)
      (by rw [toNat_ofNat_le (by omega)]; omega) (by rw [toNat_ofNat_le (by omega)]; omega)
      (by decide)
    rw [toNat_ofNat_le (by omega), toNat_ofNat_le (by omega), toNat_ofNat_le (by omega)] at hkey₂
    rw [Order.primaryKey, Order.primaryKey, orderPrimaryKey, orderPrimaryKey, hkey, hkey₂, hnext,
      show (3002 : UInt64).toNat = 3002 from rfl]
    omega

/-- After new orders for districts of the database the keys of orders are unique exactly if all of
    them were in the last district of the last warehouse. -/
theorem order_keys_unique_iff {numWh : Nat} (hpos : 1 ≤ numWh) (hsize : numWh < 3300)
    (olCnt : Order → Nat) {queries : List NewOrderQuery}
    (hcount : queries.length + 3001 ≤ 2 ^ 32) (hvalid : ∀ query ∈ queries, Valid numWh query) :
    Unique (run numWh olCnt queries) ↔ ∀ query ∈ queries, Last numWh query := by
  constructor
  · intro hunique query hmem
    by_contra hlast
    exact not_unique_of_elsewhere hsize olCnt hmem (hvalid query hmem) hlast hunique
  · intro hlast
    exact (inv_run hsize hpos olCnt hcount hlast).unique hsize

/-- A new order of one item. -/
def oneItem (wId dId : UInt64) : NewOrderQuery := ⟨wId, dId, 7, [⟨1, wId, 5⟩], false, 2013⟩

theorem order_keys_unique_iff_last :
    Unique (run 16 (fun _ => 5) [oneItem 16 10, oneItem 16 10]) := by
  have hquery : ∀ query ∈ [oneItem 16 10, oneItem 16 10], query = oneItem 16 10 := by
    intro query hquery
    simpa using hquery
  refine (order_keys_unique_iff (by decide) (by decide) _ (by decide) fun query hmem => ?_).mpr
    fun query hmem => ?_
  · rw [hquery query hmem]
    exact ⟨by decide, by decide, by decide, by decide⟩
  · rw [hquery query hmem]
    exact ⟨by decide, by decide⟩

/-- The first new order in the first district gets the key of an order of the second. -/
theorem first_new_order_collides :
    orderPrimaryKey 1 1 3002 = orderPrimaryKey 1 2 2 ∧
      ¬ Unique (run 16 (fun _ => 5) [oneItem 1 1]) := by
  refine ⟨by decide, not_unique_of_elsewhere (by decide) _ (List.mem_singleton_self _) ?_ ?_⟩
  · exact ⟨by decide, by decide, by decide, by decide⟩
  · intro hlast
    exact absurd hlast.1 (by decide)

end VeriTxn.OrderKeys
