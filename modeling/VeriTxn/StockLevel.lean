import VeriTxn.OrderKeys
import Mathlib.Data.List.Dedup

/-!
# Counting the items of a stock-level

`stock_level_getStockCount` over the order lines and the stock that the loader and new orders left,
under OCC and with B+-trees.  The loop over the order lines compares a variable with the warehouse
that nothing sets, and leaves at a key that it reads from a local copy, whose key nothing sets
either.  Behind `get_row` and `index_next` are the pages of the rows: the row of a new order has no
page until its leaf is loaded again.
-/

namespace VeriTxn.StockLevel

open Tpcc

/-- A row of ORDER-LINE, with its primary key, under which it is in the index. -/
structure Line where
  wId : UInt64
  dId : UInt64
  oId : UInt64
  iId : UInt64
  key : UInt64
deriving DecidableEq

/-- A leaf in the cache: the line at the head of each slot, and what `load_next` gives. -/
structure Leaf where
  numKeys : Nat
  data : Nat → Option Nat
  next : Option Nat

/-- `from_page` and `offset` of the lines, and the leaf that is at an address.  `make_node` sets the
    two for the rows that it copies; `get_new_row` and `index_insert` leave what `malloc` gave. -/
structure Pages where
  fromPage : Nat → Nat
  offset : Nat → Nat
  leaf : Nat → Option Leaf

/-- `txn_man::index_next("ORDER-LINE_IDX", last)`, which moves `last` itself on.  `none` when there
    is no leaf to read, or the item is NULL, which is asked for its table. -/
def Pages.indexNext (pages : Pages) (last : Nat) : Option (Pages × Nat) := do
  let leaf ← pages.leaf (pages.fromPage last)
  let offset := pages.offset last + 1
  if offset ≥ leaf.numKeys then
    let next ← leaf.next
    let leaf ← pages.leaf next
    let item ← leaf.data 0
    pure ({ pages with
      fromPage := Function.update pages.fromPage last next
      offset := Function.update pages.offset last 0 }, item)
  else
    let item ← leaf.data offset
    pure ({ pages with offset := Function.update pages.offset last offset }, item)

/-- What is read and never set: `ol_supply_w_id` in pass `i` of the loop over the order lines, and
    `_primary_key` of the local copy that `get_row` makes in this pass. -/
structure Unset where
  supply : Nat → UInt64
  copyKey : Nat → UInt64

/-- `txn_man::get_row` in pass `i`, from `row_cnt` on, for the key of the row that it returns, which
    may be NULL.  `none` is a crash: behind the end of `accesses`, or at `from_page->version`. -/
def Pages.getRow (pages : Pages) (unset : Unset) (aborts : Nat → Bool) (rowCnt i cur : Nat) :
    Option (Option UInt64) :=
  if rowCnt + i ≥ maxRowPerTxn then none
  else if aborts i then some none
  else (pages.leaf (pages.fromPage cur)).map fun _ => some (unset.copyKey i)

/-- `D_NEXT_O_ID` by warehouse and district, `S_QUANTITY` by the key of the stock row, and the order
    lines, the newest first. -/
structure Db where
  next : UInt64 → UInt64 → UInt64
  stock : UInt64 → Option UInt64
  lines : List Line

namespace Db

/-- `index_read("ORDER-LINE_IDX", key)`; a line is named by its position. -/
def indexRead (db : Db) (key : UInt64) : Option Nat := db.lines.findIdx? (·.key = key)

/-! ### New orders -/

/-- What a new order makes of `S_QUANTITY`. -/
def takeQuantity (quantity olQuantity : UInt64) : UInt64 :=
  if quantity > olQuantity + 10 then quantity - olQuantity else quantity - olQuantity + 91

/-- The stock after the items of a new order. -/
def takeStock (stock : UInt64 → Option UInt64) (items : List OrderItem) : UInt64 → Option UInt64 :=
  items.foldl (fun stock item => Function.update stock (stockKey item.olIId item.olSupplyWId)
    ((stock (stockKey item.olIId item.olSupplyWId)).map (takeQuantity · item.olQuantity))) stock

def newLine (query : NewOrderQuery) (oId : UInt64) (item : OrderItem) : Line :=
  ⟨query.wId, query.dId, oId, item.olIId, orderlineKey query.wId query.dId oId⟩

/-- A run of `run_new_order`: one that commits, or one that aborts after so many order lines, which
    stay in the index. -/
def newOrder (db : Db) (query : NewOrderQuery) (aborted : Option Nat) : Db :=
  let oId := db.next query.wId query.dId + 1
  match aborted with
  | none =>
      { next := fun w d => if w = query.wId ∧ d = query.dId then oId else db.next w d
        stock := takeStock db.stock query.items
        lines := (query.items.map (newLine query oId)).reverse ++ db.lines }
  | some n =>
      { db with lines := ((query.items.take n).map (newLine query oId)).reverse ++ db.lines }

/-- The state after some new orders. -/
def newOrders (db : Db) (runs : List (NewOrderQuery × Option Nat)) : Db :=
  runs.foldl (fun db run => db.newOrder run.1 run.2) db

/-! ### The count -/

/-- The first loop from pass `301 - passes` on, with `list` collected so far; `none` is a crash.
    An item that `index_next` returns is not NULL. -/
def collect (db : Db) (unset : Unset) (aborts : Nat → Bool) (rowCnt : Nat) (sWId key : UInt64) :
    (passes : Nat) → Pages → (cur : Nat) → (list : List UInt64) → Option (List UInt64)
  | 0, _, _, list => some list
  | passes + 1, pages, cur, list =>
      match pages.getRow unset aborts rowCnt (301 - (passes + 1)) cur with
      | none => none
      -- the key is asked of the row before the test for NULL
      | some none => none
      | some (some primaryKey) =>
          if primaryKey > key then some list
          else if unset.supply (301 - (passes + 1)) ≠ sWId then
            db.collect unset aborts rowCnt sWId key passes pages cur list
          else
            match db.lines[cur]? with
            | none => none
            | some line =>
                if list.length < 301 then
                  match pages.indexNext cur with
                  | none => none
                  | some (pages, cur) =>
                      db.collect unset aborts rowCnt sWId key passes pages cur (list ++ [line.iId])
                else none

/-- The last loop; `none` when a stock row is missing. -/
def countStock (db : Db) (sWId threshold : UInt64) :
    (distinct list : List UInt64) → (result : Nat) → Option Nat
  | _, [], result => some result
  | distinct, iId :: list, result =>
      if iId ∈ distinct then db.countStock sWId threshold distinct list result
      else
        match db.stock (stockKey iId sWId) with
        | none => none
        | some quantity =>
            db.countStock sWId threshold (distinct ++ [iId]) list
              (if quantity < threshold then result + 1 else result)

/-- How `stock_level_getStockCount` comes back. -/
inductive Outcome where
  | crash
  | returnsFalse
  | count (n : Nat)
deriving DecidableEq

/-- `tpcc_txn_man::stock_level_getStockCount`. -/
def getStockCount (db : Db) (pages : Pages) (unset : Unset) (aborts : Nat → Bool) (rowCnt : Nat)
    (olWId olDId olOId sWId threshold : UInt64) : Outcome :=
  let key := orderlineKey olWId olDId (olOId - 1)
  match db.indexRead key with
  | none => .returnsFalse
  | some cur =>
      match db.collect unset aborts rowCnt sWId key 301 pages cur [] with
      | none => .crash
      | some list =>
          if list.length ≤ 300 then
            match db.countStock sWId threshold [] list 0 with
            | none => .returnsFalse
            | some n => .count n
          else .crash

/-- The item is below the threshold in the warehouse. -/
def Low (db : Db) (wId threshold iId : UInt64) : Prop :=
  ∃ quantity, db.stock (stockKey iId wId) = some quantity ∧ quantity < threshold

instance (db : Db) (wId threshold iId : UInt64) : Decidable (db.Low wId threshold iId) :=
  match h : db.stock (stockKey iId wId) with
  | none => .isFalse fun ⟨_, hq, _⟩ => by rw [h] at hq; cases hq
  | some quantity =>
      if hlt : quantity < threshold then .isTrue ⟨quantity, h, hlt⟩
      else .isFalse fun ⟨_, hq, hlow⟩ => hlt (by rw [h] at hq; cases hq; exact hlow)

/-- The items below the threshold in the lines of the twenty orders before `oId`. -/
def lowItems (db : Db) (wId dId oId threshold : UInt64) : List UInt64 :=
  (((db.lines.filter fun line => line.wId = wId ∧ line.dId = dId ∧
    oId.toNat ≤ line.oId.toNat + 20 ∧ line.oId.toNat < oId.toNat).map Line.iId).dedup).filter
      fun iId => db.Low wId threshold iId

/-- The call returns, and a count is the number of these items. -/
def CountsLow (db : Db) (pages : Pages) (unset : Unset) (aborts : Nat → Bool) (rowCnt : Nat)
    (wId dId oId threshold : UInt64) : Prop :=
  db.getStockCount pages unset aborts rowCnt wId dId oId wId threshold ≠ .crash ∧
    ∀ n, db.getStockCount pages unset aborts rowCnt wId dId oId wId threshold = .count n →
      n = (db.lowItems wId dId oId threshold).length

/-! ### The end of the scan -/

/-- Only a key that happens to be in a local copy ends the loop over the order lines: it does not
    run out of passes before it runs out of `accesses`. -/
theorem exists_copyKey_of_collect {db : Db} {unset : Unset} {aborts : Nat → Bool} {rowCnt : Nat}
    {sWId key : UInt64} {passes : Nat} (hroom : 301 ≤ maxRowPerTxn + passes) {pages : Pages}
    {cur : Nat} {list res : List UInt64}
    (h : db.collect unset aborts rowCnt sWId key passes pages cur list = some res) :
    ∃ i, rowCnt + i < maxRowPerTxn ∧ key < unset.copyKey i := by
  induction passes generalizing pages cur list with
  | zero => exact absurd hroom (Nat.not_le.mpr (by decide : maxRowPerTxn + 0 < 301))
  | succ passes ih =>
      rw [collect, Pages.getRow] at h
      by_cases hfull : rowCnt + (301 - (passes + 1)) ≥ maxRowPerTxn
      · rw [if_pos hfull] at h
        cases h
      have hroom' : 301 ≤ maxRowPerTxn + passes := by omega
      rw [if_neg hfull] at h
      cases haborts : aborts (301 - (passes + 1)) with
      | true =>
          rw [haborts] at h
          cases h
      | false =>
          rw [haborts, if_neg Bool.false_ne_true] at h
          cases hleaf : pages.leaf (pages.fromPage cur) with
          | none =>
              rw [hleaf] at h
              cases h
          | some leaf =>
              simp only [hleaf, Option.map_some] at h
              split at h
              · next hlt => exact ⟨_, Nat.lt_of_not_le hfull, hlt⟩
              split at h
              · exact ih hroom' h
              split at h
              · cases h
              split at h
              · split at h
                · cases h
                · exact ih hroom' h
              · cases h

/-- **The count is right if and only if there is nothing to count from**: with a line under the key
    of the order before `oId`, nothing that the code sets ends the loop. -/
theorem counts_low_iff (db : Db) (pages : Pages) (aborts : Nat → Bool) (rowCnt : Nat)
    (wId dId oId threshold : UInt64) :
    (∀ unset, db.CountsLow pages unset aborts rowCnt wId dId oId threshold) ↔
      db.indexRead (orderlineKey wId dId (oId - 1)) = none := by
  constructor
  · intro hcounts
    by_contra hread
    obtain ⟨cur, hread⟩ := Option.ne_none_iff_exists'.mp hread
    obtain ⟨hreturns, -⟩ := hcounts ⟨fun _ => wId, fun _ => 0⟩
    apply hreturns
    rw [getStockCount, hread]
    dsimp only
    cases hcollect : db.collect ⟨fun _ => wId, fun _ => 0⟩ aborts rowCnt wId
        (orderlineKey wId dId (oId - 1)) 301 pages cur [] with
    | none => rfl
    | some list =>
        obtain ⟨_, -, hlt⟩ := exists_copyKey_of_collect (Nat.le_add_left ..) hcollect
        exact absurd hlt (UInt64.not_lt.mpr (UInt64.zero_le))
  · intro hread unset
    have hfalse : db.getStockCount pages unset aborts rowCnt wId dId oId wId threshold =
        .returnsFalse := by
      rw [getStockCount, hread]
    rw [CountsLow, hfalse]
    exact ⟨by decide, fun n hn => by cases hn⟩

/-! ### Two orders of two items -/

def twoItems : NewOrderQuery := ⟨1, 1, 1, [⟨1, 1, 1⟩, ⟨2, 1, 1⟩], false, 2013⟩

/-- Empty order tables, and 15 pieces of every item. -/
def stocked : Db := ⟨fun _ _ => 3001, fun _ => some 15, []⟩

/-- The orders 3002 and 3003 are entered. -/
def twoOrders : Db := stocked.newOrders [(twoItems, none), (twoItems, none)]

/-- No leaf is where the new rows point to. -/
def freshRows : Pages := ⟨fun _ => 0, fun _ => 0, fun _ => none⟩

/-- The leaf was loaded again: the lines 2 and 3 are in its first slot, 0 and 1 in the second. -/
def reloaded : Pages where
  fromPage _ := 1
  offset line := if line < 2 then 1 else 0
  leaf page := if page = 1 then some ⟨2, fun slot => some (if slot = 0 then 2 else 0), none⟩ else none

/-- The variable holds the warehouse, and the copies the keys of their rows. -/
def asMeant : Unset :=
  ⟨fun _ => 1, fun i => if i = 0 then orderlineKey 1 1 3002 else orderlineKey 1 1 3003⟩

/-- The rows of new orders are not read at all; those of a leaf loaded again are, and of the two
    items of order 3002 one is counted. -/
theorem one_item_counted :
    twoOrders.getStockCount freshRows asMeant (fun _ => false) 0 1 1 3003 1 20 = .crash ∧
      twoOrders.getStockCount reloaded asMeant (fun _ => false) 0 1 1 3003 1 20 = .count 1 ∧
      (twoOrders.lowItems 1 1 3003 20).length = 2 ∧
      ¬ ∀ (db : Db) (runs : List (NewOrderQuery × Option Nat)), db.lines = [] →
        ∀ (pages : Pages) (unset : Unset) (aborts : Nat → Bool) (rowCnt : Nat)
          (wId dId oId threshold : UInt64),
          (db.newOrders runs).CountsLow pages unset aborts rowCnt wId dId oId threshold := by
  have hcrash : twoOrders.getStockCount freshRows asMeant (fun _ => false) 0 1 1 3003 1 20 =
      .crash := by
    decide +kernel
  have hcount : twoOrders.getStockCount reloaded asMeant (fun _ => false) 0 1 1 3003 1 20 =
      .count 1 := by
    decide +kernel
  have hlow : (twoOrders.lowItems 1 1 3003 20).length = 2 := by decide +kernel
  refine ⟨hcrash, hcount, hlow, fun hall => ?_⟩
  obtain ⟨-, hright⟩ := hall stocked [(twoItems, none), (twoItems, none)] rfl reloaded asMeant
    (fun _ => false) 0 1 1 3003 20
  exact absurd ((hright 1 hcount).trans hlow) (by decide)

end Db

end VeriTxn.StockLevel
