import VeriTxn.Tpcc
import VeriTxn.Transition

/-!
# TPC-C new-order

`tpcc_txn_man::run_new_order` with `IDX_BTREE` and `FULL_TPCC`, among others that run at
the same time.  A body is the tree of its calls; what the calls return is up to the
rest of the system: an index may not have the key, `get_row` may refuse the row,
`index_insert` may meet a latch that is taken, and `finish` may fail to validate.

`insert_row` puts the new row into the index at once and drops the result of
`index_insert`.  No call takes a row out again.
-/

namespace VeriTxn.Tpcc

open Bytes Transition

/-- `Item_no`. -/
structure OrderItem where
  olIId : UInt64
  olSupplyWId : UInt64
  olQuantity : UInt64

/-- The fields of `tpcc_query` that a new-order reads; `ol_cnt` is the number of items. -/
structure NewOrderQuery where
  wId : UInt64
  dId : UInt64
  cId : UInt64
  items : List OrderItem
  remote : Bool
  oEntryD : UInt64

/-- A row from `get_new_row` with its key and the columns that are set. -/
structure NewRow where
  table : Table
  primaryKey : UInt64
  values : List (Nat × UInt64)
deriving DecidableEq

/-- The calls of a transaction body.  `index_read` and `get_row` go on with NULL as
    `none`; the row of `get_row` comes with its contents. -/
inductive Body where
  | indexRead (index : Table) (key : UInt64) (k : Option Nat → Body)
  | getRow (row : RowRef) (type : AccessT) (k : Option (List Byte) → Body)
  | setRow (i : Nat) (data : List Byte) (k : Body)
  | insertRow (row : NewRow) (k : Body)
  | finish (rc : RC)
  | crash

/-- `index_read`, with `return finish(Abort)` on NULL. -/
def Body.readOrAbort (index : Table) (key : UInt64) (k : Nat → Body) : Body :=
  .indexRead index key fun item =>
    match item with
    | none => .finish .abort
    | some id => k id

/-- `get_row`, with `return finish(Abort)` on NULL. -/
def Body.getOrAbort (row : RowRef) (type : AccessT) (k : List Byte → Body) : Body :=
  .getRow row type fun data =>
    match data with
    | none => .finish .abort
    | some data => k data

/-! ### Rows -/

def orderRow (query : NewOrderQuery) (oId : UInt64) : NewRow where
  table := .order
  primaryKey := orderPrimaryKey query.wId query.dId oId
  values := [(0, oId), (1, query.cId), (2, query.dId), (3, query.wId), (4, query.oEntryD),
    (6, .ofNat query.items.length), (7, if query.remote then 0 else 1)]

def newOrderRow (query : NewOrderQuery) (oId : UInt64) : NewRow where
  table := .newOrder
  primaryKey := neworderKey oId query.dId query.wId
  values := [(0, oId), (1, query.dId), (2, query.wId)]

/-- The row of an order line; `olNumber` are the eight bytes copied from the four of
    `ol_number`. -/
def orderLineRow (query : NewOrderQuery) (oId olNumber discount price : UInt64)
    (item : OrderItem) : NewRow where
  table := .orderLine
  primaryKey := orderlineKey query.wId query.dId oId
  values := [(0, oId), (1, query.dId), (2, query.wId), (3, olNumber), (4, item.olIId),
    (5, item.olSupplyWId), (7, item.olQuantity), (8, item.olQuantity * price * 3 * (1 - discount))]

/-- The columns of the stock row that an order line changes. -/
def takeStock (query : NewOrderQuery) (item : OrderItem) (data : List Byte) : List Byte :=
  let quantity := getValue .stock sQuantity data
  let data := setValue .stock sYtd (getValue .stock sYtd data + item.olQuantity) data
  let data := setValue .stock sOrderCnt (getValue .stock sOrderCnt data + 1) data
  let data := if query.remote then
      setValue .stock sRemoteCnt (getValue .stock sRemoteCnt data + 1) data
    else data
  setValue .stock sQuantity
    (if quantity > item.olQuantity + 10 then quantity - item.olQuantity
      else quantity - item.olQuantity + 91) data

/-! ### The body -/

/-- The loop over the order lines, from number `n` on.  The result of the stock's
    `index_read` is not checked: without an item the body goes on with a wild pointer. -/
def orderLines (query : NewOrderQuery) (olNumber : Nat → UInt64) (oId discount : UInt64) :
    Nat → List OrderItem → Body
  | _, [] => .finish .rcok
  | n, item :: items =>
      .readOrAbort .item item.olIId fun i =>
      .getOrAbort ⟨.item, i⟩ .rd fun itemLocal =>
      .indexRead .stock (stockKey item.olIId item.olSupplyWId) fun stockItem =>
      match stockItem with
      | none => .crash
      | some st =>
          .getOrAbort ⟨.stock, st⟩ .wr fun stockLocal =>
          .setRow (4 + 2 * n) (takeStock query item stockLocal) <|
          .insertRow (orderLineRow query oId (olNumber n) discount
            (getValue .item iPrice itemLocal) item) <|
          orderLines query olNumber oId discount (n + 1) items

/-- `tpcc_txn_man::run_new_order`. -/
def runNewOrder (query : NewOrderQuery) (olNumber : Nat → UInt64) : Body :=
  .readOrAbort .warehouse query.wId fun wh =>
  .getOrAbort ⟨.warehouse, wh⟩ .rd fun _ =>
  .readOrAbort .customer (custKey query.cId query.dId query.wId) fun cust =>
  .getOrAbort ⟨.customer, cust⟩ .rd fun custLocal =>
  .readOrAbort .district (distKey query.dId query.wId) fun dist =>
  .getOrAbort ⟨.district, dist⟩ .wr fun distLocal =>
  let oId := getValue .district dNextOId distLocal + 1
  .setRow 2 (setValue .district dNextOId oId distLocal) <|
  .insertRow (orderRow query oId) <|
  .insertRow (newOrderRow query oId) <|
  orderLines query olNumber oId (getValue .customer cDiscount custLocal) 0 query.items

/-! ### The system -/

/-- What a call returns.  `inserted false` is an `index_insert` that met a latch and
    returned Abort; `finished false` a validation that failed. -/
inductive Answer where
  | item (id : Option Nat)
  | row (data : Option (List Byte))
  | set
  | inserted (ok : Bool)
  | finished (ok : Bool)

inductive Status where
  | running (body : Body)
  | returned (rc : RC)

/-- A transaction: where it is, and the rows it has given to `insert_row` with what became
    of them. -/
structure Txn where
  status : Status
  inserts : List (NewRow × Bool)

/-- One call of a transaction. -/
def Txn.step (txn : Txn) (answer : Answer) : Option Txn :=
  match txn.status, answer with
  | .running (.indexRead _ _ k), .item id => some { txn with status := .running (k id) }
  | .running (.getRow _ _ k), .row data => some { txn with status := .running (k data) }
  | .running (.setRow _ _ k), .set => some { txn with status := .running k }
  | .running (.insertRow row k), .inserted ok =>
      some ⟨.running k, txn.inserts ++ [(row, ok)]⟩
  | .running (.finish rc), .finished ok =>
      some { txn with status := .returned (if rc = .rcok ∧ ok then .rcok else .abort) }
  | _, _ => none

/-- An item of an index: one from before, or the `n`-th row of a transaction. -/
inductive IndexItem (T : Type) where
  | old (id : Nat)
  | new (txn : T) (n : Nat) (row : NewRow)

/-- The items of an index under a key, newest first. -/
abbrev IndexItems (T : Type) := Table → UInt64 → List (IndexItem T)

variable {T : Type} [DecidableEq T]

/-- `index_insert` that returns RCOK. -/
def IndexItems.insert (indexes : IndexItems T) (table : Table) (key : UInt64)
    (item : IndexItem T) : IndexItems T := fun table' key' =>
  if table' = table ∧ key' = key then item :: indexes table' key' else indexes table' key'

structure Sys (T : Type) where
  indexes : IndexItems T
  txns : T → Txn

/-- The row of an `index_insert` that succeeds. -/
def Txn.insertion (txn : Txn) (answer : Answer) : Option NewRow :=
  match txn.status, answer with
  | .running (.insertRow row _), .inserted true => some row
  | _, _ => none

/-- The indexes after a call of transaction `t`. -/
def IndexItems.after (indexes : IndexItems T) (t : T) (txn : Txn) (answer : Answer) :
    IndexItems T :=
  match txn.insertion answer with
  | some row => indexes.insert row.table row.primaryKey (.new t txn.inserts.length row)
  | none => indexes

/-- One call of transaction `a.1`, answered by `a.2`. -/
def Sys.step (s : Sys T) (a : T × Answer) : Option (Sys T) :=
  ((s.txns a.1).step a.2).map fun txn =>
    ⟨s.indexes.after a.1 (s.txns a.1) a.2, Function.update s.txns a.1 txn⟩

/-- Every transaction is about to run its query. -/
def Sys.init (queries : T → NewOrderQuery) (olNumber : T → Nat → UInt64)
    (indexes : Table → UInt64 → List Nat) : Sys T where
  indexes table key := (indexes table key).map .old
  txns t := ⟨.running (runNewOrder (queries t) (olNumber t)), []⟩

end VeriTxn.Tpcc
