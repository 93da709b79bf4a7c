import VeriTxn.NewOrderTxn
import VeriTxn.PaymentTxn
import VeriTxn.RowLock
import VeriTxn.YcsbTxn

/-!
# How transactions end

The bodies of the five TPC-C transactions and of the YCSB transaction as the calls they
make and the ways they end, under `NO_WAIT` with `FULL_TPCC`.  What a body writes decides
none of its branches and is left out; what it reads comes from the rows as they are at
that time, which other transactions may have changed.

A body ends in `finish`, which runs `cleanup`, or in a plain `return`.  It may also not
return at all: a null pointer is followed, an assertion fails, or a loop does not end.
-/

namespace VeriTxn

open Bytes Transition

/-- The names of the indexes. -/
inductive IndexName where
  | warehouse | district | customerId | customerLast | order | newOrder | orderLine | item | stock
  | main
deriving DecidableEq, Repr

/-- The calls of a body.  `finish rc result` is `finish(rc)` whose value is returned, or
    followed by `return result`. -/
inductive Course (R : Type) where
  | indexRead (index : IndexName) (key : UInt64) (k : Lookup R → Course R)
  | indexNext (index : IndexName) (item : R) (k : Option R → Course R)
  | readShared (row : R) (k : List Byte → Course R)
  | getRow (row : R) (type : AccessT) (k : Option (List Byte) → Course R)
  | insertRow (k : Course R)
  /-- `ATOM_CAS(_wl->delivering[w_id], false, true)` -/
  | startDelivery (wId : UInt64) (k : Bool → Course R)
  | finish (rc : RC) (result : Option RC)
  | ret (rc : RC)
  | crash
  | spin

namespace Course

variable {R : Type}

/-- `index_read`, with `return finish(Abort)` on NULL. -/
def readOrAbort (index : IndexName) (key : UInt64) (k : R → List R → Course R) : Course R :=
  .indexRead index key fun found =>
    match found with
    | .found row next => k row next
    | .absent => .finish .abort none
    | .error => .crash

/-- `index_read` whose result is used unchecked. -/
def readUnchecked (index : IndexName) (key : UInt64) (k : R → Course R) : Course R :=
  .indexRead index key fun found =>
    match found with
    | .found row _ => k row
    | _ => .crash

/-- `get_row`, with `return finish(Abort)` on NULL. -/
def getOrAbort (row : R) (type : AccessT) (k : List Byte → Course R) : Course R :=
  .getRow row type fun data =>
    match data with
    | none => .finish .abort none
    | some data => k data

/-- The row in the middle of a list of items. -/
def midRow (rows : List R) : Option R :=
  (Tpcc.midLoop 0 (List.range rows.length) (List.range rows.length)).bind fun i => rows[i]?

/-! ### TPC-C -/

open Tpcc

/-- The customer's part of `run_payment`. -/
def payCustomer (cust : RowRef) : Course RowRef :=
  getOrAbort cust .wr fun _ => .finish .rcok none

/-- `tpcc_txn_man::run_payment`. -/
def runPayment (whUpdate : Bool) (query : PaymentQuery) : Course RowRef :=
  readOrAbort .warehouse query.wId fun wh _ =>
  getOrAbort wh (if whUpdate then .wr else .rd) fun _ =>
  readOrAbort .district (distKey query.dId query.dWId) fun dist _ =>
  getOrAbort dist .wr fun _ =>
  if query.byLastName then
    readOrAbort .customerLast (custNPKey query.cLast query.cDId query.cWId) fun first next =>
    match midRow (first :: next) with
    | none => .crash
    | some mid =>
        .readShared mid fun data =>
        readOrAbort .customerId (custKey (getValue .customer cId data) query.cDId query.cWId)
          fun cust _ => payCustomer cust
  else
    readOrAbort .customerId (custKey query.cId query.cDId query.cWId) fun first next =>
    payCustomer (next.getLastD first)

def indexOf : Table → IndexName
  | .warehouse => .warehouse
  | .district => .district
  | .customer => .customerId
  | .history => .main
  | .newOrder => .newOrder
  | .order => .order
  | .orderLine => .orderLine
  | .item => .item
  | .stock => .stock

/-- The course of a body that is given with what it writes. -/
def ofBody : Body → Course RowRef
  | .indexRead index key k => .indexRead (indexOf index) key fun found =>
      match found with
      | .found row _ => ofBody (k (some row.id))
      | .absent => ofBody (k none)
      | .error => .crash
  | .getRow row type k => .getRow row type fun data => ofBody (k data)
  | .setRow _ _ k => ofBody k
  | .insertRow _ k => .insertRow (ofBody k)
  | .finish rc => .finish rc none
  | .crash => .crash

/-- `tpcc_txn_man::run_new_order`. -/
def runNewOrder (query : NewOrderQuery) (olNumber : Nat → UInt64) : Course RowRef :=
  ofBody (Tpcc.runNewOrder query olNumber)

/-- The fields of `tpcc_query` that an order-status reads. -/
structure OrderStatusQuery where
  wId : UInt64
  dId : UInt64
  cId : UInt64
  cWId : UInt64
  cDId : UInt64
  cLast : List Byte
  byLastName : Bool

def oId : Nat := 0
def oCId : Nat := 1
def olOId : Nat := 0
def olIId : Nat := 4

/-- `run_order_status` from the order on. -/
def statusOfOrder (query : OrderStatusQuery) (cId : UInt64) : Course RowRef :=
  readUnchecked .order (custKey cId query.cDId query.cWId) fun order =>
  getOrAbort order .rd fun orderLocal =>
  .indexRead .orderLine (orderlineKey query.wId query.dId (getValue .order oId orderLocal)) fun _ =>
  .finish .rcok none

/-- `tpcc_txn_man::run_order_status`. -/
def runOrderStatus (query : OrderStatusQuery) : Course RowRef :=
  if query.byLastName then
    .indexRead .customerLast (custNPKey query.cLast query.cDId query.cWId) fun found =>
    match found with
    | .absent => .ret .abort
    | .error => .crash
    | .found first next =>
        match midRow (first :: next) with
        | none => .crash
        | some mid =>
            .readShared mid fun data =>
            let cId := getValue .customer cId data
            readOrAbort .customerId (custKey cId query.cDId query.cWId) fun _ _ =>
            statusOfOrder query cId
  else
    readUnchecked .customerId (custKey query.cId query.cDId query.cWId) fun _ =>
    statusOfOrder query query.cId

/-- The loop of `run_delivery` over the districts that are left.  The loop over the order
    lines does not advance: with an order line it never ends. -/
def deliverDistricts (wId : UInt64) : List UInt64 → Course RowRef
  | [] => .ret .rcok
  | dId :: districts =>
      .indexRead .orderLine (distKey dId wId) fun found =>
      match found with
      | .absent => .ret .abort
      | .error => .crash
      | .found first next =>
          .readShared (next.getLastD first) fun data =>
          let noOId := getValue .orderLine olOId data
          readUnchecked .order (orderPrimaryKey wId dId noOId) fun order =>
          .getRow order .wr fun orderLocal =>
          match orderLocal with
          | none => .crash
          | some orderLocal =>
              .indexRead .orderLine (orderlineKey wId dId noOId) fun found =>
              match found with
              | .found _ _ => .spin
              | .error => .crash
              | .absent =>
                  readUnchecked .customerId
                    (custKey (getValue .order oCId orderLocal) dId wId) fun _ =>
                  deliverDistricts wId districts

/-- `tpcc_txn_man::run_delivery`. -/
def runDelivery (wId : UInt64) : Course RowRef :=
  .startDelivery wId fun started =>
  if started then deliverDistricts wId [1, 2, 3, 4, 5, 6, 7, 8, 9, 10]
  else .finish .rcok none

/-- The fields of `tpcc_query` that a stock-level reads. -/
structure StockLevelQuery where
  wId : UInt64
  dId : UInt64

/-- The last loop of `stock_level_getStockCount`, over the items collected, and the end of
    `run_stock_level`. -/
def countStock (query : StockLevelQuery) : List UInt64 → List UInt64 → Course RowRef
  | _, [] => .finish .rcok none
  | distinct, olIId :: items =>
      if olIId ∈ distinct then countStock query distinct items
      else
        .indexRead .stock (stockKey olIId query.wId) fun found =>
        match found with
        | .absent => .finish .rcok none
        | .error => .crash
        | .found _ _ => countStock query (distinct ++ [olIId]) items

/-- The first loop, for so many passes; `supply i` is what the uninitialised
    `ol_supply_w_id` holds in pass `i`.  If it is not `s_w_id` the loop goes on with the
    same order line. -/
def collectItems (query : StockLevelQuery) (primaryKey : RowRef → UInt64) (supply : Nat → UInt64)
    (key : UInt64) : Nat → Option RowRef → List UInt64 → Course RowRef
  | 0, _, items => if items.length ≤ 300 then countStock query [] items else .crash
  | _ + 1, none, items => countStock query [] items
  | i + 1, some cur, items =>
      .getRow cur .rd fun row =>
      match row with
      | none => .crash
      | some _ =>
          if primaryKey cur > key then countStock query [] items
          else if supply i ≠ query.wId then
            collectItems query primaryKey supply key i (some cur) items
          else
            .readShared cur fun data =>
            .indexNext .orderLine cur fun next =>
            collectItems query primaryKey supply key i next
              (items ++ [getValue .orderLine olIId data])

/-- `tpcc_txn_man::run_stock_level`, with `stock_level_getOId` and
    `stock_level_getStockCount`.  It takes no row for writing, so `wr_cnt` is 0. -/
def runStockLevel (query : StockLevelQuery) (primaryKey : RowRef → UInt64)
    (supply : Nat → UInt64) : Course RowRef :=
  readUnchecked .district (distKey query.dId query.wId) fun district =>
  .readShared district fun data =>
  let key := orderlineKey query.wId query.dId (getValue .district dNextOId data - 1)
  .indexRead .orderLine key fun found =>
  match found with
  | .absent => .finish .rcok none
  | .error => .crash
  | .found first _ => collectItems query primaryKey supply key 301 (some first) []

/-! ### YCSB -/

open Ycsb

/-- A pass of the `while` loop with the item found. -/
def accessItem (primaryKey : R → Nat) (requestCnt : Nat) (req : Ycsb.Request) (row : R)
    (k : Course R) : Course R :=
  if primaryKey row ≠ req.key then .crash
  else
    getOrAbort row req.rtype fun _ =>
    if requestCnt > 1 ∧ req.rtype = .xp then .crash else k

/-- The passes after the first. -/
def scanItems (primaryKey : R → Nat) (requestCnt : Nat) (req : Ycsb.Request) (k : Course R) :
    Nat → R → Course R
  | 0, _ => k
  | n + 1, row =>
      .indexNext .main row fun next =>
      match next with
      | none => k
      | some row =>
          accessItem primaryKey requestCnt req row
            (scanItems primaryKey requestCnt req k n row)

/-- The `for` loop over the requests. -/
def runRequests (primaryKey : R → Nat) (requestCnt : Nat) : List Ycsb.Request → Course R
  | [] => .finish .rcok none
  | req :: requests =>
      .indexRead .main (.ofNat req.key) fun found =>
      match found with
      | .absent => .finish .abort none
      | .error => .finish .abort (some .error)
      | .found row _ =>
          accessItem primaryKey requestCnt req row
            (scanItems primaryKey requestCnt req (runRequests primaryKey requestCnt requests)
              (req.passes - 1) row)

/-- `ycsb_txn_man::run_txn`. -/
def runTxn (primaryKey : R → Nat) (requests : List Ycsb.Request) : Course R :=
  runRequests primaryKey requests.length requests

/-! ### Ways to end -/

/-- How a body comes back. -/
inductive Exit where
  | finish | ret

def Exit.IsFinish : Exit → Prop
  | .finish => True
  | .ret => False

def Exit.IsRet : Exit → Prop
  | .finish => False
  | .ret => True

/-- Every way a course comes back satisfies `P`, whatever its calls return. -/
def Every (P : Exit → Prop) : Course R → Prop
  | .indexRead _ _ k => ∀ found, Every P (k found)
  | .indexNext _ _ k => ∀ item, Every P (k item)
  | .readShared _ k => ∀ data, Every P (k data)
  | .getRow _ _ k => ∀ data, Every P (k data)
  | .insertRow k => Every P k
  | .startDelivery _ k => ∀ started, Every P (k started)
  | .finish _ _ => P .finish
  | .ret _ => P .ret
  | .crash => True
  | .spin => True

section

variable {P : Exit → Prop}

theorem every_readOrAbort {index : IndexName} {key : UInt64} {k : R → List R → Course R}
    (hfinish : P .finish) (hk : ∀ row next, (k row next).Every P) :
    (readOrAbort index key k).Every P := by
  intro found
  cases found with
  | found row next => exact hk row next
  | absent => exact hfinish
  | error => trivial

theorem every_readUnchecked {index : IndexName} {key : UInt64} {k : R → Course R}
    (hk : ∀ row, (k row).Every P) : (readUnchecked index key k).Every P := by
  intro found
  cases found with
  | found row next => exact hk row
  | absent => trivial
  | error => trivial

theorem every_getOrAbort {row : R} {type : AccessT} {k : List Byte → Course R}
    (hfinish : P .finish) (hk : ∀ data, (k data).Every P) : (getOrAbort row type k).Every P := by
  intro data
  cases data with
  | none => exact hfinish
  | some data => exact hk data

theorem every_payCustomer (hfinish : P .finish) (cust : RowRef) : (payCustomer cust).Every P :=
  every_getOrAbort hfinish fun _ => hfinish

/-- A payment ends in `finish`. -/
theorem every_runPayment (hfinish : P .finish) (whUpdate : Bool) (query : PaymentQuery) :
    (runPayment whUpdate query).Every P := by
  refine every_readOrAbort hfinish fun wh _ => every_getOrAbort hfinish fun _ => ?_
  refine every_readOrAbort hfinish fun dist _ => every_getOrAbort hfinish fun _ => ?_
  split
  · refine every_readOrAbort hfinish fun first next => ?_
    split
    · trivial
    · intro data
      exact every_readOrAbort hfinish fun cust _ => every_payCustomer hfinish cust
  · exact every_readOrAbort hfinish fun first next => every_payCustomer hfinish _

/-- Bodies without a plain `return` end in `finish`. -/
theorem every_ofBody (hfinish : P .finish) (body : Body) : (ofBody body).Every P := by
  induction body with
  | indexRead index key k ih =>
      rw [ofBody]
      intro found
      cases found with
      | found row next => exact ih (some row.id)
      | absent => exact ih none
      | error => trivial
  | getRow row type k ih => exact fun data => ih data
  | setRow i data k ih => exact ih
  | insertRow row k ih => exact ih
  | finish rc => exact hfinish
  | crash => trivial

theorem every_statusOfOrder (hfinish : P .finish) (query : OrderStatusQuery) (cId : UInt64) :
    (statusOfOrder query cId).Every P :=
  every_readUnchecked fun _ => every_getOrAbort hfinish fun _ _ => hfinish

/-- A delivery that is started never comes to a `finish`. -/
theorem every_deliverDistricts (hret : P .ret) (wId : UInt64) (districts : List UInt64) :
    (deliverDistricts wId districts).Every P := by
  induction districts with
  | nil => exact hret
  | cons dId districts ih =>
      intro found
      cases found with
      | absent => exact hret
      | error => trivial
      | found first next =>
          refine fun data => every_readUnchecked fun order => fun orderLocal => ?_
          cases orderLocal with
          | none => trivial
          | some orderLocal =>
              intro lines
              cases lines with
              | found row rest => trivial
              | error => trivial
              | absent => exact every_readUnchecked fun _ => ih

theorem every_countStock (hfinish : P .finish) (query : StockLevelQuery)
    (distinct items : List UInt64) : (countStock query distinct items).Every P := by
  induction items generalizing distinct with
  | nil => exact hfinish
  | cons olIId items ih =>
      rw [countStock]
      split
      · exact ih distinct
      · intro found
        cases found with
        | absent => exact hfinish
        | error => trivial
        | found row next => exact ih _

theorem every_collectItems (hfinish : P .finish) (query : StockLevelQuery)
    (primaryKey : RowRef → UInt64) (supply : Nat → UInt64) (key : UInt64) (i : Nat)
    (cur : Option RowRef) (items : List UInt64) :
    (collectItems query primaryKey supply key i cur items).Every P := by
  induction i generalizing cur items with
  | zero =>
      rw [collectItems]
      split
      · exact every_countStock hfinish query [] items
      · trivial
  | succ i ih =>
      cases cur with
      | none => exact every_countStock hfinish query [] items
      | some cur =>
          intro row
          cases row with
          | none => trivial
          | some data =>
              simp only
              split
              · exact every_countStock hfinish query [] items
              · split
                · exact ih _ _
                · exact fun data next => ih _ _

/-- A stock-level ends in `finish`. -/
theorem every_runStockLevel (hfinish : P .finish) (query : StockLevelQuery)
    (primaryKey : RowRef → UInt64) (supply : Nat → UInt64) :
    (runStockLevel query primaryKey supply).Every P := by
  refine every_readUnchecked fun district data found => ?_
  cases found with
  | absent => exact hfinish
  | error => trivial
  | found first next => exact every_collectItems hfinish query primaryKey supply _ 301 _ []

theorem every_accessItem (hfinish : P .finish) {primaryKey : R → Nat} {requestCnt : Nat}
    {req : Ycsb.Request} {row : R} {k : Course R} (hk : k.Every P) :
    (accessItem primaryKey requestCnt req row k).Every P := by
  unfold accessItem
  split
  · trivial
  · refine every_getOrAbort hfinish fun data => ?_
    split
    · trivial
    · exact hk

theorem every_scanItems (hfinish : P .finish) {primaryKey : R → Nat} {requestCnt : Nat}
    {req : Ycsb.Request} {k : Course R} (hk : k.Every P) (n : Nat) (row : R) :
    (scanItems primaryKey requestCnt req k n row).Every P := by
  induction n generalizing row with
  | zero => exact hk
  | succ n ih =>
      intro next
      cases next with
      | none => exact hk
      | some row => exact every_accessItem hfinish (ih row)

/-- A YCSB transaction ends in `finish`. -/
theorem every_runRequests (hfinish : P .finish) (primaryKey : R → Nat) (requestCnt : Nat)
    (requests : List Ycsb.Request) : (runRequests primaryKey requestCnt requests).Every P := by
  induction requests with
  | nil => exact hfinish
  | cons req requests ih =>
      intro found
      cases found with
      | absent => exact hfinish
      | error => exact hfinish
      | found row next => exact every_accessItem hfinish (every_scanItems hfinish ih _ row)

end

end Course

end VeriTxn
