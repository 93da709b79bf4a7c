import VeriTxn.LoadedKeys
import VeriTxn.TxnCleanup

/-!
# The accesses of a transaction

`txn_man::get_row` writes to `accesses[row_cnt]`, which has `MAX_ROW_PER_TXN` entries, without
looking at `row_cnt`.  A thread keeps its transaction manager, so that `row_cnt` goes on from one
TPC-C transaction to the next until `finish` sets it to 0.

What the indexes, the rows and the other threads answer is arbitrary.
-/

namespace VeriTxn.RowCount

open Bytes Tpcc Transition

/-- A `tpcc_query`, with what else its course depends on. -/
inductive Query where
  | payment (whUpdate : Bool) (query : PaymentQuery)
  | newOrder (query : NewOrderQuery) (olNumber : Nat → UInt64)
  | orderStatus (query : Course.OrderStatusQuery)
  | delivery (wId : UInt64)
  | stockLevel (query : Course.StockLevelQuery) (supply : Nat → UInt64)

/-- `tpcc_txn_man::run_txn`. -/
def Query.course (primaryKey : RowRef → UInt64) : Query → Course RowRef
  | .payment whUpdate query => Course.runPayment whUpdate query
  | .newOrder query olNumber => Course.runNewOrder query olNumber
  | .orderStatus query => Course.runOrderStatus query
  | .delivery wId => Course.runDelivery wId
  | .stockLevel query supply => Course.runStockLevel query primaryKey supply

/-- A thread: `row_cnt` of its transaction manager, and the query it runs with its course. -/
structure Session where
  rowCnt : Nat
  running : Option (Query × Course RowRef)

/-- The next query, or a call with its answer. -/
inductive Action where
  | start (query : Query)
  | indexRead (found : Lookup RowRef)
  | indexNext (item : Option RowRef)
  | readShared (data : List Byte)
  | getRow (data : Option (List Byte))
  | insertRow
  | startDelivery (started : Bool)
  | exit

/-- The transaction manager after `txn_man::init`. -/
def Session.init : Session := ⟨0, none⟩

/-- A step of the thread.  `get_row` counts the row unless it returns NULL; `finish` counts from 0
    again, and a plain `return` does not. -/
def step (primaryKey : RowRef → UInt64) (s : Session) (a : Action) : Option Session :=
  match a, s.running with
  | .start query, none => some ⟨s.rowCnt, some (query, query.course primaryKey)⟩
  | .indexRead found, some (query, .indexRead _ _ k) => some ⟨s.rowCnt, some (query, k found)⟩
  | .indexNext item, some (query, .indexNext _ _ k) => some ⟨s.rowCnt, some (query, k item)⟩
  | .readShared data, some (query, .readShared _ k) => some ⟨s.rowCnt, some (query, k data)⟩
  | .getRow none, some (query, .getRow _ _ k) => some ⟨s.rowCnt, some (query, k none)⟩
  | .getRow (some data), some (query, .getRow _ _ k) =>
      some ⟨s.rowCnt + 1, some (query, k (some data))⟩
  | .insertRow, some (query, .insertRow k) => some ⟨s.rowCnt, some (query, k)⟩
  | .startDelivery started, some (query, .startDelivery _ k) =>
      some ⟨s.rowCnt, some (query, k started)⟩
  | .exit, some (_, .finish _ _) => some ⟨0, none⟩
  | .exit, some (_, .ret _) => some ⟨s.rowCnt, none⟩
  | _, _ => none

/-- The rows that a query gets, without those of a stock-level. -/
def Query.calls : Query → Nat
  | .payment _ _ => 3
  | .newOrder query _ => 3 + 2 * query.items.length
  | .orderStatus _ => 1
  | .delivery _ => 10
  | .stockLevel _ _ => 0

/-- An order line found for a stock-level is one with the key, and `ol_supply_w_id` holds the
    warehouse in a pass before the table is full. -/
def LineFits (primaryKey : RowRef → UInt64) (query : Query) (index : IndexName) (key : UInt64)
    (found : Lookup RowRef) (rowCnt : Nat) : Prop :=
  match query, index, found with
  | .stockLevel query supply, .orderLine, .found first _ =>
      primaryKey first = key ∧
        ∃ p < 301, supply (300 - p) = query.wId ∧ rowCnt + p + 2 ≤ maxRowPerTxn
  | _, _, _ => True

/-- `index_next` goes on to a larger key. -/
def Advances (primaryKey : RowRef → UInt64) (last : RowRef) (item : Option RowRef) : Prop :=
  ∀ row, item = some row → primaryKey last < primaryKey row

/-- There is room for what the step may get. -/
def Fits (primaryKey : RowRef → UInt64) (s : Session) (a : Action) : Prop :=
  match a, s.running with
  | .start query, _ => s.rowCnt + query.calls ≤ maxRowPerTxn
  | .indexRead found, some (query, .indexRead index key _) =>
      LineFits primaryKey query index key found s.rowCnt
  | .indexNext item, some (_, .indexNext _ last _) => Advances primaryKey last item
  | _, _ => True

/-- Whatever fitting answers a course gets, it finds room in the table from `rowCnt` on. -/
def HasRoom (primaryKey : RowRef → UInt64) (query : Query) : Course RowRef → Nat → Prop
  | .indexRead index key k, n =>
      ∀ found, LineFits primaryKey query index key found n → HasRoom primaryKey query (k found) n
  | .indexNext _ last k, n =>
      ∀ item, Advances primaryKey last item → HasRoom primaryKey query (k item) n
  | .readShared _ k, n => ∀ data, HasRoom primaryKey query (k data) n
  | .getRow _ _ k, n =>
      n < maxRowPerTxn ∧ HasRoom primaryKey query (k none) n ∧
        ∀ data, HasRoom primaryKey query (k (some data)) (n + 1)
  | .insertRow k, n => HasRoom primaryKey query k n
  | .startDelivery _ k, n => ∀ started, HasRoom primaryKey query (k started) n
  | .finish _ _, _ => True
  | .ret _, _ => True
  | .crash, _ => True
  | .spin, _ => True

section

variable {primaryKey : RowRef → UInt64} {query : Query} {n : Nat}

theorem hasRoom_readOrAbort {index : IndexName} {key : UInt64}
    {k : RowRef → List RowRef → Course RowRef}
    (hk : ∀ row next, HasRoom primaryKey query (k row next) n) :
    HasRoom primaryKey query (Course.readOrAbort index key k) n := by
  intro found _
  cases found with
  | found row next => exact hk row next
  | absent => trivial
  | error => trivial

theorem hasRoom_readUnchecked {index : IndexName} {key : UInt64} {k : RowRef → Course RowRef}
    (hk : ∀ row, HasRoom primaryKey query (k row) n) :
    HasRoom primaryKey query (Course.readUnchecked index key k) n := by
  intro found _
  cases found with
  | found row next => exact hk row
  | absent => trivial
  | error => trivial

theorem hasRoom_getOrAbort {row : RowRef} {type : AccessT} {k : List Byte → Course RowRef}
    (hn : n < maxRowPerTxn) (hk : ∀ data, HasRoom primaryKey query (k data) (n + 1)) :
    HasRoom primaryKey query (Course.getOrAbort row type k) n :=
  ⟨hn, trivial, hk⟩

/-! ### The five transactions -/

theorem hasRoom_runPayment (hn : n + 3 ≤ maxRowPerTxn) (whUpdate : Bool) (q : PaymentQuery) :
    HasRoom primaryKey query (Course.runPayment whUpdate q) n := by
  refine hasRoom_readOrAbort fun wh _ => hasRoom_getOrAbort (by omega) fun _ => ?_
  refine hasRoom_readOrAbort fun dist _ => hasRoom_getOrAbort (by omega) fun _ => ?_
  have hcust : ∀ cust, HasRoom primaryKey query (Course.payCustomer cust) (n + 1 + 1) := fun cust =>
    hasRoom_getOrAbort (by omega) fun _ => trivial
  split
  · refine hasRoom_readOrAbort fun first next => ?_
    split
    · trivial
    · intro data
      exact hasRoom_readOrAbort fun cust _ => hcust cust
  · exact hasRoom_readOrAbort fun first next => hcust _

theorem hasRoom_bodyRead {index : Table} {key : UInt64} {k : Nat → Body}
    (hk : ∀ id, HasRoom primaryKey query (Course.ofBody (k id)) n) :
    HasRoom primaryKey query (Course.ofBody (.readOrAbort index key k)) n := by
  rw [Body.readOrAbort, Course.ofBody]
  intro found _
  cases found with
  | found row next => exact hk row.id
  | absent => trivial
  | error => trivial

theorem hasRoom_bodyGet {row : RowRef} {type : AccessT} {k : List Byte → Body}
    (hn : n < maxRowPerTxn)
    (hk : ∀ data, HasRoom primaryKey query (Course.ofBody (k data)) (n + 1)) :
    HasRoom primaryKey query (Course.ofBody (.getOrAbort row type k)) n := by
  rw [Body.getOrAbort, Course.ofBody]
  exact ⟨hn, trivial, hk⟩

theorem hasRoom_orderLines {q : NewOrderQuery} {olNumber : Nat → UInt64} {oId discount : UInt64}
    {i : Nat} {items : List OrderItem} (hn : n + 2 * items.length ≤ maxRowPerTxn) :
    HasRoom primaryKey query (Course.ofBody (orderLines q olNumber oId discount i items)) n := by
  induction items generalizing n i with
  | nil => trivial
  | cons item items ih =>
      rw [List.length_cons] at hn
      refine hasRoom_bodyRead fun id => hasRoom_bodyGet (by omega) fun itemLocal => ?_
      rw [Course.ofBody]
      intro found _
      cases found with
      | absent => trivial
      | error => trivial
      | found row next => exact hasRoom_bodyGet (by omega) fun stockLocal => ih (by omega)

theorem hasRoom_runNewOrder {q : NewOrderQuery} {olNumber : Nat → UInt64}
    (hn : n + (3 + 2 * q.items.length) ≤ maxRowPerTxn) :
    HasRoom primaryKey query (Course.runNewOrder q olNumber) n := by
  rw [Course.runNewOrder, Tpcc.runNewOrder]
  refine hasRoom_bodyRead fun wh => hasRoom_bodyGet (by omega) fun _ => ?_
  refine hasRoom_bodyRead fun cust => hasRoom_bodyGet (by omega) fun custLocal => ?_
  refine hasRoom_bodyRead fun dist => hasRoom_bodyGet (by omega) fun distLocal => ?_
  exact hasRoom_orderLines (by omega)

theorem hasRoom_runOrderStatus (hn : n + 1 ≤ maxRowPerTxn) (q : Course.OrderStatusQuery) :
    HasRoom primaryKey query (Course.runOrderStatus q) n := by
  have horder : ∀ cId, HasRoom primaryKey query (Course.statusOfOrder q cId) n := fun cId =>
    hasRoom_readUnchecked fun order => hasRoom_getOrAbort hn fun data => fun _ _ => trivial
  rw [Course.runOrderStatus]
  split
  · intro found _
    cases found with
    | absent => trivial
    | error => trivial
    | found first next =>
        simp only
        split
        · trivial
        · intro data
          exact hasRoom_readOrAbort fun _ _ => horder _
  · exact hasRoom_readUnchecked fun _ => horder _

theorem hasRoom_deliverDistricts {wId : UInt64} {districts : List UInt64}
    (hn : n + districts.length ≤ maxRowPerTxn) :
    HasRoom primaryKey query (Course.deliverDistricts wId districts) n := by
  induction districts generalizing n with
  | nil => trivial
  | cons dId districts ih =>
      rw [List.length_cons] at hn
      intro found _
      cases found with
      | absent => trivial
      | error => trivial
      | found first next =>
          refine fun data => hasRoom_readUnchecked fun order => ⟨by omega, trivial, ?_⟩
          intro orderLocal lines _
          cases lines with
          | found row rest => trivial
          | error => trivial
          | absent => exact hasRoom_readUnchecked fun _ => ih (by omega)

theorem hasRoom_countStock {q : Course.StockLevelQuery} {distinct items : List UInt64} :
    HasRoom primaryKey query (Course.countStock q distinct items) n := by
  induction items generalizing distinct with
  | nil => trivial
  | cons olIId items ih =>
      rw [Course.countStock]
      split
      · exact ih
      · intro found _
        cases found with
        | absent => trivial
        | error => trivial
        | found row next => exact ih

/-- Behind the line with the key the loop gets one row more. -/
theorem hasRoom_collectItems_next {q : Course.StockLevelQuery} {supply : Nat → UInt64}
    {key : UInt64} {i : Nat} {cur : Option RowRef} {items : List UInt64}
    (hn : n + 1 ≤ maxRowPerTxn) (hcur : ∀ row, cur = some row → key < primaryKey row) :
    HasRoom primaryKey query (Course.collectItems q primaryKey supply key i cur items) n := by
  cases i with
  | zero =>
      rw [Course.collectItems]
      split
      · exact hasRoom_countStock
      · trivial
  | succ i =>
      cases cur with
      | none => exact hasRoom_countStock
      | some cur =>
          refine ⟨hn, trivial, fun data => ?_⟩
          simp only [gt_iff_lt, hcur cur rfl, if_true]
          exact hasRoom_countStock

/-- The loop gets the row of the line in every pass until the variable holds the warehouse. -/
theorem hasRoom_collectItems {q : Course.StockLevelQuery} {supply : Nat → UInt64} {key : UInt64}
    {i : Nat} {cur : RowRef} {items : List UInt64} (hcur : primaryKey cur = key) {p : Nat}
    (hp : p < i) (hsupply : supply (i - 1 - p) = q.wId) (hn : n + p + 2 ≤ maxRowPerTxn) :
    HasRoom primaryKey query (Course.collectItems q primaryKey supply key i (some cur) items) n := by
  induction i generalizing n p with
  | zero => exact absurd hp (Nat.not_lt_zero p)
  | succ i ih =>
      refine ⟨by omega, trivial, fun data => ?_⟩
      simp only [hcur, gt_iff_lt, UInt64.lt_irrefl, if_false]
      split
      · rename_i hmiss
        cases p with
        | zero => exact absurd hsupply hmiss
        | succ p =>
            refine ih (p := p) (by omega) ?_ (by omega)
            rwa [show i - 1 - p = i + 1 - 1 - (p + 1) by omega]
      · intro data item hnext
        exact hasRoom_collectItems_next (by omega) fun row hrow => hcur ▸ hnext row hrow

theorem hasRoom_runStockLevel {q : Course.StockLevelQuery} {supply : Nat → UInt64} :
    HasRoom primaryKey (.stockLevel q supply) (Course.runStockLevel q primaryKey supply) n := by
  refine hasRoom_readUnchecked fun district data found hfound => ?_
  cases found with
  | absent => trivial
  | error => trivial
  | found first next =>
      obtain ⟨hkey, p, hp, hsupply, hn⟩ := hfound
      exact hasRoom_collectItems hkey hp hsupply hn

/-- A query for whose rows there is room finds it. -/
theorem hasRoom_course (hn : n + query.calls ≤ maxRowPerTxn) :
    HasRoom primaryKey query (query.course primaryKey) n := by
  cases query with
  | payment whUpdate q => exact hasRoom_runPayment hn whUpdate q
  | newOrder q olNumber => exact hasRoom_runNewOrder hn
  | orderStatus q => exact hasRoom_runOrderStatus hn q
  | delivery wId =>
      intro started
      cases started with
      | false => trivial
      | true => exact hasRoom_deliverDistricts hn
  | stockLevel q supply => exact hasRoom_runStockLevel

end

/-! ### Runs of a thread -/

/-- The table is not outgrown, and the rest of the course finds room in it. -/
def Session.Good (primaryKey : RowRef → UInt64) (s : Session) : Prop :=
  s.rowCnt ≤ maxRowPerTxn ∧
    ∀ query course, s.running = some (query, course) → HasRoom primaryKey query course s.rowCnt

variable {primaryKey : RowRef → UInt64} {s s' : Session}

theorem good_running {n : Nat} {query : Query} {course : Course RowRef} (hn : n ≤ maxRowPerTxn)
    (hroom : HasRoom primaryKey query course n) :
    Session.Good primaryKey ⟨n, some (query, course)⟩ := by
  refine ⟨hn, fun query' course' hrun => ?_⟩
  cases hrun
  exact hroom

theorem good_idle {n : Nat} (hn : n ≤ maxRowPerTxn) : Session.Good primaryKey ⟨n, none⟩ :=
  ⟨hn, fun _ _ hrun => by cases hrun⟩

/-- A fitting step keeps the row count in the table. -/
theorem Session.Good.step (h : s.Good primaryKey) {a : Action} (hfits : Fits primaryKey s a)
    (hstep : RowCount.step primaryKey s a = some s') : s'.Good primaryKey := by
  obtain ⟨n, running⟩ := s
  obtain ⟨hn, hroom⟩ := h
  cases running with
  | none =>
      cases a with
      | start query =>
          cases hstep
          exact good_running hn (hasRoom_course hfits)
      | getRow data =>
          cases data with
          | none => cases hstep
          | some data => cases hstep
      | _ => cases hstep
  | some running =>
      obtain ⟨query, course⟩ := running
      have hcourse := hroom query course rfl
      cases a with
      | start query => cases hstep
      | indexRead found =>
          cases course with
          | indexRead index key k =>
              cases hstep
              exact good_running hn (hcourse found hfits)
          | _ => cases hstep
      | indexNext item =>
          cases course with
          | indexNext index last k =>
              cases hstep
              exact good_running hn (hcourse item hfits)
          | _ => cases hstep
      | readShared data =>
          cases course with
          | readShared row k =>
              cases hstep
              exact good_running hn (hcourse data)
          | _ => cases hstep
      | getRow data =>
          cases course with
          | getRow row type k =>
              obtain ⟨hlt, hnone, hsome⟩ := hcourse
              cases data with
              | none =>
                  cases hstep
                  exact good_running hn hnone
              | some data =>
                  cases hstep
                  exact good_running hlt (hsome data)
          | _ =>
              cases data with
              | none => cases hstep
              | some data => cases hstep
      | insertRow =>
          cases course with
          | insertRow k =>
              cases hstep
              exact good_running hn hcourse
          | _ => cases hstep
      | startDelivery started =>
          cases course with
          | startDelivery wId k =>
              cases hstep
              exact good_running hn (hcourse started)
          | _ => cases hstep
      | exit =>
          cases course with
          | finish rc result =>
              cases hstep
              exact good_idle (Nat.zero_le _)
          | ret rc =>
              cases hstep
              exact good_idle hn
          | _ => cases hstep

end VeriTxn.RowCount
