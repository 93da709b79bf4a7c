import VeriTxn.Tpcc

/-!
# TPC-C payment

`tpcc_txn_man::run_payment` run alone.  The year-to-date sums and the customer's
balance are written through the rows `get_row` returned; the customer's data, for bad
credit, through `r_cust`, the shared row.  The new HISTORY row is no existing row and
goes into no index, so it is left out.
-/

namespace VeriTxn.Tpcc

open Bytes

/-- The fields of `tpcc_query` that a payment reads. -/
structure PaymentQuery where
  wId : UInt64
  dId : UInt64
  cId : UInt64
  dWId : UInt64
  cWId : UInt64
  cDId : UInt64
  cLast : List Byte
  hAmount : UInt64
  byLastName : Bool

/-- What a payment depends on besides the tables: `g_wh_update_enc`, the arithmetic of
    `double`, the text that `snprintf` makes of the query, and what is on the stack where
    `c_new_data` comes to lie. -/
structure PaymentEnv where
  whUpdate : Bool
  add : UInt64 → UInt64 → UInt64
  sub : UInt64 → UInt64 → UInt64
  text : PaymentQuery → List Byte
  stack : List Byte

/-! ### Column updates -/

/-- Read a column as a `double`, change it and write it back. -/
def changeDouble (table : Table) (id : Nat) (f : UInt64 → UInt64) (data : List Byte) : List Byte :=
  setValue table id (f (getValue table id data)) data

def payWarehouse (env : PaymentEnv) (query : PaymentQuery) : List Byte → List Byte :=
  changeDouble .warehouse wYtd fun wYtd => env.add wYtd query.hAmount

def payDistrict (env : PaymentEnv) (query : PaymentQuery) : List Byte → List Byte :=
  changeDouble .district dYtd fun dYtd => env.add dYtd query.hAmount

def payBalance (env : PaymentEnv) (query : PaymentQuery) : List Byte → List Byte :=
  changeDouble .customer cBalance fun cBalance => env.sub cBalance query.hAmount

def payYtdPayment (env : PaymentEnv) (query : PaymentQuery) : List Byte → List Byte :=
  changeDouble .customer cYtdPayment fun cYtdPayment => env.add cYtdPayment query.hAmount

/-- `c_payment_cnt + 1`, where `c_payment_cnt` is a `double`. -/
def payPaymentCnt (env : PaymentEnv) : List Byte → List Byte :=
  changeDouble .customer cPaymentCnt fun cPaymentCnt => env.add cPaymentCnt 0x3FF0000000000000

/-- `strstr(c_credit, "BC")`. -/
def badCredit (data : List Byte) : Bool :=
  strstr (cString data (fieldIndex .customer cCredit)) [66, 67]

/-- `c_new_data` after `snprintf` and `strncat`. -/
def cNewData (env : PaymentEnv) (query : PaymentQuery) (data : List Byte) : List Byte :=
  let new := overwrite env.stack 0 ((env.text query).take 499 ++ [0])
  let len := (cString new 0).length
  overwrite new len ((cString data (fieldIndex .customer cData)).take (500 - len) ++ [0])

def payData (env : PaymentEnv) (query : PaymentQuery) (data : List Byte) : List Byte :=
  setBytes .customer cData (cNewData env query data) data

/-! ### The transaction -/

section

variable (σ : Scheme RowRef (List Byte)) (s : σ.State)

/-- Go on with the item that `index_read` found, or `return finish(Abort)`. -/
def withItem (item : Lookup Nat) (k : Nat → List Nat → Option (RC × (RowRef → List Byte))) :
    Option (RC × (RowRef → List Byte)) :=
  match item with
  | .found first next => k first next
  | .absent => σ.finish s .abort
  | .error => none

/-- Go on with the row, or `return finish(Abort)`. -/
def withRow (r : RowRef) (type : AccessT) (k : σ.State → Option (RC × (RowRef → List Byte))) :
    Option (RC × (RowRef → List Byte)) :=
  match σ.getRow s r type with
  | none => none
  | some none => σ.finish s .abort
  | some (some s) => k s

end

/-- The loop that brings `mid` to the middle of the list. -/
def midLoop : Nat → List Nat → List Nat → Option Nat
  | _, [], mid => mid.head?
  | cnt, _ :: it, mid => midLoop (cnt + 1) it (if (cnt + 1) % 2 = 0 then mid.tail else mid)

/-- The customer row, with `c_id` as the query then has it: by the last name, or the last
    row under the customer's id. -/
def findCustomer (index : Indexes) (query : PaymentQuery) (read : RowRef → List Byte) :
    Option (Lookup Nat × PaymentQuery) :=
  if query.byLastName then
    match index.customerLast (custNPKey query.cLast query.cDId query.cWId) with
    | .absent => some (.absent, query)
    | .error => none
    | .found first next =>
        match midLoop 0 (first :: next) (first :: next) with
        | none => none
        | some mid =>
            let query := { query with cId := getValue .customer cId (read ⟨.customer, mid⟩) }
            some (index.customerId (custKey query.cId query.cDId query.cWId), query)
  else
    match index.customerId (custKey query.cId query.cDId query.cWId) with
    | .found first next => some (.found (next.getLastD first) [], query)
    | missing => some (missing, query)

/-- `run_payment` from the customer's `get_row` on. -/
def finishPayment (σ : Scheme RowRef (List Byte)) (env : PaymentEnv) (query : PaymentQuery)
    (cust : RowRef) (s : σ.State) : Option (RC × (RowRef → List Byte)) :=
  withRow σ s cust .wr fun s =>
  let s := σ.writeLocal s 2 (payBalance env query)
  let s := σ.writeLocal s 2 (payYtdPayment env query)
  let s := σ.writeLocal s 2 (payPaymentCnt env)
  match σ.readLocal s 2 with
  | none => none
  | some data =>
      let s := if badCredit data then σ.writeShared s cust (payData env query) else s
      σ.finish s .rcok

/-- `tpcc_txn_man::run_payment`: the result and the contents of the rows. -/
def runPayment (σ : Scheme RowRef (List Byte)) (env : PaymentEnv) (index : Indexes)
    (query : PaymentQuery) (s : σ.State) : Option (RC × (RowRef → List Byte)) :=
  withItem σ s (index.warehouse query.wId) fun wh _ =>
  withRow σ s ⟨.warehouse, wh⟩ (if env.whUpdate then .wr else .rd) fun s =>
  let s := if env.whUpdate then σ.writeLocal s 0 (payWarehouse env query) else s
  withItem σ s (index.district (distKey query.dId query.dWId)) fun dist _ =>
  withRow σ s ⟨.district, dist⟩ .wr fun s =>
  let s := σ.writeLocal s 1 (payDistrict env query)
  match findCustomer index query (σ.readShared s) with
  | none => none
  | some (item, query) =>
      withItem σ s item fun cust _ => finishPayment σ env query ⟨.customer, cust⟩ s

/-! ### What a payment writes -/

/-- The rows a payment is about, and the query with the customer's id. -/
structure PaymentTarget where
  wh : RowRef
  dist : RowRef
  cust : RowRef
  query : PaymentQuery

/-- The rows as the indexes and the contents give them. -/
def paymentTarget (index : Indexes) (query : PaymentQuery) (store : RowRef → List Byte) :
    Option PaymentTarget :=
  match index.warehouse query.wId, index.district (distKey query.dId query.dWId),
      findCustomer index query store with
  | .found wh _, .found dist _, some (.found cust _, query) =>
      some ⟨⟨.warehouse, wh⟩, ⟨.district, dist⟩, ⟨.customer, cust⟩, query⟩
  | _, _, _ => none

def change (store : RowRef → List Byte) (r : RowRef) (f : List Byte → List Byte) :
    RowRef → List Byte :=
  Function.update store r (f (store r))

theorem change_eq_self_iff (store : RowRef → List Byte) (r : RowRef)
    (f : List Byte → List Byte) : change store r f = store ↔ f (store r) = store r :=
  Function.update_eq_self_iff

/-- The writes that go through the rows returned by `get_row`. -/
def localWrites (env : PaymentEnv) (query : PaymentQuery) (t : PaymentTarget)
    (store : RowRef → List Byte) : RowRef → List Byte :=
  let store := if env.whUpdate then change store t.wh (payWarehouse env query) else store
  let store := change store t.dist (payDistrict env query)
  let store := change store t.cust (payBalance env t.query)
  let store := change store t.cust (payYtdPayment env t.query)
  change store t.cust (payPaymentCnt env)

/-- The customer's columns after these writes. -/
def payCustomer (env : PaymentEnv) (query : PaymentQuery) (data : List Byte) : List Byte :=
  payPaymentCnt env (payYtdPayment env query (payBalance env query data))

/-- All writes of the payment. -/
def paymentWrites (env : PaymentEnv) (query : PaymentQuery) (t : PaymentTarget)
    (store : RowRef → List Byte) : RowRef → List Byte :=
  let store := localWrites env query t store
  if badCredit (store t.cust) then change store t.cust (payData env t.query) else store

/-- The contents a payment is to leave. -/
def paid (env : PaymentEnv) (index : Indexes) (query : PaymentQuery)
    (store : RowRef → List Byte) : RowRef → List Byte :=
  match paymentTarget index query store with
  | none => store
  | some t => paymentWrites env query t store

/-- The payment gets hold of its three rows. -/
def PaymentTarget.Admitted (admits : RowRef → Bool) (t : PaymentTarget) : Prop :=
  admits t.wh = true ∧ admits t.dist = true ∧ admits t.cust = true

/-! ### The columns apart -/

/-- The writes before it leave `C_DATA` alone. -/
theorem drop_payCustomer (env : PaymentEnv) (query : PaymentQuery) (data : List Byte) :
    (payCustomer env query data).drop (fieldIndex .customer cData) =
      data.drop (fieldIndex .customer cData) := by
  have hcol : ∀ (id : Nat) (f : UInt64 → UInt64) (data : List Byte),
      fieldIndex .customer id + fieldSize .customer id ≤ fieldIndex .customer cData →
      (changeDouble .customer id f data).drop (fieldIndex .customer cData) =
        data.drop (fieldIndex .customer cData) := fun id f data h => drop_setBytes _ _ h
  rw [payCustomer, payPaymentCnt, hcol _ _ _ (by decide), payYtdPayment,
    hcol _ _ _ (by decide), payBalance, hcol _ _ _ (by decide)]

/-- Whether writing `C_DATA` changes anything does not depend on the columns before. -/
theorem payData_eq_self_congr (env : PaymentEnv) (query : PaymentQuery) {data data' : List Byte}
    (h : data.drop (fieldIndex .customer cData) = data'.drop (fieldIndex .customer cData)) :
    payData env query data = data ↔ payData env query data' = data' := by
  have hnew : cNewData env query data = cNewData env query data' := by
    simp only [cNewData, cString, h]
  rw [payData, payData, setBytes, setBytes, overwrite_eq_self_iff, overwrite_eq_self_iff data',
    h, hnew]

/-- Only customer rows are read to find the customer. -/
theorem findCustomer_congr (index : Indexes) (query : PaymentQuery)
    {read read' : RowRef → List Byte} (h : ∀ i, read ⟨.customer, i⟩ = read' ⟨.customer, i⟩) :
    findCustomer index query read = findCustomer index query read' := by
  simp only [findCustomer, h]

theorem paymentTarget_eq_some {index : Indexes} {query : PaymentQuery}
    {store : RowRef → List Byte} {t : PaymentTarget}
    (h : paymentTarget index query store = some t) :
    ∃ wh dist cust, (∃ next, index.warehouse query.wId = .found wh next) ∧
      (∃ next, index.district (distKey query.dId query.dWId) = .found dist next) ∧
      (∃ next, findCustomer index query store = some (.found cust next, t.query)) ∧
      t.wh = ⟨.warehouse, wh⟩ ∧ t.dist = ⟨.district, dist⟩ ∧ t.cust = ⟨.customer, cust⟩ := by
  unfold paymentTarget at h
  split at h
  · rename_i wh _ dist _ cust _ query' hwh hdist hcust
    cases h
    exact ⟨wh, dist, cust, ⟨_, hwh⟩, ⟨_, hdist⟩, ⟨_, hcust⟩, rfl, rfl, rfl⟩
  · cases h

theorem paymentTarget_wh {index : Indexes} {query : PaymentQuery} {store : RowRef → List Byte}
    {t : PaymentTarget} (h : paymentTarget index query store = some t) {wh : Nat}
    {next : List Nat} (hwh : index.warehouse query.wId = .found wh next) :
    t.wh = ⟨.warehouse, wh⟩ := by
  obtain ⟨_, _, _, ⟨_, hfound⟩, -, -, htwh, -⟩ := paymentTarget_eq_some h
  rw [hwh] at hfound
  cases hfound
  exact htwh

theorem paymentTarget_dist {index : Indexes} {query : PaymentQuery} {store : RowRef → List Byte}
    {t : PaymentTarget} (h : paymentTarget index query store = some t) {dist : Nat}
    {next : List Nat}
    (hdist : index.district (distKey query.dId query.dWId) = .found dist next) :
    t.dist = ⟨.district, dist⟩ := by
  obtain ⟨_, _, _, -, ⟨_, hfound⟩, -, -, htdist, -⟩ := paymentTarget_eq_some h
  rw [hdist] at hfound
  cases hfound
  exact htdist

theorem paymentTarget_tables {index : Indexes} {query : PaymentQuery}
    {store : RowRef → List Byte} {t : PaymentTarget}
    (h : paymentTarget index query store = some t) :
    t.wh.table = .warehouse ∧ t.dist.table = .district ∧ t.cust.table = .customer := by
  obtain ⟨wh, dist, cust, -, -, -, hwh, hdist, hcust⟩ := paymentTarget_eq_some h
  simp [hwh, hdist, hcust]

theorem localWrites_cust (env : PaymentEnv) (query : PaymentQuery) {t : PaymentTarget}
    (store : RowRef → List Byte) (hwh : t.cust ≠ t.wh) (hdist : t.cust ≠ t.dist) :
    localWrites env query t store t.cust = payCustomer env t.query (store t.cust) := by
  by_cases hupdate : env.whUpdate = true
  · simp [localWrites, change, payCustomer, hupdate, hwh, hdist]
  · simp [localWrites, change, payCustomer, hupdate, hdist]

/-! ### The run -/

section

variable {σ : Scheme RowRef (List Byte)} {inPlace : Bool} {admits : RowRef → Bool}
  {lawful : σ.Lawful inPlace admits} {env : PaymentEnv} {index : Indexes} {query : PaymentQuery}
  {store : RowRef → List Byte} {s : σ.State} {o : Outlook RowRef (List Byte)}
  {result : RC × (RowRef → List Byte)}

theorem withItem_cases {item : Lookup Nat}
    {k : Nat → List Nat → Option (RC × (RowRef → List Byte))}
    (h : withItem σ s item k = some result) :
    (item = .absent ∧ σ.finish s .abort = some result) ∨
      ∃ first next, item = .found first next ∧ k first next = some result := by
  cases item with
  | found first next => exact Or.inr ⟨first, next, rfl, h⟩
  | absent => exact Or.inl ⟨rfl, h⟩
  | error => cases h

theorem withRow_cases {r : RowRef} {type : AccessT}
    {k : σ.State → Option (RC × (RowRef → List Byte))} (hforesees : lawful.Foresees s o)
    (hr : r ∉ o.rows) (htype : type ≠ .xp) (h : withRow σ s r type k = some result) :
    (admits r = false ∧ σ.finish s .abort = some result) ∨
      (admits r = true ∧ ∃ s', lawful.Foresees s' (o.getRow r type) ∧ k s' = some result) := by
  unfold withRow at h
  cases hadmits : admits r with
  | false =>
      rw [hforesees.getRow_refused type hr hadmits] at h
      exact Or.inl ⟨rfl, h⟩
  | true =>
      obtain ⟨s', hget, hforesees'⟩ := hforesees.getRow_admitted hr htype hadmits
      rw [hget] at h
      exact Or.inr ⟨rfl, s', hforesees', h⟩

theorem aborted (hforesees : lawful.Foresees s o) (ho : o.onAbort = store)
    (h : σ.finish s .abort = some result) : result = (.abort, store) := by
  obtain ⟨rc, contents⟩ := result
  obtain ⟨rfl, rfl⟩ := hforesees.finish_abort h
  rw [ho]

/-- The warehouse row taken, and written if warehouses are updated. -/
theorem foresees_warehouse {wh : RowRef}
    (hforesees : lawful.Foresees s
      ((Outlook.start store).getRow wh (if env.whUpdate then .wr else .rd))) :
    ∃ o, lawful.Foresees
        (if env.whUpdate then σ.writeLocal s 0 (payWarehouse env query) else s) o ∧
      o.rows = [wh] ∧ o.held.length = 1 ∧ o.onAbort = store ∧
      o.onCommit = if env.whUpdate then change store wh (payWarehouse env query) else store := by
  by_cases hupdate : env.whUpdate = true
  · simp only [hupdate, if_true] at hforesees ⊢
    exact ⟨_, hforesees.writeLocal rfl _, rfl, rfl, rfl, rfl⟩
  · simp only [hupdate] at hforesees ⊢
    exact ⟨_, hforesees, rfl, rfl, rfl, rfl⟩

/-- With the customer's row the payment makes its last local writes. -/
theorem finishPayment_cases {cust : RowRef} (hforesees : lawful.Foresees s o)
    (hlen : o.held.length = 2) (hcust : cust ∉ o.rows) (ho : o.onAbort = store)
    (h : finishPayment σ env query cust s = some result) :
    (admits cust = false ∧ result = (.abort, store)) ∨
    (admits cust = true ∧ ∃ s' o', o'.onCommit = change (change (change o.onCommit cust
        (payBalance env query)) cust (payYtdPayment env query)) cust (payPaymentCnt env) ∧
      o'.onAbort = store ∧
      lawful.Foresees s' (if badCredit (o'.onCommit cust) then
        o'.writeDirect inPlace cust (payData env query) else o') ∧
      σ.finish s' .rcok = some result) := by
  unfold finishPayment at h
  rcases withRow_cases hforesees hcust (by decide) h with ⟨hadmits, h⟩ | ⟨hadmits, s₁, hforesees₁, h⟩
  · exact Or.inl ⟨hadmits, aborted hforesees ho h⟩
  refine Or.inr ⟨hadmits, ?_⟩
  have hheld : (o.getRow cust .wr).held[2]? = some (cust, .wr) := by
    simp [Outlook.getRow, hlen]
  have hforesees₄ := ((hforesees₁.writeLocal hheld (payBalance env query)).writeLocal hheld
    (payYtdPayment env query)).writeLocal hheld (payPaymentCnt env)
  simp only [hforesees₄.readLocal hheld] at h
  refine ⟨_, (((o.getRow cust .wr).write cust (payBalance env query)).write cust
    (payYtdPayment env query)).write cust (payPaymentCnt env), rfl, ho, ?_, h⟩
  split
  · exact hforesees₄.writeShared hheld (payData env query)
  · exact hforesees₄

/-- A payment either aborts before it holds all its rows, with nothing changed, or has
    made all its local writes when it comes to the customer's data. -/
theorem runPayment_cases (hforesees : lawful.Foresees s (.start store))
    (h : runPayment σ env index query s = some result) :
    (result = (.abort, store) ∧
      ∀ t, paymentTarget index query store = some t → ¬ t.Admitted admits) ∨
    ∃ t s' o, paymentTarget index query store = some t ∧ t.Admitted admits ∧
      o.onCommit = localWrites env query t store ∧ o.onAbort = store ∧
      lawful.Foresees s' (if badCredit (o.onCommit t.cust) then
        o.writeDirect inPlace t.cust (payData env t.query) else o) ∧
      σ.finish s' .rcok = some result := by
  unfold runPayment at h
  rcases withItem_cases h with ⟨hitem, h⟩ | ⟨wh, nextWh, hwh, h⟩
  · refine Or.inl ⟨aborted hforesees rfl h, fun t ht _ => ?_⟩
    simp [paymentTarget, hitem] at ht
  rcases withRow_cases hforesees (by simp [Outlook.rows, Outlook.start])
    (by split <;> decide) h with ⟨hadmits, h⟩ | ⟨hadmitsWh, s₁, hforesees₁, h⟩
  · refine Or.inl ⟨aborted hforesees rfl h, fun t ht hadm => ?_⟩
    rw [PaymentTarget.Admitted, paymentTarget_wh ht hwh, hadmits] at hadm
    exact Bool.false_ne_true hadm.1
  obtain ⟨o₁, hforesees₁, hrows₁, hlen₁, habort₁, hcommit₁⟩ := foresees_warehouse hforesees₁
  rcases withItem_cases h with ⟨hitem, h⟩ | ⟨dist, nextDist, hdist, h⟩
  · refine Or.inl ⟨aborted hforesees₁ habort₁ h, fun t ht _ => ?_⟩
    simp [paymentTarget, hitem] at ht
  rcases withRow_cases hforesees₁ (by simp [hrows₁]) (by decide) h with
    ⟨hadmits, h⟩ | ⟨hadmitsDist, s₂, hforesees₂, h⟩
  · refine Or.inl ⟨aborted hforesees₁ habort₁ h, fun t ht hadm => ?_⟩
    rw [PaymentTarget.Admitted, paymentTarget_dist ht hdist, hadmits] at hadm
    exact Bool.false_ne_true hadm.2.1
  have hforesees₃ := hforesees₂.writeLocal (i := 1) (r := ⟨.district, dist⟩)
    (by simp [Outlook.getRow, hlen₁]) (payDistrict env query)
  have hrows₃ : ((o₁.getRow ⟨.district, dist⟩ .wr).write ⟨.district, dist⟩
      (payDistrict env query)).rows = [⟨.warehouse, wh⟩, ⟨.district, dist⟩] := by
    simp only [Outlook.rows] at hrows₁
    simp [Outlook.rows, Outlook.getRow, hrows₁]
  have hread : findCustomer index query
      (σ.readShared (σ.writeLocal s₂ 1 (payDistrict env query))) =
      findCustomer index query store := by
    refine findCustomer_congr index query fun i => ?_
    rw [hforesees₃.readShared (by simp [hrows₃])]
    simp only [Outlook.write, Outlook.getRow, hcommit₁]
    split
    · simp [change]
    · simp
  simp only [hread] at h
  cases hfind : findCustomer index query store with
  | none => simp [hfind] at h
  | some found =>
      obtain ⟨item, query'⟩ := found
      simp only [hfind] at h
      rcases withItem_cases h with ⟨hitem, h⟩ | ⟨cust, nextCust, hcust, h⟩
      · refine Or.inl ⟨aborted hforesees₃ habort₁ h, fun t ht _ => ?_⟩
        simp [paymentTarget, hwh, hdist, hfind, hitem] at ht
      have htarget : paymentTarget index query store = some
          ⟨⟨.warehouse, wh⟩, ⟨.district, dist⟩, ⟨.customer, cust⟩, query'⟩ := by
        simp [paymentTarget, hwh, hdist, hfind, hcust]
      rcases finishPayment_cases hforesees₃ (by simp [Outlook.getRow, hlen₁])
        (by simp [hrows₃]) habort₁ h with ⟨hadmits, h⟩ | ⟨hadmits, s', o', hcommit', habort', h⟩
      · refine Or.inl ⟨h, fun t ht hadm => ?_⟩
        cases htarget.symm.trans ht
        exact Bool.false_ne_true (hadmits.symm.trans hadm.2.2)
      · refine Or.inr ⟨_, s', o', htarget, ⟨hadmitsWh, hadmitsDist, hadmits⟩, ?_, habort', h⟩
        rw [hcommit', localWrites]
        simp only [Outlook.write, Outlook.getRow, hcommit₁]
        rfl

/-- A payment keeps to its outcome exactly if it is handed the shared rows, never comes to
    write the customer's data, or writes there what is there. -/
theorem runPayment_atomic {rc : RC} {contents : RowRef → List Byte}
    (hforesees : lawful.Foresees s (.start store))
    (h : runPayment σ env index query s = some (rc, contents)) :
    Atomic store (paid env index query store) rc contents ↔
      inPlace = true ∨ ∀ t, paymentTarget index query store = some t → t.Admitted admits →
        badCredit (payCustomer env t.query (store t.cust)) = true →
        payData env t.query (store t.cust) = store t.cust := by
  rcases runPayment_cases hforesees h with ⟨heq, hnone⟩ |
    ⟨t, s', o, htarget, hadmitted, hcommit, habort, hforesees', hfinish⟩
  · cases heq
    exact iff_of_true ⟨by simp, fun _ => rfl⟩ (Or.inr fun t ht hadm => absurd hadm (hnone t ht))
  obtain ⟨hwh, hdist, hcust⟩ := paymentTarget_tables htarget
  have hneWh : t.cust ≠ t.wh := fun heq => by
    rw [heq, hwh] at hcust
    cases hcust
  have hneDist : t.cust ≠ t.dist := fun heq => by
    rw [heq, hdist] at hcust
    cases hcust
  have hlocal := localWrites_cust env query store hneWh hneDist
  have hcond : (∀ t, paymentTarget index query store = some t → t.Admitted admits →
        badCredit (payCustomer env t.query (store t.cust)) = true →
        payData env t.query (store t.cust) = store t.cust) ↔
      (badCredit (payCustomer env t.query (store t.cust)) = true →
        payData env t.query (store t.cust) = store t.cust) := by
    constructor
    · exact fun hall => hall t htarget hadmitted
    · rintro hone t' ht' -
      cases htarget.symm.trans ht'
      exact hone
  have hpaid : paid env index query store = paymentWrites env query t store := by
    simp [paid, htarget]
  rw [hcond, hpaid, paymentWrites]
  simp only [hcommit, hlocal] at hforesees' ⊢
  cases hbad : badCredit (payCustomer env t.query (store t.cust)) with
  | false =>
      simp only [hbad, Bool.false_eq_true, if_false] at hforesees'
      refine iff_of_true ?_ (Or.inr (by simp))
      rcases hforesees'.finish_rcok hfinish with ⟨rfl, rfl⟩ | ⟨rfl, rfl⟩
      · exact ⟨fun _ => by simp [hcommit], fun hne => absurd rfl hne⟩
      · exact ⟨by simp, fun _ => habort⟩
  | true =>
      simp only [hbad, if_true, true_implies] at hforesees' ⊢
      have hsame := payData_eq_self_congr env t.query
        (drop_payCustomer env t.query (store t.cust))
      cases inPlace with
      | true =>
          refine iff_of_true ?_ (Or.inl rfl)
          rcases hforesees'.finish_rcok hfinish with ⟨rfl, rfl⟩ | ⟨rfl, rfl⟩
          · refine ⟨fun _ => ?_, fun hne => absurd rfl hne⟩
            simp [Outlook.writeDirect, Outlook.write, change, hcommit]
          · exact ⟨by simp, fun _ => habort⟩
      | false =>
          simp only [Bool.false_eq_true, false_or]
          rcases hforesees'.finish_rcok hfinish with ⟨rfl, rfl⟩ | ⟨rfl, rfl⟩
          · -- committed: the copy without the new data came over it
            have hshared : (o.writeDirect false t.cust (payData env t.query)).onCommit =
              localWrites env query t store := hcommit
            rw [← hsame, ← hlocal, ← change_eq_self_iff, hshared]
            simp [Atomic, eq_comm]
          · -- aborted: the new data stays
            have hshared : (o.writeDirect false t.cust (payData env t.query)).onAbort =
                change store t.cust (payData env t.query) := by
              simp [Outlook.writeDirect, change, habort]
            rw [← change_eq_self_iff, hshared]
            simp [Atomic]

end

end VeriTxn.Tpcc
