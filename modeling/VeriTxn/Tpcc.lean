import VeriTxn.Bytes
import VeriTxn.TxnOutlook
import Mathlib.Data.UInt

/-!
# TPC-C: tables, columns and keys

The tuples of `TPCC_full_schema.txt` that the transactions read and write, and the
keys of `common/tpcc_helper.h`.  There is one partition, so the key alone selects an
index entry.  A `double` is the 64 bits it is stored in.
-/

namespace VeriTxn.Tpcc

open Bytes

inductive Table where
  | warehouse | district | customer | history | newOrder | order | orderLine | item | stock
deriving DecidableEq, Repr

/-- A row by its table and its place there. -/
structure RowRef where
  table : Table
  id : Nat
deriving DecidableEq, Repr

/-! ### Columns -/

/-- The column sizes of a table, in the order of `Catalog::add_col`. -/
def columns : Table → List Nat
  | .warehouse => [8, 10, 20, 20, 20, 2, 9, 8, 8]
  | .district => [8, 8, 10, 20, 20, 20, 2, 9, 8, 8, 8]
  | .customer => [8, 8, 8, 16, 2, 16, 20, 20, 20, 2, 9, 16, 8, 2, 8, 8, 8, 8, 8, 8, 500]
  | .history => [8, 8, 8, 8, 8, 8, 8, 24]
  | .newOrder => [8, 8, 8]
  | .order => [8, 8, 8, 8, 8, 8, 8, 8]
  | .orderLine => [8, 8, 8, 8, 8, 8, 8, 8, 8, 8]
  | .item => [8, 8, 24, 8, 50]
  | .stock => [8, 8, 8, 24, 24, 24, 24, 24, 24, 24, 24, 24, 24, 8, 8, 8, 50]

/-- `Catalog::get_field_index`. -/
def fieldIndex (table : Table) (id : Nat) : Nat := ((columns table).take id).sum

/-- `Catalog::get_field_size`. -/
def fieldSize (table : Table) (id : Nat) : Nat := (columns table).getD id 0

def wYtd : Nat := 8
def dYtd : Nat := 9
def dNextOId : Nat := 10
def cId : Nat := 0
def cCredit : Nat := 13
def cBalance : Nat := 16
def cYtdPayment : Nat := 17
def cPaymentCnt : Nat := 18
def cDiscount : Nat := 15
def cData : Nat := 20
def iPrice : Nat := 3
def sQuantity : Nat := 2
def sYtd : Nat := 13
def sOrderCnt : Nat := 14
def sRemoteCnt : Nat := 15

/-- `row_t::get_value` of an eight byte column. -/
def getValue (table : Table) (id : Nat) (data : List Byte) : UInt64 :=
  .ofNat (unpackLE ((data.drop (fieldIndex table id)).take 8))

/-- `row_t::set_value(id, ptr)`. -/
def setBytes (table : Table) (id : Nat) (src data : List Byte) : List Byte :=
  overwrite data (fieldIndex table id) (src.take (fieldSize table id))

/-- `row_t::set_value(id, value)` of an eight byte value. -/
def setValue (table : Table) (id : Nat) (value : UInt64) (data : List Byte) : List Byte :=
  setBytes table id (packLE 8 value.toNat) data

/-- A column before position `n` does not reach beyond it. -/
theorem drop_setBytes {table : Table} {id n : Nat} (src data : List Byte)
    (h : fieldIndex table id + fieldSize table id ≤ n) :
    (setBytes table id src data).drop n = data.drop n := by
  refine drop_overwrite ?_
  rw [List.length_take]
  omega

/-! ### Keys -/

/-- `DIST_PER_WARE`. -/
def distPerWare : UInt64 := 10

/-- `cust_per_dist`, `g_cust_per_dist_enc`. -/
def custPerDist : UInt64 := 3000

def maxItems : UInt64 := 100000

def distKey (dId dWId : UInt64) : UInt64 := dWId * distPerWare + dId

def custKey (cId cDId cWId : UInt64) : UInt64 := distKey cDId cWId * custPerDist + cId

def neworderKey (oId oDId oWId : UInt64) : UInt64 :=
  let gMaxOrderline : UInt64 := 2 ^ 32
  distKey oDId oWId * gMaxOrderline + (gMaxOrderline - oId)

def orderlineKey (wId dId oId : UInt64) : UInt64 := distKey dId wId * custPerDist + oId

def orderPrimaryKey (wId dId oId : UInt64) : UInt64 := orderlineKey wId dId oId

/-- `c_last[i] - 'A'`, a signed `char` minus a `char`. -/
def charOffset (c : Byte) : UInt64 := c.toInt8.toInt64.toUInt64 - 65

/-- Non-primary key. -/
def custNPKey (cLast : List Byte) (cDId cWId : UInt64) : UInt64 :=
  let key := (cString cLast 0).foldl
    (fun (key : UInt64) c => (key <<< (2 : UInt64)) + charOffset c) 0
  (key <<< (3 : UInt64)) + (cWId * distPerWare + cDId)

def stockKey (sIId sWId : UInt64) : UInt64 := sWId * maxItems + sIId

/-- The indexes, as `index_read` finds them. -/
structure Indexes where
  warehouse : UInt64 → Lookup Nat
  district : UInt64 → Lookup Nat
  customerId : UInt64 → Lookup Nat
  customerLast : UInt64 → Lookup Nat

end VeriTxn.Tpcc
