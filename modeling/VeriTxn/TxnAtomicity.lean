import VeriTxn.PaymentTxn
import VeriTxn.YcsbTxn

/-!
# Atomicity of row data

When does a transaction run alone leave all of its writes on RCOK and none of them
otherwise?  Under `NO_WAIT` always.  Under `OCC` and `SILO` the YCSB body, which writes
to the shared row, and a payment by a customer with bad credit, which writes the
customer's data there, lose these writes on commit (the copy comes over them) and keep
them on abort (nothing takes them back).
-/

namespace VeriTxn

open Bytes

/-- A YCSB query on rows `R`, or a payment on the TPC-C tables, run alone is atomic exactly
    if `get_row` hands out the shared rows or what it writes to the shared rows before it
    ends is there already. -/
theorem row_data_atomic_iff {R : Type} [DecidableEq R] (alg : CcAlg R)
    (algTpcc : CcAlg Tpcc.RowRef) :
    (∀ (primaryKey : R → Nat) (index : Ycsb.MainIndex R) (requests : List Ycsb.Request)
      (store contents : R → List Byte) (rc : RC), 1 < requests.length →
      (∀ req ∈ requests, req.rtype = .rd ∨ req.rtype = .wr) →
      (requests.map Ycsb.Request.key).Nodup →
      Ycsb.runTxn (alg.scheme _) primaryKey index requests (alg.init store) =
        some (rc, contents) →
      (Atomic store (Ycsb.written store (Ycsb.targets index requests)) rc contents ↔
        alg.inPlace = true ∨ ∀ r ∈ Ycsb.targets index (Ycsb.reached index alg.admits requests),
          Ycsb.zeroFirst (store r) = store r)) ∧
    (∀ (env : Tpcc.PaymentEnv) (index : Tpcc.Indexes) (query : Tpcc.PaymentQuery)
      (store contents : Tpcc.RowRef → List Byte) (rc : RC),
      Tpcc.runPayment (algTpcc.scheme _) env index query (algTpcc.init store) =
        some (rc, contents) →
      (Atomic store (Tpcc.paid env index query store) rc contents ↔
        algTpcc.inPlace = true ∨ ∀ t, Tpcc.paymentTarget index query store = some t →
          t.Admitted algTpcc.admits →
          Tpcc.badCredit (Tpcc.payCustomer env t.query (store t.cust)) = true →
          Tpcc.payData env t.query (store t.cust) = store t.cust)) := by
  constructor
  · intro primaryKey index requests store contents rc hcnt htypes hkeys h
    exact Ycsb.runTxn_atomic (alg.foresees_init store) hcnt htypes hkeys h
  · intro env index query store contents rc h
    exact Tpcc.runPayment_atomic (algTpcc.foresees_init store) h

/-! ### Two writes, and a payment -/

namespace Ycsb

/-- Keys 0 and 1 are there. -/
def twoRows : MainIndex Nat where
  read key := if key < 2 then .found key [] else .absent
  next _ := none

def ones : Nat → List Byte := fun _ => List.replicate 100 1

def occ : CcAlg Nat := .occ .default ⟨fun _ => "MAIN_TABLE", id⟩ 1 (fun _ => 0) 1

def writeBoth : List Request := [⟨.wr, 0, 0⟩, ⟨.wr, 1, 0⟩]

def writeMissing : List Request := [⟨.wr, 0, 0⟩, ⟨.wr, 2, 0⟩]

end Ycsb

namespace Tpcc

/-- One warehouse, district and customer. -/
def oneCustomer : Indexes where
  warehouse _ := .found 0 []
  district _ := .found 0 []
  customerId _ := .found 0 []
  customerLast _ := .found 0 []

/-- `double` addition as far as it is used, with one operand `0.0`. -/
def nothingPaid : PaymentEnv where
  whUpdate := true
  add a b := if a = 0 then b else a
  sub a _ := a
  text _ := []
  stack := List.replicate 501 0

def zeros (r : RowRef) : List Byte := List.replicate (columns r.table).sum 0

def occ : CcAlg RowRef := .occ .default ⟨fun _ => "CUSTOMER", RowRef.id⟩ 1 (fun _ => 0) 1

end Tpcc

open Ycsb in
/-- `NO_WAIT` keeps both writes; a payment under `OCC` by a customer whose credit is not
    bad commits as a whole. -/
theorem row_data_atomic_noWait :
    (∃ contents, runTxn ((CcAlg.noWait 0).scheme _) id twoRows writeBoth
        ((CcAlg.noWait 0).init ones) = some (.rcok, contents) ∧
      Atomic ones (written ones (targets twoRows writeBoth)) .rcok contents) ∧
    ∃ contents, Tpcc.runPayment (Tpcc.occ.scheme _) Tpcc.nothingPaid Tpcc.oneCustomer
        ⟨1, 1, 1, 1, 1, 1, [], 0, false⟩ (Tpcc.occ.init Tpcc.zeros) = some (.rcok, contents) ∧
      Atomic Tpcc.zeros (Tpcc.paid Tpcc.nothingPaid Tpcc.oneCustomer
        ⟨1, 1, 1, 1, 1, 1, [], 0, false⟩ Tpcc.zeros) .rcok contents := by
  refine ⟨⟨_, rfl, ?_⟩, ?_⟩
  · exact ((row_data_atomic_iff (.noWait 0) Tpcc.occ).1 id twoRows writeBoth ones _ .rcok
      (by decide) (by decide) (by decide) rfl).mpr (Or.inl rfl)
  · have hrun : (Tpcc.runPayment (Tpcc.occ.scheme _) Tpcc.nothingPaid Tpcc.oneCustomer
        ⟨1, 1, 1, 1, 1, 1, [], 0, false⟩ (Tpcc.occ.init Tpcc.zeros)).map Prod.fst =
        some .rcok := by
      decide +kernel
    obtain ⟨⟨rc, contents⟩, hrun, hrc⟩ := Option.map_eq_some_iff.mp hrun
    cases hrc
    refine ⟨contents, hrun, ((row_data_atomic_iff occ Tpcc.occ).2 Tpcc.nothingPaid
      Tpcc.oneCustomer ⟨1, 1, 1, 1, 1, 1, [], 0, false⟩ Tpcc.zeros contents .rcok hrun).mpr
      (Or.inr ?_)⟩
    have hgood : Tpcc.badCredit (Tpcc.payCustomer Tpcc.nothingPaid
        ⟨1, 1, 1, 1, 1, 1, [], 0, false⟩ (Tpcc.zeros ⟨.customer, 0⟩)) = false := by
      decide +kernel
    rintro t ht - hbad
    cases ht
    exact absurd hbad (Bool.eq_false_iff.mp hgood)

open Ycsb in
/-- Under `OCC` two writes that commit are lost, and one before a missing key stays
    although the transaction aborts. -/
theorem row_data_not_atomic :
    (∃ contents, runTxn (occ.scheme _) id twoRows writeBoth (occ.init ones) =
        some (.rcok, contents) ∧ contents 0 = ones 0 ∧
      ¬ Atomic ones (written ones (targets twoRows writeBoth)) .rcok contents) ∧
    ∃ contents, runTxn (occ.scheme _) id twoRows writeMissing (occ.init ones) =
        some (.abort, contents) ∧ contents 0 = zeroFirst (ones 0) ∧
      ¬ Atomic ones (written ones (targets twoRows writeMissing)) .abort contents := by
  refine ⟨⟨_, rfl, by decide +kernel, fun h => ?_⟩, ⟨_, rfl, by decide +kernel, fun h => ?_⟩⟩
  · exact absurd (congrFun (h.1 rfl) 0) (by decide +kernel)
  · exact absurd (congrFun (h.2 (by decide)) 0) (by decide +kernel)

end VeriTxn
