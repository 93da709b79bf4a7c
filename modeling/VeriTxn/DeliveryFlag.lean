import VeriTxn.TxnExits

/-!
# Delivery

`run_delivery` with its loops, and the flag `delivering` by which a warehouse has at most one
delivery at a time.  The loop over the lines of an order does not advance `item`, and no line of
the program sets the flag back.

What a delivery writes is read by none of its branches and is left out.
-/

namespace VeriTxn.Delivery

open Bytes Tpcc Course

/-- What `run_delivery` reads: the flags, the items of every key, the rows and whether `get_row`
    grants one for writing. -/
structure State where
  delivering : UInt64 → Bool
  items : IndexName → UInt64 → List RowRef
  data : RowRef → List Byte
  grants : RowRef → Bool

/-- How a call ends: with a result, by way of `finish` or not, or at a null pointer. -/
inductive Outcome where
  | finished (rc : RC)
  | returned (rc : RC)
  | crashed
deriving DecidableEq

def Outcome.Returns : Outcome → Prop
  | .finished _ => True
  | .returned _ => True
  | .crashed => False

/-- The loop over the lines of an order, `item` being the list from the current one on. -/
def linesLoop : Nat → List RowRef → Option Unit
  | 0, _ => none
  | _ + 1, [] => some ()
  | fuel + 1, item :: next => linesLoop fuel (item :: next)

/-- The loop over the districts that are left. -/
def districtLoop (s : State) (wId : UInt64) (fuel : Nat) : List UInt64 → Option Outcome
  | [] => some (.returned .rcok)
  | dId :: districts =>
      match s.items .orderLine (distKey dId wId) with
      | [] => some (.returned .abort)
      | first :: next =>
          let noOId := getValue .orderLine olOId (s.data (next.getLastD first))
          match s.items .order (orderPrimaryKey wId dId noOId) with
          | [] => some .crashed
          | order :: _ =>
              if s.grants order then do
                linesLoop fuel (s.items .orderLine (orderlineKey wId dId noOId))
                match s.items .customerId
                    (custKey (getValue .order oCId (s.data order)) dId wId) with
                | [] => some .crashed
                | _ :: _ => districtLoop s wId fuel districts
              else some .crashed

/-- `run_delivery`: `none` when it has not returned after `fuel` turns of an inner loop. -/
def runDelivery (wId : UInt64) (s : State) (fuel : Nat) : Option (Outcome × State) :=
  if s.delivering wId then some (.finished .rcok, s)
  else
    let s := { s with delivering := Function.update s.delivering wId true }
    (districtLoop s wId fuel [1, 2, 3, 4, 5, 6, 7, 8, 9, 10]).map fun out => (out, s)

/-- The delivery comes back, and the next one for the warehouse is not turned away by the flag. -/
def DeliversAgain (wId : UInt64) (s : State) : Prop :=
  ∃ fuel out s', runDelivery wId s fuel = some (out, s') ∧ out.Returns ∧ s'.delivering wId = false

/-- A district whose reads find their rows, with at least one line for its order. -/
def LinesFound (s : State) (wId dId : UInt64) : Prop :=
  ∃ first next order rest, s.items .orderLine (distKey dId wId) = first :: next ∧
    s.items .order (orderPrimaryKey wId dId
      (getValue .orderLine olOId (s.data (next.getLastD first)))) = order :: rest ∧
    s.grants order = true ∧
    s.items .orderLine (orderlineKey wId dId
      (getValue .orderLine olOId (s.data (next.getLastD first)))) ≠ []

/-- With a line the loop never ends. -/
theorem linesLoop_cons (item : RowRef) (next : List RowRef) (fuel : Nat) :
    linesLoop fuel (item :: next) = none := by
  induction fuel with
  | zero => rfl
  | succ fuel ih => rw [linesLoop, ih]

theorem districtLoop_of_linesFound {s : State} {wId dId : UInt64} (h : LinesFound s wId dId)
    (fuel : Nat) (districts : List UInt64) :
    districtLoop s wId fuel (dId :: districts) = none := by
  obtain ⟨first, next, order, rest, hlines, horder, hgrants, hmore⟩ := h
  obtain ⟨item, items, hitems⟩ := List.exists_cons_of_ne_nil hmore
  simp only [districtLoop, hlines, horder, hgrants, hitems, linesLoop_cons, if_true]
  rfl

/-- Whatever a delivery does, the flag is set when it comes back. -/
theorem runDelivery_flag {wId : UInt64} {s s' : State} {fuel : Nat} {out : Outcome}
    (h : runDelivery wId s fuel = some (out, s')) : s'.delivering wId = true := by
  unfold runDelivery at h
  split at h
  · rename_i hset
    cases h
    exact hset
  · obtain ⟨_, -, heq⟩ := Option.map_eq_some_iff.mp h
    cases heq
    exact Function.update_self ..

/-- No delivery leaves the warehouse open for the next one: one that returns leaves the flag set, so
    that every later one is turned away, and one that comes to an order with lines in its first
    district does not return. -/
theorem delivery_never_repeats (wId : UInt64) (s : State) :
    ¬ DeliversAgain wId s ∧
      (∀ fuel out s', runDelivery wId s fuel = some (out, s') →
        ∀ fuel', runDelivery wId s' fuel' = some (.finished .rcok, s')) ∧
      (s.delivering wId = false → LinesFound s wId 1 → ∀ fuel, runDelivery wId s fuel = none) := by
  refine ⟨?_, fun fuel out s' hrun fuel' => ?_, fun hclear hlines fuel => ?_⟩
  · rintro ⟨fuel, out, s', hrun, -, hclear⟩
    rw [runDelivery_flag hrun] at hclear
    cases hclear
  · rw [runDelivery, if_pos (runDelivery_flag hrun)]
  · have hnever := districtLoop_of_linesFound
      (s := { s with delivering := Function.update s.delivering wId true }) hlines fuel
      [2, 3, 4, 5, 6, 7, 8, 9, 10]
    simp only [runDelivery, hclear, hnever]
    rfl

/-- Every key has the same one row, of zeros. -/
def oneRow : State where
  delivering _ := false
  items _ _ := [⟨.orderLine, 1⟩]
  data _ := List.replicate 64 0
  grants _ := true

/-- All reads of the delivery find a row, and it never returns. -/
theorem delivery_of_one_line :
    (∀ index key, oneRow.items index key ≠ []) ∧ (∀ fuel, runDelivery 1 oneRow fuel = none) ∧
      ¬ ∀ (s : State) (wId : UInt64), (∀ index key, s.items index key ≠ []) →
        DeliversAgain wId s := by
  have hlines :
      LinesFound { oneRow with delivering := Function.update oneRow.delivering 1 true } 1 1 :=
    ⟨_, _, _, _, rfl, rfl, rfl, List.cons_ne_nil _ _⟩
  have hnever : ∀ fuel, runDelivery 1 oneRow fuel = none := by
    intro fuel
    have hloop := districtLoop_of_linesFound hlines fuel [2, 3, 4, 5, 6, 7, 8, 9, 10]
    rw [runDelivery, if_neg (by decide)]
    simp only [hloop]
    rfl
  have hfound : ∀ index key, oneRow.items index key ≠ [] := fun _ _ => List.cons_ne_nil _ _
  refine ⟨hfound, hnever, fun hall => ?_⟩
  obtain ⟨fuel, out, s', hrun, -, -⟩ := hall oneRow 1 hfound
  rw [hnever fuel] at hrun
  cases hrun

end VeriTxn.Delivery
