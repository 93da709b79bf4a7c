import Mathlib.Data.List.Perm.Basic
import Mathlib.Data.List.Nodup
import Mathlib.Logic.Function.Basic

/-!
# Serial executions of deterministic transactions

A transaction is a deterministic program over a store `R → D`: the values read
so far decide the next access, and all values read decide what it leaves in the
rows it writes.  An observation of a transaction is the list of its accesses
with the value each one returned.  A history is serializable when its committed
observations can be put in an order in which running the programs one after
another returns the same values and ends in the same store.
-/

namespace Serial

variable {R D : Type*}

/-- One access: the row, whether it is a write access, and the value returned. -/
structure Op (R D : Type*) where
  row : R
  writes : Bool
  value : D

/-- A deterministic transaction program. -/
structure Program (R D : Type*) where
  /-- the next access, from the values returned so far; `none` to commit -/
  next : List D → Option (R × Bool)
  /-- the contents to leave in the `i`-th accessed row, from all values returned -/
  result : List D → Nat → D

/-- `ops` continues, from the values `seen`, the way the program asks for. -/
def Program.Continues (p : Program R D) (seen : List D) : List (Op R D) → Prop
  | [] => True
  | o :: ops => p.next seen = some (o.row, o.writes) ∧ p.Continues (seen ++ [o.value]) ops

/-- A complete observation of the program: every access is the one it asks for,
    and after the last one it commits. -/
def Program.Observes (p : Program R D) (ops : List (Op R D)) : Prop :=
  p.Continues [] ops ∧ p.next (ops.map Op.value) = none

/-- The rows written with their new contents, counting accesses from `i`. -/
def Program.writesFrom (p : Program R D) (values : List D) : Nat → List (Op R D) → List (R × D)
  | _, [] => []
  | i, o :: ops =>
      if o.writes then (o.row, p.result values i) :: p.writesFrom values (i + 1) ops
      else p.writesFrom values (i + 1) ops

def Program.writeSet (p : Program R D) (ops : List (Op R D)) : List (R × D) :=
  p.writesFrom (ops.map Op.value) 0 ops

/-- The program's own accesses so far, extended by the one it asks for next. -/
theorem Program.Continues.snoc {p : Program R D} {seen : List D} {ops : List (Op R D)}
    {o : Op R D} (h : p.Continues seen ops)
    (hnext : p.next (seen ++ ops.map Op.value) = some (o.row, o.writes)) :
    p.Continues seen (ops ++ [o]) := by
  induction ops generalizing seen with
  | nil => exact ⟨by simpa using hnext, trivial⟩
  | cons head ops ih => exact ⟨h.1, ih h.2 (by simpa using hnext)⟩

variable [DecidableEq R]

/-- Install a list of writes, first to last. -/
def install (store : R → D) (writes : List (R × D)) : R → D :=
  writes.foldl (fun st w => Function.update st w.1 w.2) store

/-- Running the program alone on `store` gives the observation `ops` and leaves
    `store'`. -/
def Executes (p : Program R D) (ops : List (Op R D)) (store store' : R → D) : Prop :=
  p.Observes ops ∧ (∀ o ∈ ops, o.value = store o.row) ∧ store' = install store (p.writeSet ops)

/-- The observations run one after another from `store` to `store'`. -/
def SerialHistory : List (Program R D × List (Op R D)) → (R → D) → (R → D) → Prop
  | [], store, store' => store = store'
  | c :: rest, store, store' =>
      ∃ mid, Executes c.1 c.2 store mid ∧ SerialHistory rest mid store'

/-- Some order of the committed observations is a serial history. -/
def Serializable (committed : List (Program R D × List (Op R D))) (store store' : R → D) : Prop :=
  ∃ order, order.Perm committed ∧ SerialHistory order store store'

/-- Appending one more execution at the end of a serial history. -/
theorem SerialHistory.snoc {history : List (Program R D × List (Op R D))}
    {c : Program R D × List (Op R D)} {store mid store' : R → D}
    (h : SerialHistory history store mid) (hlast : Executes c.1 c.2 mid store') :
    SerialHistory (history ++ [c]) store store' := by
  induction history generalizing store with
  | nil =>
      cases h
      exact ⟨store', hlast, rfl⟩
  | cons head rest ih =>
      obtain ⟨next, hhead, hrest⟩ := h
      exact ⟨next, hhead, ih hrest⟩

/-! ### Installing writes to distinct rows -/

theorem install_cons (store : R → D) (w : R × D) (writes : List (R × D)) :
    install store (w :: writes) = install (Function.update store w.1 w.2) writes := rfl

theorem install_of_not_mem {store : R → D} {writes : List (R × D)} {r : R}
    (h : r ∉ writes.map Prod.fst) : install store writes r = store r := by
  induction writes generalizing store with
  | nil => rfl
  | cons w writes ih =>
      simp only [List.map_cons, List.mem_cons, not_or] at h
      rw [install_cons, ih h.2, Function.update_of_ne h.1]

theorem install_append (store : R → D) (writes writes' : List (R × D)) :
    install store (writes ++ writes') = install (install store writes) writes' :=
  List.foldl_append

theorem install_update_of_mem {store : R → D} {writes : List (R × D)} {r : R} (d : D)
    (h : r ∈ writes.map Prod.fst) :
    install (Function.update store r d) writes = install store writes := by
  induction writes generalizing store with
  | nil => cases h
  | cons w writes ih =>
      rw [install_cons, install_cons]
      by_cases hw : r = w.1
      · rw [hw, Function.update_idem]
      · rw [Function.update_comm hw]
        exact ih ((List.mem_cons.mp h).resolve_left hw)

theorem install_update_of_not_mem {store : R → D} {writes : List (R × D)} {r : R} (d : D)
    (h : r ∉ writes.map Prod.fst) :
    install (Function.update store r d) writes = Function.update (install store writes) r d := by
  induction writes generalizing store with
  | nil => rfl
  | cons w writes ih =>
      simp only [List.map_cons, List.mem_cons, not_or] at h
      rw [install_cons, install_cons, Function.update_comm h.1]
      exact ih h.2

/-- Writes that agree with `target`, over a store that agrees with it elsewhere,
    install `target`. -/
theorem install_eq_of_agree {store target : R → D} {writes : List (R × D)}
    (hwrites : ∀ w ∈ writes, w.2 = target w.1)
    (helse : ∀ r, r ∉ writes.map Prod.fst → store r = target r) :
    install store writes = target := by
  induction writes generalizing store with
  | nil => exact funext fun r => helse r (by simp)
  | cons w writes ih =>
      rw [install_cons]
      refine ih (fun v hv => hwrites v (by simp [hv])) fun r hr => ?_
      by_cases hrow : r = w.1
      · rw [hrow, Function.update_self]
        exact hwrites w (by simp)
      · rw [Function.update_of_ne hrow]
        exact helse r (by simpa [hrow] using hr)

/-- Installing contents a store already has changes nothing. -/
theorem install_eq_self {store : R → D} {writes : List (R × D)}
    (h : ∀ w ∈ writes, w.2 = store w.1) : install store writes = store :=
  install_eq_of_agree h fun _ _ => rfl

theorem install_of_mem {store : R → D} {writes : List (R × D)} {w : R × D}
    (hnodup : (writes.map Prod.fst).Nodup) (h : w ∈ writes) : install store writes w.1 = w.2 := by
  induction writes generalizing store with
  | nil => cases h
  | cons head writes ih =>
      have hparts := List.nodup_cons.mp hnodup
      rcases List.mem_cons.mp h with rfl | hmem
      · rw [install_cons, install_of_not_mem hparts.1, Function.update_self]
      · exact ih hparts.2 hmem

/-- Writes to distinct rows leave the store as it is exactly when each of them
    writes what is there. -/
theorem install_eq_self_iff {store : R → D} {writes : List (R × D)}
    (hnodup : (writes.map Prod.fst).Nodup) :
    install store writes = store ↔ ∀ w ∈ writes, w.2 = store w.1 := by
  constructor
  · intro heq w hw
    rw [← install_of_mem hnodup hw, heq]
  · exact install_eq_self

/-- With distinct rows the order in which writes are installed does not matter. -/
theorem install_perm {writes writes' : List (R × D)} (h : writes.Perm writes')
    (hnodup : (writes.map Prod.fst).Nodup) (store : R → D) :
    install store writes = install store writes' := by
  induction h generalizing store with
  | nil => rfl
  | cons w _ ih =>
      rw [install_cons, install_cons, ih (List.nodup_cons.mp hnodup).2]
  | swap a b rest =>
      have hne : b.1 ≠ a.1 := by
        intro heq
        simp [heq] at hnodup
      rw [install_cons, install_cons, install_cons, install_cons,
        Function.update_comm hne]
  | trans hab _ ihab ihbc =>
      rw [ihab hnodup, ihbc ((hab.map Prod.fst).nodup_iff.mp hnodup)]

end Serial
