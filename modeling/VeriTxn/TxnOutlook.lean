import VeriTxn.TxnScheme

/-!
# What a running transaction will leave behind

Of the state of a transaction manager a transaction body needs to know no more than
its outlook: the rows it holds and the contents all rows will have if it commits now
and if it aborts now.  A write through the row that `get_row` returned changes the
first.  A write to the shared row behind it changes the first when `get_row` hands the
shared row out, and the second when it hands out copies.
-/

namespace VeriTxn

open Serial

variable {R D : Type}

structure Outlook (R D : Type) where
  held : List (R × AccessT)
  onCommit : R → D
  onAbort : R → D

namespace Outlook

def start (store : R → D) : Outlook R D := ⟨[], store, store⟩

def rows (o : Outlook R D) : List R := o.held.map Prod.fst

def getRow (o : Outlook R D) (r : R) (type : AccessT) : Outlook R D :=
  { o with held := o.held ++ [(r, type)] }

variable [DecidableEq R]

/-- A write through the row returned by `get_row`. -/
def write (o : Outlook R D) (r : R) (f : D → D) : Outlook R D :=
  { o with onCommit := Function.update o.onCommit r (f (o.onCommit r)) }

/-- A write to the shared row. -/
def writeDirect (inPlace : Bool) (o : Outlook R D) (r : R) (f : D → D) : Outlook R D :=
  if inPlace then o.write r f
  else { o with onAbort := Function.update o.onAbort r (f (o.onAbort r)) }

@[simp] theorem held_write (o : Outlook R D) (r : R) (f : D → D) :
    (o.write r f).held = o.held := rfl

@[simp] theorem onAbort_write (o : Outlook R D) (r : R) (f : D → D) :
    (o.write r f).onAbort = o.onAbort := rfl

@[simp] theorem held_writeDirect (inPlace : Bool) (o : Outlook R D) (r : R) (f : D → D) :
    (o.writeDirect inPlace r f).held = o.held := by
  cases inPlace with
  | false => rfl
  | true => rfl

end Outlook

variable [DecidableEq R]

/-- The state's outlook is `o`. -/
structure Scheme.Lawful.Foresees {σ : Scheme R D} {inPlace : Bool} {admits : R → Bool}
    (lawful : σ.Lawful inPlace admits) (s : σ.State) (o : Outlook R D) : Prop where
  good : lawful.Good s
  held : (lawful.view s).held.map (fun h => (h.row, h.type)) = o.held
  nodup : o.rows.Nodup
  onCommit : (lawful.view s).commit inPlace = o.onCommit
  onAbort : (lawful.view s).abort inPlace = o.onAbort

namespace Scheme.Lawful.Foresees

variable {σ : Scheme R D} {inPlace : Bool} {admits : R → Bool} {lawful : σ.Lawful inPlace admits}
  {s : σ.State} {o : Outlook R D}

theorem start {store : R → D} (hgood : lawful.Good s) (hview : lawful.view s = ⟨store, []⟩) :
    lawful.Foresees s (.start store) where
  good := hgood
  held := by rw [hview]; rfl
  nodup := List.nodup_nil
  onCommit := by
    rw [hview]
    cases inPlace with
    | false => rfl
    | true => rfl
  onAbort := by
    rw [hview]
    cases inPlace with
    | false => rfl
    | true => rfl

theorem rows_eq (h : lawful.Foresees s o) : (lawful.view s).rows = o.rows := by
  rw [Outlook.rows, ← h.held, List.map_map]
  rfl

theorem nodup_view (h : lawful.Foresees s o) : (lawful.view s).rows.Nodup := by
  rw [h.rows_eq]
  exact h.nodup

/-- The access behind an entry of `held`. -/
theorem held_get (h : lawful.Foresees s o) {i : Nat} {r : R} {type : AccessT}
    (hi : o.held[i]? = some (r, type)) :
    ∃ held, (lawful.view s).held[i]? = some held ∧ held.row = r ∧ held.type = type := by
  rw [← h.held, List.getElem?_map] at hi
  obtain ⟨held, hheld, heq⟩ := Option.map_eq_some_iff.mp hi
  cases heq
  exact ⟨held, hheld, rfl, rfl⟩

theorem getRow_admitted (h : lawful.Foresees s o) {r : R} {type : AccessT} (hr : r ∉ o.rows)
    (htype : type ≠ .xp) (hadmits : admits r = true) :
    ∃ s', σ.getRow s r type = some (some s') ∧ lawful.Foresees s' (o.getRow r type) := by
  have hrow : r ∉ (lawful.view s).rows := by rwa [h.rows_eq]
  obtain ⟨s', hget, hgood, hview⟩ := lawful.getRow_admitted s r type h.good hrow htype hadmits
  have hinstall := View.install_copies_getRow type hrow
  refine ⟨s', hget, hgood, ?_, ?_, ?_, ?_⟩
  · simp [hview, View.getRow, Outlook.getRow, ← h.held]
  · simpa [Outlook.rows, Outlook.getRow, List.nodup_append] using
      And.intro h.nodup fun q type hq heq =>
        hr (List.mem_map.mpr ⟨(q, type), hq, heq⟩)
  · rw [hview]
    calc ((lawful.view s).getRow r type).commit inPlace
        = (lawful.view s).commit inPlace := by
          cases inPlace with
          | false => exact hinstall
          | true => rfl
      _ = o.onCommit := h.onCommit
  · rw [hview]
    calc ((lawful.view s).getRow r type).abort inPlace
        = (lawful.view s).abort inPlace := by
          cases inPlace with
          | false => rfl
          | true => exact hinstall
      _ = o.onAbort := h.onAbort

theorem getRow_refused (h : lawful.Foresees s o) {r : R} (type : AccessT) (hr : r ∉ o.rows)
    (hadmits : admits r = false) : σ.getRow s r type = some none :=
  lawful.getRow_refused s r type h.good (by rwa [h.rows_eq]) hadmits

theorem readLocal (h : lawful.Foresees s o) {i : Nat} {r : R}
    (hi : o.held[i]? = some (r, .wr)) : σ.readLocal s i = some (o.onCommit r) := by
  obtain ⟨held, hheld, rfl, htype⟩ := h.held_get hi
  rw [lawful.readLocal_eq, View.readLocal, hheld, ← h.onCommit]
  cases inPlace with
  | false =>
      exact congrArg some
        (install_of_mem (View.nodup_copies h.nodup_view) (View.mem_copies hheld htype)).symm
  | true => rfl

/-- A row that is not held has the same contents whatever happens. -/
theorem readShared (h : lawful.Foresees s o) {r : R} (hr : r ∉ o.rows) :
    σ.readShared s r = o.onCommit r := by
  rw [lawful.readShared_eq, ← h.onCommit]
  cases inPlace with
  | false =>
      refine (install_of_not_mem fun hmem => hr ?_).symm
      rw [← h.rows_eq]
      exact View.copies_rows_subset _ hmem
  | true => rfl

theorem writeLocal (h : lawful.Foresees s o) {i : Nat} {r : R}
    (hi : o.held[i]? = some (r, .wr)) (f : D → D) :
    lawful.Foresees (σ.writeLocal s i f) (o.write r f) := by
  obtain ⟨held, hheld, rfl, htype⟩ := h.held_get hi
  obtain ⟨hgood, hview⟩ := lawful.writeLocal_eq s i f h.good
  have hmem : held.row ∈ (lawful.view s).copies.map Prod.fst :=
    List.mem_map.mpr ⟨_, View.mem_copies hheld htype, rfl⟩
  simp only [View.writeLocal, hheld] at hview
  cases inPlace with
  | false =>
      simp only [Bool.false_eq_true, if_false] at hview
      have hcommit := View.install_copies_set f h.nodup_view hheld htype
      refine ⟨hgood, ?_, h.nodup, ?_, ?_⟩
      · rw [hview, Outlook.held_write, ← h.held, List.map_set]
        refine List.ext_getElem? fun j => ?_
        by_cases hj : i = j
        · subst hj
          rw [List.getElem?_set_self', List.getElem?_map, hheld]
          rfl
        · rw [List.getElem?_set_ne hj]
      · rw [hview, Outlook.write, ← h.onCommit]
        exact hcommit
      · rw [hview, Outlook.onAbort_write, ← h.onAbort]
        rfl
  | true =>
      simp only [if_true] at hview
      refine ⟨hgood, ?_, h.nodup, ?_, ?_⟩
      · rw [hview, Outlook.held_write, ← h.held]
        rfl
      · rw [hview, Outlook.write, ← h.onCommit]
        rfl
      · rw [hview, Outlook.onAbort_write, ← h.onAbort]
        exact View.install_copies_writeShared f hmem

/-- A write to a shared row that is held for writing. -/
theorem writeShared (h : lawful.Foresees s o) {i : Nat} {r : R}
    (hi : o.held[i]? = some (r, .wr)) (f : D → D) :
    lawful.Foresees (σ.writeShared s r f) (o.writeDirect inPlace r f) := by
  obtain ⟨held, hheld, rfl, htype⟩ := h.held_get hi
  obtain ⟨hgood, hview⟩ := lawful.writeShared_eq s held.row f h.good
  have hmem : held.row ∈ (lawful.view s).copies.map Prod.fst :=
    List.mem_map.mpr ⟨_, View.mem_copies hheld htype, rfl⟩
  have hinstall := View.install_copies_writeShared f hmem
  have hheld' : (lawful.view (σ.writeShared s held.row f)).held.map (fun h => (h.row, h.type)) =
      o.held := by
    rw [hview, ← h.held]
    rfl
  cases inPlace with
  | false =>
      refine ⟨hgood, hheld', h.nodup, ?_, ?_⟩
      · rw [hview]
        exact hinstall.trans h.onCommit
      · rw [hview]
        simp only [Outlook.writeDirect, Bool.false_eq_true, if_false, ← h.onAbort]
        rfl
  | true =>
      refine ⟨hgood, hheld', h.nodup, ?_, ?_⟩
      · rw [hview]
        simp only [Outlook.writeDirect, if_true, Outlook.write, ← h.onCommit]
        rfl
      · rw [hview]
        exact hinstall.trans h.onAbort

theorem finish_abort (h : lawful.Foresees s o) {rc : RC} {contents : R → D}
    (hfinish : σ.finish s .abort = some (rc, contents)) :
    rc = .abort ∧ contents = o.onAbort := by
  obtain ⟨hrc, heq⟩ := lawful.finish_abort s rc contents h.good h.nodup_view hfinish
  exact ⟨hrc, heq.trans h.onAbort⟩

theorem finish_rcok (h : lawful.Foresees s o) {rc : RC} {contents : R → D}
    (hfinish : σ.finish s .rcok = some (rc, contents)) :
    (rc = .rcok ∧ contents = o.onCommit) ∨ (rc = .abort ∧ contents = o.onAbort) := by
  rcases lawful.finish_rcok s rc contents h.good h.nodup_view hfinish with ⟨hrc, heq⟩ | ⟨hrc, heq⟩
  · exact Or.inl ⟨hrc, heq.trans h.onCommit⟩
  · exact Or.inr ⟨hrc, heq.trans h.onAbort⟩

end Scheme.Lawful.Foresees

/-! ### The schemes -/

/-- `CC_ALG`, with what the rows' managers hold before the transaction starts. -/
inductive CcAlg (R : Type) where
  | occ (cfg : TsConfig) (names : Occ.RowNames R) (startTs : Nat) (wts : R → Nat)
      (timestampEnc : Nat)
  | noWait (txn : Nat)
  | silo (preAbort : Bool) (primaryKey : R → Nat) (tid : R → Nat) (curTid : Nat)

namespace CcAlg

def scheme (D : Type) : CcAlg R → Scheme R D
  | occ cfg names startTs _ _ => Occ.scheme cfg names startTs
  | noWait txn => NoWait.scheme txn
  | silo preAbort primaryKey _ _ => Silo.scheme preAbort primaryKey

def init (store : R → D) : (alg : CcAlg R) → (alg.scheme D).State
  | occ _ _ _ wts timestampEnc => Occ.TxnState.init store wts timestampEnc
  | noWait _ => NoWait.TxnState.init store
  | silo _ _ tid curTid => Silo.TxnState.init store tid curTid

/-- `get_row` returns the shared row. -/
def inPlace : CcAlg R → Bool
  | noWait _ => true
  | _ => false

/-- `get_row` does not abort. -/
def admits : CcAlg R → R → Bool
  | occ _ _ startTs wts _, r => decide (wts r ≤ startTs)
  | _, _ => true

def lawful (D : Type) : (alg : CcAlg R) → (alg.scheme D).Lawful alg.inPlace alg.admits
  | occ cfg names startTs wts _ => Occ.lawful cfg names startTs wts
  | noWait txn => NoWait.lawful txn
  | silo preAbort primaryKey _ _ => Silo.lawful preAbort primaryKey

theorem foresees_init (alg : CcAlg R) (store : R → D) :
    (alg.lawful D).Foresees (alg.init store) (.start store) := by
  cases alg with
  | occ cfg names startTs wts timestampEnc => exact .start (fun _ => rfl) rfl
  | noWait txn => exact .start ⟨fun _ _ => rfl, fun _ ha => nomatch ha⟩ rfl
  | silo preAbort primaryKey tid curTid => exact .start (fun _ => rfl) rfl

end CcAlg

/-- The contents a transaction leaves are those before it, changed by all its writes if it
    returns RCOK and by none otherwise. -/
def Atomic (store applied : R → D) (rc : RC) (contents : R → D) : Prop :=
  (rc = .rcok → contents = applied) ∧ (rc ≠ .rcok → contents = store)

end VeriTxn
