import VeriTxn.OccValidation
import VeriTxn.RowLock
import VeriTxn.Silo

/-!
# Transaction managers and the rows they hand out

What a transaction body sees of `txn_man` under `NO_WAIT`, `OCC` and `SILO` when it
runs alone: `get_row`, the row it returns, the shared row the index pointed to, and
`finish`.  Every scheme is brought down to one view of it, in which only this
counts: whether the row returned by `get_row` is the shared row or a copy.

The page versions that `finish` compares first change by index insertions only, so
alone they agree.
-/

namespace VeriTxn

open Serial

variable {R D : Type}

/-- The operations of a transaction manager.  `getRow` gives `some none` for Abort and
    `none` when it never returns; so does `finish`, whose result carries the contents of
    the rows. -/
structure Scheme (R D : Type) where
  State : Type
  getRow : State → R → AccessT → Option (Option State)
  /-- through the row that the `i`-th `get_row` returned -/
  readLocal : State → Nat → Option D
  writeLocal : State → Nat → (D → D) → State
  /-- through the row that the index pointed to -/
  readShared : State → R → D
  writeShared : State → R → (D → D) → State
  finish : State → RC → Option (RC × (R → D))

/-- What `txn_man::index_read` returns: an item with those it is linked to, NULL, or
    `(itemid_t *) 0x1`. -/
inductive Lookup (R : Type) where
  | found (row : R) (next : List R)
  | absent
  | error

/-! ### The view -/

/-- An access: its copy of the row is what the transaction works on, or what an abort
    puts back. -/
structure Held (R D : Type) where
  row : R
  type : AccessT
  copy : D

structure View (R D : Type) where
  shared : R → D
  held : List (Held R D)

namespace View

variable [DecidableEq R]

def rows (v : View R D) : List R := v.held.map Held.row

def getRow (v : View R D) (r : R) (type : AccessT) : View R D :=
  { v with held := v.held ++ [⟨r, type, v.shared r⟩] }

def readLocal (inPlace : Bool) (v : View R D) (i : Nat) : Option D :=
  v.held[i]?.map fun h => if inPlace then v.shared h.row else h.copy

def writeShared (v : View R D) (r : R) (f : D → D) : View R D :=
  { v with shared := Function.update v.shared r (f (v.shared r)) }

def writeLocal (inPlace : Bool) (v : View R D) (i : Nat) (f : D → D) : View R D :=
  match v.held[i]? with
  | none => v
  | some h =>
      if inPlace then v.writeShared h.row f
      else { v with held := v.held.set i { h with copy := f h.copy } }

/-- The copies of the rows held for writing. -/
def copies (v : View R D) : List (R × D) :=
  (v.held.filter fun h => h.type = .wr).map fun h => (h.row, h.copy)

/-- The contents after a commit. -/
def commit (inPlace : Bool) (v : View R D) : R → D :=
  if inPlace then v.shared else install v.shared v.copies

/-- The contents after an abort. -/
def abort (inPlace : Bool) (v : View R D) : R → D :=
  if inPlace then install v.shared v.copies else v.shared

omit [DecidableEq R] in
theorem nodup_copies {v : View R D} (h : v.rows.Nodup) : (v.copies.map Prod.fst).Nodup := by
  have hsub : (v.copies.map Prod.fst).Sublist v.rows := by
    simp only [copies, rows, List.map_map]
    exact List.filter_sublist.map _
  exact h.sublist hsub

omit [DecidableEq R] in
theorem mem_copies {v : View R D} {i : Nat} {h : Held R D} (hi : v.held[i]? = some h)
    (hwr : h.type = .wr) : (h.row, h.copy) ∈ v.copies :=
  List.mem_map.mpr ⟨h, List.mem_filter.mpr ⟨List.mem_of_getElem? hi, by simp [hwr]⟩, rfl⟩

omit [DecidableEq R] in
theorem copies_rows_subset (v : View R D) : v.copies.map Prod.fst ⊆ v.rows := by
  intro r hr
  simp only [copies, List.map_map, List.mem_map, List.mem_filter] at hr
  obtain ⟨h, ⟨hmem, -⟩, rfl⟩ := hr
  exact List.mem_map.mpr ⟨h, hmem, rfl⟩

/-- A fresh copy says what the row says. -/
theorem install_copies_getRow {v : View R D} {r : R} (type : AccessT) (hr : r ∉ v.rows) :
    install (v.getRow r type).shared (v.getRow r type).copies = install v.shared v.copies := by
  have hnot : r ∉ v.copies.map Prod.fst := fun hmem => hr (copies_rows_subset v hmem)
  have hrow : install v.shared v.copies r = v.shared r := install_of_not_mem hnot
  by_cases hwr : type = .wr
  · have happ : (v.getRow r type).copies = v.copies ++ [(r, v.shared r)] := by
      simp [copies, getRow, hwr]
    calc install v.shared (v.getRow r type).copies
        = Function.update (install v.shared v.copies) r (v.shared r) := by
          rw [happ, install_append]
          rfl
      _ = install v.shared v.copies := by rw [← hrow, Function.update_eq_self]
  · have happ : (v.getRow r type).copies = v.copies := by simp [copies, getRow, hwr]
    rw [happ]
    rfl

theorem install_copies_writeShared {v : View R D} {r : R} (f : D → D)
    (hr : r ∈ v.copies.map Prod.fst) :
    install (v.writeShared r f).shared v.copies = install v.shared v.copies :=
  install_update_of_mem _ hr

omit [DecidableEq R] in
theorem held_split {v : View R D} {i : Nat} {h : Held R D} (hi : v.held[i]? = some h) :
    v.held = v.held.take i ++ h :: v.held.drop (i + 1) := by
  obtain ⟨hlt, rfl⟩ := List.getElem?_eq_some_iff.mp hi
  rw [List.getElem_cons_drop, List.take_append_drop]

/-- Changing the copy of a row held for writing changes what is installed there. -/
theorem install_copies_set {v : View R D} {i : Nat} {h : Held R D} (f : D → D)
    (hnodup : v.rows.Nodup) (hi : v.held[i]? = some h) (hwr : h.type = .wr) :
    install v.shared (View.copies { v with held := v.held.set i { h with copy := f h.copy } }) =
      Function.update (install v.shared v.copies) h.row
        (f (install v.shared v.copies h.row)) := by
  have hlt := (List.getElem?_eq_some_iff.mp hi).1
  have hcopy : install v.shared v.copies h.row = h.copy :=
    install_of_mem (nodup_copies hnodup) (mem_copies hi hwr)
  have hpost : h.row ∉ (View.copies ⟨v.shared, v.held.drop (i + 1)⟩).map Prod.fst := by
    intro hmem
    have hrow := copies_rows_subset _ hmem
    rw [rows, held_split hi, List.map_append, List.map_cons] at hnodup
    exact (List.nodup_cons.mp (List.nodup_append.mp hnodup).2.1).1 hrow
  rw [hcopy]
  have hsplit : ∀ d, install v.shared (View.copies ⟨v.shared,
      v.held.take i ++ { h with copy := d } :: v.held.drop (i + 1)⟩) =
      Function.update (install (install v.shared (View.copies ⟨v.shared, v.held.take i⟩))
        (View.copies ⟨v.shared, v.held.drop (i + 1)⟩)) h.row d := by
    intro d
    simp only [copies, List.filter_append, List.filter_cons, hwr, decide_true, if_true,
      List.map_append, List.map_cons]
    rw [install_append, install_cons]
    exact install_update_of_not_mem d hpost
  have hcopies : v.copies = View.copies ⟨v.shared,
      v.held.take i ++ { h with copy := h.copy } :: v.held.drop (i + 1)⟩ :=
    congrArg (fun held => View.copies ⟨v.shared, held⟩) (held_split hi)
  rw [List.set_eq_take_append_cons_drop, if_pos hlt, hcopies, hsplit, hsplit,
    Function.update_idem]

end View

/-- A scheme behaves as its view says.  `admits` are the rows whose `get_row` does not
    abort. -/
structure Scheme.Lawful [DecidableEq R] (σ : Scheme R D) (inPlace : Bool) (admits : R → Bool)
    where
  view : σ.State → View R D
  Good : σ.State → Prop
  getRow_admitted : ∀ s r type, Good s → r ∉ (view s).rows → type ≠ .xp → admits r = true →
    ∃ s', σ.getRow s r type = some (some s') ∧ Good s' ∧ view s' = (view s).getRow r type
  getRow_refused : ∀ s r type, Good s → r ∉ (view s).rows → admits r = false →
    σ.getRow s r type = some none
  readLocal_eq : ∀ s i, σ.readLocal s i = (view s).readLocal inPlace i
  writeLocal_eq : ∀ s i f, Good s → Good (σ.writeLocal s i f) ∧
    view (σ.writeLocal s i f) = (view s).writeLocal inPlace i f
  readShared_eq : ∀ s r, σ.readShared s r = (view s).shared r
  writeShared_eq : ∀ s r f, Good s → Good (σ.writeShared s r f) ∧
    view (σ.writeShared s r f) = (view s).writeShared r f
  finish_rcok : ∀ s rc c, Good s → (view s).rows.Nodup → σ.finish s .rcok = some (rc, c) →
    (rc = .rcok ∧ c = (view s).commit inPlace) ∨ (rc = .abort ∧ c = (view s).abort inPlace)
  finish_abort : ∀ s rc c, Good s → (view s).rows.Nodup → σ.finish s .abort = some (rc, c) →
    rc = .abort ∧ c = (view s).abort inPlace

variable [DecidableEq R]

/-! ### NO_WAIT -/

namespace NoWait

/-- The rows and the accesses of the transaction. -/
structure TxnState (R D : Type) where
  rows : R → Row Nat D
  accesses : List (Access R D)

def writeRow (s : TxnState R D) (r : R) (f : D → D) : TxnState R D :=
  { s with rows := Function.update s.rows r { s.rows r with data := f (s.rows r).data } }

/-- `get_row` returns the shared row itself. -/
def scheme (txn : Nat) : Scheme R D where
  State := TxnState R D
  getRow s r type :=
    match getRow s.rows txn r type with
    | none => some none
    | some (rows, a) => some (some ⟨rows, s.accesses ++ [a]⟩)
  readLocal s i := s.accesses[i]?.map fun a => (s.rows a.origRow).data
  writeLocal s i f :=
    match s.accesses[i]? with
    | none => s
    | some a => writeRow s a.origRow f
  readShared s r := (s.rows r).data
  writeShared s r f := writeRow s r f
  finish s rc := (cleanup s.rows txn rc s.accesses).map fun (_, rows) =>
    (rc, fun r => (rows r).data)

/-- Nobody holds a lock. -/
def TxnState.init (store : R → D) : TxnState R D := ⟨fun r => ⟨store r, [], .none⟩, []⟩

def TxnState.view (s : TxnState R D) : View R D where
  shared r := (s.rows r).data
  held := s.accesses.map fun a => ⟨a.origRow, a.type, a.origData⟩

/-- Rows the transaction does not hold are free, and it holds none for `XP`. -/
structure TxnState.Good (s : TxnState R D) : Prop where
  free : ∀ r, r ∉ s.view.rows → (s.rows r).lockType = .none
  types : ∀ a ∈ s.accesses, a.type ≠ .xp

theorem view_writeRow (s : TxnState R D) (r : R) (f : D → D) :
    (writeRow s r f).view = s.view.writeShared r f := by
  simp only [TxnState.view, writeRow, View.writeShared, View.mk.injEq, and_true]
  funext q
  by_cases hq : q = r
  · subst hq
    simp
  · simp [Function.update_of_ne hq]

theorem TxnState.Good.writeRow {s : TxnState R D} (h : s.Good) (r : R) (f : D → D) :
    (writeRow s r f).Good := by
  refine ⟨fun q hq => ?_, h.types⟩
  have hfree := h.free q hq
  by_cases hqr : q = r
  · subst hqr
    simpa [NoWait.writeRow] using hfree
  · simpa [NoWait.writeRow, Function.update_of_ne hqr] using hfree

omit [DecidableEq R] in
/-- After an abort every write access is an `XP` and gives its copy back. -/
theorem undoPairs_abort {s : TxnState R D} (h : ∀ a ∈ s.accesses, a.type ≠ .xp) :
    undoPairs (s.accesses.map fun a =>
      if a.type = .wr ∧ RC.abort = .abort then { a with type := .xp } else a) = s.view.copies := by
  obtain ⟨rows, accesses⟩ := s
  simp only [TxnState.view, View.copies]
  induction accesses with
  | nil => rfl
  | cons a accesses ih =>
      have hrest := ih fun b hb => h b (List.mem_cons_of_mem _ hb)
      have hxp := h a (List.mem_cons_self ..)
      by_cases hwr : a.type = .wr
      · simpa [undoPairs, hwr] using hrest
      · simpa [undoPairs, hwr, hxp] using hrest

omit [DecidableEq R] in
theorem undoPairs_rcok {accesses : List (Access R D)} (h : ∀ a ∈ accesses, a.type ≠ .xp) :
    undoPairs (accesses.map fun a =>
      if a.type = .wr ∧ RC.rcok = .abort then { a with type := .xp } else a) = [] := by
  induction accesses with
  | nil => rfl
  | cons a accesses ih =>
      have hrest := ih fun b hb => h b (List.mem_cons_of_mem _ hb)
      have hxp := h a (List.mem_cons_self ..)
      simpa [undoPairs, hxp] using hrest

omit [DecidableEq R] in
theorem undoPairs_reverse (accesses : List (Access R D)) :
    undoPairs accesses.reverse = (undoPairs accesses).reverse := by
  simp [undoPairs, List.filterMap_reverse]

/-- Alone, every row is granted, and the changes are in the shared rows. -/
def lawful (txn : Nat) : (scheme txn : Scheme R D).Lawful true fun _ => true where
  view := TxnState.view
  Good := TxnState.Good
  getRow_admitted := by
    intro s r type hgood hr hxp _
    have hfree := hgood.free r hr
    have hconflict : conflictLock (s.rows r).lockType (lockFor type) = false := by
      rw [hfree]
      rfl
    refine ⟨_, by simp only [scheme, NoWait.getRow, Row.lockGet, hconflict]; rfl, ⟨?_, ?_⟩, ?_⟩
    · intro q hq
      have hq' : q ≠ r ∧ q ∉ s.view.rows := by
        simpa [TxnState.view, View.rows, not_or, and_comm] using hq
      simpa [Function.update_of_ne hq'.1] using hgood.free q hq'.2
    · intro a ha
      rcases List.mem_append.mp ha with ha | ha
      · exact hgood.types a ha
      · rw [List.mem_singleton.mp ha]
        exact hxp
    · simp only [TxnState.view, View.getRow, View.mk.injEq, List.map_append, List.map_cons,
        List.map_nil, and_true]
      funext q
      by_cases hq : q = r
      · subst hq
        simp
      · simp [Function.update_of_ne hq]
  getRow_refused := by
    intro s r type _ _ hadmits
    cases hadmits
  readLocal_eq := by
    intro s i
    simp [scheme, TxnState.view, View.readLocal, Function.comp_def]
  writeLocal_eq := by
    intro s i f hgood
    have hview : (TxnState.view s).held[i]? = s.accesses[i]?.map fun a =>
        ⟨a.origRow, a.type, a.origData⟩ := by simp [TxnState.view]
    simp only [scheme, View.writeLocal, hview]
    cases s.accesses[i]? with
    | none => exact ⟨hgood, rfl⟩
    | some a => exact ⟨hgood.writeRow _ f, view_writeRow s _ f⟩
  readShared_eq := fun _ _ => rfl
  writeShared_eq := fun s r f hgood => ⟨hgood.writeRow r f, view_writeRow s r f⟩
  finish_rcok := by
    intro s rc c hgood _ hfinish
    obtain ⟨⟨entry, rows⟩, hclean, heq⟩ := Option.map_eq_some_iff.mp hfinish
    cases heq
    obtain ⟨-, hdata⟩ := cleanup_cases hclean
    rw [undoPairs_reverse, undoPairs_rcok hgood.types] at hdata
    exact Or.inl ⟨rfl, hdata⟩
  finish_abort := by
    intro s rc c hgood hnodup hfinish
    obtain ⟨⟨entry, rows⟩, hclean, heq⟩ := Option.map_eq_some_iff.mp hfinish
    cases heq
    obtain ⟨-, hdata⟩ := cleanup_cases hclean
    rw [undoPairs_reverse, undoPairs_abort hgood.types] at hdata
    refine ⟨rfl, hdata.trans ?_⟩
    refine install_perm (List.reverse_perm _) ?_ _
    rw [List.map_reverse]
    exact List.nodup_reverse.mpr (View.nodup_copies hnodup)

end NoWait

/-! ### OCC -/

namespace Occ

/-- The rows, the enclave's counter and the accesses of the transaction. -/
structure TxnState (R D : Type) where
  rows : R → Row D
  timestampEnc : Nat
  accesses : List (Access R D)

/-- `get_row` returns a copy, which `cleanup` installs. -/
def scheme (cfg : TsConfig) (names : RowNames R) (startTs : Nat) : Scheme R D where
  State := TxnState R D
  getRow s r type :=
    match (s.rows r).access startTs with
    | none => some none
    | some copy => some (some { s with
        accesses := s.accesses ++ [⟨type, r, copy, (s.rows r).wts⟩] })
  readLocal s i := s.accesses[i]?.map Access.data
  writeLocal s i f :=
    match s.accesses[i]? with
    | none => s
    | some a => { s with accesses := s.accesses.set i { a with data := f a.data } }
  readShared s r := (s.rows r).data
  writeShared s r f :=
    { s with rows := Function.update s.rows r { s.rows r with data := f (s.rows r).data } }
  finish s rc :=
    if rc = .rcok then
      (perRowValidate cfg names s.rows s.timestampEnc startTs s.accesses).map fun v =>
        (v.rc, fun r => (v.rows r).data)
    else (cleanup s.rows 0 rc s.accesses).map fun (_, rows) => (rc, fun r => (rows r).data)

def TxnState.init (store : R → D) (wts : R → Nat) (timestampEnc : Nat) : TxnState R D :=
  ⟨fun r => ⟨store r, wts r⟩, timestampEnc, []⟩

def TxnState.view (s : TxnState R D) : View R D where
  shared r := (s.rows r).data
  held := s.accesses.map fun a => ⟨a.origRow, a.type, a.data⟩

omit [DecidableEq R] in
theorem writePairs_eq_copies (s : TxnState R D) : writePairs s.accesses = s.view.copies := by
  obtain ⟨rows, timestampEnc, accesses⟩ := s
  simp only [TxnState.view, View.copies]
  induction accesses with
  | nil => rfl
  | cons a accesses ih =>
      by_cases hwr : a.type = .wr
      · simpa [writePairs, hwr] using ih
      · simpa [writePairs, hwr] using ih

/-- A row is refused exactly if it was written after `start_ts`. -/
def lawful (cfg : TsConfig) (names : RowNames R) (startTs : Nat) (wts : R → Nat) :
    (scheme cfg names startTs : Scheme R D).Lawful false fun r => decide (wts r ≤ startTs) where
  view := TxnState.view
  Good := fun s => ∀ r, (s.rows r).wts = wts r
  getRow_admitted := by
    intro s r type hgood _ _ hadmits
    have hts : ¬ startTs < (s.rows r).wts := by
      rw [hgood r]
      exact Nat.not_lt.mpr (of_decide_eq_true hadmits)
    refine ⟨⟨s.rows, s.timestampEnc,
      s.accesses ++ [⟨type, r, (s.rows r).data, (s.rows r).wts⟩]⟩, ?_, hgood, ?_⟩
    · simp only [scheme, Row.access, if_neg hts]
    · simp [TxnState.view, View.getRow]
  getRow_refused := by
    intro s r type hgood _ hadmits
    have hts : startTs < (s.rows r).wts := by
      rw [hgood r]
      exact Nat.not_le.mp (of_decide_eq_false hadmits)
    simp only [scheme, Row.access, if_pos hts]
  readLocal_eq := by
    intro s i
    simp [scheme, TxnState.view, View.readLocal, Function.comp_def]
  writeLocal_eq := by
    intro s i f hgood
    have hview : (TxnState.view s).held[i]? = s.accesses[i]?.map fun a =>
        ⟨a.origRow, a.type, a.data⟩ := by simp [TxnState.view]
    simp only [scheme, View.writeLocal, hview]
    cases s.accesses[i]? with
    | none => exact ⟨hgood, rfl⟩
    | some a => exact ⟨hgood, by simp [TxnState.view, List.map_set]⟩
  readShared_eq := fun _ _ => rfl
  writeShared_eq := by
    intro s r f hgood
    constructor
    · intro q
      by_cases hq : q = r
      · subst hq
        simpa [scheme] using hgood q
      · simpa [scheme, Function.update_of_ne hq] using hgood q
    · simp only [scheme, TxnState.view, View.writeShared, View.mk.injEq, and_true]
      funext q
      by_cases hq : q = r
      · subst hq
        simp
      · simp [Function.update_of_ne hq]
  finish_rcok := by
    intro s rc c _ hnodup hfinish
    simp only [scheme, if_true] at hfinish
    obtain ⟨v, hvalidate, heq⟩ := Option.map_eq_some_iff.mp hfinish
    cases heq
    rcases (perRowValidate_cases hvalidate).2 with ⟨hrc, -, -, -, hdata⟩ | ⟨hrc, -, hrows⟩
    · refine Or.inl ⟨hrc, hdata.trans ?_⟩
      have hperm : (writePairs (sortAccesses names s.accesses).reverse).Perm
          (TxnState.view s).copies :=
        writePairs_eq_copies s ▸
          ((List.reverse_perm _).trans (sortAccesses_perm names s.accesses)).filterMap _
      refine install_perm hperm ((hperm.map Prod.fst).nodup_iff.mpr ?_) _
      exact View.nodup_copies hnodup
    · exact Or.inr ⟨hrc, by rw [hrows]; rfl⟩
  finish_abort := by
    intro s rc c _ _ hfinish
    simp only [scheme, reduceCtorEq, if_false, cleanup_abort, Option.map_some,
      Option.some.injEq, Prod.mk.injEq] at hfinish
    exact ⟨hfinish.1.symm, hfinish.2.symm⟩

end Occ

/-! ### SILO -/

namespace Silo

structure TxnState (R D : Type) where
  rows : R → Row D
  curTid : Nat
  accesses : List (Access R D)

/-- `get_row` returns a copy, which `validate_silo` installs. -/
def scheme (preAbort : Bool) (primaryKey : R → Nat) : Scheme R D where
  State := TxnState R D
  getRow s r type := (s.rows r).access.map fun (copy, tid) =>
    some { s with accesses := s.accesses ++ [⟨type, r, copy, tid⟩] }
  readLocal s i := s.accesses[i]?.map Access.data
  writeLocal s i f :=
    match s.accesses[i]? with
    | none => s
    | some a => { s with accesses := s.accesses.set i { a with data := f a.data } }
  readShared s r := (s.rows r).data
  writeShared s r f :=
    { s with rows := Function.update s.rows r { s.rows r with data := f (s.rows r).data } }
  finish s rc :=
    if rc = .rcok then
      (validateSilo preAbort primaryKey s.rows s.curTid s.accesses).map fun (rc, rows, _) =>
        (rc, fun r => (rows r).data)
    else some (rc, fun r => (s.rows r).data)

/-- No row is locked. -/
def TxnState.init (store : R → D) (tid : R → Nat) (curTid : Nat) : TxnState R D :=
  ⟨fun r => ⟨store r, tid r, false⟩, curTid, []⟩

def TxnState.view (s : TxnState R D) : View R D where
  shared r := (s.rows r).data
  held := s.accesses.map fun a => ⟨a.origRow, a.type, a.data⟩

omit [DecidableEq R] in
theorem writePairs_eq_copies (s : TxnState R D) :
    writePairs (s.accesses.filter fun a => a.type = .wr) = s.view.copies := by
  simp [writePairs, TxnState.view, View.copies, List.filter_map, Function.comp_def]

/-- Alone, every row is admitted. -/
def lawful (preAbort : Bool) (primaryKey : R → Nat) :
    (scheme preAbort primaryKey : Scheme R D).Lawful false fun _ => true where
  view := TxnState.view
  Good := fun s => ∀ r, (s.rows r).locked = false
  getRow_admitted := by
    intro s r type hgood _ _ _
    have haccess : (s.rows r).access = some ((s.rows r).data, (s.rows r).tid) := by
      simp [Row.access, hgood r]
    refine ⟨⟨s.rows, s.curTid,
      s.accesses ++ [⟨type, r, (s.rows r).data, (s.rows r).tid⟩]⟩, ?_, hgood, ?_⟩
    · simp only [scheme, haccess, Option.map_some]
    · simp [TxnState.view, View.getRow]
  getRow_refused := by
    intro s r type _ _ hadmits
    cases hadmits
  readLocal_eq := by
    intro s i
    simp [scheme, TxnState.view, View.readLocal, Function.comp_def]
  writeLocal_eq := by
    intro s i f hgood
    have hview : (TxnState.view s).held[i]? = s.accesses[i]?.map fun a =>
        ⟨a.origRow, a.type, a.data⟩ := by simp [TxnState.view]
    simp only [scheme, View.writeLocal, hview]
    cases s.accesses[i]? with
    | none => exact ⟨hgood, rfl⟩
    | some a => exact ⟨hgood, by simp [TxnState.view, List.map_set]⟩
  readShared_eq := fun _ _ => rfl
  writeShared_eq := by
    intro s r f hgood
    constructor
    · intro q
      by_cases hq : q = r
      · subst hq
        simpa [scheme] using hgood q
      · simpa [scheme, Function.update_of_ne hq] using hgood q
    · simp only [scheme, TxnState.view, View.writeShared, View.mk.injEq, and_true]
      funext q
      by_cases hq : q = r
      · subst hq
        simp
      · simp [Function.update_of_ne hq]
  finish_rcok := by
    intro s rc c _ hnodup hfinish
    simp only [scheme, if_true] at hfinish
    obtain ⟨⟨rc', rows, tid⟩, hvalidate, heq⟩ := Option.map_eq_some_iff.mp hfinish
    cases heq
    rcases validateSilo_cases hvalidate with ⟨hrc, writeSet, hwriteSet, hdata⟩ | ⟨hrc, hdata⟩
    · refine Or.inl ⟨hrc, hdata.trans ?_⟩
      have hperm : (writePairs writeSet).Perm (TxnState.view s).copies :=
        writePairs_eq_copies s ▸ hwriteSet.map _
      refine install_perm hperm ((hperm.map Prod.fst).nodup_iff.mpr ?_) _
      exact View.nodup_copies hnodup
    · exact Or.inr ⟨hrc, hdata⟩
  finish_abort := by
    intro s rc c _ _ hfinish
    simp only [scheme, reduceCtorEq, if_false, Option.some.injEq, Prod.mk.injEq] at hfinish
    exact ⟨hfinish.1.symm, hfinish.2.symm⟩

end Silo

end VeriTxn
