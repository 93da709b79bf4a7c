import VeriTxn.SiloRuns
import VeriTxn.CommitOrder

/-!
# SILO: serializability

The invariant of the runs has three parts.  Every lock bit belongs to one thread, which knows
the rows it holds; every thread's loop variables fit the rows; and there is a serial order in
which a transaction takes its place when its last write lock is taken.

A transaction that has its place keeps the rows it writes locked until it has written them, so
that whoever comes behind it cannot validate these rows before.  A row that somebody behind it
writes gets an id above the one that was read, so that a late validation fails.
-/

namespace VeriTxn.Silo

set_option linter.unusedSectionVars false

open Serial Transition

variable {Thd R D : Type}

/-! ### Owned locks -/

section Owned

variable [DecidableEq Thd] [DecidableEq R]

/-- Every lock that is taken belongs to one thread, and was taken once more than it was
    released. -/
structure Owned (held : Thd → List R) (locked : R → Bool) (locks releases : Thd → R → Nat) :
    Prop where
  nodup : ∀ t, (held t).Nodup
  apart : ∀ t u r, r ∈ held t → r ∈ held u → t = u
  owner : ∀ r, locked r = true ↔ ∃ t, r ∈ held t
  counted : ∀ t r, locks t r = releases t r + if r ∈ held t then 1 else 0

variable {held : Thd → List R} {locked : R → Bool} {locks releases : Thd → R → Nat}

theorem mem_update_held {rows : List R} {t u : Thd} {r : R} :
    r ∈ Function.update held t rows u ↔ if u = t then r ∈ rows else r ∈ held u := by
  by_cases hu : u = t
  · rw [hu, Function.update_self, if_pos rfl]
  · rw [Function.update_of_ne hu, if_neg hu]

theorem Owned.not_held (h : Owned held locked locks releases) {r : R} (hfree : locked r = false)
    (t : Thd) : r ∉ held t := by
  intro hmem
  rw [(h.owner r).mpr ⟨t, hmem⟩] at hfree
  cases hfree

/-- Taking a free lock. -/
theorem Owned.lock (h : Owned held locked locks releases) {r : R} (hfree : locked r = false)
    (t : Thd) : Owned (Function.update held t (held t ++ [r])) (Function.update locked r true)
      (bump locks t r) releases where
  nodup := by
    intro u
    by_cases hu : u = t
    · rw [hu, Function.update_self]
      refine List.nodup_append.mpr ⟨h.nodup t, List.nodup_singleton r, fun a ha b hb => ?_⟩
      rw [List.mem_singleton.mp hb]
      exact fun heq => h.not_held hfree t (heq ▸ ha)
    · rw [Function.update_of_ne hu]
      exact h.nodup u
  apart := by
    intro u w q hu hw
    rw [mem_update_held] at hu hw
    have hfresh := h.not_held hfree
    grind [h.apart u w q, h.apart t w q, h.apart u t q]
  owner := by
    intro q
    by_cases hq : q = r
    · rw [hq, Function.update_self]
      refine iff_of_true rfl ⟨t, ?_⟩
      rw [Function.update_self]
      exact List.mem_append_right _ (List.mem_singleton_self r)
    · rw [Function.update_of_ne hq, h.owner q]
      refine exists_congr fun u => ?_
      rw [mem_update_held]
      by_cases hu : u = t
      · simp [hu, hq]
      · simp [hu]
  counted := by
    intro u q
    have hcount := h.counted u q
    have hfresh := h.not_held hfree t
    simp only [mem_update_held, bump]
    grind

/-- Releasing a lock that is held. -/
theorem Owned.release (h : Owned held locked locks releases) {t : Thd} {r : R} {rest : List R}
    (hheld : held t = r :: rest) : Owned (Function.update held t rest)
      (Function.update locked r false) locks (bump releases t r) where
  nodup := by
    intro u
    by_cases hu : u = t
    · rw [hu, Function.update_self]
      have hnodup := h.nodup t
      rw [hheld] at hnodup
      exact (List.nodup_cons.mp hnodup).2
    · rw [Function.update_of_ne hu]
      exact h.nodup u
  apart := by
    intro u w q hu hw
    rw [mem_update_held] at hu hw
    have hcons : ∀ p, p ∈ rest → p ∈ held t := fun p hp => hheld ▸ List.mem_cons_of_mem r hp
    grind [h.apart u w q, h.apart t w q, h.apart u t q]
  owner := by
    intro q
    have hnodup := h.nodup t
    rw [hheld] at hnodup
    have hgone := (List.nodup_cons.mp hnodup).1
    by_cases hq : q = r
    · rw [hq, Function.update_self]
      refine iff_of_false Bool.false_ne_true ?_
      rintro ⟨u, hu⟩
      rw [mem_update_held] at hu
      by_cases hut : u = t
      · exact hgone (by simpa [hut] using hu)
      · have hmem : r ∈ held u := by simpa [hut] using hu
        exact hut (h.apart u t r hmem (hheld ▸ List.mem_cons_self ..))
    · rw [Function.update_of_ne hq, h.owner q]
      refine exists_congr fun u => ?_
      rw [mem_update_held]
      by_cases hu : u = t
      · simp [hu, hheld, hq]
      · simp [hu]
  counted := by
    intro u q
    have hcount := h.counted u q
    have hnodup := h.nodup t
    rw [hheld] at hnodup
    have hgone := (List.nodup_cons.mp hnodup).1
    simp only [mem_update_held, bump]
    grind

end Owned

/-! ### Write and read sets -/

/-- What the local work of a transaction leaves of an access. -/
def Access.key (a : Access R D) : AccessT × R × Nat := (a.type, a.origRow, a.tid)

theorem key_localCopies (f : Nat → D) (i : Nat) (accesses : List (Access R D)) :
    (localCopies f i accesses).map Access.key = accesses.map Access.key := by
  induction accesses generalizing i with
  | nil => rfl
  | cons a accesses ih =>
      rw [localCopies, List.map_cons, List.map_cons, ih]
      rfl

theorem Txn.exists_final {txn : Txn R D} {a : Access R D} (h : a ∈ txn.accesses) :
    ∃ b ∈ txn.finalAccesses, b.key = a.key := by
  have hmem : a.key ∈ txn.finalAccesses.map Access.key := by
    rw [Txn.finalAccesses, key_localCopies]
    exact List.mem_map_of_mem h
  exact List.mem_map.mp hmem

theorem Txn.exists_access {txn : Txn R D} {a : Access R D} (h : a ∈ txn.finalAccesses) :
    ∃ b ∈ txn.accesses, b.key = a.key := by
  have hmem : a.key ∈ txn.accesses.map Access.key := by
    rw [← key_localCopies (txn.prog.result txn.values) 0]
    exact List.mem_map_of_mem h
  exact List.mem_map.mp hmem

theorem Config.writeSet_perm (cfg : Config R) (txn : Txn R D) :
    (cfg.writeSet txn).Perm (txn.finalAccesses.filter fun a => a.type = .wr) :=
  Occ.sortLoop_perm _ _ _

theorem Config.mem_writeSet {cfg : Config R} {txn : Txn R D} {a : Access R D} :
    a ∈ cfg.writeSet txn ↔ a ∈ txn.finalAccesses ∧ a.type = .wr := by
  rw [(cfg.writeSet_perm txn).mem_iff, List.mem_filter, decide_eq_true_eq]

theorem Txn.mem_readSet {txn : Txn R D} {a : Access R D} :
    a ∈ txn.readSet ↔ a ∈ txn.finalAccesses ∧ a.type ≠ .wr := by
  rw [Txn.readSet, List.mem_filter, decide_eq_true_eq]

theorem origRow_final (txn : Txn R D) :
    txn.finalAccesses.map Access.origRow = txn.accesses.map Access.origRow := by
  have hkeys := congrArg (List.map fun k => k.2.1)
    (key_localCopies (txn.prog.result txn.values) 0 txn.accesses)
  rw [List.map_map, List.map_map] at hkeys
  exact hkeys

/-- The write accesses are the program's write set, in some order. -/
theorem writePairs_localCopies (prog : Program R D) (values : List D) (i : Nat)
    (accesses : List (Access R D)) :
    writePairs ((localCopies (prog.result values) i accesses).filter fun a => a.type = .wr) =
      prog.writesFrom values i (accesses.map Access.op) := by
  induction accesses generalizing i with
  | nil => rfl
  | cons a accesses ih =>
      have hrest := ih (i + 1)
      by_cases hwr : a.type = .wr
      · simp only [writePairs] at hrest
        simp [localCopies, writePairs, Program.writesFrom, Access.op, hwr, hrest]
      · simp only [writePairs] at hrest
        simp [localCopies, writePairs, Program.writesFrom, Access.op, hwr, hrest]

theorem Config.writePairs_perm (cfg : Config R) (txn : Txn R D) :
    (writePairs (cfg.writeSet txn)).Perm (txn.prog.writeSet txn.ops) := by
  have hvalues : txn.ops.map Op.value = txn.values := by
    rw [Txn.ops, List.map_map]
    rfl
  have hpairs := writePairs_localCopies txn.prog txn.values 0 txn.accesses
  rw [Program.writeSet, hvalues]
  exact hpairs ▸ (cfg.writeSet_perm txn).map _

theorem map_fst_writePairs (accesses : List (Access R D)) :
    (writePairs accesses).map Prod.fst = accesses.map Access.origRow := by
  rw [writePairs, List.map_map]
  rfl

/-- A transaction under way: its accesses follow its program and are of distinct rows. -/
structure Txn.Good (txn : Txn R D) : Prop where
  continues : txn.prog.Continues [] txn.ops
  distinct : (txn.accesses.map Access.origRow).Nodup
  small : ∀ a ∈ txn.accesses, a.tid < 2 ^ 63

/-- A transaction that has made its last access. -/
structure Txn.Ready (txn : Txn R D) : Prop extends txn.Good where
  last : txn.prog.next txn.values = none

theorem Txn.Good.nodup_writeSet {txn : Txn R D} (h : txn.Good) (cfg : Config R) :
    ((cfg.writeSet txn).map Access.origRow).Nodup := by
  have hfinal : (txn.finalAccesses.map Access.origRow).Nodup := origRow_final txn ▸ h.distinct
  refine (((cfg.writeSet_perm txn).map _).nodup_iff).mpr ?_
  exact hfinal.sublist (List.filter_sublist.map _)

theorem Txn.Good.final_small {txn : Txn R D} (h : txn.Good) {a : Access R D}
    (ha : a ∈ txn.finalAccesses) : a.tid < 2 ^ 63 := by
  obtain ⟨b, hb, hkey⟩ := Txn.exists_access ha
  have htid : b.tid = a.tid := congrArg (fun k => k.2.2) hkey
  exact htid ▸ h.small b hb

/-- An access of a row is the one the final list has. -/
theorem Txn.Good.key_eq {txn : Txn R D} (h : txn.Good) {a b : Access R D} (ha : a ∈ txn.accesses)
    (hb : b ∈ txn.finalAccesses) (hrow : a.origRow = b.origRow) : a.key = b.key := by
  obtain ⟨c, hc, hkey⟩ := Txn.exists_access hb
  have hcrow : c.origRow = b.origRow := congrArg (fun k => k.2.1) hkey
  have heq : a = c := List.inj_on_of_nodup_map h.distinct ha hc (hrow.trans hcrow.symm)
  rw [heq, hkey]

/-- A row that is accessed and not in the read set is in the write set. -/
theorem Config.mem_writeSet_rows (cfg : Config R) {txn : Txn R D} {a : Access R D}
    (ha : a ∈ txn.accesses) (hrow : a.origRow ∉ txn.readSet.map Access.origRow) :
    ∃ b ∈ cfg.writeSet txn, b.key = a.key := by
  obtain ⟨b, hb, hkey⟩ := Txn.exists_final ha
  refine ⟨b, Config.mem_writeSet.mpr ⟨hb, ?_⟩, hkey⟩
  by_contra hrd
  refine hrow (List.mem_map.mpr ⟨b, Txn.mem_readSet.mpr ⟨hb, hrd⟩, ?_⟩)
  exact congrArg (fun k => k.2.1) hkey

theorem Config.mem_writeSet_of_wr (cfg : Config R) {txn : Txn R D} {a : Access R D}
    (ha : a ∈ txn.accesses) (hwr : a.type = .wr) : ∃ b ∈ cfg.writeSet txn, b.key = a.key := by
  obtain ⟨b, hb, hkey⟩ := Txn.exists_final ha
  have htype : b.type = a.type := congrArg Prod.fst hkey
  exact ⟨b, Config.mem_writeSet.mpr ⟨hb, htype.trans hwr⟩, hkey⟩

/-! ### What a phase holds -/

def Phase.held (cfg : Config R) : Phase R D → List (Access R D)
  | .locking _ held _ => held
  | .checking _ held a _ => held ++ [a]
  | .backingOff _ todo => todo
  | .validatingReads txn _ _ => cfg.writeSet txn
  | .validatingWrites txn _ _ => cfg.writeSet txn
  | .writing todo => todo
  | .unlocking a todo => a :: todo
  | .aborting todo => todo
  | _ => []

def Phase.heldRows (cfg : Config R) (phase : Phase R D) : List R :=
  (phase.held cfg).map Access.origRow

/-- The writes a committed transaction has still to make. -/
def Phase.pending : Phase R D → List (Access R D)
  | .writing todo => todo
  | .unlocking _ todo => todo
  | _ => []

def Phase.txn : Phase R D → Option (Txn R D)
  | .executing txn => some txn
  | .preAborting txn _ => some txn
  | .locking txn _ _ => some txn
  | .checking txn _ _ _ => some txn
  | .backingOff txn _ => some txn
  | .validatingReads txn _ _ => some txn
  | .validatingWrites txn _ _ => some txn
  | _ => none

def Access.seen (a : Access R D) : Seen R D := ⟨a.op, a.tid⟩

/-- What the transaction under way has read. -/
def Phase.seen (phase : Phase R D) : List (Seen R D) :=
  match phase.txn with
  | none => []
  | some txn => txn.accesses.map Access.seen

/-- The rows that were found as they were read: those in the write set when all are
    locked, then one more with each validation. -/
def Phase.guarded : Phase R D → R → Prop
  | .validatingReads txn todo _, r =>
      r ∈ txn.accesses.map Access.origRow ∧ r ∉ todo.map Access.origRow
  | .validatingWrites txn _ _, r => r ∈ txn.accesses.map Access.origRow
  | _, _ => False

/-- The phases with a place in the order and no outcome yet. -/
def Phase.Validating : Phase R D → Prop
  | .validatingReads _ _ _ => True
  | .validatingWrites _ _ _ => True
  | _ => False

/-- The loop variables fit the ids in the rows. -/
def Phase.Good (cfg : Config R) (tid : R → Nat) (curTid : Nat) : Phase R D → Prop
  | .idle => True
  | .executing txn => txn.Good
  | .preAborting txn _ => txn.Ready
  | .locking txn held todo =>
      txn.Ready ∧ held ++ todo = cfg.writeSet txn ∧ ∀ a ∈ held, tid a.origRow = a.tid
  | .checking txn held a todo =>
      txn.Ready ∧ held ++ a :: todo = cfg.writeSet txn ∧ ∀ a ∈ held, tid a.origRow = a.tid
  | .backingOff txn _ => txn.Ready
  | .validatingReads txn todo maxTid =>
      txn.Ready ∧ (∀ a ∈ cfg.writeSet txn, tid a.origRow = a.tid) ∧ todo ⊆ txn.readSet ∧
        (∀ a ∈ txn.readSet, a ∈ todo ∨ a.tid ≤ maxTid) ∧ maxTid < 2 ^ 63
  | .validatingWrites txn todo maxTid =>
      txn.Ready ∧ (∀ a ∈ cfg.writeSet txn, tid a.origRow = a.tid) ∧ todo ⊆ cfg.writeSet txn ∧
        (∀ a ∈ cfg.writeSet txn, a ∈ todo ∨ a.tid ≤ maxTid) ∧ maxTid < 2 ^ 63
  | .writing todo => ∀ a ∈ todo, tid a.origRow < curTid
  | .unlocking _ todo => ∀ a ∈ todo, tid a.origRow < curTid
  | .aborting _ => True
  | .failed => False

theorem Phase.heldRows_of_writes (cfg : Config R) {phase : Phase R D} (h : phase.Validating)
    {a : Seen R D} (ha : a ∈ phase.seen) (hwrites : a.op.writes = true) :
    a.op.row ∈ phase.heldRows cfg := by
  have hcase : ∀ txn : Txn R D, a ∈ txn.accesses.map Access.seen →
      a.op.row ∈ (cfg.writeSet txn).map Access.origRow := by
    intro txn hmem
    obtain ⟨b, hb, rfl⟩ := List.mem_map.mp hmem
    obtain ⟨c, hc, hkey⟩ := cfg.mem_writeSet_of_wr hb (of_decide_eq_true hwrites)
    exact List.mem_map.mpr ⟨c, hc, congrArg (fun k => k.2.1) hkey⟩
  cases phase with
  | validatingReads txn todo maxTid => exact hcase txn ha
  | validatingWrites txn todo maxTid => exact hcase txn ha
  | _ => cases h

theorem Phase.heldRows_of_pending (cfg : Config R) {phase : Phase R D} {a : Access R D}
    (h : a ∈ phase.pending) : a.origRow ∈ phase.heldRows cfg := by
  cases phase with
  | writing todo => exact List.mem_map_of_mem h
  | unlocking b todo => exact List.mem_map_of_mem (List.mem_cons_of_mem b h)
  | _ => cases h

theorem Phase.Good.frame {cfg : Config R} {tid tid' : R → Nat} {curTid : Nat} {phase : Phase R D}
    (h : phase.Good cfg tid curTid) (hsame : ∀ r ∈ phase.heldRows cfg, tid' r = tid r) :
    phase.Good cfg tid' curTid := by
  have hrows : ∀ a ∈ phase.held cfg, tid' a.origRow = tid a.origRow :=
    fun a ha => hsame _ (List.mem_map_of_mem ha)
  cases phase with
  | locking txn held todo =>
      exact ⟨h.1, h.2.1, fun a ha => (hrows a ha).trans (h.2.2 a ha)⟩
  | checking txn held a todo =>
      refine ⟨h.1, h.2.1, fun b hb => (hrows b ?_).trans (h.2.2 b hb)⟩
      exact List.mem_append_left _ hb
  | validatingReads txn todo maxTid =>
      exact ⟨h.1, fun a ha => (hrows a ha).trans (h.2.1 a ha), h.2.2⟩
  | validatingWrites txn todo maxTid =>
      exact ⟨h.1, fun a ha => (hrows a ha).trans (h.2.1 a ha), h.2.2⟩
  | writing todo => exact fun a ha => (hrows a ha) ▸ h a ha
  | unlocking b todo => exact fun a ha => (hrows a (List.mem_cons_of_mem b ha)) ▸ h a ha
  | _ => exact h

/-! ### The locks along a run -/

variable [DecidableEq Thd] [DecidableEq R]

def Sys.tid (s : Sys Thd R D) (r : R) : Nat := (s.rows r).getTid

def Sys.Locks (cfg : Config R) (s : Sys Thd R D) : Prop :=
  Owned (fun t => (s.phase t).heldRows cfg) (fun r => (s.rows r).lockedBit) s.locks s.releases

variable {cfg : Config R} {s s' : Sys Thd R D} {t : Thd} {phase : Phase R D}

theorem heldRows_update (phases : Thd → Phase R D) (t : Thd) (phase : Phase R D) :
    (fun u => (Function.update phases t phase u).heldRows cfg) =
      Function.update (fun u => (phases u).heldRows cfg) t (phase.heldRows cfg) := by
  funext u
  by_cases hu : u = t
  · rw [hu, Function.update_self, Function.update_self]
  · rw [Function.update_of_ne hu, Function.update_of_ne hu]

theorem lockedBit_update (rows : R → RowSilo D) (r : R) (row : RowSilo D) :
    (fun q => (Function.update rows r row q).lockedBit) =
      Function.update (fun q => (rows q).lockedBit) r row.lockedBit := by
  funext q
  by_cases hq : q = r
  · rw [hq, Function.update_self, Function.update_self]
  · rw [Function.update_of_ne hq, Function.update_of_ne hq]

theorem Sys.Locks.goto (h : s.Locks cfg)
    (hheld : phase.heldRows cfg = (s.phase t).heldRows cfg) : (s.goto t phase).Locks cfg := by
  have hsame : (fun u => (Function.update s.phase t phase u).heldRows cfg) =
      fun u => (s.phase u).heldRows cfg := by
    rw [heldRows_update, hheld, Function.update_eq_self]
  unfold Sys.Locks
  rw [show (s.goto t phase).phase = Function.update s.phase t phase from rfl, hsame]
  exact h

/-- What a granted lock leaves of the row. -/
theorem RowSilo.tryLock_spec {row row' : RowSilo D} (h : row.tryLock = some row') :
    row.lockedBit = false ∧ row'.lockedBit = true ∧ row'.data = row.data ∧
      row'.getTid = row.getTid := by
  have hparts := row.toRow_tryLock
  rw [h, Option.map_some, Row.tryLock] at hparts
  cases hlocked : row.lockedBit with
  | true =>
      rw [if_pos (show row.toRow.locked = true from hlocked)] at hparts
      cases hparts
  | false =>
      rw [if_neg (by simp [toRow, hlocked]), Option.some.injEq] at hparts
      exact ⟨rfl, congrArg Row.locked hparts, congrArg Row.data hparts, congrArg Row.tid hparts⟩

theorem RowSilo.release_spec {row : RowSilo D} (h : row.lockedBit = true) :
    ∃ row', row.release = some row' ∧ row'.lockedBit = false ∧ row'.data = row.data ∧
      row'.getTid = row.getTid := by
  have hparts := row.toRow_release
  rw [Row.release, if_pos (show row.toRow.locked = true from h)] at hparts
  obtain ⟨row', hrow', heq⟩ := Option.map_eq_some_iff.mp hparts
  exact ⟨row', hrow', congrArg Row.locked heq, congrArg Row.data heq, congrArg Row.tid heq⟩

theorem RowSilo.write_spec {row : RowSilo D} (data : D) {tid : Nat} (h : row.lockedBit = true)
    (hnewer : row.getTid < tid) (hsmall : tid < 2 ^ 63) :
    ∃ row', row.write data tid = some row' ∧ row'.lockedBit = true ∧ row'.data = data ∧
      row'.getTid = tid := by
  have hparts := row.toRow_write data hsmall
  rw [Row.write, if_pos (show row.toRow.tid < tid ∧ row.toRow.locked from ⟨hnewer, h⟩)] at hparts
  obtain ⟨row', hrow', heq⟩ := Option.map_eq_some_iff.mp hparts
  exact ⟨row', hrow', congrArg Row.locked heq, congrArg Row.data heq, congrArg Row.tid heq⟩

theorem Sys.release_eq {r : R} {row : RowSilo D} (h : (s.rows r).release = some row) :
    s.release t r phase =
      { s with
        rows := Function.update s.rows r row
        phase := Function.update s.phase t phase
        releases := bump s.releases t r } := by
  rw [Sys.release, h]

theorem Sys.write_eq {a : Access R D} {row : RowSilo D}
    (h : (s.rows a.origRow).write a.data (s.curTid t) = some row) :
    s.write t a phase =
      { s with
        rows := Function.update s.rows a.origRow row
        phase := Function.update s.phase t phase } := by
  rw [Sys.write, h]

/-- The row changes neither its contents nor its id. -/
theorem getTid_update {rows : R → RowSilo D} {r : R} {row : RowSilo D}
    (h : row.getTid = (rows r).getTid) (q : R) :
    (Function.update rows r row q).getTid = (rows q).getTid := by
  by_cases hq : q = r
  · rw [hq, Function.update_self, h]
  · rw [Function.update_of_ne hq]

theorem contents_update {rows : R → RowSilo D} {r : R} {row : RowSilo D}
    (h : row.data = (rows r).data) (q : R) :
    (Function.update rows r row q).data = (rows q).data := by
  by_cases hq : q = r
  · rw [hq, Function.update_self, h]
  · rw [Function.update_of_ne hq]

theorem Sys.Locks.lock (h : s.Locks cfg) {r : R} {row : RowSilo D}
    (hlock : (s.rows r).tryLock = some row)
    (hheld : phase.heldRows cfg = (s.phase t).heldRows cfg ++ [r]) :
    (s.lock t r row phase).Locks cfg := by
  obtain ⟨hfree, htaken, -, -⟩ := RowSilo.tryLock_spec hlock
  have hnew := Owned.lock h hfree t
  unfold Sys.Locks
  simp only [Sys.lock, heldRows_update, lockedBit_update, hheld, htaken]
  exact hnew

/-- A thread gives back the first of the rows it holds. -/
theorem Sys.Locks.release (h : s.Locks cfg) {r : R}
    (hheld : (s.phase t).heldRows cfg = r :: phase.heldRows cfg) :
    ∃ row, (s.rows r).release = some row ∧ row.data = (s.rows r).data ∧
      row.getTid = (s.rows r).getTid ∧ (s.release t r phase).Locks cfg := by
  have hlocked : (s.rows r).lockedBit = true :=
    (Owned.owner h r).mpr ⟨t, by rw [hheld]; exact List.mem_cons_self ..⟩
  obtain ⟨row, hrow, hfree, hdata, htid⟩ := RowSilo.release_spec hlocked
  refine ⟨row, hrow, hdata, htid, ?_⟩
  have hnew := Owned.release h hheld
  unfold Sys.Locks
  rw [Sys.release_eq hrow]
  simp only [heldRows_update, lockedBit_update, hfree]
  exact hnew

/-- A thread writes a row it holds. -/
theorem Sys.Locks.write (h : s.Locks cfg) {a : Access R D}
    (hmem : a.origRow ∈ (s.phase t).heldRows cfg)
    (hheld : phase.heldRows cfg = (s.phase t).heldRows cfg)
    (hnewer : s.tid a.origRow < s.curTid t) (hsmall : s.curTid t < 2 ^ 63) :
    ∃ row, (s.rows a.origRow).write a.data (s.curTid t) = some row ∧ row.data = a.data ∧
      row.getTid = s.curTid t ∧ (s.write t a phase).Locks cfg := by
  have hlocked : (s.rows a.origRow).lockedBit = true := (Owned.owner h _).mpr ⟨t, hmem⟩
  obtain ⟨row, hrow, hstill, hdata, htid⟩ := RowSilo.write_spec a.data hlocked hnewer hsmall
  refine ⟨row, hrow, hdata, htid, ?_⟩
  unfold Sys.Locks
  rw [Sys.write_eq hrow]
  simp only [heldRows_update, lockedBit_update, hheld, hstill, ← hlocked]
  rw [Function.update_eq_self, Function.update_eq_self (f := fun q => (s.rows q).lockedBit)]
  exact h

/-- The loop variables of all threads fit. -/
def Sys.Fitting (cfg : Config R) (s : Sys Thd R D) : Prop :=
  ∀ t, (s.phase t).Good cfg s.tid (s.curTid t)

/-- Only `t` moves, and the ids stay but for rows it holds. -/
theorem Sys.Fitting.moved (h : s.Fitting cfg) (hphase : s'.phase = Function.update s.phase t phase)
    (hcur : ∀ u, u ≠ t → s'.curTid u = s.curTid u)
    (htid : ∀ u, u ≠ t → ∀ r ∈ (s.phase u).heldRows cfg, s'.tid r = s.tid r)
    (hnew : phase.Good cfg s'.tid (s'.curTid t)) : s'.Fitting cfg := by
  intro u
  rw [hphase]
  by_cases hu : u = t
  · rw [hu, Function.update_self]
    exact hnew
  · rw [Function.update_of_ne hu, hcur u hu]
    exact (h u).frame (htid u hu)

theorem Sys.Fitting.goto (h : s.Fitting cfg) (hnew : phase.Good cfg s.tid (s.curTid t)) :
    (s.goto t phase).Fitting cfg :=
  h.moved rfl (fun _ _ => rfl) (fun _ _ _ _ => rfl) hnew

theorem tid_update {r : R} {row : RowSilo D} (h : row.getTid = (s.rows r).getTid)
    (hrows : s'.rows = Function.update s.rows r row) : s'.tid = s.tid := by
  funext q
  rw [Sys.tid, hrows]
  exact getTid_update h q

theorem Sys.Fitting.release (h : s.Fitting cfg) {r : R} {row : RowSilo D}
    (hrow : (s.rows r).release = some row) (hsame : row.getTid = (s.rows r).getTid)
    (hnew : phase.Good cfg s.tid (s.curTid t)) : (s.release t r phase).Fitting cfg := by
  rw [Sys.release_eq hrow]
  refine h.moved rfl (fun _ _ => rfl) (fun _ _ q _ => getTid_update hsame q) ?_
  exact hnew.frame fun q _ => getTid_update hsame q

/-! ### The place in the order -/

def Sys.view (s : Sys Thd R D) (store : R → D) (version : R → Nat) : View Thd R D where
  store := store
  version := version
  seen t := (s.phase t).seen
  guarded t := (s.phase t).guarded

/-- A serial order for a state of the run.  `store` and `version` are the rows with the pending
    writes made. -/
structure Sys.Accounts (base : R → D) (s : Sys Thd R D) (store : R → D) (version : R → Nat)
    (order : List (Place Thd R D)) : Prop where
  placed : (s.view store version).Placed base order
  places : ∀ t, Place.reserved t ∈ order ↔ (s.phase t).Validating
  perm : (committedOf order).Perm s.committed
  pending : ∀ t, ∀ a ∈ (s.phase t).pending,
    store a.origRow = a.data ∧ version a.origRow = s.curTid t
  settled : ∀ r, (∀ t, ∀ a ∈ (s.phase t).pending, a.origRow ≠ r) →
    store r = (s.rows r).data ∧ version r = s.tid r

structure Inv (cfg : Config R) (base : R → D) (s : Sys Thd R D) : Prop where
  locks : s.Locks cfg
  fitting : s.Fitting cfg
  small : ∀ t, s.curTid t < 2 ^ 63
  accounts : ∃ store version order, s.Accounts base store version order

variable {base store : R → D} {version : R → Nat} {order : List (Place Thd R D)}

/-- A row whose pending writes are made by its holder is as the order says. -/
theorem Sys.Accounts.settled_of_held (h : s.Accounts base store version order) (hlocks : s.Locks cfg)
    {r : R} (hmem : r ∈ (s.phase t).heldRows cfg) (hnone : ∀ a ∈ (s.phase t).pending, a.origRow ≠ r) :
    store r = (s.rows r).data ∧ version r = s.tid r := by
  refine h.settled r fun u a ha heq => ?_
  have hheld := Phase.heldRows_of_pending cfg ha
  have hut : u = t := Owned.apart hlocks u t r (heq ▸ hheld) hmem
  exact hnone a (hut ▸ ha) heq

theorem Sys.Accounts.settled_of_free (h : s.Accounts base store version order) (hlocks : s.Locks cfg)
    {r : R} (hfree : (s.rows r).lockedBit = false) :
    store r = (s.rows r).data ∧ version r = s.tid r := by
  refine h.settled r fun u a ha heq => ?_
  have hheld := Phase.heldRows_of_pending cfg ha
  exact Owned.not_held hlocks hfree u (heq ▸ hheld)

/-- A step that leaves the contents of the rows, the places and the pending writes. -/
theorem Sys.Accounts.quiet (h : s.Accounts base store version order)
    (hphase : s'.phase = Function.update s.phase t phase)
    (hrows : ∀ r, (s'.rows r).data = (s.rows r).data ∧ s'.tid r = s.tid r)
    (hcur : s'.curTid = s.curTid) (hcommitted : s'.committed = s.committed)
    (hpending : phase.pending = (s.phase t).pending)
    (hplace : phase.Validating ↔ (s.phase t).Validating)
    (hsame : (s.phase t).Validating →
      phase.seen = (s.phase t).seen ∧ phase.guarded = (s.phase t).guarded)
    (hseen : ∀ a ∈ phase.seen, a ∈ (s.phase t).seen ∨
      a.op.value = store a.op.row ∧ a.version = version a.op.row) :
    s'.Accounts base store version order := by
  have hpend : ∀ u, (s'.phase u).pending = (s.phase u).pending := by
    intro u
    rw [hphase]
    by_cases hu : u = t
    · rw [hu, Function.update_self, hpending]
    · rw [Function.update_of_ne hu]
  constructor
  · refine h.placed.view rfl rfl (fun u hu => ?_) fun u a ha => ?_
    · have hval := (h.places u).mp hu
      simp only [Sys.view, hphase]
      by_cases hut : u = t
      · rw [hut, Function.update_self]
        exact hsame (hut ▸ hval)
      · rw [Function.update_of_ne hut]
        exact ⟨rfl, rfl⟩
    · simp only [Sys.view, hphase] at ha ⊢
      by_cases hut : u = t
      · rw [hut, Function.update_self] at ha
        rw [hut]
        exact hseen a ha
      · rw [Function.update_of_ne hut] at ha
        exact Or.inl ha
  · intro u
    rw [h.places u, hphase]
    by_cases hut : u = t
    · rw [hut, Function.update_self, hplace]
    · rw [Function.update_of_ne hut]
  · rw [hcommitted]
    exact h.perm
  · intro u a ha
    rw [hpend] at ha
    rw [hcur]
    exact h.pending u a ha
  · intro r hr
    rw [(hrows r).1, (hrows r).2]
    refine h.settled r fun u a ha => hr u a ?_
    rw [hpend]
    exact ha

theorem Sys.Accounts.goto (h : s.Accounts base store version order)
    (hpending : phase.pending = (s.phase t).pending)
    (hplace : phase.Validating ↔ (s.phase t).Validating)
    (hsame : (s.phase t).Validating →
      phase.seen = (s.phase t).seen ∧ phase.guarded = (s.phase t).guarded)
    (hseen : ∀ a ∈ phase.seen, a ∈ (s.phase t).seen ∨
      a.op.value = store a.op.row ∧ a.version = version a.op.row) :
    (s.goto t phase).Accounts base store version order :=
  h.quiet rfl (fun _ => ⟨rfl, rfl⟩) rfl rfl hpending hplace hsame hseen

/-- A thread without a place that forgets or keeps what it has read. -/
theorem Sys.Accounts.goto_unplaced (h : s.Accounts base store version order)
    (hpending : phase.pending = (s.phase t).pending) (hplace : ¬ (s.phase t).Validating)
    (hplace' : ¬ phase.Validating) (hseen : phase.seen ⊆ (s.phase t).seen) :
    (s.goto t phase).Accounts base store version order :=
  h.goto hpending (iff_of_false hplace' hplace) (fun hval => absurd hval hplace)
    fun _ ha => Or.inl (hseen ha)

theorem Sys.Accounts.release (h : s.Accounts base store version order) {r : R} {row : RowSilo D}
    (hrow : (s.rows r).release = some row) (hdata : row.data = (s.rows r).data)
    (htid : row.getTid = (s.rows r).getTid) (hpending : phase.pending = (s.phase t).pending)
    (hplace : ¬ (s.phase t).Validating) (hplace' : ¬ phase.Validating)
    (hseen : phase.seen ⊆ (s.phase t).seen) :
    (s.release t r phase).Accounts base store version order := by
  rw [Sys.release_eq hrow]
  refine h.quiet rfl (fun q => ⟨contents_update hdata q, getTid_update htid q⟩) rfl rfl hpending
    (iff_of_false hplace' hplace) (fun hval => absurd hval hplace) fun _ ha => Or.inl (hseen ha)

theorem Sys.goto_self (s : Sys Thd R D) (t : Thd) (phase : Phase R D) :
    (s.goto t phase).phase t = phase :=
  Function.update_self ..

theorem Sys.goto_of_ne (s : Sys Thd R D) {t u : Thd} (phase : Phase R D) (h : u ≠ t) :
    (s.goto t phase).phase u = s.phase u :=
  Function.update_of_ne h ..

/-- A step that changes the order and no row. -/
theorem Sys.Accounts.reorder (h : s.Accounts base store version order)
    {order' : List (Place Thd R D)} (hpending : phase.pending = (s.phase t).pending)
    (hplaced : ((s.goto t phase).view store version).Placed base order')
    (hself : Place.reserved t ∈ order' ↔ phase.Validating)
    (hothers : ∀ u, u ≠ t → (Place.reserved u ∈ order' ↔ Place.reserved u ∈ order))
    (hperm : committedOf order' = committedOf order) :
    (s.goto t phase).Accounts base store version order' := by
  have hpend : ∀ u, ((s.goto t phase).phase u).pending = (s.phase u).pending := by
    intro u
    by_cases hu : u = t
    · rw [hu, Sys.goto_self, hpending]
    · rw [Sys.goto_of_ne s phase hu]
  constructor
  · exact hplaced
  · intro u
    by_cases hu : u = t
    · rw [hu, Sys.goto_self]
      exact hself
    · rw [Sys.goto_of_ne s phase hu, hothers u hu, h.places u]
  · rw [hperm]
    exact h.perm
  · intro u a ha
    rw [hpend] at ha
    exact h.pending u a ha
  · intro r hr
    refine h.settled r fun u a ha => hr u a ?_
    rw [hpend]
    exact ha

/-- A failed validation gives the place up. -/
theorem Sys.Accounts.invalid (h : s.Accounts base store version order)
    (hplace : (s.phase t).Validating) (hpending : phase.pending = (s.phase t).pending)
    (hplace' : ¬ phase.Validating) (hseen : phase.seen = []) :
    ∃ order', (s.goto t phase).Accounts base store version order' := by
  obtain ⟨pre, post, rfl⟩ := List.append_of_mem ((h.places t).mpr hplace)
  obtain ⟨hnotPre, hnotPost⟩ := View.reserved_once h.placed.apart
  have hgone : Place.reserved t ∉ pre ++ post := by
    intro hmem
    rcases List.mem_append.mp hmem with hmem | hmem
    · exact hnotPre hmem
    · exact hnotPost hmem
  refine ⟨pre ++ post, h.reorder hpending ?_ (iff_of_false hgone hplace') (fun u hu => ?_) ?_⟩
  · refine h.placed.giveUp.view rfl rfl (fun u hu => ?_) fun u a ha => ?_
    · have hut : u ≠ t := fun heq => hgone (heq ▸ hu)
      simp only [Sys.view, Sys.goto_of_ne s phase hut, and_self]
    · simp only [Sys.view] at ha ⊢
      by_cases hu : u = t
      · rw [hu, Sys.goto_self, hseen] at ha
        cases ha
      · rw [Sys.goto_of_ne s phase hu] at ha
        exact Or.inl ha
  · have hne : Place.reserved u ≠ (.reserved t : Place Thd R D) := by
      intro heq
      injection heq with heq
      exact hu heq
    simp [hne]
  · simp only [committedOf_append, committedOf_reserved]

theorem Sys.Accounts.writes_held (h : s.Accounts base store version order) {u : Thd} {r : R}
    (hu : Place.reserved u ∈ order) (hwrites : (s.view store version).Writes u r) (cfg : Config R) :
    r ∈ (s.phase u).heldRows cfg := by
  obtain ⟨a, ha, hwr, rfl⟩ := hwrites
  exact Phase.heldRows_of_writes cfg ((h.places u).mp hu) ha hwr

/-- With the last write lock a transaction takes its place. -/
theorem Sys.Accounts.locked (h : s.Accounts base store version order) (hlocks : s.Locks cfg)
    {txn : Txn R D} {held : List (Access R D)} (hphase : s.phase t = .locking txn held [])
    (hgood : (s.phase t).Good cfg s.tid (s.curTid t)) :
    (s.goto t (.validatingReads txn txn.readSet 0)).Accounts base store version
      (order ++ [.reserved t]) := by
  rw [hphase] at hgood
  obtain ⟨hready, hheld, htids⟩ := hgood
  rw [List.append_nil] at hheld
  have hnew : Place.reserved t ∉ order := by
    intro hmem
    have hval := (h.places t).mp hmem
    rw [hphase] at hval
    exact hval
  -- a guarded row is one of the write set, held and as it was read
  have hguarded : ∀ r, Phase.guarded (.validatingReads txn txn.readSet 0) r →
      r ∈ (s.phase t).heldRows cfg := by
    rintro r ⟨hr, hnot⟩
    obtain ⟨a, ha, rfl⟩ := List.mem_map.mp hr
    obtain ⟨b, hb, hkey⟩ := cfg.mem_writeSet_rows ha hnot
    rw [hphase]
    refine List.mem_map.mpr ⟨b, ?_, congrArg (fun k => k.2.1) hkey⟩
    exact hheld ▸ hb
  have hplaced : ((s.goto t (.validatingReads txn txn.readSet 0)).view store version).Placed base
      order := by
    refine h.placed.view rfl rfl (fun u hu => ?_) fun u a ha => ?_
    · have hut : u ≠ t := fun heq => hnew (heq ▸ hu)
      simp only [Sys.view, Sys.goto_of_ne s _ hut, and_self]
    · simp only [Sys.view] at ha ⊢
      by_cases hut : u = t
      · rw [hut, Sys.goto_self] at ha
        rw [hut, hphase]
        exact Or.inl ha
      · rw [Sys.goto_of_ne s _ hut] at ha
        exact Or.inl ha
  refine h.reorder (by rw [hphase]; rfl) (hplaced.reserve hnew ?_ ?_) (by simp [Phase.Validating])
    (fun u hu => by simp [hu]) (by simp)
  · intro a ha hr
    simp only [Sys.view, Sys.goto_self] at ha hr ⊢
    have hmem := hguarded _ hr
    have hsettled := (h.settled_of_held hlocks hmem (by simp [hphase, Phase.pending])).2
    obtain ⟨b, hb, rfl⟩ := List.mem_map.mp ha
    obtain ⟨c, hc, hkey⟩ := cfg.mem_writeSet_rows hb hr.2
    have hrow : c.origRow = b.origRow := congrArg (fun k => k.2.1) hkey
    have htid : c.tid = b.tid := congrArg (fun k => k.2.2) hkey
    calc b.tid = c.tid := htid.symm
      _ = s.tid c.origRow := (htids c (hheld ▸ hc)).symm
      _ = s.tid b.origRow := by rw [hrow]
      _ = version b.origRow := hsettled.symm
  · intro u hu r hwrites hr
    have hut : u ≠ t := fun heq => hnew (heq ▸ hu)
    have hmem : r ∈ (s.phase u).heldRows cfg := by
      refine h.writes_held hu ?_ cfg
      simp only [View.Writes, Sys.view, Sys.goto_of_ne s _ hut] at hwrites
      exact hwrites
    simp only [Sys.view, Sys.goto_self] at hr
    exact hut (Owned.apart hlocks u t r hmem (hguarded r hr))

/-- A validated row is guarded from now on. -/
theorem Sys.Accounts.validateRead (h : s.Accounts base store version order) (hlocks : s.Locks cfg)
    {txn : Txn R D} {a : Access R D} {todo : List (Access R D)} {maxTid : Nat}
    (maxTid' : Nat) (hphase : s.phase t = .validatingReads txn (a :: todo) maxTid)
    (hgood : (s.phase t).Good cfg s.tid (s.curTid t))
    (hfree : (s.rows a.origRow).lockedBit = false) (hsame : (s.rows a.origRow).getTid = a.tid) :
    (s.goto t (.validatingReads txn todo maxTid')).Accounts base store version order := by
  rw [hphase] at hgood
  obtain ⟨hready, -, htodo, -⟩ := hgood
  have hfinal := (Txn.mem_readSet.mp (htodo (List.mem_cons_self ..))).1
  have hsettled := (h.settled_of_free hlocks hfree).2
  have hval : (s.phase t).Validating := by
    rw [hphase]
    trivial
  -- the only new row is the one of `a`
  have hguarded : ∀ r, Phase.guarded (.validatingReads txn todo maxTid') r →
      (s.phase t).guarded r ∨ r = a.origRow := by
    rintro r ⟨hr, hnot⟩
    rw [hphase]
    by_cases hra : r = a.origRow
    · exact Or.inr hra
    · refine Or.inl ⟨hr, fun hmem => ?_⟩
      rcases List.mem_cons.mp hmem with heq | hmem
      · exact hra heq
      · exact hnot hmem
  obtain ⟨pre, post, rfl⟩ := List.append_of_mem ((h.places t).mpr hval)
  refine h.reorder (by rw [hphase]; rfl) ?_ (by simp [Phase.Validating]) (fun _ _ => Iff.rfl) rfl
  refine h.placed.guard rfl rfl ?_ (fun u hu => ?_) (fun b hb hr => ?_) fun u hu r hr => ?_
  · funext u
    simp only [Sys.view]
    by_cases hu : u = t
    · rw [hu, Sys.goto_self, hphase]
      rfl
    · rw [Sys.goto_of_ne s _ hu]
  · simp only [Sys.view, Sys.goto_of_ne s _ hu]
  · simp only [Sys.view, Sys.goto_self] at hr ⊢
    rcases hguarded _ hr with hold | heq
    · exact Or.inl hold
    · refine Or.inr ?_
      simp only [Sys.view, hphase] at hb
      obtain ⟨c, hc, rfl⟩ := List.mem_map.mp hb
      have htid : c.tid = a.tid := congrArg (fun k => k.2.2) (hready.key_eq hc hfinal heq)
      calc c.tid = a.tid := htid
        _ = s.tid a.origRow := hsame.symm
        _ = version a.origRow := hsettled.symm
        _ = version c.origRow := by rw [← heq]; rfl
  · simp only [Sys.view, Sys.goto_self] at hr ⊢
    rcases hguarded r hr with hold | heq
    · exact Or.inl hold
    · refine Or.inr fun hwrites => ?_
      have hmem := h.writes_held (List.mem_append_left _ hu) hwrites cfg
      exact Owned.not_held hlocks hfree u (heq ▸ hmem)

/-- The id of a committed transaction is above all ids it has read. -/
theorem Phase.Good.nextTid_spec {tid : R → Nat} {curTid maxTid : Nat} {txn : Txn R D}
    (h : (Phase.validatingWrites txn [] maxTid).Good cfg tid curTid) (hsmall : curTid < 2 ^ 63) :
    ∀ a ∈ cfg.writeSet txn, tid a.origRow < nextTid maxTid curTid := by
  obtain ⟨-, htids, -, hmax, hbound⟩ := h
  intro a ha
  have hle := (hmax a ha).resolve_left List.not_mem_nil
  have hnext : nextTid maxTid curTid = if maxTid > curTid then maxTid + 1 else curTid + 1 := by
    refine Nat.mod_eq_of_lt ?_
    split <;> omega
  rw [htids a ha, hnext]
  split <;> omega

theorem Config.mem_written_rows (cfg : Config R) (txn : Txn R D) (r : R) :
    r ∈ (txn.prog.writeSet txn.ops).map Prod.fst ↔ r ∈ (cfg.writeSet txn).map Access.origRow := by
  rw [← map_fst_writePairs]
  exact ((cfg.writePairs_perm txn).map _).mem_iff.symm

theorem Txn.Ready.observes {txn : Txn R D} (h : txn.Ready) : txn.prog.Observes txn.ops := by
  refine ⟨h.continues, ?_⟩
  rw [Txn.ops, List.map_map]
  exact h.last

/-- A commit keeps its place; the writes are pending from now on. -/
theorem Sys.Accounts.commit (h : s.Accounts base store version order) (hlocks : s.Locks cfg)
    {txn : Txn R D} {maxTid : Nat} (hphase : s.phase t = .validatingWrites txn [] maxTid)
    (hready : txn.Ready)
    (hnewer : ∀ a ∈ cfg.writeSet txn, s.tid a.origRow < nextTid maxTid (s.curTid t)) :
    ∃ store' version' order', (s.commit t txn maxTid (.writing (cfg.writeSet txn))).Accounts base
      store' version' order' := by
  have hval : (s.phase t).Validating := by
    rw [hphase]
    trivial
  have hheld : ∀ r ∈ (txn.prog.writeSet txn.ops).map Prod.fst, r ∈ (s.phase t).heldRows cfg := by
    intro r hr
    rw [hphase]
    exact (cfg.mem_written_rows txn r).mp hr
  have hversion : ∀ r ∈ (txn.prog.writeSet txn.ops).map Prod.fst,
      version r < nextTid maxTid (s.curTid t) := by
    intro r hr
    rw [(h.settled_of_held hlocks (hheld r hr) (by simp [hphase, Phase.pending])).2]
    obtain ⟨a, ha, rfl⟩ := List.mem_map.mp ((cfg.mem_written_rows txn r).mp hr)
    exact hnewer a ha
  have hrest : ∀ u, u ≠ t →
      (s.commit t txn maxTid (.writing (cfg.writeSet txn))).phase u = s.phase u :=
    fun u hu => Function.update_of_ne hu ..
  have hself : (s.commit t txn maxTid (.writing (cfg.writeSet txn))).phase t =
      .writing (cfg.writeSet txn) := Function.update_self ..
  obtain ⟨pre, post, rfl⟩ := List.append_of_mem ((h.places t).mpr hval)
  obtain ⟨hnotPre, hnotPost⟩ := View.reserved_once h.placed.apart
  refine ⟨install store (txn.prog.writeSet txn.ops),
    fun r => if r ∈ (txn.prog.writeSet txn.ops).map Prod.fst then nextTid maxTid (s.curTid t)
      else version r,
    pre ++ .taken (txn.prog, txn.ops) :: post, ?_, ?_, ?_, ?_, ?_⟩
  · refine h.placed.commit hready.observes ?_ ?_ rfl ?_ ?_ ?_ ?_
    · simp only [Sys.view, hphase, Phase.seen, Phase.txn, List.map_map]
      rfl
    · intro a ha
      simp only [Sys.view, hphase] at ha ⊢
      obtain ⟨b, hb, rfl⟩ := List.mem_map.mp ha
      exact List.mem_map_of_mem hb
    · intro r
      simp only [Sys.view]
      split
      next hr => exact Nat.le_of_lt (hversion r hr)
      next => exact Nat.le_refl _
    · intro r hr
      simp only [Sys.view]
      rw [if_pos hr]
      exact hversion r hr
    · simp only [Sys.view, hself]
      rfl
    · intro u hu
      simp only [Sys.view, hrest u hu, and_self]
  · intro u
    by_cases hu : u = t
    · rw [hu, hself]
      refine iff_of_false (fun hmem => ?_) id
      rcases List.mem_append.mp hmem with hmem | hmem
      · exact hnotPre hmem
      · rcases List.mem_cons.mp hmem with heq | hmem
        · cases heq
        · exact hnotPost hmem
    · rw [hrest u hu, ← h.places u]
      have hne : Place.reserved u ≠ (.reserved t : Place Thd R D) := by
        intro heq
        injection heq with heq
        exact hu heq
      simp [hne]
  · have hperm := h.perm
    simp only [committedOf_append, committedOf_reserved, committedOf_taken] at hperm ⊢
    exact (List.perm_middle.trans (hperm.cons _)).trans (List.perm_append_singleton ..).symm
  · intro u a ha
    by_cases hu : u = t
    · rw [hu, hself] at ha
      have hmem : a.origRow ∈ (txn.prog.writeSet txn.ops).map Prod.fst :=
        (cfg.mem_written_rows txn _).mpr (List.mem_map_of_mem ha)
      constructor
      · have hnodup : ((writePairs (cfg.writeSet txn)).map Prod.fst).Nodup :=
          map_fst_writePairs (cfg.writeSet txn) ▸ hready.nodup_writeSet cfg
        rw [← install_perm (cfg.writePairs_perm txn) hnodup]
        exact install_of_mem (w := (a.origRow, a.data)) hnodup (List.mem_map.mpr ⟨a, ha, rfl⟩)
      · rw [if_pos hmem, hu]
        exact (Function.update_self t (nextTid maxTid (s.curTid t)) s.curTid).symm
    · rw [hrest u hu] at ha
      have hnot : a.origRow ∉ (txn.prog.writeSet txn.ops).map Prod.fst := by
        intro hmem
        exact hu (Owned.apart hlocks u t _ (Phase.heldRows_of_pending cfg ha) (hheld _ hmem))
      rw [if_neg hnot, install_of_not_mem hnot]
      refine ⟨(h.pending u a ha).1, (h.pending u a ha).2.trans ?_⟩
      exact (Function.update_of_ne hu (nextTid maxTid (s.curTid t)) s.curTid).symm
  · intro r hr
    have hnot : r ∉ (txn.prog.writeSet txn.ops).map Prod.fst := by
      intro hmem
      obtain ⟨a, ha, heq⟩ := List.mem_map.mp ((cfg.mem_written_rows txn r).mp hmem)
      exact hr t a (by rw [hself]; exact ha) heq
    rw [if_neg hnot, install_of_not_mem hnot]
    refine h.settled r fun u a ha => ?_
    by_cases hu : u = t
    · rw [hu, hphase] at ha
      cases ha
    · exact hr u a (by rw [hrest u hu]; exact ha)

/-- A pending write is made. -/
theorem Sys.Accounts.write (h : s.Accounts base store version order)
    {a : Access R D} {todo : List (Access R D)} {row : RowSilo D}
    (hphase : s.phase t = .writing (a :: todo))
    (hrow : (s.rows a.origRow).write a.data (s.curTid t) = some row) (hdata : row.data = a.data)
    (htid : row.getTid = s.curTid t) :
    (s.write t a (.unlocking a todo)).Accounts base store version order := by
  rw [Sys.write_eq hrow]
  have hrest : ∀ u, u ≠ t → Function.update s.phase t (.unlocking a todo) u = s.phase u :=
    fun u hu => Function.update_of_ne hu ..
  have hself : Function.update s.phase t (.unlocking a todo) t = .unlocking a todo :=
    Function.update_self ..
  have hnot : ¬ (s.phase t).Validating := by
    rw [hphase]
    exact id
  have hmine := h.pending t a (by rw [hphase]; exact List.mem_cons_self ..)
  constructor
  · refine h.placed.view rfl rfl (fun u hu => ?_) fun u b hb => ?_
    · have hut : u ≠ t := fun heq => hnot (heq ▸ (h.places u).mp hu)
      simp only [Sys.view, hrest u hut, and_self]
    · simp only [Sys.view] at hb ⊢
      by_cases hu : u = t
      · rw [hu, hself] at hb
        cases hb
      · rw [hrest u hu] at hb
        exact Or.inl hb
  · intro u
    rw [h.places u]
    by_cases hu : u = t
    · simp only [hu, hself]
      exact iff_of_false hnot id
    · simp only [hrest u hu]
  · exact h.perm
  · intro u b hb
    by_cases hu : u = t
    · simp only [hu, hself] at hb
      refine hu ▸ h.pending t b ?_
      rw [hphase]
      exact List.mem_cons_of_mem a hb
    · simp only [hrest u hu] at hb
      exact h.pending u b hb
  · intro r hr
    by_cases hra : r = a.origRow
    · rw [hra]
      simp only [Sys.tid, Function.update_self]
      exact ⟨hmine.1.trans hdata.symm, hmine.2.trans htid.symm⟩
    · simp only [Sys.tid, Function.update_of_ne hra]
      refine h.settled r fun u b hb => ?_
      by_cases hu : u = t
      · rw [hu, hphase] at hb
        rcases List.mem_cons.mp hb with rfl | hb
        · exact Ne.symm hra
        · exact hr t b (by simp only [hself]; exact hb)
      · exact hr u b (by simp only [hrest u hu]; exact hb)

/-! ### Steps and runs -/

theorem Inv.init (cfg : Config R) (store : R → D) :
    Inv cfg store (Sys.init store : Sys Thd R D) where
  locks := by
    constructor
    · intro t
      exact List.nodup_nil
    · intro t u r ht
      cases ht
    · intro r
      refine iff_of_false (by simp [Sys.init, RowSilo.init, RowSilo.lockedBit]) ?_
      rintro ⟨t, ht⟩
      cases ht
    · intro t r
      rfl
  fitting := fun _ => trivial
  small := fun _ => Nat.two_pow_pos 63
  accounts := by
    refine ⟨store, fun _ => 0, [], ⟨trivial, List.Pairwise.nil, rfl, ?_⟩, ?_, List.Perm.refl _, ?_, ?_⟩
    · intro t a ha
      cases ha
    · intro t
      exact iff_of_false List.not_mem_nil id
    · intro t a ha
      cases ha
    · intro r _
      exact ⟨rfl, (congrArg Row.tid (RowSilo.toRow_init (store r))).symm⟩

/-- A thread without a place moves and touches no row. -/
theorem Inv.goto (h : Inv cfg base s) (hheld : phase.heldRows cfg = (s.phase t).heldRows cfg)
    (hgood : phase.Good cfg s.tid (s.curTid t)) (hpending : phase.pending = (s.phase t).pending)
    (hplace : ¬ (s.phase t).Validating) (hplace' : ¬ phase.Validating)
    (hseen : phase.seen ⊆ (s.phase t).seen) : Inv cfg base (s.goto t phase) where
  locks := h.locks.goto hheld
  fitting := h.fitting.goto hgood
  small := h.small
  accounts := by
    obtain ⟨store, version, order, hacc⟩ := h.accounts
    exact ⟨store, version, order, hacc.goto_unplaced hpending hplace hplace' hseen⟩

/-- The same from a phase that is known. -/
theorem Inv.leave (h : Inv cfg base s) {old : Phase R D} (hphase : s.phase t = old)
    (hgood : phase.Good cfg s.tid (s.curTid t)) (hheld : phase.heldRows cfg = old.heldRows cfg)
    (hpending : phase.pending = old.pending) (hplace : ¬ old.Validating)
    (hplace' : ¬ phase.Validating) (hseen : phase.seen ⊆ old.seen) :
    Inv cfg base (s.goto t phase) := by
  subst hphase
  exact h.goto hheld hgood hpending hplace hplace' hseen

theorem Inv.release (h : Inv cfg base s) {r : R} {old : Phase R D} (hphase : s.phase t = old)
    (hgood : phase.Good cfg s.tid (s.curTid t))
    (hheld : old.heldRows cfg = r :: phase.heldRows cfg) (hpending : phase.pending = old.pending)
    (hplace : ¬ old.Validating) (hplace' : ¬ phase.Validating) (hseen : phase.seen ⊆ old.seen) :
    Inv cfg base (s.release t r phase) := by
  subst hphase
  obtain ⟨row, hrow, hdata, htid, hlocks⟩ := h.locks.release hheld
  obtain ⟨store, version, order, hacc⟩ := h.accounts
  refine ⟨hlocks, h.fitting.release hrow htid hgood, ?_, store, version, order,
    hacc.release hrow hdata htid hpending hplace hplace' hseen⟩
  rw [Sys.release_eq hrow]
  exact h.small

theorem Txn.Good.access {txn : Txn R D} (h : txn.Good) {row : RowSilo D} {r : R} {writes : Bool}
    (hnext : txn.prog.next txn.values = some (r, writes))
    (hfresh : r ∉ txn.accesses.map Access.origRow) :
    Txn.Good { txn with accesses := txn.accesses ++
      [⟨if writes then .wr else .rd, r, row.data, row.getTid⟩] } where
  continues := by
    have hvalues : txn.ops.map Op.value = txn.values := by
      rw [Txn.ops, List.map_map]
      rfl
    have hop : (⟨if writes then .wr else .rd, r, row.data, row.getTid⟩ : Access R D).op =
        ⟨r, writes, row.data⟩ := by
      cases writes <;> rfl
    rw [Txn.ops, List.map_append, List.map_singleton, hop]
    refine h.continues.snoc ?_
    rw [List.nil_append, hvalues]
    exact hnext
  distinct := by
    rw [List.map_append, List.map_singleton]
    refine List.nodup_append.mpr ⟨h.distinct, List.nodup_singleton r, fun a ha b hb => ?_⟩
    rw [List.mem_singleton.mp hb]
    intro heq
    exact hfresh ((show a = r from heq) ▸ ha)
  small := by
    intro a ha
    rcases List.mem_append.mp ha with hmem | hmem
    · exact h.small a hmem
    · rw [List.mem_singleton.mp hmem]
      exact row.getTid_lt

theorem Config.enter_good (cfg : Config R) {txn : Txn R D} (h : txn.Ready) (tid : R → Nat)
    (curTid : Nat) : (cfg.enter txn).Good cfg tid curTid := by
  unfold Config.enter
  split
  · exact h
  · exact ⟨h, rfl, fun a ha => by cases ha⟩

theorem Config.enter_heldRows (cfg : Config R) (txn : Txn R D) :
    (cfg.enter txn).heldRows cfg = [] := by
  unfold Config.enter
  split <;> rfl

theorem Config.enter_pending (cfg : Config R) (txn : Txn R D) : (cfg.enter txn).pending = [] := by
  unfold Config.enter
  split <;> rfl

theorem Config.enter_seen (cfg : Config R) (txn : Txn R D) :
    (cfg.enter txn).seen = txn.accesses.map Access.seen := by
  unfold Config.enter
  split <;> rfl

theorem Config.enter_not_validating (cfg : Config R) (txn : Txn R D) :
    ¬ (cfg.enter txn).Validating := by
  unfold Config.enter
  split <;> exact id

/-- The row is free, so that what is read is what the serial order says. -/
theorem Inv.access (h : Inv cfg base s) {txn : Txn R D} {r : R} {writes : Bool}
    (hphase : s.phase t = .executing txn) (hnext : txn.prog.next txn.values = some (r, writes))
    (hfresh : r ∉ txn.accesses.map Access.origRow) (hfree : (s.rows r).lockedBit = false) :
    Inv cfg base (s.goto t (.executing { txn with accesses := txn.accesses ++
      [⟨if writes then .wr else .rd, r, (s.rows r).data, (s.rows r).getTid⟩] })) := by
  have hgood := h.fitting t
  rw [hphase] at hgood
  refine ⟨h.locks.goto (by rw [hphase]; rfl), h.fitting.goto (hgood.access hnext hfresh),
    h.small, ?_⟩
  obtain ⟨store, version, order, hacc⟩ := h.accounts
  refine ⟨store, version, order, hacc.goto (by rw [hphase]; rfl) (by rw [hphase]; rfl) ?_ ?_⟩
  · intro hval
    rw [hphase] at hval
    cases hval
  · intro a ha
    simp only [Phase.seen, Phase.txn, List.map_append, List.map_singleton] at ha
    rcases List.mem_append.mp ha with hmem | hmem
    · rw [hphase]
      exact Or.inl hmem
    · obtain ⟨hstore, hversion⟩ := hacc.settled_of_free h.locks hfree
      rw [List.mem_singleton.mp hmem]
      exact Or.inr ⟨hstore.symm, hversion.symm⟩

theorem Inv.enter (h : Inv cfg base s) {txn : Txn R D}
    (hphase : s.phase t = .executing txn ∧ txn.prog.next txn.values = none ∨
      s.phase t = .backingOff txn []) : Inv cfg base (s.goto t (cfg.enter txn)) := by
  have hgood := h.fitting t
  have hcase : txn.Ready ∧ (s.phase t).heldRows cfg = [] ∧ (s.phase t).pending = [] ∧
      ¬ (s.phase t).Validating ∧ (s.phase t).seen = txn.accesses.map Access.seen := by
    rcases hphase with ⟨hphase, hnext⟩ | hphase
    · rw [hphase] at hgood ⊢
      exact ⟨⟨hgood, hnext⟩, rfl, rfl, id, rfl⟩
    · rw [hphase] at hgood ⊢
      exact ⟨hgood, rfl, rfl, id, rfl⟩
  obtain ⟨hready, hheld, hpending, hplace, hseen⟩ := hcase
  refine h.goto (by rw [cfg.enter_heldRows, hheld]) (cfg.enter_good hready _ _)
    (by rw [cfg.enter_pending, hpending]) hplace (cfg.enter_not_validating txn) ?_
  rw [cfg.enter_seen, hseen]
  exact List.Subset.refl _

theorem Inv.lock (h : Inv cfg base s) {txn : Txn R D} {held todo : List (Access R D)}
    {a : Access R D} {row : RowSilo D} (hphase : s.phase t = .locking txn held (a :: todo))
    (hlock : (s.rows a.origRow).tryLock = some row) :
    Inv cfg base (s.lock t a.origRow row (.checking txn held a todo)) := by
  have hgood := h.fitting t
  rw [hphase] at hgood
  obtain ⟨hfree, -, hdata, htid⟩ := RowSilo.tryLock_spec hlock
  refine ⟨h.locks.lock hlock (by rw [hphase]; exact List.map_append), ?_, h.small, ?_⟩
  · refine h.fitting.moved rfl (fun _ _ => rfl)
      (fun _ _ q _ => getTid_update htid q) ?_
    exact ⟨hgood.1, hgood.2.1, fun b hb => (getTid_update htid _).trans (hgood.2.2 b hb)⟩
  · obtain ⟨store, version, order, hacc⟩ := h.accounts
    refine ⟨store, version, order, hacc.quiet rfl
      (fun q => ⟨contents_update hdata q, getTid_update htid q⟩) rfl rfl (by rw [hphase]; rfl)
      (by rw [hphase]; rfl) ?_ ?_⟩
    · intro hval
      rw [hphase] at hval
      cases hval
    · intro b hb
      rw [hphase]
      exact Or.inl hb

theorem Inv.check (h : Inv cfg base s) {txn : Txn R D} {held todo : List (Access R D)}
    {a : Access R D} (hphase : s.phase t = .checking txn held a todo)
    (hsame : (s.rows a.origRow).getTid = a.tid) :
    Inv cfg base (s.goto t (.locking txn (held ++ [a]) todo)) := by
  have hgood := h.fitting t
  rw [hphase] at hgood
  obtain ⟨hready, hset, htids⟩ := hgood
  refine h.leave hphase ⟨hready, ?_, fun b hb => ?_⟩ rfl rfl id id (List.Subset.refl _)
  · rw [List.append_assoc]
    exact hset
  · rcases List.mem_append.mp hb with hb | hb
    · exact htids b hb
    · rw [List.mem_singleton.mp hb]
      exact hsame

/-- All write locks are taken, and the transaction takes its place. -/
theorem Inv.locked (h : Inv cfg base s) {txn : Txn R D} {held : List (Access R D)}
    (hphase : s.phase t = .locking txn held []) :
    Inv cfg base (s.goto t (.validatingReads txn txn.readSet 0)) := by
  have hgood := h.fitting t
  obtain ⟨store, version, order, hacc⟩ := h.accounts
  have hplaced := hacc.locked h.locks hphase hgood
  rw [hphase] at hgood
  obtain ⟨hready, hset, htids⟩ := hgood
  rw [List.append_nil] at hset
  refine ⟨h.locks.goto ?_, h.fitting.goto ⟨hready, fun a ha => htids a (hset ▸ ha),
    List.Subset.refl _, fun a ha => Or.inl ha, Nat.two_pow_pos 63⟩, h.small, _, _, _, hplaced⟩
  rw [hphase, Phase.heldRows, Phase.heldRows, Phase.held, Phase.held, hset]

/-- The greatest id so far is that of the accesses seen, the first one now included. -/
theorem seen_or_le_max {accesses todo : List (Access R D)} {a : Access R D} {maxTid : Nat}
    (h : ∀ b ∈ accesses, b ∈ a :: todo ∨ b.tid ≤ maxTid) :
    ∀ b ∈ accesses, b ∈ todo ∨ b.tid ≤ max maxTid a.tid := by
  intro b hb
  rcases h b hb with hmem | hle
  · rcases List.mem_cons.mp hmem with rfl | hmem
    · exact Or.inr (Nat.le_max_right ..)
    · exact Or.inl hmem
  · exact Or.inr (Nat.le_trans hle (Nat.le_max_left ..))

theorem Inv.validateRead (h : Inv cfg base s) {txn : Txn R D} {a : Access R D}
    {todo : List (Access R D)} {maxTid : Nat}
    (hphase : s.phase t = .validatingReads txn (a :: todo) maxTid)
    (hfree : (s.rows a.origRow).lockedBit = false) (hsame : (s.rows a.origRow).getTid = a.tid) :
    Inv cfg base (s.goto t (.validatingReads txn todo (max maxTid a.tid))) := by
  have hgood := h.fitting t
  obtain ⟨store, version, order, hacc⟩ := h.accounts
  have hguarded := hacc.validateRead h.locks (max maxTid a.tid) hphase hgood hfree hsame
  rw [hphase] at hgood
  obtain ⟨hready, htids, htodo, hmax, hbound⟩ := hgood
  refine ⟨h.locks.goto (by rw [hphase]; rfl),
    h.fitting.goto ⟨hready, htids, ?_, seen_or_le_max hmax, ?_⟩, h.small, _, _, _, hguarded⟩
  · exact (List.cons_subset.mp htodo).2
  · have ha := hready.final_small (Txn.mem_readSet.mp (htodo (List.mem_cons_self ..))).1
    exact Nat.max_lt.mpr ⟨hbound, ha⟩

theorem Inv.validatedReads (h : Inv cfg base s) {txn : Txn R D} {maxTid : Nat}
    (hphase : s.phase t = .validatingReads txn [] maxTid) :
    Inv cfg base (s.goto t (.validatingWrites txn (cfg.writeSet txn) maxTid)) := by
  have hgood := h.fitting t
  obtain ⟨store, version, order, hacc⟩ := h.accounts
  rw [hphase] at hgood
  obtain ⟨hready, htids, -, -, hbound⟩ := hgood
  refine ⟨h.locks.goto (by rw [hphase]; rfl), h.fitting.goto ⟨hready, htids, List.Subset.refl _,
    fun a ha => Or.inl ha, hbound⟩, h.small, store, version, order, ?_⟩
  refine hacc.goto (by rw [hphase]; rfl) (by rw [hphase]; rfl) (fun _ => ?_) fun b hb => ?_
  · rw [hphase]
    refine ⟨rfl, funext fun r => ?_⟩
    simp [Phase.guarded]
  · rw [hphase]
    exact Or.inl hb

theorem Inv.validateWrite (h : Inv cfg base s) {txn : Txn R D} {a : Access R D}
    {todo : List (Access R D)} {maxTid : Nat}
    (hphase : s.phase t = .validatingWrites txn (a :: todo) maxTid) :
    Inv cfg base (s.goto t (.validatingWrites txn todo (max maxTid a.tid))) := by
  have hgood := h.fitting t
  obtain ⟨store, version, order, hacc⟩ := h.accounts
  rw [hphase] at hgood
  obtain ⟨hready, htids, htodo, hmax, hbound⟩ := hgood
  refine ⟨h.locks.goto (by rw [hphase]; rfl),
    h.fitting.goto ⟨hready, htids, ?_, seen_or_le_max hmax, ?_⟩, h.small, store, version, order, ?_⟩
  · exact (List.cons_subset.mp htodo).2
  · have ha := hready.final_small (Config.mem_writeSet.mp (htodo (List.mem_cons_self ..))).1
    exact Nat.max_lt.mpr ⟨hbound, ha⟩
  · refine hacc.goto (by rw [hphase]; rfl) (by rw [hphase]; rfl) (fun _ => ?_) fun b hb => ?_
    · rw [hphase]
      exact ⟨rfl, rfl⟩
    · rw [hphase]
      exact Or.inl hb

/-- An invalid transaction loses its place. -/
theorem Inv.invalid (h : Inv cfg base s) {txn : Txn R D} {todo : List (Access R D)} {maxTid : Nat}
    (hphase : s.phase t = .validatingReads txn todo maxTid ∨
      s.phase t = .validatingWrites txn todo maxTid) :
    Inv cfg base (s.goto t (.aborting (cfg.writeSet txn))) := by
  have hcase : (s.phase t).heldRows cfg = (cfg.writeSet txn).map Access.origRow ∧
      (s.phase t).pending = [] ∧ (s.phase t).Validating := by
    rcases hphase with hphase | hphase
    · rw [hphase]
      exact ⟨rfl, rfl, trivial⟩
    · rw [hphase]
      exact ⟨rfl, rfl, trivial⟩
  obtain ⟨hheld, hpending, hplace⟩ := hcase
  obtain ⟨store, version, order, hacc⟩ := h.accounts
  obtain ⟨order', hacc'⟩ := hacc.invalid hplace
    (show (Phase.aborting (cfg.writeSet txn)).pending = _ from hpending.symm) id rfl
  exact ⟨h.locks.goto hheld.symm, h.fitting.goto trivial, h.small, _, _, _, hacc'⟩

theorem Inv.commit (h : Inv cfg base s) {txn : Txn R D} {maxTid : Nat}
    (hphase : s.phase t = .validatingWrites txn [] maxTid)
    (hsmall : ∀ u, (s.commit t txn maxTid (.writing (cfg.writeSet txn))).curTid u < 2 ^ 63) :
    Inv cfg base (s.commit t txn maxTid (.writing (cfg.writeSet txn))) := by
  have hgood := h.fitting t
  obtain ⟨store, version, order, hacc⟩ := h.accounts
  rw [hphase] at hgood
  have hnewer := hgood.nextTid_spec (h.small t)
  obtain ⟨store', version', order', hacc'⟩ := hacc.commit h.locks hphase hgood.1 hnewer
  have hheld : (Phase.writing (cfg.writeSet txn)).heldRows cfg = (s.phase t).heldRows cfg := by
    rw [hphase]
    rfl
  refine ⟨h.locks.goto hheld, ?_, hsmall, store', version', order', hacc'⟩
  refine h.fitting.moved rfl (fun u hu => Function.update_of_ne hu ..) (fun _ _ _ _ => rfl) ?_
  intro a ha
  simp only [Sys.commit, Function.update_self]
  exact hnewer a ha

theorem Inv.write (h : Inv cfg base s) {a : Access R D} {todo : List (Access R D)}
    (hphase : s.phase t = .writing (a :: todo))
    (hsmall : ∀ u, (s.write t a (.unlocking a todo)).curTid u < 2 ^ 63) :
    Inv cfg base (s.write t a (.unlocking a todo)) := by
  have hgood := h.fitting t
  obtain ⟨store, version, order, hacc⟩ := h.accounts
  rw [hphase] at hgood
  have hmem : a.origRow ∈ (s.phase t).heldRows cfg := by
    rw [hphase]
    exact List.mem_map_of_mem (List.mem_cons_self ..)
  obtain ⟨row, hrow, hdata, htid, hlocks⟩ := h.locks.write hmem
    (show (Phase.unlocking a todo).heldRows cfg = _ by rw [hphase]; rfl)
    (hgood a (List.mem_cons_self ..)) (h.small t)
  have hothers : ∀ q, q ≠ a.origRow → (s.write t a (.unlocking a todo)).tid q = s.tid q := by
    intro q hq
    rw [Sys.write_eq hrow]
    simp only [Sys.tid, Function.update_of_ne hq]
  have hnodup := Owned.nodup h.locks t
  rw [hphase] at hnodup
  refine ⟨hlocks, ?_, hsmall, store, version, order, hacc.write hphase hrow hdata htid⟩
  have hmoved : (s.write t a (.unlocking a todo)).phase =
      Function.update s.phase t (.unlocking a todo) := by rw [Sys.write_eq hrow]
  refine h.fitting.moved hmoved (fun u _ => by rw [Sys.write_eq hrow])
    (fun u hu q hq => hothers q ?_) fun b hb => ?_
  · exact fun heq => hu (Owned.apart h.locks u t _ hq (heq ▸ hmem))
  · have hne : b.origRow ≠ a.origRow := by
      intro heq
      exact (List.nodup_cons.mp hnodup).1 (heq ▸ List.mem_map_of_mem hb)
    rw [hothers _ hne, Sys.write_eq hrow]
    exact hgood b (List.mem_cons_of_mem a hb)

/-- Every move keeps the invariant, as long as the ids do not run out. -/
theorem Inv.moves (h : Inv cfg base s) (hmove : Moves cfg s t s')
    (hsmall : ∀ u, s'.curTid u < 2 ^ 63) : Inv cfg base s' := by
  have hgood := h.fitting t
  cases hmove with
  | start prog hphase =>
      refine h.leave hphase ?_ rfl rfl id id (List.nil_subset _)
      exact ⟨trivial, List.nodup_nil, fun a ha => by cases ha⟩
  | giveUp txn hphase =>
      exact h.leave hphase trivial rfl rfl id id (List.nil_subset _)
  | access txn r writes hphase hnext hfresh hfree => exact h.access hphase hnext hfresh hfree
  | enter txn hphase => exact h.enter hphase
  | preAbortFails txn todo hphase =>
      exact h.leave hphase trivial rfl rfl id id (List.nil_subset _)
  | preAbort txn a todo hphase =>
      rw [hphase] at hgood
      exact h.leave hphase hgood rfl rfl id id (List.Subset.refl _)
  | preAborted txn hphase =>
      rw [hphase] at hgood
      refine h.leave hphase ⟨hgood, rfl, ?_⟩ rfl rfl id id (List.Subset.refl _)
      intro a ha
      cases ha
  | lock txn held a todo row hphase hlock => exact h.lock hphase hlock
  | refused txn held todo hphase =>
      rw [hphase] at hgood
      exact h.leave hphase hgood.1 rfl rfl id id (List.Subset.refl _)
  | assertFails txn held a todo hphase hfree =>
      have hmem : a.origRow ∈ (s.phase t).heldRows cfg := by
        rw [hphase]
        exact List.mem_map_of_mem (List.mem_append_right _ (List.mem_singleton_self a))
      exact absurd hmem (Owned.not_held h.locks hfree t)
  | checkFails txn held a todo hphase =>
      exact h.leave hphase trivial rfl rfl id id (List.nil_subset _)
  | check txn held a todo hphase hsame => exact h.check hphase hsame
  | backOff txn a todo hphase =>
      rw [hphase] at hgood
      exact h.release hphase hgood rfl rfl id id (List.Subset.refl _)
  | locked txn held hphase => exact h.locked hphase
  | validateRead txn a todo maxTid hphase hfree hsame => exact h.validateRead hphase hfree hsame
  | validatedReads txn maxTid hphase => exact h.validatedReads hphase
  | validateWrite txn a todo maxTid hphase => exact h.validateWrite hphase
  | invalid txn todo maxTid hphase => exact h.invalid hphase
  | commit txn maxTid hphase => exact h.commit hphase hsmall
  | write a todo hphase => exact h.write hphase hsmall
  | unlock a todo hphase =>
      rw [hphase] at hgood
      exact h.release hphase hgood rfl rfl id id (List.nil_subset _)
  | giveBack a todo hphase =>
      exact h.release hphase trivial rfl rfl id id (List.nil_subset _)
  | done hphase =>
      rcases hphase with hphase | hphase
      · exact h.leave hphase trivial rfl rfl id id (List.nil_subset _)
      · exact h.leave hphase trivial rfl rfl id id (List.nil_subset _)

/-- The row that the next step of a thread writes. -/
def Sys.writes (s : Sys Thd R D) (t : Thd) : Option R :=
  match s.phase t with
  | .writing (a :: _) => some a.origRow
  | _ => none

theorem release_tid (s : Sys Thd R D) (t : Thd) (r : R) (phase : Phase R D) :
    (s.release t r phase).tid = s.tid := by
  cases hrow : (s.rows r).release with
  | none =>
      rw [Sys.release, hrow]
      rfl
  | some row =>
      have hlocked : (s.rows r).lockedBit = true := by
        unfold RowSilo.release at hrow
        split at hrow
        next hlocked => exact hlocked
        next => cases hrow
      obtain ⟨row', hrow', -, -, hsame⟩ := RowSilo.release_spec hlocked
      rw [hrow, Option.some.injEq] at hrow'
      rw [← hrow'] at hsame
      rw [Sys.release_eq hrow]
      exact tid_update hsame rfl

/-- Every write raises the id of its row, and nothing else changes an id. -/
theorem Inv.tid_moves (h : Inv cfg base s) (hmove : Moves cfg s t s') (r : R) :
    if s.writes t = some r then s.tid r < s'.tid r else s'.tid r = s.tid r := by
  have hquiet : s.writes t = none → s'.tid = s.tid →
      if s.writes t = some r then s.tid r < s'.tid r else s'.tid r = s.tid r := by
    intro hnone hsame
    rw [hnone, if_neg (by simp), hsame]
  cases hmove with
  | start _ hphase => exact hquiet (by simp [Sys.writes, hphase]) rfl
  | giveUp _ hphase => exact hquiet (by simp [Sys.writes, hphase]) rfl
  | access _ _ _ hphase => exact hquiet (by simp [Sys.writes, hphase]) rfl
  | enter _ hphase =>
      rcases hphase with ⟨hphase, -⟩ | hphase
      · exact hquiet (by simp [Sys.writes, hphase]) rfl
      · exact hquiet (by simp [Sys.writes, hphase]) rfl
  | preAbortFails _ _ hphase => exact hquiet (by simp [Sys.writes, hphase]) rfl
  | preAbort _ _ _ hphase => exact hquiet (by simp [Sys.writes, hphase]) rfl
  | preAborted _ hphase => exact hquiet (by simp [Sys.writes, hphase]) rfl
  | lock _ _ _ _ _ hphase hlock =>
      exact hquiet (by simp [Sys.writes, hphase]) (tid_update (RowSilo.tryLock_spec hlock).2.2.2 rfl)
  | refused _ _ _ hphase => exact hquiet (by simp [Sys.writes, hphase]) rfl
  | assertFails _ _ _ _ hphase => exact hquiet (by simp [Sys.writes, hphase]) rfl
  | checkFails _ _ _ _ hphase => exact hquiet (by simp [Sys.writes, hphase]) rfl
  | check _ _ _ _ hphase => exact hquiet (by simp [Sys.writes, hphase]) rfl
  | backOff _ _ _ hphase => exact hquiet (by simp [Sys.writes, hphase]) (release_tid ..)
  | locked _ _ hphase => exact hquiet (by simp [Sys.writes, hphase]) rfl
  | validateRead _ _ _ _ hphase => exact hquiet (by simp [Sys.writes, hphase]) rfl
  | validatedReads _ _ hphase => exact hquiet (by simp [Sys.writes, hphase]) rfl
  | validateWrite _ _ _ _ hphase => exact hquiet (by simp [Sys.writes, hphase]) rfl
  | invalid _ _ _ hphase =>
      rcases hphase with hphase | hphase
      · exact hquiet (by simp [Sys.writes, hphase]) rfl
      · exact hquiet (by simp [Sys.writes, hphase]) rfl
  | commit _ _ hphase => exact hquiet (by simp [Sys.writes, hphase]) rfl
  | unlock _ _ hphase => exact hquiet (by simp [Sys.writes, hphase]) (release_tid ..)
  | giveBack _ _ hphase => exact hquiet (by simp [Sys.writes, hphase]) (release_tid ..)
  | done hphase =>
      rcases hphase with hphase | hphase
      · exact hquiet (by simp [Sys.writes, hphase]) rfl
      · exact hquiet (by simp [Sys.writes, hphase]) rfl
  | write a todo hphase =>
      have hgood := h.fitting t
      rw [hphase] at hgood
      have hnewer := hgood a (List.mem_cons_self ..)
      obtain ⟨row, hrow, -, htid, -⟩ := h.locks.write
        (show a.origRow ∈ (s.phase t).heldRows cfg by
          rw [hphase]
          exact List.mem_map_of_mem (List.mem_cons_self ..))
        (show (Phase.unlocking a todo).heldRows cfg = _ by rw [hphase]; rfl) hnewer (h.small t)
      have hwrites : s.writes t = some a.origRow := by
        rw [Sys.writes, hphase]
      rw [hwrites, Sys.write_eq hrow]
      by_cases hr : a.origRow = r
      · rw [if_pos (congrArg some hr), ← hr]
        simp only [Sys.tid, Function.update_self, htid]
        exact hnewer
      · rw [if_neg (fun heq => hr (Option.some.inj heq))]
        simp only [Sys.tid, Function.update_of_ne (Ne.symm hr)]

/-- The ids stay below the lock bit. -/
def TidsSmall (cfg : Config R) (s : Sys Thd R D) (a : Action Thd R D) : Prop :=
  ∀ s' ∈ step cfg s a, s'.curTid a.thd < 2 ^ 63

instance TidsSmall.decidable (cfg : Config R) (s : Sys Thd R D) (a : Action Thd R D) :
    Decidable (TidsSmall cfg s a) :=
  inferInstanceAs (Decidable (∀ s' ∈ step cfg s a, s'.curTid a.thd < 2 ^ 63))

theorem Moves.curTid (hmove : Moves cfg s t s') {u : Thd} (hu : u ≠ t) :
    s'.curTid u = s.curTid u := by
  have hrelease : ∀ r phase, (s.release t r phase).curTid = s.curTid := by
    intro r phase
    unfold Sys.release
    split <;> rfl
  cases hmove with
  | commit => exact Function.update_of_ne hu ..
  | write a todo =>
      unfold Sys.write
      split <;> rfl
  | backOff => rw [hrelease]
  | unlock => rw [hrelease]
  | giveBack => rw [hrelease]
  | _ => rfl

theorem Inv.step (h : Inv cfg base s) {a : Action Thd R D} (hsmall : TidsSmall cfg s a)
    (hstep : step cfg s a = some s') : Inv cfg base s' := by
  refine h.moves (step_moves hstep) fun u => ?_
  by_cases hu : u = a.thd
  · exact hu ▸ hsmall s' hstep
  · rw [(step_moves hstep).curTid hu]
    exact h.small u

/-- In every run with ids below the lock bit no assertion fails, every write raises the id of
    its row, a thread that is through with a transaction has released every lock as often as it
    took it, and the committed transactions have a serial order that returns the same values and
    ends in the rows as they are, with the writes that committed transactions have still to make. -/
theorem silo_serializable (cfg : Config R) (store : R → D) {as : List (Action Thd R D)}
    (hrun : runs (Silo.step cfg) (Sys.init store) as = some s)
    (hsmall : AllSteps (Silo.step cfg) (TidsSmall cfg) (Sys.init store) as) :
    (∀ t, s.phase t ≠ .failed) ∧
    (∀ a s', Silo.step cfg s a = some s' → ∀ r,
      if s.writes a.thd = some r then s.tid r < s'.tid r else s'.tid r = s.tid r) ∧
    (∀ t r, s.locks t r = s.releases t r + if r ∈ (s.phase t).heldRows cfg then 1 else 0) ∧
    (∀ t, s.phase t = .idle → ∀ r, s.locks t r = s.releases t r) ∧
    (∀ r, (s.rows r).lockedBit = true ↔ ∃ t, r ∈ (s.phase t).heldRows cfg) ∧
    ∃ final, Serializable s.committed store final ∧
      (∀ t, ∀ a ∈ (s.phase t).pending, final a.origRow = a.data) ∧
      ∀ r, (∀ t, ∀ a ∈ (s.phase t).pending, a.origRow ≠ r) → final r = (s.rows r).data := by
  have hinv : Inv cfg store s :=
    runs_invariant (fun _ _ _ h hc hstep => h.step hc hstep) (Inv.init cfg store) hsmall hrun
  have hcounted := Owned.counted hinv.locks
  obtain ⟨final, version, order, hacc⟩ := hinv.accounts
  refine ⟨fun t hfailed => ?_, fun a s' hstep r => hinv.tid_moves (step_moves hstep) r, hcounted,
    fun t hidle r => ?_, Owned.owner hinv.locks, final, ⟨committedOf order, hacc.perm, ?_⟩, ?_, ?_⟩
  · have hgood := hinv.fitting t
    rw [hfailed] at hgood
    exact hgood
  · have hcount := hcounted t r
    rw [hidle] at hcount
    exact hcount
  · exact hacc.placed.serial
  · intro t a ha
    exact (hacc.pending t a ha).1
  · intro r hr
    exact (hacc.settled r hr).1

/-- Reads one row and leaves its contents, plus one, in the other. -/
def copyProgram : Program Bool Nat where
  next values :=
    match values with
    | [] => some (true, false)
    | [_] => some (false, true)
    | _ => none
  result values _ := values.headD 0 + 1

/-- Overwrites the row that `copyProgram` reads. -/
def setProgram : Program Bool Nat where
  next values := if values = [] then some (true, true) else none
  result _ _ := 50

def twoRows : Config Bool := ⟨true, true, fun r => r.toNat⟩

/-- The first transaction has validated its read when the second one locks the row, writes it
    and is done. -/
def overtaking : List (Action Bool Bool Nat) :=
  [.start false copyProgram] ++ List.replicate 10 (.work false) ++
    [.start true setProgram] ++ List.replicate 13 (.work true) ++ List.replicate 6 (.work false)

def Phase.isIdle : Phase R D → Bool
  | .idle => true
  | _ => false

omit [DecidableEq R] in
theorem Phase.eq_idle {phase : Phase R D} (h : phase.isIdle = true) : phase = .idle := by
  cases phase with
  | idle => rfl
  | _ => cases h

/-- The overtaken transaction comes first in the serial order. -/
theorem silo_serializable_overtaken :
    ∃ s : Sys Bool Bool Nat, runs (Silo.step twoRows) (Sys.init fun _ => 7) overtaking = some s ∧
      s.committed.length = 2 ∧ (∀ r, (s.rows r).data = if r then 50 else 8) ∧
      (∀ t, s.phase t ≠ .failed) ∧ (∀ t r, s.locks t r = s.releases t r) ∧
      ∃ final, Serializable s.committed (fun _ => 7) final ∧ ∀ r, final r = (s.rows r).data := by
  have hsome : ((runs (Silo.step twoRows) (Sys.init fun _ => 7) overtaking).map fun s =>
      (s.committed.length, (s.rows true).data, (s.rows false).data, (s.phase true).isIdle,
        (s.phase false).isIdle)) = some (2, 50, 8, true, true) := by
    decide +kernel
  obtain ⟨s, hrun, hs⟩ := Option.map_eq_some_iff.mp hsome
  simp only [Prod.mk.injEq] at hs
  obtain ⟨hlength, htrue, hfalse, hidle, hidle'⟩ := hs
  have hsmall : AllSteps (Silo.step twoRows) (TidsSmall twoRows) (Sys.init fun _ => 7) overtaking := by
    decide +kernel
  have hquiet : ∀ t, s.phase t = .idle := by
    intro t
    cases t with
    | true => exact Phase.eq_idle hidle
    | false => exact Phase.eq_idle hidle'
  obtain ⟨hassert, -, -, hlocks, -, final, hserial, -, hfinal⟩ :=
    silo_serializable twoRows (fun _ => 7) hrun hsmall
  refine ⟨s, hrun, hlength, ?_, hassert, fun t => hlocks t (hquiet t), final, hserial, ?_⟩
  · intro r
    cases r with
    | true => exact htrue
    | false => exact hfalse
  · intro r
    refine hfinal r fun t a ha => ?_
    rw [hquiet t] at ha
    cases ha

end VeriTxn.Silo
