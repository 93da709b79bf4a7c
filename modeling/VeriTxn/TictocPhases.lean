import VeriTxn.TictocCalls

/-!
# Where TicToc transactions are

What a transaction knows of the rows it has accessed, phase by phase, and that no step of another
thread takes it away.
-/

namespace VeriTxn.Tictoc

open Lease Serial Transition

/-! ### The accesses of a transaction -/

section Accesses

variable {R D : Type} {txn : Txn R D} {a : Access R D}

theorem localCopies_getElem? (f : Nat → D) (i j : Nat) (accesses : List (Access R D)) :
    (localCopies f i accesses)[j]? = accesses[j]?.map fun a => { a with data := f (i + j) } := by
  induction accesses generalizing i j with
  | nil => rfl
  | cons a accesses ih =>
      cases j with
      | zero => rfl
      | succ j =>
          rw [localCopies, List.getElem?_cons_succ, List.getElem?_cons_succ, ih, Nat.add_assoc,
            Nat.add_comm 1]

theorem op_localCopies (f : Nat → D) (i : Nat) (accesses : List (Access R D)) :
    (localCopies f i accesses).map Access.op = accesses.map Access.op := by
  induction accesses generalizing i with
  | nil => rfl
  | cons a accesses ih =>
      rw [localCopies, List.map_cons, List.map_cons, ih]
      rfl

theorem Txn.finish_ops (txn : Txn R D) : txn.finish.ops = txn.ops := op_localCopies ..

theorem map_value (accesses : List (Access R D)) :
    accesses.map Access.value = (accesses.map Access.op).map Op.value := by
  rw [List.map_map]
  rfl

theorem Txn.finish_values (txn : Txn R D) : txn.finish.values = txn.values := by
  rw [Txn.values, Txn.values, map_value, map_value]
  exact congrArg _ txn.finish_ops

theorem map_origRow (accesses : List (Access R D)) :
    accesses.map Access.origRow = (accesses.map Access.op).map Op.row := by
  rw [List.map_map]
  rfl

/-- The accesses at `finish` are the ones that were made. -/
theorem Txn.mem_finish (h : a ∈ txn.finish.accesses) :
    ∃ b ∈ txn.accesses, b.type = a.type ∧ b.origRow = a.origRow ∧ b.value = a.value ∧
      b.wts = a.wts ∧ b.rts = a.rts := by
  obtain ⟨j, hj⟩ := List.mem_iff_getElem?.mp h
  rw [Txn.finish, localCopies_getElem?] at hj
  obtain ⟨b, hb, rfl⟩ := Option.map_eq_some_iff.mp hj
  exact ⟨b, List.mem_of_getElem? hb, rfl, rfl, rfl, rfl, rfl⟩

theorem Config.writeSet_perm (cfg : Config R) (txn : Txn R D) :
    (cfg.writeSet txn).Perm (txn.accesses.filter fun a => a.type = .wr) :=
  Occ.sortLoop_perm _ _ _

theorem Config.mem_writeSet {cfg : Config R} :
    a ∈ cfg.writeSet txn ↔ a ∈ txn.accesses ∧ a.type = .wr := by
  rw [(cfg.writeSet_perm txn).mem_iff, List.mem_filter, decide_eq_true_eq]

theorem Txn.mem_readSet : a ∈ txn.readSet ↔ a ∈ txn.accesses ∧ a.type ≠ .wr := by
  rw [Txn.readSet, List.mem_filter, decide_eq_true_eq]

theorem raise_le (ts : Nat × Nat) (a : Access R D) :
    ts.1 ≤ (raise ts a).1 ∧ (a.type = .rd → a.wts ≤ (raise ts a).1) := by
  unfold raise
  split
  · rename_i h
    exact ⟨Nat.le_of_lt h.2, fun _ => Nat.le_refl _⟩
  · rename_i h
    split
    · rename_i h'
      exact ⟨Nat.le_refl _, fun hrd => absurd (hrd.symm.trans h'.1) nofun⟩
    · refine ⟨Nat.le_refl _, fun hrd => ?_⟩
      exact Nat.le_of_not_lt fun hlt => h ⟨hrd, hlt⟩

theorem foldl_raise_le (accesses : List (Access R D)) (ts : Nat × Nat) :
    ts.1 ≤ (accesses.foldl raise ts).1 ∧
      ∀ a ∈ accesses, a.type = .rd → a.wts ≤ (accesses.foldl raise ts).1 := by
  induction accesses generalizing ts with
  | nil => exact ⟨Nat.le_refl _, nofun⟩
  | cons b accesses ih =>
      obtain ⟨hle, hall⟩ := ih (raise ts b)
      obtain ⟨hb, hrd⟩ := raise_le ts b
      refine ⟨Nat.le_trans hb hle, fun a ha htype => ?_⟩
      rcases List.mem_cons.mp ha with rfl | hmem
      · exact Nat.le_trans (hrd htype) hle
      · exact hall a hmem htype

/-- `commit_wts` is not below the write timestamp of a row that is read. -/
theorem Txn.wts_le_commitWts (ha : a ∈ txn.accesses) (hrd : a.type = .rd) :
    a.wts ≤ txn.commitWts := by
  have hle := (foldl_raise_le txn.accesses (0, 0)).2 a ha hrd
  unfold Txn.commitWts
  dsimp only
  split <;> omega

/-- A transaction under way: its accesses follow its program and are of distinct rows, and each has
    copied a version. -/
structure Txn.Good (lease : R → Lease.Row D) (txn : Txn R D) : Prop where
  continues : txn.prog.Continues [] txn.ops
  distinct : (txn.accesses.map Access.origRow).Nodup
  types : ∀ a ∈ txn.accesses, a.type = .rd ∨ a.type = .wr
  sees : ∀ a ∈ txn.accesses, ∃ u, (lease a.origRow).Sees u a.wts a.rts ∧ u.data = a.value

/-- A transaction at `finish`, that may commit at `c`. -/
structure Txn.Ready (lease : R → Lease.Row D) (txn : Txn R D) (c : Nat) : Prop
    extends txn.Good lease where
  last : txn.prog.next txn.values = none
  filled : ∀ i a, txn.accesses[i]? = some a → a.data = txn.prog.result txn.values i
  above : ∀ a ∈ txn.readSet, a.wts ≤ c

variable {lease : R → Lease.Row D}

theorem Txn.Good.finish (h : txn.Good lease) (hlast : txn.prog.next txn.values = none) :
    txn.finish.Ready lease txn.commitWts where
  continues := by
    rw [txn.finish_ops]
    exact h.continues
  distinct := by
    have hrows : txn.finish.accesses.map Access.origRow = txn.accesses.map Access.origRow := by
      rw [map_origRow, map_origRow]
      exact congrArg _ txn.finish_ops
    exact hrows ▸ h.distinct
  types := by
    intro a ha
    obtain ⟨b, hb, htype, -⟩ := Txn.mem_finish ha
    exact htype ▸ h.types b hb
  sees := by
    intro a ha
    obtain ⟨b, hb, -, hrow, hvalue, hwts, hrts⟩ := Txn.mem_finish ha
    rw [← hrow, ← hvalue, ← hwts, ← hrts]
    exact h.sees b hb
  last := by
    rw [txn.finish_values]
    exact hlast
  filled := by
    intro i a ha
    rw [txn.finish_values]
    rw [Txn.finish, localCopies_getElem?, Nat.zero_add] at ha
    obtain ⟨b, -, rfl⟩ := Option.map_eq_some_iff.mp ha
    rfl
  above := by
    intro a ha
    obtain ⟨hmem, hrd⟩ := Txn.mem_readSet.mp ha
    obtain ⟨b, hb, htype, -, -, hwts, -⟩ := Txn.mem_finish hmem
    rw [← hwts]
    exact Txn.wts_le_commitWts hb ((h.types b hb).resolve_right fun hwr => hrd (htype ▸ hwr))

theorem Txn.Good.nodup_writeSet (h : txn.Good lease) (cfg : Config R) :
    ((cfg.writeSet txn).map Access.origRow).Nodup := by
  refine (((cfg.writeSet_perm txn).map _).nodup_iff).mpr ?_
  exact h.distinct.sublist (List.filter_sublist.map _)

/-- A row that is only read is not in the write set. -/
theorem Txn.Good.read_ne (h : txn.Good lease) {cfg : Config R} (ha : a ∈ txn.readSet) :
    a.origRow ∉ (cfg.writeSet txn).map Access.origRow := by
  intro hmem
  obtain ⟨b, hb, hrow⟩ := List.mem_map.mp hmem
  obtain ⟨hb, hwr⟩ := Config.mem_writeSet.mp hb
  obtain ⟨ha, hrd⟩ := Txn.mem_readSet.mp ha
  exact hrd (List.inj_on_of_nodup_map h.distinct hb ha hrow ▸ hwr)

theorem Txn.Good.step (h : txn.Good lease) {lease' : R → Lease.Row D}
    (hok : ∀ r, (lease r).Ok) (hstep : ∀ r, lease' r = lease r ∨ (lease r).Step (lease' r)) :
    txn.Good lease' where
  continues := h.continues
  distinct := h.distinct
  types := h.types
  sees := by
    intro a ha
    obtain ⟨u, hu, hvalue⟩ := h.sees a ha
    refine ⟨u, ?_, hvalue⟩
    rcases hstep a.origRow with heq | hstep
    · rw [heq]
      exact hu
    · exact hu.step hstep (hok _)

end Accesses

/-! ### Where a thread is -/

section Phases

variable {R D : Type}

/-- The accesses whose rows the thread has locked. -/
def Phase.held (cfg : Config R) : Phase R D → List (Access R D)
  | .locking _ held _ _ => held
  | .checking _ held a _ _ => held ++ [a]
  | .backingOff _ todo _ | .writing todo _ | .aborting todo => todo
  | .raising txn _ _ | .validating txn _ _ | .renewing txn _ _ _ => cfg.writeSet txn
  | .filling a todo _ | .unlocking a todo _ => a :: todo
  | .idle | .executing _ | .copying _ _ _ _ | .comparing _ _ _ _ _ | .preAborting _ _ _ => []

def Phase.heldRows (cfg : Config R) (p : Phase R D) : List R := (p.held cfg).map Access.origRow

/-- The access whose row the thread is calling. -/
def Phase.current : Phase R D → Option (Access R D)
  | .locking _ _ (a :: _) _ | .backingOff _ (a :: _) _ | .renewing _ a _ _ | .writing (a :: _) _
  | .unlocking a _ _ | .aborting (a :: _) => some a
  | _ => none

/-- How far the call may be. -/
def Phase.Calls : Phase R D → Thread → Prop
  | .locking _ _ _ _, th => th.Locking
  | .renewing _ a _ c, th => th.Renewing a.wts c
  | .writing _ c, th => th.Writing c
  | .backingOff _ _ _, th | .unlocking _ _ _, th | .aborting _, th => th.Releasing
  | _, _ => False

/-- The versions that are still to be stored. -/
def Phase.unstored : Phase R D → List (Access R D)
  | .writing todo _ | .filling _ todo _ | .unlocking _ todo _ => todo
  | _ => []

/-- The row whose word is stored and its data not. -/
def Phase.fills : Phase R D → Option R
  | .filling a _ _ => some a.origRow
  | _ => none

/-- The row that is being copied, and the word loaded before. -/
def Phase.loaded : Phase R D → Option (R × Nat)
  | .copying _ r _ v | .comparing _ r _ v _ => some (r, v)
  | _ => none

/-- Outside a call the thread holds the locks of its phase. -/
def Phase.Rests (cfg : Config R) (p : Phase R D) (r : R) (th : Thread) : Prop :=
  (r ∈ p.heldRows cfg ∧ th.isHeld = true) ∨ (r ∉ p.heldRows cfg ∧ th = .idle)

def Phase.Expects (cfg : Config R) (p : Phase R D) (r : R) (th : Thread) : Prop :=
  p.Rests cfg r th ∨ (p.current.map Access.origRow = some r ∧ p.Calls th)

variable (lease : R → Lease.Row D)

/-- The rows have the write timestamps of their copies. -/
def Current (accesses : List (Access R D)) : Prop :=
  ∀ a ∈ accesses, a.wts = (lease a.origRow).wts

/-- The leases cover the copies up to `c`. -/
def Renewed (accesses : List (Access R D)) (c : Nat) : Prop :=
  ∀ a ∈ accesses, ∃ u, (lease a.origRow).Covers u c ∧ u.stamp ≤ c ∧ u.data = a.value

/-- The leases of the locked rows end before `c`. -/
def Below (accesses : List (Access R D)) (c : Nat) : Prop :=
  ∀ a ∈ accesses, (lease a.origRow).rts < c

/-- The versions are announced. -/
def Announced (accesses : List (Access R D)) (c : Nat) : Prop :=
  ∀ a ∈ accesses, ∃ place, (lease a.origRow).pend = some ⟨c, place, a.data⟩

/-- The word was loaded while the row was not locked. -/
structure Loaded (r : R) (v : Nat) : Prop where
  lt : v < 2 ^ 63
  wts_le : wtsOf v ≤ (lease r).wts
  rts_le : getRts v ≤ (lease r).rts
  sees : ∀ u, (lease r).stored.head? = some u → wtsOf v = (lease r).wts →
    (lease r).Sees u (wtsOf v) (getRts v)

/-- What a thread relies on. -/
def Phase.Good (cfg : Config R) : Phase R D → Prop
  | .idle => True
  | .executing txn => txn.Good lease
  | .copying txn r writes v =>
      txn.Good lease ∧ txn.prog.next txn.values = some (r, writes) ∧
        r ∉ txn.accesses.map Access.origRow ∧ Loaded lease r v
  | .comparing txn r writes v copy =>
      txn.Good lease ∧ txn.prog.next txn.values = some (r, writes) ∧
        r ∉ txn.accesses.map Access.origRow ∧ Loaded lease r v ∧
        (wtsOf v = (lease r).wts → ∃ u, (lease r).stored.head? = some u ∧ u.data = copy)
  | .preAborting txn _ c => txn.Ready lease c
  | .locking txn held todo c =>
      txn.Ready lease c ∧ Current lease held ∧ held ++ todo = cfg.writeSet txn
  | .checking txn held a todo c =>
      txn.Ready lease c ∧ Current lease held ∧ held ++ a :: todo = cfg.writeSet txn
  | .backingOff txn todo c => txn.Ready lease c ∧ (todo.map Access.origRow).Nodup
  | .raising txn todo c =>
      txn.Ready lease c ∧ Current lease (cfg.writeSet txn) ∧
        ∃ done, done ++ todo = cfg.writeSet txn ∧ Below lease done c
  | .validating txn todo c =>
      txn.Ready lease c ∧ Current lease (cfg.writeSet txn) ∧ Below lease (cfg.writeSet txn) c ∧
        ∃ done, done ++ todo = txn.readSet ∧ Renewed lease done c
  | .renewing txn a todo c =>
      txn.Ready lease c ∧ Current lease (cfg.writeSet txn) ∧ Below lease (cfg.writeSet txn) c ∧
        ∃ done, done ++ a :: todo = txn.readSet ∧ Renewed lease done c
  | .writing todo c => Announced lease todo c ∧ (todo.map Access.origRow).Nodup
  | .filling a todo c =>
      Announced lease todo c ∧ ((a :: todo).map Access.origRow).Nodup ∧
        ∃ u, (lease a.origRow).stored.head? = some u ∧ u.data = a.data
  | .unlocking a todo c => Announced lease todo c ∧ ((a :: todo).map Access.origRow).Nodup
  | .aborting todo => (todo.map Access.origRow).Nodup

end Phases

section Keeping

variable {R D : Type} {cfg : Config R} {lease lease' : R → Lease.Row D}

theorem Loaded.step {r : R} {v : Nat} (h : Loaded lease r v) (hok : (lease r).Ok)
    (hstep : (lease r).Step (lease' r)) : Loaded lease' r v := by
  refine ⟨h.lt, Nat.le_trans h.wts_le (hstep.wts_le hok), Nat.le_trans h.rts_le (hstep.rts_le hok),
    fun u hu heq => ?_⟩
  have hsame : (lease r).stored.head? = some u ∧ wtsOf v = (lease r).wts := by
    have hle := h.wts_le
    generalize lease' r = row' at hstep hu heq
    cases hstep with
    | extend hpend hwts hrts hle' => exact ⟨hu, Nat.le_antisymm hle (heq ▸ hwts)⟩
    | announce => exact ⟨hu, heq⟩
    | store hpend =>
        have := hok.later _ hpend
        have := hok.le
        dsimp only at heq
        omega
  exact (h.sees u hsame.1 hsame.2).step hstep hok

/-- What a thread relies on stays, while nobody else changes the rows that it has locked. -/
theorem Phase.Good.step {p : Phase R D} (h : p.Good lease cfg) (hok : ∀ r, (lease r).Ok)
    (hstep : ∀ r, lease' r = lease r ∨ (lease r).Step (lease' r) ∧ r ∉ p.heldRows cfg) :
    p.Good lease' cfg := by
  have hgood : ∀ {txn : Txn R D}, txn.Good lease → txn.Good lease' := fun htxn =>
    htxn.step hok fun r => (hstep r).imp_right And.left
  have hready : ∀ {txn : Txn R D} {c : Nat}, txn.Ready lease c → txn.Ready lease' c :=
    fun htxn => ⟨hgood htxn.toGood, htxn.last, htxn.filled, htxn.above⟩
  have hloaded : ∀ {r v}, Loaded lease r v → Loaded lease' r v := by
    intro r v hl
    rcases hstep r with heq | ⟨hs, -⟩
    · exact ⟨hl.lt, heq ▸ hl.wts_le, heq ▸ hl.rts_le, heq ▸ hl.sees⟩
    · exact hl.step (hok r) hs
  have hsame : ∀ a ∈ p.held cfg, lease' a.origRow = lease a.origRow := fun a ha =>
    (hstep a.origRow).resolve_right fun hs => hs.2 (List.mem_map_of_mem ha)
  have hcurrent : ∀ {l : List (Access R D)}, (∀ a ∈ l, a ∈ p.held cfg) → Current lease l →
      Current lease' l := fun hl hc a ha => (hsame a (hl a ha)).symm ▸ hc a ha
  have hbelow : ∀ {l : List (Access R D)} {c : Nat}, (∀ a ∈ l, a ∈ p.held cfg) → Below lease l c →
      Below lease' l c := fun hl hc a ha => (hsame a (hl a ha)).symm ▸ hc a ha
  have hannounced : ∀ {l : List (Access R D)} {c : Nat}, (∀ a ∈ l, a ∈ p.held cfg) →
      Announced lease l c → Announced lease' l c :=
    fun hl hc a ha => (hsame a (hl a ha)).symm ▸ hc a ha
  have hrenewed : ∀ {l : List (Access R D)} {c : Nat}, Renewed lease l c → Renewed lease' l c := by
    intro l c hc a ha
    obtain ⟨u, hu, hwhat⟩ := hc a ha
    refine ⟨u, ?_, hwhat⟩
    rcases hstep a.origRow with heq | ⟨hs, -⟩
    · exact heq ▸ hu
    · exact hu.step hs (hok _)
  cases p with
  | idle => trivial
  | executing txn => exact hgood h
  | copying txn r writes v => exact ⟨hgood h.1, h.2.1, h.2.2.1, hloaded h.2.2.2⟩
  | comparing txn r writes v copy =>
      obtain ⟨htxn, hnext, hfresh, hl, hcopy⟩ := h
      refine ⟨hgood htxn, hnext, hfresh, hloaded hl, fun heq => ?_⟩
      rcases hstep r with hr | ⟨hs, -⟩
      · rw [hr] at heq ⊢
        exact hcopy heq
      · have hle := hl.wts_le
        have hokr := hok r
        generalize lease' r = row' at hs heq
        cases hs with
        | extend hpend hwts hrts hle' => exact hcopy (Nat.le_antisymm hle (heq ▸ hwts))
        | announce => exact hcopy heq
        | store hpend =>
            have := hokr.later _ hpend
            have := hokr.le
            dsimp only at heq
            omega
  | preAborting txn todo c => exact hready h
  | locking txn held todo c => exact ⟨hready h.1, hcurrent (fun _ ha => ha) h.2.1, h.2.2⟩
  | checking txn held a todo c =>
      exact ⟨hready h.1, hcurrent (fun _ ha => List.mem_append_left _ ha) h.2.1, h.2.2⟩
  | backingOff txn todo c => exact ⟨hready h.1, h.2⟩
  | raising txn todo c =>
      obtain ⟨htxn, hcur, done, hdone, hb⟩ := h
      refine ⟨hready htxn, hcurrent (fun _ ha => ha) hcur, done, hdone, hbelow (fun a ha => ?_) hb⟩
      show a ∈ cfg.writeSet txn
      rw [← hdone]
      exact List.mem_append_left _ ha
  | validating txn todo c =>
      obtain ⟨htxn, hcur, hb, done, hdone, hr⟩ := h
      exact ⟨hready htxn, hcurrent (fun _ ha => ha) hcur, hbelow (fun _ ha => ha) hb, done, hdone,
        hrenewed hr⟩
  | renewing txn a todo c =>
      obtain ⟨htxn, hcur, hb, done, hdone, hr⟩ := h
      exact ⟨hready htxn, hcurrent (fun _ ha => ha) hcur, hbelow (fun _ ha => ha) hb, done, hdone,
        hrenewed hr⟩
  | writing todo c => exact ⟨hannounced (fun _ ha => ha) h.1, h.2⟩
  | filling a todo c =>
      obtain ⟨ha, hnodup, hhead⟩ := h
      refine ⟨hannounced (fun _ hb => List.mem_cons_of_mem _ hb) ha, hnodup, ?_⟩
      rw [hsame a (List.mem_cons_self ..)]
      exact hhead
  | unlocking a todo c =>
      exact ⟨hannounced (fun _ hb => List.mem_cons_of_mem _ hb) h.1, h.2⟩
  | aborting todo => exact h

/-! ### Who holds the locks -/

theorem Thread.holds_of_isHeld {th : Thread} (h : th.isHeld = true) : th.Holds := by
  cases th with
  | held | heldRts rts => trivial
  | idle | renewLoad wts rts | renewCas wts rts rebase v v2 | lockLoad | lockCas v | tryLockLoad
  | tryLockCas v | writeLoad wts | writeStore wts v | releaseLoad | releaseStore v => cases h

theorem Thread.Releasing.holds {th : Thread} (h : th.Releasing) : th.Holds := by
  cases th with
  | held | heldRts rts | releaseLoad | releaseStore v => trivial
  | idle | renewLoad wts rts | renewCas wts rts rebase v v2 | lockLoad | lockCas v | tryLockLoad
  | tryLockCas v | writeLoad wts | writeStore wts v => exact h.elim

theorem Thread.Writing.holds {th : Thread} {c : Nat} (h : th.Writing c) : th.Holds := by
  cases th with
  | held | heldRts rts | writeLoad wts | writeStore wts v => trivial
  | idle | renewLoad wts rts | renewCas wts rts rebase v v2 | lockLoad | lockCas v | tryLockLoad
  | tryLockCas v | releaseLoad | releaseStore v => exact h.elim

theorem Thread.Releasing.of_isHeld {th : Thread} (h : th.isHeld = true) : th.Releasing := by
  cases th with
  | held | heldRts rts => trivial
  | idle | renewLoad wts rts | renewCas wts rts rebase v v2 | lockLoad | lockCas v | tryLockLoad
  | tryLockCas v | writeLoad wts | writeStore wts v | releaseLoad | releaseStore v => cases h

theorem Thread.Writing.of_isHeld {th : Thread} {c : Nat} (h : th.isHeld = true) :
    th.Writing c := by
  cases th with
  | held | heldRts rts => trivial
  | idle | renewLoad wts rts | renewCas wts rts rebase v v2 | lockLoad | lockCas v | tryLockLoad
  | tryLockCas v | writeLoad wts | writeStore wts v | releaseLoad | releaseStore v => cases h

/-- The row that a thread locks next is not locked by it, nor one that it renews. -/
theorem Phase.Good.current_free {p : Phase R D} (h : p.Good lease cfg) {a : Access R D}
    (ha : p.current = some a) :
    a.origRow ∉ p.heldRows cfg ∨ ∀ th, p.Calls th → th.Holds := by
  cases p with
  | locking txn held todo c =>
      cases todo with
      | nil => cases ha
      | cons b todo =>
          cases ha
          left
          have hnodup := h.1.nodup_writeSet cfg
          rw [← h.2.2, List.map_append, List.nodup_append] at hnodup
          exact fun hmem => hnodup.2.2 _ hmem _ (List.mem_cons_self ..) rfl
  | renewing txn b todo c =>
      cases ha
      obtain ⟨htxn, -, -, done, hdone, -⟩ := h
      exact .inl (htxn.read_ne (hdone ▸ List.mem_append_right _ (List.mem_cons_self ..)))
  | backingOff txn todo c | aborting todo => exact .inr fun th hth => Thread.Releasing.holds hth
  | unlocking b todo c => exact .inr fun th hth => Thread.Releasing.holds hth
  | writing todo c => exact .inr fun th hth => Thread.Writing.holds hth
  | idle | executing txn | copying txn r writes v | comparing txn r writes v copy
  | preAborting txn todo c | checking txn held a todo c | raising txn todo c
  | validating txn todo c | filling a todo c => cases ha

theorem Phase.Expects.holds {p : Phase R D} {r : R} {th : Thread} (h : p.Expects cfg r th)
    (hgood : p.Good lease cfg) (hr : r ∈ p.heldRows cfg) : th.Holds := by
  rcases h with (⟨-, hth⟩ | ⟨hno, -⟩) | ⟨hcur, hcalls⟩
  · exact Thread.holds_of_isHeld hth
  · exact absurd hr hno
  · obtain ⟨a, ha, rfl⟩ := Option.map_eq_some_iff.mp hcur
    rcases hgood.current_free ha with hno | hall
    · exact absurd hr hno
    · exact hall th hcalls

theorem Phase.unstored_held (cfg : Config R) {p : Phase R D} {a : Access R D}
    (ha : a ∈ p.unstored) : a.origRow ∈ p.heldRows cfg := by
  refine List.mem_map_of_mem ?_
  cases p with
  | writing todo c => exact ha
  | filling b todo c | unlocking b todo c => exact List.mem_cons_of_mem _ ha
  | idle | executing txn | copying txn r writes v | comparing txn r writes v copy
  | preAborting txn todo c | locking txn held todo c | checking txn held b todo c
  | backingOff txn todo c | raising txn todo c | validating txn todo c | renewing txn b todo c
  | aborting todo => cases ha

theorem Phase.fills_held (cfg : Config R) {p : Phase R D} {r : R} (hr : p.fills = some r) :
    r ∈ p.heldRows cfg := by
  cases p with
  | filling b todo c =>
      cases hr
      exact List.mem_cons_self ..
  | writing todo c | unlocking b todo c | idle | executing txn | copying txn r writes v
  | comparing txn r writes v copy | preAborting txn todo c | locking txn held todo c
  | checking txn held b todo c | backingOff txn todo c | raising txn todo c
  | validating txn todo c | renewing txn b todo c | aborting todo => cases hr

end Keeping

end VeriTxn.Tictoc
