import VeriTxn.TictocPhases

/-!
# The invariant of interleaved TicToc transactions

A row is seen as one with a lease: the two timestamps of its word, the versions that `write_data`
has stored and the one that is announced.  The steps are grouped by what they do to the leases.
-/

namespace VeriTxn.Tictoc

open Lease Serial Transition

/-! ### The invariant -/

section Inv

variable {Thd R D : Type}

def Sys.lease (s : Sys Thd R D) (r : R) : Lease.Row D :=
  ⟨wtsOf (s.rows r).word, getRts (s.rows r).word, s.stored r, s.pend r⟩

/-- The version that a commit leaves by an access. -/
def Commit.Leaves (k : Commit R D) (r : R) (v : Version D) : Prop :=
  v.stamp = k.wts ∧ v.place = k.place ∧ ∃ i o, k.ops[i]? = some o ∧ o.row = r ∧ o.writes = true ∧
    v.data = k.prog.result (k.ops.map Op.value) i

/-- The versions of the rows are the base ones and those of the commits, and each commit has read
    the newest ones up to its timestamp. -/
structure Logged (base : R → D) (committed : List (Commit R D)) (lease : R → Lease.Row D) :
    Prop where
  places : committed.Pairwise fun k l => l.place < k.place
  bound : ∀ k ∈ committed, 0 < k.place ∧ k.place ≤ committed.length
  first : ∀ r, ⟨0, 0, base r⟩ ∈ (lease r).stored
  left : ∀ r, ∀ v ∈ (lease r).versions, v = ⟨0, 0, base r⟩ ∨ ∃ k ∈ committed, k.Leaves r v
  published : ∀ k ∈ committed, ∀ i o, k.ops[i]? = some o → o.writes = true →
    ⟨k.wts, k.place, k.prog.result (k.ops.map Op.value) i⟩ ∈ (lease o.row).versions
  observes : ∀ k ∈ committed, k.prog.Observes k.ops
  reads : ∀ k ∈ committed, ∀ o ∈ k.ops, ∃ u, (lease o.row).Read u k.wts k.place ∧ u.data = o.value

structure Inv (cfg : Config R) (base : R → D) (s : Sys Thd R D) : Prop where
  wf : ∀ r, Wf (s.rows r)
  ok : ∀ r, (s.lease r).Ok
  expects : ∀ t r, (s.phase t).Expects cfg r ((s.rows r).threads t)
  good : ∀ t, (s.phase t).Good s.lease cfg
  pend : ∀ r v, s.pend r = some v → ∃ t, r ∈ (s.phase t).unstored.map Access.origRow
  data : ∀ r, (∀ t, (s.phase t).fills ≠ some r) →
    ∃ u, (s.stored r).head? = some u ∧ u.data = s.data r
  filling : ∀ t u r v, (s.phase t).fills = some r → (s.phase u).loaded = some (r, v) →
    wtsOf v < (s.lease r).wts
  log : Logged base s.committed s.lease

variable {cfg : Config R} {base : R → D} {s s' : Sys Thd R D} {t : Thd}

theorem Logged.step {committed : List (Commit R D)} {lease lease' : R → Lease.Row D}
    (h : Logged base committed lease) (hok : ∀ r, (lease r).Ok)
    (hstep : ∀ r, lease' r = lease r ∨ (lease r).Step (lease' r))
    (hversions : ∀ r, (lease' r).versions = (lease r).versions) :
    Logged base committed lease' where
  places := h.places
  bound := h.bound
  first := fun r => by
    rcases hstep r with heq | hs
    · exact heq ▸ h.first r
    · exact hs.stored (h.first r)
  left := fun r v hv => h.left r v (hversions r ▸ hv)
  published := fun k hk i o hget hw => (hversions o.row).symm ▸ h.published k hk i o hget hw
  observes := h.observes
  reads := fun k hk o ho => by
    obtain ⟨u, hu, hvalue⟩ := h.reads k hk o ho
    refine ⟨u, ?_, hvalue⟩
    rcases hstep o.row with heq | hs
    · exact heq ▸ hu
    · exact hu.step hs (hok _)

/-- Nobody has announced a version of an unlocked row, or is filling it. -/
theorem Inv.unlocked (h : Inv cfg base s) {r : R} (hword : (s.rows r).word < 2 ^ 63) :
    (∀ u, r ∉ (s.phase u).heldRows cfg) ∧ s.pend r = none ∧ ∀ u, (s.phase u).fills ≠ some r := by
  have hno : ∀ u, r ∉ (s.phase u).heldRows cfg := fun u hu =>
    (h.wf r).no_holder hword u ((h.expects u r).holds (h.good u) hu)
  refine ⟨hno, ?_, fun u hu => hno u (Phase.fills_held cfg hu)⟩
  cases hpend : s.pend r with
  | none => rfl
  | some v =>
      obtain ⟨u, hu⟩ := h.pend r v hpend
      obtain ⟨a, ha, rfl⟩ := List.mem_map.mp hu
      exact absurd (Phase.unstored_held cfg ha) (hno u)

/-- Nobody else holds what a thread holds. -/
theorem Inv.held_alone (h : Inv cfg base s) {r : R} (ht : ((s.rows r).threads t).Holds) {u : Thd}
    (hu : u ≠ t) : r ∉ (s.phase u).heldRows cfg := fun hmem =>
  hu ((h.wf r).alone u t ((h.expects u r).holds (h.good u) hmem) ht)

/-- A step of a thread. -/
theorem Inv.move (h : Inv cfg base s) (hphase : ∀ u, u ≠ t → s'.phase u = s.phase u)
    (hwf : ∀ r, Wf (s'.rows r))
    (hthreads : ∀ r u, u ≠ t → (s'.rows r).threads u = (s.rows r).threads u)
    (hlease : ∀ r, s'.lease r = s.lease r ∨
      (s.lease r).Step (s'.lease r) ∧ ∀ u, u ≠ t → r ∉ (s.phase u).heldRows cfg)
    (hexpects : ∀ r, (s'.phase t).Expects cfg r ((s'.rows r).threads t))
    (hgood : (s'.phase t).Good s'.lease cfg)
    (hpend : ∀ r v, s'.pend r = some v → r ∈ (s'.phase t).unstored.map Access.origRow ∨
      s.pend r = some v ∧ r ∉ (s.phase t).unstored.map Access.origRow)
    (hdata : ∀ r, (s'.phase t).fills ≠ some r → (∀ u, u ≠ t → (s.phase u).fills ≠ some r) →
      ∃ u, (s'.stored r).head? = some u ∧ u.data = s'.data r)
    (hloaded : ∀ u r v, u ≠ t → (s.phase u).fills = some r → (s'.phase t).loaded = some (r, v) →
      wtsOf v < (s'.lease r).wts)
    (hfills : ∀ u r v, u ≠ t → (s'.phase t).fills = some r → (s.phase u).loaded = some (r, v) →
      wtsOf v < (s'.lease r).wts)
    (hlog : Logged base s'.committed s'.lease) : Inv cfg base s' where
  wf := hwf
  ok := fun r => by
    rcases hlease r with heq | ⟨hs, -⟩
    · exact heq ▸ h.ok r
    · exact hs.ok (h.ok r)
  expects := fun u r => by
    by_cases hu : u = t
    · subst hu
      exact hexpects r
    · rw [hphase u hu, hthreads r u hu]
      exact h.expects u r
  good := fun u => by
    by_cases hu : u = t
    · subst hu
      exact hgood
    · rw [hphase u hu]
      exact (h.good u).step h.ok fun r => (hlease r).imp_right fun hs => ⟨hs.1, hs.2 u hu⟩
  pend := fun r v hv => by
    rcases hpend r v hv with hmem | ⟨hold, hno⟩
    · exact ⟨t, hmem⟩
    · obtain ⟨u, hu⟩ := h.pend r v hold
      have hne : u ≠ t := fun heq => hno (heq ▸ hu)
      exact ⟨u, (hphase u hne).symm ▸ hu⟩
  data := fun r hno => by
    refine hdata r (hno t) fun u hu => ?_
    rw [← hphase u hu]
    exact hno u
  filling := fun u w r v hu hw => by
    by_cases hut : u = t
    · subst hut
      by_cases hwt : w = u
      · subst hwt
        cases hp : s'.phase w with
        | filling a todo c =>
            rw [hp] at hw
            cases hw
        | writing todo c | unlocking b todo c | idle | executing txn | copying txn r writes v
        | comparing txn r writes v copy | preAborting txn todo c | locking txn held todo c
        | checking txn held b todo c | backingOff txn todo c | raising txn todo c
        | validating txn todo c | renewing txn b todo c | aborting todo =>
            rw [hp] at hu
            cases hu
      · exact hfills w r v hwt hu (hphase w hwt ▸ hw)
    · rw [hphase u hut] at hu
      by_cases hwt : w = t
      · subst hwt
        exact hloaded u r v hut hu hw
      · have hlt := h.filling u w r v hu (hphase w hwt ▸ hw)
        rcases hlease r with heq | ⟨hs, -⟩
        · exact heq ▸ hlt
        · exact Nat.lt_of_lt_of_le hlt (hs.wts_le (h.ok r))
  log := hlog

end Inv

/-! ### Steps that store nothing -/

section Steps

variable {Thd R D : Type} {cfg : Config R} {base : R → D} {s s' : Sys Thd R D} {t : Thd}

theorem Phase.Expects.rests {p : Phase R D} {r : R} {th : Thread} (h : p.Expects cfg r th)
    (hcur : p.current.map Access.origRow ≠ some r) : p.Rests cfg r th :=
  h.resolve_right fun hc => hcur hc.1

theorem Phase.Rests.expects {p p' : Phase R D} {r : R} {th : Thread} (h : p.Rests cfg r th)
    (hheld : r ∈ p'.heldRows cfg ↔ r ∈ p.heldRows cfg) : p'.Expects cfg r th :=
  .inl (h.imp (fun hr => ⟨hheld.mpr hr.1, hr.2⟩) fun hr => ⟨fun hmem => hr.1 (hheld.mp hmem), hr.2⟩)

theorem Inv.no_fills (h : Inv cfg base s) (hfills : (s.phase t).fills = none) {r : R}
    (hno : ∀ u, u ≠ t → (s.phase u).fills ≠ some r) :
    ∃ u, (s.stored r).head? = some u ∧ u.data = s.data r := by
  refine h.data r fun u => ?_
  by_cases hu : u = t
  · subst hu
    rw [hfills]
    exact nofun
  · exact hno u hu

variable [DecidableEq Thd] [DecidableEq R]

/-- A step that at most extends a lease. -/
theorem Inv.quiet (h : Inv cfg base s) (p : Phase R D) {rows : R → Row Thd}
    (hs : s' = { s.goto t p with rows := rows }) (hwf : ∀ r, Wf (rows r))
    (hthreads : ∀ r u, u ≠ t → (rows r).threads u = (s.rows r).threads u)
    (hlease : ∀ r, s'.lease r = s.lease r ∨
      (s.lease r).Step (s'.lease r) ∧ ∀ u, u ≠ t → r ∉ (s.phase u).heldRows cfg)
    (hexpects : ∀ r, p.Expects cfg r ((rows r).threads t)) (hgood : p.Good s'.lease cfg)
    (hunstored : ∀ a ∈ (s.phase t).unstored, a ∈ p.unstored)
    (hfills : (s.phase t).fills = none) (hfills' : p.fills = none)
    (hloaded : ∀ r v, p.loaded = some (r, v) →
      (s.phase t).loaded = some (r, v) ∨ (s.rows r).word < 2 ^ 63) : Inv cfg base s' := by
  subst hs
  have hself : ({ s.goto t p with rows := rows } : Sys Thd R D).phase t = p :=
    Function.update_self ..
  refine h.move (t := t) (fun u hu => Function.update_of_ne hu _ _) hwf hthreads hlease ?_ ?_ ?_ ?_
    ?_ ?_ ?_
  · exact fun r => hself.symm ▸ hexpects r
  · exact hself.symm ▸ hgood
  · intro r v hv
    rw [hself]
    by_cases hr : r ∈ (s.phase t).unstored.map Access.origRow
    · obtain ⟨a, ha, rfl⟩ := List.mem_map.mp hr
      exact .inl (List.mem_map_of_mem (hunstored a ha))
    · exact .inr ⟨hv, hr⟩
  · exact fun r _ hno => h.no_fills hfills hno
  · intro u r v hu hf hl
    rw [hself] at hl
    have hlt : wtsOf v < (s.lease r).wts := by
      rcases hloaded r v hl with hold | hword
      · exact h.filling u t r v hf hold
      · exact absurd hf ((h.unlocked hword).2.2 u)
    rcases hlease r with heq | ⟨hstep, -⟩
    · exact heq ▸ hlt
    · exact Nat.lt_of_lt_of_le hlt (hstep.wts_le (h.ok r))
  · intro u r v _ hf
    rw [hself, hfills'] at hf
    cases hf
  · exact h.log.step h.ok (fun r => (hlease r).imp_right And.left) fun _ => rfl

/-- A thread goes on without a call. -/
theorem Inv.goto (h : Inv cfg base s) (p : Phase R D)
    (hexpects : ∀ r, p.Expects cfg r ((s.rows r).threads t)) (hgood : p.Good s.lease cfg)
    (hunstored : ∀ a ∈ (s.phase t).unstored, a ∈ p.unstored)
    (hfills : (s.phase t).fills = none) (hfills' : p.fills = none)
    (hloaded : ∀ r v, p.loaded = some (r, v) →
      (s.phase t).loaded = some (r, v) ∨ (s.rows r).word < 2 ^ 63) : Inv cfg base (s.goto t p) :=
  h.quiet p rfl h.wf (fun _ _ _ => rfl) (fun _ => .inl rfl) hexpects hgood hunstored hfills hfills'
    hloaded

/-- A thread goes on from a phase that calls no row, with the same locks. -/
theorem Inv.pass (h : Inv cfg base s) {old : Phase R D} (hold : s.phase t = old) (p : Phase R D)
    (hcur : old.current = none) (hheld : ∀ r, r ∈ p.heldRows cfg ↔ r ∈ old.heldRows cfg)
    (hgood : p.Good s.lease cfg) (hunstored : ∀ a ∈ old.unstored, a ∈ p.unstored)
    (hfills : old.fills = none) (hfills' : p.fills = none)
    (hloaded : ∀ r v, p.loaded = some (r, v) → old.loaded = some (r, v) ∨
      (s.rows r).word < 2 ^ 63) : Inv cfg base (s.goto t p) := by
  subst hold
  refine h.goto p (fun r => ?_) hgood hunstored hfills hfills' hloaded
  refine ((h.expects t r).rests ?_).expects (hheld r)
  rw [hcur]
  exact nofun

omit [DecidableEq Thd] in
theorem setRow_rows (s : Sys Thd R D) (r : R) (row : Row Thd) (r' : R) :
    (r' = r ∧ (s.setRow r row).rows r' = row) ∨
      (r' ≠ r ∧ (s.setRow r row).rows r' = s.rows r') := by
  by_cases heq : r' = r
  · subst heq
    exact .inl ⟨rfl, Function.update_self ..⟩
  · exact .inr ⟨heq, Function.update_of_ne heq _ _⟩

theorem lease_setRow_self {r : R} {row : Row Thd} {p : Phase R D} :
    ((s.setRow r row).goto t p).lease r =
      { s.lease r with wts := wtsOf row.word, rts := getRts row.word } := by
  have hrow : ((s.setRow r row).goto t p).rows r = row := Function.update_self ..
  unfold Sys.lease
  rw [hrow]
  rfl

theorem lease_setRow_of_ne {r r' : R} {row : Row Thd} {p : Phase R D} (hr : r' ≠ r) :
    ((s.setRow r row).goto t p).lease r' = s.lease r' := by
  have hrow : ((s.setRow r row).goto t p).rows r' = s.rows r' := Function.update_of_ne hr _ _
  unfold Sys.lease
  rw [hrow]
  rfl

/-- A step of a call, that may end it. -/
theorem Inv.called (h : Inv cfg base s) (p : Phase R D) {a : Access R D} {act : Action Thd}
    {row : Row Thd} (hs : s' = (s.setRow a.origRow row).goto t p)
    (hstep : (s.rows a.origRow).step act = some row) (hact : act.thd = t)
    (hlease : s'.lease a.origRow = s.lease a.origRow ∨
      (s.lease a.origRow).Step (s'.lease a.origRow) ∧
        ∀ u, u ≠ t → a.origRow ∉ (s.phase u).heldRows cfg)
    (hcur : ∀ b, (s.phase t).current = some b → b.origRow = a.origRow)
    (hheld : ∀ r, r ≠ a.origRow → (r ∈ p.heldRows cfg ↔ r ∈ (s.phase t).heldRows cfg))
    (hself : p.Expects cfg a.origRow (row.threads t)) (hgood : p.Good s'.lease cfg)
    (hunstored : ∀ b ∈ (s.phase t).unstored, b ∈ p.unstored)
    (hfills : (s.phase t).fills = none) (hfills' : p.fills = none) (hloaded : p.loaded = none) :
    Inv cfg base s' := by
  have hrows : ∀ r', (r' = a.origRow ∧ (s.setRow a.origRow row).rows r' = row) ∨
      (r' ≠ a.origRow ∧ (s.setRow a.origRow row).rows r' = s.rows r') := setRow_rows s _ row
  have hset : s' = { s.goto t p with rows := (s.setRow a.origRow row).rows } := hs
  refine h.quiet p hset (fun r => ?_) (fun r u hu => ?_) (fun r => ?_) (fun r => ?_) hgood hunstored
    hfills hfills' ?_
  · rcases hrows r with ⟨rfl, heq⟩ | ⟨-, heq⟩ <;> rw [heq]
    · exact ((h.wf _).effect hstep).wf (h.wf _)
    · exact h.wf r
  · rcases hrows r with ⟨rfl, heq⟩ | ⟨-, heq⟩ <;> rw [heq]
    exact step_others hstep (hact ▸ hu)
  · by_cases hr : r = a.origRow
    · subst hr
      exact hlease
    · left
      subst hs
      exact lease_setRow_of_ne hr
  · rcases hrows r with ⟨rfl, heq⟩ | ⟨hne, heq⟩ <;> rw [heq]
    · exact hself
    · refine ((h.expects t r).rests fun hc => ?_).expects (hheld r hne)
      obtain ⟨b, hb, rfl⟩ := Option.map_eq_some_iff.mp hc
      exact hne (hcur b hb)
  · intro r v hl
    rw [hloaded] at hl
    cases hl

theorem goto_phase (r : R) (row : Row Thd) :
    s.setRow r row = (s.setRow r row).goto t (s.phase t) := by
  unfold Sys.goto Sys.setRow
  rw [Function.update_eq_self]

/-- The two timestamps of a word are what its row is seen by. -/
theorem lease_of_timestamps {r : R} {row : Row Thd} {p : Phase R D}
    (hwts : wtsOf row.word = wtsOf (s.rows r).word)
    (hrts : getRts row.word = getRts (s.rows r).word) :
    ((s.setRow r row).goto t p).lease = s.lease := by
  funext r'
  by_cases hr : r' = r
  · subst hr
    rw [lease_setRow_self, hwts, hrts]
    rfl
  · exact lease_setRow_of_ne hr

/-- A step of a call that leaves the timestamps of the word. -/
theorem Inv.called_same (h : Inv cfg base s) (p : Phase R D) {a : Access R D} {act : Action Thd}
    {row : Row Thd} (hstep : (s.rows a.origRow).step act = some row) (hact : act.thd = t)
    (hwts : wtsOf row.word = wtsOf (s.rows a.origRow).word)
    (hrts : getRts row.word = getRts (s.rows a.origRow).word)
    (hcur : ∀ b, (s.phase t).current = some b → b.origRow = a.origRow)
    (hheld : ∀ r, r ≠ a.origRow → (r ∈ p.heldRows cfg ↔ r ∈ (s.phase t).heldRows cfg))
    (hself : p.Expects cfg a.origRow (row.threads t)) (hgood : p.Good s.lease cfg)
    (hunstored : ∀ b ∈ (s.phase t).unstored, b ∈ p.unstored)
    (hfills : (s.phase t).fills = none) (hfills' : p.fills = none) (hloaded : p.loaded = none) :
    Inv cfg base ((s.setRow a.origRow row).goto t p) := by
  have hsame := lease_of_timestamps (s := s) (t := t) (p := p) hwts hrts
  refine h.called p rfl hstep hact (.inl (congrFun hsame _)) hcur hheld hself ?_ hunstored hfills
    hfills' hloaded
  rw [hsame]
  exact hgood

/-- A step of `release`. -/
theorem Inv.release (h : Inv cfg base s) {a : Access R D} {old next : Phase R D}
    (hold : s.phase t = old) (hs : s.release t a.origRow next = some s')
    (hcur : old.current = some a) (hcalls : old.Calls = Thread.Releasing)
    (hheld : old.heldRows cfg = a.origRow :: next.heldRows cfg)
    (hnodup : a.origRow ∉ next.heldRows cfg) (hgood : next.Good s.lease cfg)
    (hunstored : old.unstored = next.unstored) (hfills : old.fills = none)
    (hfills' : next.fills = none) (hloaded : old.loaded = none) (hloaded' : next.loaded = none) :
    Inv cfg base s' := by
  subst hold
  obtain ⟨row, hcall, hs⟩ := Option.bind_eq_some_iff.mp hs
  have honly : ∀ b, (s.phase t).current = some b → b.origRow = a.origRow := by
    intro b hb
    cases hb.symm.trans hcur
    rfl
  have hth : ((s.rows a.origRow).threads t).Releasing := by
    rcases h.expects t a.origRow with (⟨-, hth⟩ | ⟨hno, -⟩) | ⟨-, hth⟩
    · exact Thread.Releasing.of_isHeld hth
    · exact absurd (hheld ▸ List.mem_cons_self ..) hno
    · exact hcalls ▸ hth
  have hact : (if ((s.rows a.origRow).threads t).isHeld then Action.release t else .work t).thd =
      t := by
    split <;> rfl
  rcases release_spec (h.wf _) hth hcall with ⟨hword, hth', hbusy⟩ | ⟨hword, hth'⟩
  · rw [hbusy, if_neg Bool.false_ne_true] at hs
    cases hs
    rw [goto_phase (t := t)]
    refine h.called_same _ hcall hact (by rw [hword]) (by rw [hword]) honly (fun _ _ => Iff.rfl) ?_
      (h.good t) (fun _ hb => hb) hfills hfills hloaded
    refine .inr ⟨by rw [hcur]; rfl, ?_⟩
    rw [hcalls]
    exact hth'
  · rw [hth', if_pos (by rfl)] at hs
    cases hs
    refine h.called_same _ hcall hact (by rw [hword, wtsOf_clear])
      (by rw [hword, (getRts_clear _).1]) honly (fun r hr => ?_) ?_ hgood
      (hunstored ▸ fun _ hb => hb) hfills hfills' hloaded'
    · rw [hheld, List.mem_cons]
      exact ⟨.inr, fun hor => hor.resolve_left hr⟩
    · exact .inl (.inr ⟨hnodup, hth'⟩)

/-- A step of `lock` or `try_lock`. -/
theorem Inv.lock (h : Inv cfg base s) {txn : Txn R D} {held todo : List (Access R D)}
    {a : Access R D} {c : Nat} (hold : s.phase t = .locking txn held (a :: todo) c)
    (hs : s.lock t a.origRow cfg.validationNoWait (.checking txn held a todo c)
      (.backingOff txn held c) = some s') : Inv cfg base s' := by
  obtain ⟨row, hcall, hs⟩ := Option.bind_eq_some_iff.mp hs
  have hgood := h.good t
  rw [hold] at hgood
  obtain ⟨htxn, hcurrent, happend⟩ := hgood
  have hfree : a.origRow ∉ held.map Access.origRow := by
    have hnodup := htxn.nodup_writeSet cfg
    rw [← happend, List.map_append, List.nodup_append] at hnodup
    exact fun hmem => hnodup.2.2 _ hmem _ (List.mem_cons_self ..) rfl
  have honly : ∀ b, (s.phase t).current = some b → b.origRow = a.origRow := by
    intro b hb
    rw [hold] at hb
    cases hb
    rfl
  have hth : ((s.rows a.origRow).threads t).Locking := by
    have hexp := h.expects t a.origRow
    rw [hold] at hexp
    rcases hexp with (⟨hmem, -⟩ | ⟨-, hth⟩) | ⟨-, hth⟩
    · exact absurd hmem hfree
    · rw [hth]
      trivial
    · exact hth
  have hact : (if ((s.rows a.origRow).threads t).isIdle then
      (if cfg.validationNoWait then Action.tryLock t else .lock t) else .work t).thd = t := by
    split
    · split <;> rfl
    · rfl
  have hfills : (s.phase t).fills = none := by rw [hold]; rfl
  have hunstored : (s.phase t).unstored = [] := by rw [hold]; rfl
  rcases lock_spec (h.wf _) hth hcall with ⟨hword, hth'⟩ | ⟨hlt, hword, hth'⟩
  · have hnot : (row.threads t).isHeld = false := by
      cases hc : row.threads t with
      | idle | lockLoad | lockCas v | tryLockLoad | tryLockCas v => rfl
      | held | heldRts rts | writeLoad wts | writeStore wts v | releaseLoad | releaseStore v
      | renewLoad wts rts | renewCas wts rts rebase v v2 =>
          rw [hc] at hth'
          exact hth'.elim
    rw [hnot, if_neg Bool.false_ne_true] at hs
    split at hs
    · rename_i hidle
      cases hs
      have hth' : row.threads t = .idle := by
        cases hc : row.threads t with
        | idle => rfl
        | lockLoad | lockCas v | tryLockLoad | tryLockCas v | held | heldRts rts | writeLoad wts
        | writeStore wts v | releaseLoad | releaseStore v | renewLoad wts rts
        | renewCas wts rts rebase v v2 =>
            rw [hc] at hidle
            cases hidle
      refine h.called_same _ hcall hact (by rw [hword]) (by rw [hword]) honly (fun r _ => ?_) ?_ ?_
        (by rw [hunstored]; exact nofun) hfills rfl rfl
      · rw [hold]
        exact Iff.rfl
      · exact .inl (.inr ⟨hfree, hth'⟩)
      · refine ⟨htxn, ?_⟩
        have hnodup := htxn.nodup_writeSet cfg
        rw [← happend, List.map_append, List.nodup_append] at hnodup
        exact hnodup.1
    · cases hs
      rw [goto_phase (t := t)]
      refine h.called_same _ hcall hact (by rw [hword]) (by rw [hword]) honly (fun _ _ => Iff.rfl)
        ?_ (h.good t) (fun _ hb => hb) hfills hfills (by rw [hold]; rfl)
      rw [hold]
      exact .inr ⟨rfl, hth'⟩
  · rw [hth', if_pos (by rfl)] at hs
    cases hs
    refine h.called_same _ hcall hact (by rw [hword, wtsOf_set hlt])
      (by rw [hword, (getRts_set hlt).1]) honly (fun r hr => ?_) ?_ ⟨htxn, hcurrent, happend⟩
      (by rw [hunstored]; exact nofun) hfills rfl rfl
    · rw [hold]
      show r ∈ (held ++ [a]).map Access.origRow ↔ r ∈ held.map Access.origRow
      rw [List.map_append, List.mem_append]
      exact ⟨fun hor => hor.resolve_right fun hm => hr (List.mem_singleton.mp hm), .inl⟩
    · refine .inl (.inl ⟨?_, by rw [hth']; rfl⟩)
      show a.origRow ∈ (held ++ [a]).map Access.origRow
      exact List.mem_map_of_mem (List.mem_append_right _ (List.mem_singleton_self a))

end Steps

/-! ### Copies, checks and renewals -/

section Moves

variable {Thd R D : Type} {cfg : Config R} {base : R → D} {s s' : Sys Thd R D} {t : Thd}

/-- Words that differ in the lease at most. -/
theorem compare_words {v w : Nat} (hv : v < 2 ^ 63) (hw : w < 2 ^ 64)
    (h : w ||| rtsMask = v ||| rtsMask) : w < 2 ^ 63 ∧ wtsOf w = wtsOf v := by
  have hand : ∀ mask, rtsMask &&& mask = 0 → w &&& mask = v &&& mask := by
    intro mask hmask
    have heq := congrArg (· &&& mask) h
    simp only [Nat.and_or_distrib_right, hmask, Nat.or_zero] at heq
    exact heq
  have hlock := hand lockBit (by decide)
  refine ⟨?_, hand wtsMask (by decide)⟩
  rw [and_lockBit hw, and_lockBit (by omega), if_neg (by omega : ¬ 2 ^ 63 ≤ v)] at hlock
  split at hlock
  · cases hlock
  · omega

theorem Phase.Good.loaded_spec {lease : R → Lease.Row D} {p : Phase R D} (h : p.Good lease cfg)
    {r : R} {v : Nat} (hl : p.loaded = some (r, v)) : Loaded lease r v := by
  cases p with
  | copying txn q writes w =>
      cases hl
      exact h.2.2.2
  | comparing txn q writes w copy =>
      cases hl
      exact h.2.2.2.1
  | filling b todo c | writing todo c | unlocking b todo c | idle | executing txn
  | preAborting txn todo c | locking txn held todo c | checking txn held b todo c
  | backingOff txn todo c | raising txn todo c | validating txn todo c | renewing txn b todo c
  | aborting todo => cases hl

theorem Config.enter_spec (cfg : Config R) (txn : Txn R D) (c : Nat) :
    (cfg.enter txn c).heldRows cfg = [] ∧ (cfg.enter txn c).unstored = [] ∧
      (cfg.enter txn c).fills = none ∧ (cfg.enter txn c).loaded = none := by
  unfold Config.enter
  split <;> exact ⟨rfl, rfl, rfl, rfl⟩

theorem Txn.Ready.enter {lease : R → Lease.Row D} {txn : Txn R D} {c : Nat}
    (h : txn.Ready lease c) (cfg : Config R) : (cfg.enter txn c).Good lease cfg := by
  unfold Config.enter
  split
  · exact h
  · exact ⟨h, nofun, rfl⟩

theorem Txn.Ready.mono {lease : R → Lease.Row D} {txn : Txn R D} {c c' : Nat}
    (h : txn.Ready lease c) (hle : c ≤ c') : txn.Ready lease c' :=
  { h with above := fun a ha => Nat.le_trans (h.above a ha) hle }

/-- A transaction gets its copy. -/
theorem Txn.Good.access {lease : R → Lease.Row D} {txn : Txn R D} (h : txn.Good lease) {r : R}
    {writes : Bool} {v : Nat} {copy : D} (hnext : txn.prog.next txn.values = some (r, writes))
    (hfresh : r ∉ txn.accesses.map Access.origRow) {u : Version D}
    (hu : (lease r).Sees u (wtsOf v) (getRts v)) (hcopy : u.data = copy) :
    Txn.Good lease { txn with accesses :=
      txn.accesses ++ [⟨if writes then .wr else .rd, r, copy, copy, wtsOf v, getRts v⟩] } where
  continues := by
    rw [Txn.ops, List.map_append]
    have hvalues : txn.ops.map Op.value = txn.values := (map_value _).symm
    refine h.continues.snoc ?_
    rw [List.nil_append, hvalues, hnext]
    cases writes <;> rfl
  distinct := by
    rw [List.map_append, List.nodup_append]
    refine ⟨h.distinct, List.nodup_singleton _, fun q hq q' hq' heq => ?_⟩
    have hq' : q' = r := List.mem_singleton.mp hq'
    exact hfresh (hq' ▸ heq ▸ hq)
  types := by
    intro a ha
    rcases List.mem_append.mp ha with hmem | hlast
    · exact h.types a hmem
    · rw [List.mem_singleton.mp hlast]
      cases writes
      · exact .inl rfl
      · exact .inr rfl
  sees := by
    intro a ha
    rcases List.mem_append.mp ha with hmem | hlast
    · exact h.sees a hmem
    · rw [List.mem_singleton.mp hlast]
      exact ⟨u, hu, hcopy⟩

variable [DecidableEq Thd] [DecidableEq R]

/-- `get_rts` of a locked row. -/
theorem Inv.raise (h : Inv cfg base s) {txn : Txn R D} {a : Access R D}
    {todo : List (Access R D)} {c c' : Nat} {row : Row Thd}
    (hold : s.phase t = .raising txn (a :: todo) c)
    (hstep : (s.rows a.origRow).step (.getRts t) = some row) (hle : c ≤ c')
    (hlt : getRts (s.rows a.origRow).word < c') :
    Inv cfg base ((s.setRow a.origRow row).goto t (.raising txn todo c')) := by
  have hgood := h.good t
  rw [hold] at hgood
  obtain ⟨htxn, hcurrent, done, hdone, hbelow⟩ := hgood
  have hmem : a ∈ cfg.writeSet txn := hdone ▸ List.mem_append_right _ (List.mem_cons_self ..)
  have hrow : row.word = (s.rows a.origRow).word ∧ (row.threads t).isHeld = true := by
    simp only [Row.step] at hstep
    split at hstep
    · cases hstep
      rw [Row.goto_self]
      exact ⟨rfl, rfl⟩
    · cases hstep
  refine h.called_same _ hstep rfl (by rw [hrow.1]) (by rw [hrow.1]) ?_ (fun r _ => ?_) ?_ ?_ ?_ ?_
    rfl rfl
  · rw [hold]
    intro b hb
    cases hb
  · rw [hold]
    exact Iff.rfl
  · exact .inl (.inl ⟨List.mem_map_of_mem hmem, hrow.2⟩)
  · refine ⟨htxn.mono hle, hcurrent, done ++ [a], by rw [List.append_assoc]; exact hdone,
      fun b hb => ?_⟩
    rcases List.mem_append.mp hb with hb | hb
    · exact Nat.lt_of_lt_of_le (hbelow b hb) hle
    · rw [List.mem_singleton.mp hb]
      exact hlt
  · rw [hold]
    intro b hb
    cases hb
  · rw [hold]
    rfl

/-- `try_renew` begins. -/
theorem Inv.renewBegins (h : Inv cfg base s) {txn : Txn R D} {a : Access R D}
    {todo : List (Access R D)} {c : Nat} {row : Row Thd}
    (hold : s.phase t = .validating txn (a :: todo) c)
    (hstep : (s.rows a.origRow).step (.tryRenew t a.wts c) = some row) :
    Inv cfg base ((s.setRow a.origRow row).goto t (.renewing txn a todo c)) := by
  have hgood := h.good t
  rw [hold] at hgood
  have hrow : row.word = (s.rows a.origRow).word ∧ row.threads t = .renewLoad a.wts c := by
    simp only [Row.step] at hstep
    split at hstep
    · cases hstep
      exact ⟨rfl, Row.goto_self ..⟩
    · cases hstep
  refine h.called_same _ hstep rfl (by rw [hrow.1]) (by rw [hrow.1]) ?_ (fun r _ => ?_) ?_ hgood
    ?_ ?_ rfl rfl
  · rw [hold]
    intro b hb
    cases hb
  · rw [hold]
    exact Iff.rfl
  · refine .inr ⟨rfl, ?_⟩
    rw [hrow.2]
    exact ⟨rfl, rfl⟩
  · rw [hold]
    intro b hb
    cases hb
  · rw [hold]
    rfl

omit [DecidableEq R] in
/-- A read that is renewed up to `c`. -/
theorem Renewed.snoc {lease : R → Lease.Row D} {done : List (Access R D)} {a : Access R D} {c : Nat}
    (h : Renewed lease done c) {u : Version D} (hu : (lease a.origRow).Covers u c)
    (hle : u.stamp ≤ c) (hvalue : u.data = a.value) : Renewed lease (done ++ [a]) c := by
  intro b hb
  rcases List.mem_append.mp hb with hb | hb
  · exact h b hb
  · rw [List.mem_singleton.mp hb]
    exact ⟨u, hu, hle, hvalue⟩

omit [DecidableEq R] in
/-- `t` is in `try_renew` of the row. -/
theorem Inv.renewing (h : Inv cfg base s) {txn : Txn R D} {a : Access R D}
    {todo : List (Access R D)} {c : Nat} {row : Row Thd}
    (hold : s.phase t = .renewing txn a todo c) (hmem : a ∈ txn.readSet)
    (hstep : (s.rows a.origRow).step (.work t) = some row) :
    ((s.rows a.origRow).threads t).Renewing a.wts c := by
  have hgood := h.good t
  rw [hold] at hgood
  have hexp := h.expects t a.origRow
  rw [hold] at hexp
  rcases hexp with (⟨hin, -⟩ | ⟨-, hidle⟩) | ⟨-, hth⟩
  · exact absurd hin (hgood.1.read_ne hmem)
  · simp only [Row.step, Row.work, hidle] at hstep
    cases hstep
  · exact hth

/-- The word is swapped: the lease reaches up to `c`. -/
theorem Inv.swapped (h : Inv cfg base s) {a : Access R D} {c : Nat} {row : Row Thd}
    (hlt : (s.rows a.origRow).word < 2 ^ 63)
    (hlonger : getRts (s.rows a.origRow).word ≤ c)
    (hle : wtsOf (s.rows a.origRow).word ≤ wtsOf row.word) (hrts : getRts row.word = c)
    (p : Phase R D) :
    (s.lease a.origRow).Step (((s.setRow a.origRow row).goto t p).lease a.origRow) ∧
      (∀ u, a.origRow ∉ (s.phase u).heldRows cfg) ∧
      (s.phase t).Good ((s.setRow a.origRow row).goto t p).lease cfg := by
  obtain ⟨hno, hpend, -⟩ := h.unlocked hlt
  have hextend : (s.lease a.origRow).Step
      (((s.setRow a.origRow row).goto t p).lease a.origRow) := by
    rw [lease_setRow_self, hrts]
    exact .extend hpend hle hlonger (hrts ▸ wtsOf_le_getRts _)
  refine ⟨hextend, hno, (h.good t).step h.ok fun r => ?_⟩
  by_cases hr : r = a.origRow
  · subst hr
    exact .inr ⟨hextend, hno t⟩
  · exact .inl (lease_setRow_of_ne hr)

/-- A step of `try_renew`. -/
theorem Inv.renew (h : Inv cfg base s) {txn : Txn R D} {a : Access R D}
    {todo : List (Access R D)} {c : Nat} (hold : s.phase t = .renewing txn a todo c)
    (hext : Extends (s.rows a.origRow) (.work t))
    (hs : s.renew t a.origRow (.validating txn todo c) (.aborting (cfg.writeSet txn)) = some s') :
    Inv cfg base s' := by
  obtain ⟨row, hstep, hs⟩ := Option.bind_eq_some_iff.mp hs
  have hgood := h.good t
  rw [hold] at hgood
  obtain ⟨htxn, hcurrent, hbelow, done, hdone, hrenewed⟩ := hgood
  have hmem : a ∈ txn.readSet := hdone ▸ List.mem_append_right _ (List.mem_cons_self ..)
  have hfree : a.origRow ∉ (cfg.writeSet txn).map Access.origRow := htxn.read_ne hmem
  obtain ⟨u, hu, hvalue⟩ := htxn.sees a (Txn.mem_readSet.mp hmem).1
  have hstamp : u.stamp ≤ c := Nat.le_trans hu.base (htxn.above a hmem)
  have hth := h.renewing hold hmem hstep
  have honly : ∀ b, (s.phase t).current = some b → b.origRow = a.origRow := by
    intro b hb
    rw [hold] at hb
    cases hb
    rfl
  have hfills : (s.phase t).fills = none := by rw [hold]; rfl
  have hunstored : ∀ (p : Phase R D), ∀ b ∈ (s.phase t).unstored, b ∈ p.unstored := by
    intro p b hb
    rw [hold] at hb
    cases hb
  have hheld : ∀ p : Phase R D, p.heldRows cfg = (cfg.writeSet txn).map Access.origRow →
      ∀ r, r ≠ a.origRow → (r ∈ p.heldRows cfg ↔ r ∈ (s.phase t).heldRows cfg) := by
    intro p hp r _
    rw [hp, hold]
    exact Iff.rfl
  have hdone' : (done ++ [a]) ++ todo = txn.readSet := by
    rw [List.append_assoc]
    exact hdone
  rcases renew_spec (h.wf _) hth hstep with ⟨hword, hth', hbusy⟩ | ⟨hword, hth', hleases⟩ |
    ⟨hword, hth', hwts, hrts⟩ | ⟨hlt, hwts, hth', hrts, hle, wts', rebase, v2, hcas⟩
  · rw [hbusy, if_neg Bool.false_ne_true] at hs
    cases hs
    rw [goto_phase (t := t)]
    refine h.called_same _ hstep rfl (by rw [hword]) (by rw [hword]) honly (fun _ _ => Iff.rfl) ?_
      (h.good t) (fun _ hb => hb) hfills hfills (by rw [hold]; rfl)
    rw [hold]
    exact .inr ⟨rfl, hth'⟩
  · rw [hth', if_pos (by rfl), hleases, if_neg (Nat.lt_irrefl _)] at hs
    cases hs
    exact h.called_same _ hstep rfl (by rw [hword]) (by rw [hword]) honly (hheld _ rfl)
      (.inl (.inr ⟨hfree, hth'⟩)) (htxn.nodup_writeSet cfg) (hunstored _) hfills
      rfl rfl
  · rw [hth', if_pos (by rfl)] at hs
    split at hs
    · cases hs
      refine h.called_same _ hstep rfl (by rw [hword]) (by rw [hword]) honly (hheld _ rfl)
        (.inl (.inr ⟨hfree, hth'⟩)) ?_ (hunstored _) hfills rfl rfl
      exact ⟨htxn, hcurrent, hbelow, done ++ [a], hdone',
        hrenewed.snoc (hu.renewed (h.ok _) hwts.symm hrts) hstamp hvalue⟩
    · cases hs
      exact h.called_same _ hstep rfl (by rw [hword]) (by rw [hword]) honly (hheld _ rfl)
        (.inl (.inr ⟨hfree, hth'⟩)) (htxn.nodup_writeSet cfg) (hunstored _)
        hfills rfl rfl
  · have hsame : (s.lease a.origRow).wts = a.wts := hwts
    have hlonger : getRts (s.rows a.origRow).word ≤ c := by
      have hext : ((s.rows a.origRow).threads t).Extends (s.rows a.origRow).word := hext
      rw [hcas] at hext
      exact hext rfl
    have hswapped := h.swapped (t := t) hlt hlonger (hwts.trans_le hle) hrts
    rw [hth', if_pos (by rfl)] at hs
    split at hs
    · cases hs
      obtain ⟨hextend, hno, hgood⟩ := hswapped (.validating txn todo c)
      refine h.called (.validating txn todo c) rfl hstep rfl (.inr ⟨hextend, fun u _ => hno u⟩)
        honly (hheld _ rfl) (.inl (.inr ⟨hfree, hth'⟩)) ?_ (hunstored _) hfills rfl rfl
      rw [hold] at hgood
      obtain ⟨htxn', hcurrent', hbelow', done', hdone', hrenewed'⟩ := hgood
      refine ⟨htxn', hcurrent', hbelow', done' ++ [a],
        by rw [List.append_assoc]; exact hdone', hrenewed'.snoc (u := u) ?_ hstamp hvalue⟩
      rw [lease_setRow_self, hrts]
      exact hu.extended (h.ok _) hsame.symm (h.unlocked hlt).2.1 (Nat.le_refl c)
    · cases hs
      obtain ⟨hextend, hno, -⟩ := hswapped (.aborting (cfg.writeSet txn))
      exact h.called (.aborting (cfg.writeSet txn)) rfl hstep rfl (.inr ⟨hextend, fun u _ => hno u⟩)
        honly (hheld _ rfl) (.inl (.inr ⟨hfree, hth'⟩)) (htxn.nodup_writeSet cfg) (hunstored _)
        hfills rfl rfl

end Moves

/-! ### Commits and writes -/

section Commits

variable {Thd R D : Type} {cfg : Config R} {base : R → D} {s s' : Sys Thd R D} {t : Thd}

/-- The places of the versions are those of the commits. -/
theorem Logged.place_le {committed : List (Commit R D)} {lease : R → Lease.Row D}
    (h : Logged base committed lease) {r : R} {v : Version D} (hv : v ∈ (lease r).versions) :
    v.place ≤ committed.length := by
  rcases h.left r v hv with rfl | ⟨k, hk, -, hplace, -⟩
  · exact Nat.zero_le _
  · exact hplace ▸ (h.bound k hk).2

theorem ops_getElem? {txn : Txn R D} {i : Nat} {o : Op R D} (h : txn.ops[i]? = some o) :
    ∃ a, txn.accesses[i]? = some a ∧ a.op = o := by
  rw [Txn.ops, List.getElem?_map] at h
  exact Option.map_eq_some_iff.mp h

variable [DecidableEq R]

theorem announcement_of_mem {writeSet : List (Access R D)}
    (hnodup : (writeSet.map Access.origRow).Nodup) {a : Access R D} (ha : a ∈ writeSet)
    (c place : Nat) : announcement writeSet c place a.origRow = some ⟨c, place, a.data⟩ := by
  unfold announcement
  cases hfind : writeSet.find? fun b => decide (b.origRow = a.origRow) with
  | none =>
      have := List.find?_eq_none.mp hfind a ha
      simp at this
  | some b =>
      have hrow := List.find?_some hfind
      simp only [decide_eq_true_eq] at hrow
      rw [List.inj_on_of_nodup_map hnodup (List.mem_of_find?_eq_some hfind) ha hrow]
      rfl

theorem announcement_of_not_mem {writeSet : List (Access R D)} {r : R}
    (hr : r ∉ writeSet.map Access.origRow) (c place : Nat) :
    announcement writeSet c place r = none := by
  have hfind : writeSet.find? (fun b => decide (b.origRow = r)) = none :=
    List.find?_eq_none.mpr fun b hb heq =>
      hr (List.mem_map.mpr ⟨b, hb, of_decide_eq_true heq⟩)
  rw [announcement, hfind]
  rfl

theorem mem_of_announcement {writeSet : List (Access R D)} {c place : Nat} {r : R} {v : Version D}
    (h : announcement writeSet c place r = some v) :
    ∃ a ∈ writeSet, a.origRow = r ∧ v = ⟨c, place, a.data⟩ := by
  obtain ⟨a, hfind, rfl⟩ := Option.map_eq_some_iff.mp h
  have hrow := List.find?_some hfind
  simp only [decide_eq_true_eq] at hrow
  exact ⟨a, List.mem_of_find?_eq_some hfind, hrow, rfl⟩

/-- The rows after a transaction has announced its versions. -/
def announced (lease : R → Lease.Row D) (writeSet : List (Access R D)) (c place : Nat) (r : R) :
    Lease.Row D :=
  { lease r with pend := (announcement writeSet c place r).or (lease r).pend }

/-- A commit in the log. -/
theorem Logged.commit {committed : List (Commit R D)} {lease : R → Lease.Row D}
    (h : Logged base committed lease) (hok : ∀ r, (lease r).Ok) {txn : Txn R D} {c : Nat}
    (htxn : txn.Ready lease c) (hcurrent : Current lease (cfg.writeSet txn))
    (hbelow : Below lease (cfg.writeSet txn) c) (hrenewed : Renewed lease txn.readSet c)
    (hfree : ∀ a ∈ cfg.writeSet txn, (lease a.origRow).pend = none) :
    Logged base (⟨c, committed.length + 1, txn.prog, txn.ops⟩ :: committed)
      (announced lease (cfg.writeSet txn) c (committed.length + 1)) := by
  have hnodup := htxn.nodup_writeSet cfg
  have hrow : ∀ r, announced lease (cfg.writeSet txn) c (committed.length + 1) r = lease r ∨
      (lease r).Step (announced lease (cfg.writeSet txn) c (committed.length + 1) r) := by
    intro r
    by_cases hr : r ∈ (cfg.writeSet txn).map Access.origRow
    · obtain ⟨a, ha, rfl⟩ := List.mem_map.mp hr
      right
      rw [announced, announcement_of_mem hnodup ha]
      exact .announce (hfree a ha) (hbelow a ha)
    · left
      rw [announced, announcement_of_not_mem hr]
      rfl
  have hmore : ∀ r v, v ∈ (lease r).versions →
      v ∈ (announced lease (cfg.writeSet txn) c (committed.length + 1) r).versions := by
    intro r v hv
    rcases hrow r with heq | hs
    · exact heq ▸ hv
    · rcases hs.versions with heq | ⟨w, -, -, heq⟩ <;> rw [heq]
      · exact hv
      · exact List.mem_cons_of_mem _ hv
  have hvalues : txn.ops.map Op.value = txn.values := (map_value _).symm
  constructor
  · exact List.pairwise_cons.mpr ⟨fun l hl => Nat.lt_succ_of_le (h.bound l hl).2, h.places⟩
  · intro k hk
    rcases List.mem_cons.mp hk with rfl | hmem
    · exact ⟨Nat.succ_pos _, Nat.le_refl _⟩
    · obtain ⟨hpos, hle⟩ := h.bound k hmem
      exact ⟨hpos, Nat.le_succ_of_le hle⟩
  · exact h.first
  · intro r v hv
    rcases Row.mem_versions.mp hv with hpend | hstored
    · cases hann : announcement (cfg.writeSet txn) c (committed.length + 1) r with
      | none =>
          rw [announced, hann] at hpend
          refine (h.left r v (Row.mem_versions.mpr (.inl hpend))).imp_right ?_
          rintro ⟨k, hk, hleaves⟩
          exact ⟨k, List.mem_cons_of_mem _ hk, hleaves⟩
      | some w =>
          rw [announced, hann] at hpend
          cases hpend
          obtain ⟨a, ha, rfl, rfl⟩ := mem_of_announcement hann
          obtain ⟨hmem, hwr⟩ := Config.mem_writeSet.mp ha
          obtain ⟨i, hi⟩ := List.mem_iff_getElem?.mp hmem
          refine .inr ⟨_, List.mem_cons_self .., rfl, rfl, i, a.op, ?_, rfl, ?_, ?_⟩
          · rw [Txn.ops, List.getElem?_map, hi]
            rfl
          · exact decide_eq_true hwr
          · rw [hvalues]
            exact htxn.filled i a hi
    · refine (h.left r v (Row.mem_versions.mpr (.inr hstored))).imp_right ?_
      rintro ⟨k, hk, hleaves⟩
      exact ⟨k, List.mem_cons_of_mem _ hk, hleaves⟩
  · intro k hk i o hget hw
    rcases List.mem_cons.mp hk with rfl | hmem
    · obtain ⟨a, ha, rfl⟩ := ops_getElem? hget
      have hwr : a ∈ cfg.writeSet txn :=
        Config.mem_writeSet.mpr ⟨List.mem_of_getElem? ha, of_decide_eq_true hw⟩
      refine Row.mem_versions.mpr (.inl ?_)
      show _ ∈ (announced lease (cfg.writeSet txn) c (committed.length + 1) a.origRow).pend
      rw [announced, announcement_of_mem hnodup hwr, htxn.filled i a ha, hvalues]
      rfl
    · exact hmore _ _ (h.published k hmem i o hget hw)
  · intro k hk
    rcases List.mem_cons.mp hk with rfl | hmem
    · exact ⟨htxn.continues, hvalues.symm ▸ htxn.last⟩
    · exact h.observes k hmem
  · intro k hk o ho
    have hkeep : ∀ {u : Version D} {c' place : Nat}, (lease o.row).Read u c' place →
        (announced lease (cfg.writeSet txn) c (committed.length + 1) o.row).Read u c' place := by
      intro u c' place hu
      rcases hrow o.row with heq | hs
      · exact heq ▸ hu
      · exact hu.step hs (hok _)
    rcases List.mem_cons.mp hk with rfl | hmem
    · obtain ⟨a, ha, rfl⟩ := List.mem_map.mp ho
      by_cases hwr : a.type = .wr
      · have hin : a ∈ cfg.writeSet txn := Config.mem_writeSet.mpr ⟨ha, hwr⟩
        obtain ⟨u, hu, hvalue⟩ := htxn.sees a ha
        refine ⟨u, ?_, hvalue⟩
        show (announced lease _ c _ a.origRow).Read u c (committed.length + 1)
        rw [announced, announcement_of_mem hnodup hin]
        refine (hok _).read_announced (hu.current (hcurrent a hin)) ?_ (hbelow a hin) a.data
        exact Nat.lt_succ_of_le (h.place_le (Row.mem_versions.mpr (.inr hu.mem)))
      · obtain ⟨u, hu, hstamp, hvalue⟩ := hrenewed a (Txn.mem_readSet.mpr ⟨ha, hwr⟩)
        refine ⟨u, hkeep (hu.read hstamp ?_), hvalue⟩
        exact Nat.lt_succ_of_le (h.place_le (Row.mem_versions.mpr (.inr hu.mem)))
    · obtain ⟨u, hu, hvalue⟩ := h.reads k hmem o ho
      exact ⟨u, hkeep hu, hvalue⟩

variable [DecidableEq Thd]

theorem commit_lease (s : Sys Thd R D) (t : Thd) (txn : Txn R D) (writeSet : List (Access R D))
    (c : Nat) : (s.commit t txn writeSet c).lease =
      announced s.lease writeSet c (s.committed.length + 1) := by
  funext r
  unfold Sys.lease announced
  rfl

/-- A transaction commits. -/
theorem Inv.commit (h : Inv cfg base s) {txn : Txn R D} {c : Nat}
    (hold : s.phase t = .validating txn [] c) :
    Inv cfg base (s.commit t txn (cfg.writeSet txn) c) := by
  have hgood := h.good t
  rw [hold] at hgood
  obtain ⟨htxn, hcurrent, hbelow, done, hdone, hrenewed⟩ := hgood
  rw [List.append_nil] at hdone
  have hnodup := htxn.nodup_writeSet cfg
  have hholds : ∀ a ∈ cfg.writeSet txn, ((s.rows a.origRow).threads t).Holds := by
    intro a ha
    refine (h.expects t a.origRow).holds (h.good t) ?_
    rw [hold]
    exact List.mem_map_of_mem ha
  have hunstored : (s.phase t).unstored = [] := by rw [hold]; rfl
  have hfree : ∀ a ∈ cfg.writeSet txn, (s.lease a.origRow).pend = none := by
    intro a ha
    cases hpend : s.pend a.origRow with
    | none => exact hpend
    | some v =>
        obtain ⟨u, hu⟩ := h.pend _ v hpend
        have hne : u ≠ t := by
          rintro rfl
          rw [hunstored] at hu
          cases hu
        obtain ⟨b, hb, hrow⟩ := List.mem_map.mp hu
        exact absurd (hrow ▸ Phase.unstored_held cfg hb) (h.held_alone (hholds a ha) hne)
  have hlease := commit_lease s t txn (cfg.writeSet txn) c
  have hself : (s.commit t txn (cfg.writeSet txn) c).phase t = .writing (cfg.writeSet txn) c :=
    Function.update_self ..
  refine h.move (t := t) (fun u hu => Function.update_of_ne hu _ _) h.wf (fun _ _ _ => rfl)
    (fun r => ?_) (fun r => ?_) ?_ (fun r v hv => ?_) (fun r _ hno => ?_) ?_ ?_ ?_
  · by_cases hr : r ∈ (cfg.writeSet txn).map Access.origRow
    · obtain ⟨a, ha, rfl⟩ := List.mem_map.mp hr
      right
      refine ⟨?_, fun u hu => h.held_alone (hholds a ha) hu⟩
      rw [hlease, announced, announcement_of_mem hnodup ha]
      exact .announce (hfree a ha) (hbelow a ha)
    · left
      rw [hlease, announced, announcement_of_not_mem hr]
      rfl
  · rw [hself]
    refine Phase.Rests.expects ((h.expects t r).rests ?_) ?_
    · rw [hold]
      exact nofun
    · rw [hold]
      exact Iff.rfl
  · rw [hself, hlease]
    refine ⟨fun a ha => ⟨s.committed.length + 1, ?_⟩, hnodup⟩
    rw [announced, announcement_of_mem hnodup ha]
    rfl
  · rw [hself]
    by_cases hr : r ∈ (cfg.writeSet txn).map Access.origRow
    · exact .inl hr
    · right
      have hpend : (s.commit t txn (cfg.writeSet txn) c).pend r = s.pend r := by
        have heq := congrArg Lease.Row.pend (congrFun hlease r)
        rw [announced, announcement_of_not_mem hr] at heq
        exact heq
      refine ⟨hpend ▸ hv, ?_⟩
      rw [hunstored]
      exact List.not_mem_nil
  · exact h.no_fills (by rw [hold]; rfl) hno
  · intro u r v _ _ hl
    rw [hself] at hl
    cases hl
  · intro u r v _ hf
    rw [hself] at hf
    cases hf
  · rw [hlease]
    refine h.log.commit h.ok htxn hcurrent hbelow ?_ hfree
    rw [← hdone]
    exact hrenewed

/-- `write_data` has stored the word of `a`'s row, and with it the version announced there. -/
structure Sys.Stores (s s' : Sys Thd R D) (t : Thd) (a : Access R D) (todo : List (Access R D))
    (c place : Nat) (row : Row Thd) : Prop where
  phase : s'.phase = Function.update s.phase t (.filling a todo c)
  rows : s'.rows = Function.update s.rows a.origRow row
  stored : s'.stored = Function.update s.stored a.origRow
    (⟨c, place, a.data⟩ :: s.stored a.origRow)
  pend : s'.pend = Function.update s.pend a.origRow none
  data : s'.data = s.data
  committed : s'.committed = s.committed

section Stores

variable {a : Access R D} {todo : List (Access R D)} {c place : Nat} {row : Row Thd}

theorem Sys.Stores.phase_self (hs : s.Stores s' t a todo c place row) :
    s'.phase t = .filling a todo c := by
  rw [hs.phase, Function.update_self]

theorem Sys.Stores.lease_self (hs : s.Stores s' t a todo c place row)
    (hwts : wtsOf row.word = c) (hrts : getRts row.word = c) :
    s'.lease a.origRow = ⟨c, c, ⟨c, place, a.data⟩ :: (s.lease a.origRow).stored, none⟩ := by
  unfold Sys.lease
  rw [hs.rows, hs.stored, hs.pend, Function.update_self, Function.update_self,
    Function.update_self, hwts, hrts]

theorem Sys.Stores.lease_other (hs : s.Stores s' t a todo c place row) {r : R}
    (hr : r ≠ a.origRow) : s'.lease r = s.lease r := by
  unfold Sys.lease
  rw [hs.rows, hs.stored, hs.pend, Function.update_of_ne hr, Function.update_of_ne hr,
    Function.update_of_ne hr]

/-- What is still announced, other rows have; `t` has them to store yet, or others do. -/
theorem Sys.Stores.pend_other (hs : s.Stores s' t a todo c place row)
    (hold : s.phase t = .writing (a :: todo) c) {r : R} {v : Version D} (hv : s'.pend r = some v) :
    r ∈ (s'.phase t).unstored.map Access.origRow ∨
      s.pend r = some v ∧ r ∉ (s.phase t).unstored.map Access.origRow := by
  rw [hs.pend] at hv
  have hr : r ≠ a.origRow := by
    rintro rfl
    rw [Function.update_self] at hv
    cases hv
  rw [Function.update_of_ne hr] at hv
  rw [hs.phase_self, hold]
  by_cases hmem : r ∈ todo.map Access.origRow
  · exact .inl hmem
  · exact .inr ⟨hv, fun hin => (List.mem_cons.mp hin).elim hr hmem⟩

/-- The step keeps the invariant. -/
theorem Inv.stores (h : Inv cfg base s) (hold : s.phase t = .writing (a :: todo) c)
    (hs : s.Stores s' t a todo c place row) {act : Action Thd}
    (hcall : (s.rows a.origRow).step act = some row) (hact : act.thd = t)
    (hholds : ((s.rows a.origRow).threads t).Holds) (hfilling : row.threads t = .held)
    (hpend : (s.lease a.origRow).pend = some ⟨c, place, a.data⟩)
    (hwts : wtsOf row.word = c) (hrts : getRts row.word = c) : Inv cfg base s' := by
  have hgood := h.good t
  rw [hold] at hgood
  obtain ⟨hann, hnodup⟩ := hgood
  obtain ⟨hfresh, -⟩ := List.nodup_cons.mp hnodup
  have hself := hs.phase_self
  have hlease := hs.lease_self hwts hrts
  have hstore : (s.lease a.origRow).Step (s'.lease a.origRow) := by
    rw [hlease]
    exact .store hpend
  refine h.move (t := t) (fun u hu => by rw [hs.phase, Function.update_of_ne hu]) (fun r => ?_)
    (fun r u hu => ?_) (fun r => ?_) (fun r => ?_) ?_ (fun r v => hs.pend_other hold)
    (fun r hr hno => ?_) ?_ (fun u r v hu hf hl => ?_) ?_
  · rw [hs.rows]
    by_cases hr : r = a.origRow
    · subst hr
      rw [Function.update_self]
      exact ((h.wf _).effect hcall).wf (h.wf _)
    · rw [Function.update_of_ne hr]
      exact h.wf r
  · rw [hs.rows]
    by_cases hr : r = a.origRow
    · subst hr
      rw [Function.update_self]
      exact step_others hcall (by rw [hact]; exact hu)
    · rw [Function.update_of_ne hr]
  · by_cases hr : r = a.origRow
    · subst hr
      exact .inr ⟨hstore, fun u hu => h.held_alone hholds hu⟩
    · exact .inl (hs.lease_other hr)
  · rw [hself, hs.rows]
    by_cases hr : r = a.origRow
    · subst hr
      rw [Function.update_self, hfilling]
      exact .inl (.inl ⟨List.mem_cons_self .., rfl⟩)
    · rw [Function.update_of_ne hr]
      refine Phase.Rests.expects ((h.expects t r).rests ?_) ?_
      · rw [hold]
        exact fun heq => hr (Option.some.inj heq).symm
      · rw [hold]
        exact Iff.rfl
  · rw [hself]
    refine ⟨fun b hb => ?_, hnodup, ?_⟩
    · have hne : b.origRow ≠ a.origRow := fun heq => hfresh (heq ▸ List.mem_map_of_mem hb)
      rw [hs.lease_other hne]
      exact hann b (List.mem_cons_of_mem _ hb)
    · rw [hlease]
      exact ⟨_, rfl, rfl⟩
  · rw [hself] at hr
    have hne : r ≠ a.origRow := fun heq => hr (congrArg some heq.symm)
    rw [hs.stored, hs.data, Function.update_of_ne hne]
    exact h.no_fills (by rw [hold]; rfl) hno
  · intro u r v _ _ hl
    rw [hself] at hl
    cases hl
  · rw [hself] at hf
    cases hf
    rw [hlease]
    have hle := ((h.good u).loaded_spec hl).wts_le
    have := (h.ok a.origRow).le
    have : (s.lease a.origRow).rts < c := (h.ok a.origRow).later _ hpend
    show wtsOf v < c
    omega
  · rw [hs.committed]
    refine h.log.step h.ok (fun r => ?_) fun r => ?_
    · by_cases hr : r = a.origRow
      · exact .inr (hr ▸ hstore)
      · exact .inl (hs.lease_other hr)
    · by_cases hr : r = a.origRow
      · subst hr
        rw [hlease, Row.versions, Row.versions, hpend]
        rfl
      · rw [hs.lease_other hr]

end Stores

/-- A step of `write_data` up to the store of the word. -/
theorem Inv.write (h : Inv cfg base s) {a : Access R D} {todo : List (Access R D)} {c : Nat}
    (hold : s.phase t = .writing (a :: todo) c)
    (hs : s.write t a.origRow c (.filling a todo c) = some s') : Inv cfg base s' := by
  obtain ⟨row, hcall, hs⟩ := Option.bind_eq_some_iff.mp hs
  have hgood := h.good t
  rw [hold] at hgood
  obtain ⟨hann, hnodup⟩ := hgood
  have hth : ((s.rows a.origRow).threads t).Writing c := by
    have hexp := h.expects t a.origRow
    rw [hold] at hexp
    rcases hexp with (⟨-, hth⟩ | ⟨hno, -⟩) | ⟨-, hth⟩
    · exact Thread.Writing.of_isHeld hth
    · exact absurd (List.mem_cons_self ..) hno
    · exact hth
  have hact : (if ((s.rows a.origRow).threads t).isHeld then Action.writeData t c
      else .work t).thd = t := by
    split <;> rfl
  rcases write_spec (h.wf _) hth hcall with ⟨hword, hth', hbusy⟩ | ⟨hword, hlt, hth'⟩
  · rw [hbusy, if_neg Bool.false_ne_true] at hs
    cases hs
    have honly : ∀ b, (s.phase t).current = some b → b.origRow = a.origRow := by
      intro b hb
      rw [hold] at hb
      cases hb
      rfl
    have hfills : (s.phase t).fills = none := by rw [hold]; rfl
    rw [goto_phase (t := t)]
    refine h.called_same _ hcall hact (by rw [hword]) (by rw [hword]) honly (fun _ _ => Iff.rfl) ?_
      (h.good t) (fun _ hb => hb) hfills hfills (by rw [hold]; rfl)
    rw [hold]
    exact .inr ⟨rfl, hth'⟩
  · rw [hth', if_pos (by rfl)] at hs
    obtain ⟨place, hpend⟩ := hann a (List.mem_cons_self ..)
    have hpend' : s.pend a.origRow = some ⟨c, place, a.data⟩ := hpend
    obtain ⟨hwts, hrts⟩ := written_timestamps hlt
    have hstores : s.Stores s' t a todo c place row := by
      cases hs
      refine ⟨rfl, rfl, ?_, rfl, rfl, rfl⟩
      rw [hpend']
      rfl
    exact h.stores hold hstores hcall hact hth.holds hth' hpend (by rw [hword, hwts])
      (by rw [hword, hrts])

/-- `write_data` copies the data. -/
theorem Inv.fill (h : Inv cfg base s) {a : Access R D} {todo : List (Access R D)} {c : Nat}
    (hold : s.phase t = .filling a todo c) :
    Inv cfg base (Sys.goto { s with data := Function.update s.data a.origRow a.data } t
      (.unlocking a todo c)) := by
  have hgood := h.good t
  rw [hold] at hgood
  obtain ⟨hann, hnodup, hhead⟩ := hgood
  have hself : (Sys.goto { s with data := Function.update s.data a.origRow a.data } t
      (.unlocking a todo c)).phase t = .unlocking a todo c := Function.update_self ..
  refine h.move (t := t) (fun u hu => Function.update_of_ne hu _ _) h.wf (fun _ _ _ => rfl)
    (fun _ => .inl rfl) (fun r => ?_) ?_ (fun r v hv => ?_) (fun r _ hno => ?_) ?_ ?_ h.log
  · rw [hself]
    refine Phase.Rests.expects ((h.expects t r).rests ?_) ?_
    · rw [hold]
      exact nofun
    · rw [hold]
      exact Iff.rfl
  · rw [hself]
    exact ⟨hann, hnodup⟩
  · rw [hself, hold]
    by_cases hmem : r ∈ todo.map Access.origRow
    · exact .inl hmem
    · exact .inr ⟨hv, hmem⟩
  · show ∃ u, (s.stored r).head? = some u ∧ u.data = Function.update s.data a.origRow a.data r
    by_cases hr : r = a.origRow
    · subst hr
      rw [Function.update_self]
      exact hhead
    · rw [Function.update_of_ne hr]
      refine h.data r fun u => ?_
      by_cases hu : u = t
      · rw [hu, hold]
        exact fun heq => hr (Option.some.inj heq).symm
      · exact hno u hu
  · intro u r v _ _ hl
    rw [hself] at hl
    cases hl
  · intro u r v _ hf
    rw [hself] at hf
    cases hf

end Commits

end VeriTxn.Tictoc
