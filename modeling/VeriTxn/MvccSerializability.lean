import VeriTxn.MvccRuns

/-!
# Transactions under multiversion timestamp ordering

Transactions run over a table of rows, each with its own `Row_mvcc`.  An access asks the row for a
version; when the row aborts it the transaction ends, and so do its other accesses.  At its end a
transaction returns its accesses to their rows one after another, the last one first (`cleanup`):
writes are published or given up.  An access observes what its row held when it was handed out.

Whatever the interleaving, the committed transactions are serial in the order of their timestamps.
-/

namespace VeriTxn.Mvcc

open Serial Timestamp Transition

variable {R T D : Type}

/-! ### What a call leaves of the row -/

section RowFrame

variable [DecidableEq T] {S : MvStamps T} {threadCnt : Nat} {s s' : Sys T D}

theorem grant_handed {row row' : RowMvcc T D} {minTs ts : Nat} {t : T}
    (h : row.grant threadCnt minTs ts t = some row') : row.handed ⊆ row'.handed := by
  obtain ⟨⟨his, own⟩, -, h⟩ := Option.bind_eq_some_iff.mp h
  cases h
  exact List.subset_cons_self ..

theorem serve_handed {row row' : RowMvcc T D} {minTs ts next : Nat} {r r' : Option (ReqEntry T)}
    (h : row.serve threadCnt minTs ts next r = some (row', r')) : row.handed ⊆ row'.handed := by
  unfold RowMvcc.serve at h
  split at h
  · cases h
    exact List.Subset.refl _
  · split at h
    · cases h
    · split at h
      · cases h
        exact List.subset_cons_self ..
      · split at h
        · split at h
          · obtain ⟨granted, hg, heq⟩ := Option.map_eq_some_iff.mp h
            cases heq
            have hsub := grant_handed hg
            exact hsub
          · cases h
        · cases h
          exact List.Subset.refl _

theorem serveAll_handed {minTs ts next : Nat} (rs : List (Option (ReqEntry T))) :
    ∀ {row row' : RowMvcc T D} {rs' : List (Option (ReqEntry T))},
      serveAll threadCnt minTs ts next rs row = some (row', rs') → row.handed ⊆ row'.handed := by
  induction rs with
  | nil =>
      intro row row' rs' h
      cases h
      exact List.Subset.refl _
  | cons r rs ih =>
      intro row row' rs' h
      obtain ⟨⟨served, r'⟩, hserve, h⟩ := Option.bind_eq_some_iff.mp h
      obtain ⟨⟨rest, rest'⟩, hrest, h⟩ := Option.bind_eq_some_iff.mp h
      cases h
      exact List.Subset.trans (serve_handed hserve) (ih hrest)

theorem updateBuffer_handed {row row' : RowMvcc T D} {minTs ts : Nat}
    (h : row.updateBuffer threadCnt minTs ts = some row') : row.handed ⊆ row'.handed := by
  obtain ⟨⟨served, requests⟩, hserve, h⟩ := Option.bind_eq_some_iff.mp h
  cases h
  have hsub := serveAll_handed _ hserve
  exact hsub

theorem write_handed {row row' : RowMvcc T D} {minTs ts own : Nat}
    (h : row.write threadCnt minTs ts own = some row') : row.handed ⊆ row'.handed := by
  obtain ⟨e, -, h⟩ := Option.bind_eq_some_iff.mp h
  split at h
  · have hsub := updateBuffer_handed h
    exact hsub
  · cases h

theorem cancel_handed {row row' : RowMvcc T D} {minTs ts own : Nat}
    (h : row.cancel threadCnt minTs ts own = some row') : row.handed ⊆ row'.handed := by
  obtain ⟨e, -, h⟩ := Option.bind_eq_some_iff.mp h
  split at h
  · have hsub := updateBuffer_handed h
    exact hsub
  · cases h

/-- What has been handed out stays so. -/
theorem step_handed {a : Action T D} (h : step S threadCnt s a = some s') :
    s.row.handed ⊆ s'.row.handed := by
  unfold step at h
  split at h
  · cases a with
    | read t =>
        obtain ⟨⟨rc, row⟩, hread, heq⟩ := Option.map_eq_some_iff.mp h
        cases heq
        unfold RowMvcc.read at hread
        split at hread
        · cases hread
          exact List.Subset.refl _
        · split at hread
          · split at hread
            · cases hread
              exact List.Subset.refl _
            · cases hread
              exact List.subset_cons_self ..
          · split at hread
            · cases hread
              exact List.subset_cons_self ..
            · obtain ⟨e, -, hread⟩ := Option.bind_eq_some_iff.mp hread
              obtain ⟨own, -, hread⟩ := Option.bind_eq_some_iff.mp hread
              cases hread
              exact List.subset_cons_self ..
    | prewrite t minTs =>
        obtain ⟨⟨rc, row⟩, hpre, heq⟩ := Option.map_eq_some_iff.mp h
        cases heq
        unfold RowMvcc.prewrite at hpre
        split at hpre
        · cases hpre
          exact List.Subset.refl _
        · split at hpre
          · cases hpre
            exact List.Subset.refl _
          · obtain ⟨granted, hg, heq⟩ := Option.map_eq_some_iff.mp hpre
            cases heq
            exact grant_handed hg
    | wake t =>
        cases h
        exact List.Subset.refl _
    | store t d =>
        obtain ⟨own, -, heq⟩ := Option.map_eq_some_iff.mp h
        cases heq
        exact List.Subset.refl _
    | write t minTs =>
        obtain ⟨own, -, h⟩ := Option.bind_eq_some_iff.mp h
        obtain ⟨row, hw, h⟩ := Option.bind_eq_some_iff.mp h
        cases h
        exact write_handed hw
    | cancel t minTs =>
        obtain ⟨own, -, h⟩ := Option.bind_eq_some_iff.mp h
        obtain ⟨row, hw, h⟩ := Option.bind_eq_some_iff.mp h
        cases h
        exact cancel_handed hw
    | finish t =>
        cases h
        exact List.Subset.refl _
  · cases h

/-- The transaction of an action that publishes a version. -/
def Action.publishes : Action T D → Bool
  | .write .. => true
  | _ => false

theorem step_versions {a : Action T D} (ha : a.publishes = false)
    (h : step S threadCnt s a = some s') : s'.versions = s.versions := by
  unfold step at h
  split at h
  · cases a with
    | read t | prewrite t minTs | store t d =>
        obtain ⟨x, -, heq⟩ := Option.map_eq_some_iff.mp h
        cases heq
        rfl
    | wake t | finish t =>
        cases h
        rfl
    | write t minTs => cases ha
    | cancel t minTs =>
        obtain ⟨own, -, h⟩ := Option.bind_eq_some_iff.mp h
        obtain ⟨row, -, h⟩ := Option.bind_eq_some_iff.mp h
        cases h
        rfl
  · cases h

/-- A transaction fills its row and publishes it. -/
theorem store_write_versions {t : T} {d : D} {minTs : Nat} {stored : Sys T D}
    (hstore : step S threadCnt s (.store t d) = some stored)
    (hwrite : step S threadCnt stored (.write t minTs) = some s') :
    s'.versions = (S.ts t, d) :: s.versions := by
  unfold step at hstore hwrite
  split at hstore
  · obtain ⟨own, hown, heq⟩ := Option.map_eq_some_iff.mp hstore
    cases heq
    split at hwrite
    · obtain ⟨own', hown', hwrite⟩ := Option.bind_eq_some_iff.mp hwrite
      obtain ⟨row, -, hwrite⟩ := Option.bind_eq_some_iff.mp hwrite
      cases hwrite
      cases hown.symm.trans hown'
      show (S.ts t, Function.update s.row.data own d own) :: s.versions = _
      rw [Function.update_self]
    · cases hwrite
  · cases hstore

end RowFrame

/-! ### Transactions -/

/-- Where a transaction is. -/
inductive Status (R : Type) where
  | running
  /-- waits for the row -/
  | waiting (row : R) (writes : Bool)
  /-- has decided, with so many accesses to return -/
  | ending (commit : Bool) (left : Nat)
deriving DecidableEq

/-- The rows, the accesses of the transactions so far, and who has decided to commit. -/
structure Db (R T D : Type) where
  rows : R → Sys T D
  ops : T → List (Op R D)
  status : T → Status R
  committed : List T

inductive DbAction (T : Type) where
  /-- `get_row` of the next row the transaction asks for -/
  | access (t : T) (minTs : Nat)
  /-- `get_row` returns after a wait -/
  | wake (t : T)
  /-- the transaction commits, or aborts on its own -/
  | decide (t : T) (commit : Bool)
  /-- `return_row` of its next access -/
  | returnRow (t : T) (minTs : Nat)

def Db.init (base : R → D) : Db R T D :=
  ⟨fun r => .init fun _ => base r, fun _ => [], fun _ => .running, []⟩

def reqType (writes : Bool) : ReqType := if writes then .pReq else .rReq

def Db.values (s : Db R T D) (t : T) : List D := (s.ops t).map Op.value

variable [DecidableEq R] [DecidableEq T]

def Db.setRow (s : Db R T D) (r : R) (row : Sys T D) : Db R T D :=
  { s with rows := Function.update s.rows r row }

def Db.goto (s : Db R T D) (t : T) (status : Status R) : Db R T D :=
  { s with status := Function.update s.status t status }

/-- `get_row` goes on with the answer of the row. -/
def Db.settle (s : Db R T D) (t : T) (r : R) (writes : Bool) : Option (Db R T D) :=
  match (s.rows r).phase t with
  | .reading | .prewaiting => some (s.goto t (.waiting r writes))
  | .done => some (s.goto t (.ending false (s.ops t).length))
  | .idle | .prewriting => do
      let h ← (s.rows r).row.handed.find? fun h => decide (h.txn = t ∧ h.type = reqType writes)
      some (Db.goto { s with
        ops := Function.update s.ops t (s.ops t ++ [(⟨r, writes, h.data⟩ : Op R D)]) } t .running)

/-- `return_row` of the `i`-th access. -/
def returnRow (S : MvStamps T) (threadCnt : Nat) (prog : T → Program R D) (s : Db R T D) (t : T)
    (minTs : Nat) (commit : Bool) (i : Nat) (o : Op R D) : Option (Sys T D) :=
  if o.writes then
    if commit then do
      let written ← step S threadCnt (s.rows o.row) (.store t ((prog t).result (s.values t) i))
      step S threadCnt written (.write t minTs)
    else step S threadCnt (s.rows o.row) (.cancel t minTs)
  else if (s.rows o.row).phase t = .idle then step S threadCnt (s.rows o.row) (.finish t)
  else some (s.rows o.row)

def dbStep (S : MvStamps T) (threadCnt : Nat) (prog : T → Program R D) (s : Db R T D) :
    DbAction T → Option (Db R T D)
  | .access t minTs =>
      match s.status t, (prog t).next (s.values t) with
      | .running, some (r, writes) => do
          let row ← step S threadCnt (s.rows r) (if writes then .prewrite t minTs else .read t)
          (s.setRow r row).settle t r writes
      | _, _ => none
  | .wake t =>
      match s.status t with
      | .waiting r writes => do
          let row ← step S threadCnt (s.rows r) (.wake t)
          (s.setRow r row).settle t r writes
      | _ => none
  | .decide t commit =>
      if s.status t = .running ∧ (commit = true → (prog t).next (s.values t) = none) then
        some { s.goto t (.ending commit (s.ops t).length) with
          committed := if commit then t :: s.committed else s.committed }
      else none
  | .returnRow t minTs =>
      match s.status t with
      | .ending commit (i + 1) => do
          let o ← (s.ops t)[i]?
          let row ← returnRow S threadCnt prog s t minTs commit i o
          some ((s.setRow o.row row).goto t (.ending commit i))
      | _ => none

/-! ### What holds between two calls -/

/-- The version that a committed transaction leaves in a row. -/
def Db.Leaves (S : MvStamps T) (prog : T → Program R D) (s : Db R T D) (r : R) (v : Nat × D) :
    Prop :=
  ∃ t ∈ s.committed, v.1 = S.ts t ∧ ∃ i o, (s.ops t)[i]? = some o ∧ o.row = r ∧ o.writes = true ∧
    v.2 = (prog t).result (s.values t) i

structure DbInv (S : MvStamps T) (prog : T → Program R D) (base : R → D) (s : Db R T D) :
    Prop where
  rows : ∀ r, Inv S (s.rows r)
  first : ∀ r, (0, base r) ∈ (s.rows r).versions
  versions : ∀ r, ∀ v ∈ (s.rows r).versions, v = (0, base r) ∨ s.Leaves S prog r v
  continues : ∀ t, (prog t).Continues [] (s.ops t)
  asked : ∀ t r writes, s.status t = .waiting r writes →
    (prog t).next (s.values t) = some (r, writes)
  recorded : ∀ t, ∀ o ∈ s.ops t, ∃ h ∈ (s.rows o.row).row.handed,
    h.txn = t ∧ h.type = reqType o.writes ∧ h.data = o.value
  nodup : s.committed.Nodup
  complete : ∀ t ∈ s.committed, (prog t).next (s.values t) = none
  committed : ∀ t, t ∈ s.committed ↔ ∃ left, s.status t = .ending true left
  published : ∀ t left, s.status t = .ending true left → ∀ i o, left ≤ i →
    (s.ops t)[i]? = some o → o.writes = true →
    (S.ts t, (prog t).result (s.values t) i) ∈ (s.rows o.row).versions

section DbInv

variable {S : MvStamps T} {threadCnt : Nat} {prog : T → Program R D} {base : R → D}
  {s s' : Db R T D} {t : T} {r : R}

omit [DecidableEq R] [DecidableEq T] in
theorem DbInv.init (S : MvStamps T) (prog : T → Program R D) (base : R → D) :
    DbInv S prog base (Db.init base : Db R T D) where
  rows := fun _ => .init S _
  first := fun _ => List.mem_singleton_self _
  versions := fun _ _ hv => .inl (List.mem_singleton.mp hv)
  continues := fun _ => trivial
  asked := nofun
  recorded := fun _ _ ho => absurd ho List.not_mem_nil
  nodup := List.nodup_nil
  complete := nofun
  committed := fun _ => ⟨fun h => absurd h List.not_mem_nil, fun ⟨_, h⟩ => nomatch h⟩
  published := nofun

omit [DecidableEq T] in
theorem setRow_rows (row : Sys T D) (r' : R) :
    (r' = r ∧ (s.setRow r row).rows r' = row) ∨
      (r' ≠ r ∧ (s.setRow r row).rows r' = s.rows r') := by
  by_cases heq : r' = r
  · subst heq
    exact .inl ⟨rfl, Function.update_self ..⟩
  · exact .inr ⟨heq, Function.update_of_ne heq _ _⟩

omit [DecidableEq T] in
/-- A row goes on; its new versions are those of committed transactions. -/
theorem DbInv.setRow (h : DbInv S prog base s) {row : Sys T D} (hinv : Inv S row)
    (hhanded : (s.rows r).row.handed ⊆ row.row.handed)
    (hold : (s.rows r).versions ⊆ row.versions)
    (hnew : ∀ v ∈ row.versions, v ∈ (s.rows r).versions ∨ s.Leaves S prog r v) :
    DbInv S prog base (s.setRow r row) := by
  have hmore : ∀ r', (s.rows r').versions ⊆ ((s.setRow r row).rows r').versions := by
    intro r'
    rcases setRow_rows (s := s) (r := r) row r' with ⟨rfl, heq⟩ | ⟨-, heq⟩ <;> rw [heq]
    · exact hold
    · exact List.Subset.refl _
  constructor
  · intro r'
    rcases setRow_rows (s := s) (r := r) row r' with ⟨rfl, heq⟩ | ⟨-, heq⟩ <;> rw [heq]
    · exact hinv
    · exact h.rows r'
  · exact fun r' => hmore r' (h.first r')
  · intro r' v hv
    rcases setRow_rows (s := s) (r := r) row r' with ⟨rfl, heq⟩ | ⟨-, heq⟩ <;> rw [heq] at hv
    · exact (hnew v hv).elim (h.versions _ v) .inr
    · exact h.versions r' v hv
  · exact h.continues
  · exact h.asked
  · intro t o ho
    obtain ⟨g, hg, htxn⟩ := h.recorded t o ho
    refine ⟨g, ?_, htxn⟩
    rcases setRow_rows (s := s) (r := r) row o.row with ⟨heq, hrow⟩ | ⟨-, hrow⟩ <;> rw [hrow]
    · exact hhanded (heq ▸ hg)
    · exact hg
  · exact h.nodup
  · exact h.complete
  · exact h.committed
  · intro t left hst i o hle hget hw
    exact hmore _ (h.published t left hst i o hle hget hw)

/-- A step of a row that publishes nothing. -/
theorem DbInv.stepRow (h : DbInv S prog base s) (hsmall : ∀ t, S.ts t < 2 ^ 32)
    {a : Action T D} {row : Sys T D} (ha : a.publishes = false)
    (hstep : step S threadCnt (s.rows r) a = some row) : DbInv S prog base (s.setRow r row) := by
  have hsame := step_versions ha hstep
  refine h.setRow (inv_of_step (h.rows r) hsmall hstep).1 (step_handed hstep) ?_ ?_
  · rw [hsame]
    exact List.Subset.refl _
  · rw [hsame]
    exact fun v hv => .inl hv

omit [DecidableEq R] in
/-- A transaction that has not committed waits, or ends without a commit. -/
theorem DbInv.goto (h : DbInv S prog base s) (ht : t ∉ s.committed) {p : Status R}
    (hp : ∀ left, p ≠ .ending true left)
    (hwaits : ∀ r writes, p = .waiting r writes → (prog t).next (s.values t) = some (r, writes)) :
    DbInv S prog base (s.goto t p) := by
  have hstatus : ∀ u, (u = t ∧ (s.goto t p).status u = p) ∨
      (u ≠ t ∧ (s.goto t p).status u = s.status u) := by
    intro u
    by_cases heq : u = t
    · subst heq
      exact .inl ⟨rfl, Function.update_self ..⟩
    · exact .inr ⟨heq, Function.update_of_ne heq _ _⟩
  refine { h with asked := ?_, committed := ?_, published := ?_ }
  · intro u r writes hu
    rcases hstatus u with ⟨rfl, heq⟩ | ⟨-, heq⟩ <;> rw [heq] at hu
    · exact hwaits r writes hu
    · exact h.asked u r writes hu
  · intro u
    rcases hstatus u with ⟨rfl, heq⟩ | ⟨-, heq⟩ <;> rw [heq]
    · exact ⟨fun hu => absurd hu ht, fun ⟨left, hu⟩ => absurd hu (hp left)⟩
    · exact h.committed u
  · intro u left hu
    rcases hstatus u with ⟨rfl, heq⟩ | ⟨-, heq⟩ <;> rw [heq] at hu
    · exact absurd hu (hp left)
    · exact h.published u left hu

omit [DecidableEq R] in
/-- A transaction that has not committed goes on with the version it was handed. -/
theorem DbInv.record (h : DbInv S prog base s) (ht : t ∉ s.committed) {o : Op R D}
    (hnext : (prog t).next (s.values t) = some (o.row, o.writes))
    {g : Handed T D} (hg : g ∈ (s.rows o.row).row.handed) (htxn : g.txn = t)
    (htype : g.type = reqType o.writes) (hdata : g.data = o.value) :
    DbInv S prog base (Db.goto { s with ops := Function.update s.ops t (s.ops t ++ [o]) } t
      .running) := by
  have hops : ∀ u, u ≠ t → Function.update s.ops t (s.ops t ++ [o]) u = s.ops u :=
    fun u hu => Function.update_of_ne hu _ _
  have hself : Function.update s.ops t (s.ops t ++ [o]) t = s.ops t ++ [o] :=
    Function.update_self ..
  have hother : ∀ u ∈ s.committed, u ≠ t := fun u hu heq => ht (heq ▸ hu)
  constructor
  · exact h.rows
  · exact h.first
  · intro r v hv
    refine (h.versions r v hv).imp_right ?_
    rintro ⟨u, hu, hts, i, o', hget, hrow, hw, hval⟩
    refine ⟨u, hu, hts, i, o', ?_, hrow, hw, ?_⟩
    · exact (congrArg (·[i]?) (hops u (hother u hu))).trans hget
    · show v.2 = (prog u).result ((Function.update s.ops t (s.ops t ++ [o]) u).map Op.value) i
      rw [hops u (hother u hu)]
      exact hval
  · intro u
    show (prog u).Continues [] (Function.update s.ops t (s.ops t ++ [o]) u)
    by_cases hu : u = t
    · subst hu
      rw [hself]
      exact (h.continues u).snoc hnext
    · rw [hops u hu]
      exact h.continues u
  · intro u r writes hst
    by_cases hu : u = t
    · subst hu
      cases (Function.update_self u _ _).symm.trans hst
    · show (prog u).next ((Function.update s.ops t (s.ops t ++ [o]) u).map Op.value) = _
      rw [hops u hu]
      exact h.asked u r writes ((Function.update_of_ne hu _ _).symm.trans hst)
  · intro u o' ho'
    by_cases hu : u = t
    · subst hu
      have ho' : o' ∈ Function.update s.ops u (s.ops u ++ [o]) u := ho'
      rw [hself] at ho'
      rcases List.mem_append.mp ho' with hmem | hlast
      · exact h.recorded u o' hmem
      · rw [List.mem_singleton.mp hlast]
        exact ⟨g, hg, htxn, htype, hdata⟩
    · exact h.recorded u o' (hops u hu ▸ ho')
  · exact h.nodup
  · intro u hu
    show (prog u).next ((Function.update s.ops t (s.ops t ++ [o]) u).map Op.value) = none
    rw [hops u (hother u hu)]
    exact h.complete u hu
  · intro u
    by_cases hu : u = t
    · subst hu
      refine ⟨fun hc => absurd hc ht, ?_⟩
      rintro ⟨left, hst⟩
      cases (Function.update_self u _ _).symm.trans hst
    · show u ∈ s.committed ↔ ∃ left, Function.update s.status t .running u = .ending true left
      rw [Function.update_of_ne hu]
      exact h.committed u
  · intro u left hst i o' hle hget hw
    by_cases hu : u = t
    · subst hu
      cases (Function.update_self u _ _).symm.trans hst
    · show (S.ts u,
        (prog u).result ((Function.update s.ops t (s.ops t ++ [o]) u).map Op.value) i) ∈ _
      rw [hops u hu]
      exact h.published u left ((Function.update_of_ne hu _ _).symm.trans hst) i o' hle
        ((congrArg (·[i]?) (hops u hu)).symm.trans hget) hw

omit [DecidableEq R] in
theorem DbInv.settle (h : DbInv S prog base s) (ht : t ∉ s.committed) {writes : Bool}
    (hnext : (prog t).next (s.values t) = some (r, writes)) (hs : s.settle t r writes = some s') :
    DbInv S prog base s' := by
  have hwait : DbInv S prog base (s.goto t (.waiting r writes)) := by
    refine h.goto ht nofun fun r' writes' heq => ?_
    cases heq
    exact hnext
  have hgo : (do
      let g ← (s.rows r).row.handed.find? fun h => decide (h.txn = t ∧ h.type = reqType writes)
      some (Db.goto { s with
        ops := Function.update s.ops t (s.ops t ++ [(⟨r, writes, g.data⟩ : Op R D)]) }
        t .running)) = some s' → DbInv S prog base s' := by
    intro heq
    obtain ⟨g, hfind, heq⟩ := Option.bind_eq_some_iff.mp heq
    cases heq
    have hwho := List.find?_some hfind
    simp only [decide_eq_true_eq] at hwho
    exact h.record ht hnext (List.mem_of_find?_eq_some hfind) hwho.1 hwho.2 rfl
  unfold Db.settle at hs
  split at hs
  · cases hs
    exact hwait
  · cases hs
    exact hwait
  · cases hs
    exact h.goto ht (fun left heq => nomatch heq) (fun r' writes' heq => nomatch heq)
  · exact hgo hs
  · exact hgo hs

omit [DecidableEq R] in
/-- A transaction decides. -/
theorem DbInv.decide (h : DbInv S prog base s) (ht : s.status t = .running) {commit : Bool}
    (hnext : commit = true → (prog t).next (s.values t) = none) :
    DbInv S prog base { s.goto t (.ending commit (s.ops t).length) with
      committed := if commit then t :: s.committed else s.committed } := by
  have hnot : t ∉ s.committed := by
    intro hc
    obtain ⟨left, hst⟩ := (h.committed t).mp hc
    cases ht.symm.trans hst
  cases commit with
  | false => exact h.goto hnot (fun left heq => nomatch heq) (fun r writes heq => nomatch heq)
  | true =>
      refine { h with
        versions := ?_, asked := ?_, nodup := ?_, complete := ?_, committed := ?_, published := ?_ }
      · intro r v hv
        refine (h.versions r v hv).imp_right ?_
        rintro ⟨u, hu, hwhat⟩
        exact ⟨u, List.mem_cons_of_mem _ hu, hwhat⟩
      · intro u r writes hst
        by_cases hu : u = t
        · subst hu
          cases (Function.update_self u _ _).symm.trans hst
        · exact h.asked u r writes ((Function.update_of_ne hu _ _).symm.trans hst)
      · exact List.nodup_cons.mpr ⟨hnot, h.nodup⟩
      · intro u hu
        rcases List.mem_cons.mp hu with rfl | hmem
        · exact hnext rfl
        · exact h.complete u hmem
      · intro u
        by_cases hu : u = t
        · subst hu
          exact ⟨fun _ => ⟨_, Function.update_self ..⟩, fun _ => List.mem_cons_self ..⟩
        · show u ∈ t :: s.committed ↔ ∃ left, Function.update s.status t _ u = .ending true left
          rw [Function.update_of_ne hu, ← h.committed u, List.mem_cons]
          exact ⟨fun hor => hor.resolve_left hu, .inr⟩
      · intro u left hst i o hle hget hw
        by_cases hu : u = t
        · subst hu
          -- nothing has been returned yet
          cases (Function.update_self u _ _).symm.trans hst
          have hlt := (List.getElem?_eq_some_iff.mp hget).1
          exact absurd hle (Nat.not_le.mpr hlt)
        · exact h.published u left ((Function.update_of_ne hu _ _).symm.trans hst) i o hle hget hw

omit [DecidableEq R] in
/-- One access has been returned; if it is a write of a committed transaction, it is published. -/
theorem DbInv.returned (h : DbInv S prog base s) {commit : Bool} {i : Nat} {o : Op R D}
    (ht : s.status t = .ending commit (i + 1)) (hget : (s.ops t)[i]? = some o)
    (hpub : commit = true → o.writes = true →
      (S.ts t, (prog t).result (s.values t) i) ∈ (s.rows o.row).versions) :
    DbInv S prog base (s.goto t (.ending commit i)) := by
  cases commit with
  | false =>
      refine h.goto ?_ (fun left heq => nomatch heq) (fun r writes heq => nomatch heq)
      intro hc
      obtain ⟨left, hst⟩ := (h.committed t).mp hc
      cases ht.symm.trans hst
  | true =>
      refine { h with asked := ?_, committed := ?_, published := ?_ }
      · intro u r writes hst
        by_cases hu : u = t
        · subst hu
          cases (Function.update_self u _ _).symm.trans hst
        · exact h.asked u r writes ((Function.update_of_ne hu _ _).symm.trans hst)
      · intro u
        by_cases hu : u = t
        · subst hu
          exact ⟨fun _ => ⟨_, Function.update_self ..⟩, fun _ => (h.committed u).mpr ⟨_, ht⟩⟩
        · show u ∈ s.committed ↔ ∃ left, Function.update s.status t _ u = .ending true left
          rw [Function.update_of_ne hu]
          exact h.committed u
      · intro u left hst j o' hle hget' hw
        by_cases hu : u = t
        · subst hu
          cases (Function.update_self u _ _).symm.trans hst
          rcases Nat.eq_or_lt_of_le hle with rfl | hlt
          · cases hget.symm.trans hget'
            exact hpub rfl hw
          · exact h.published u _ ht j o' hlt hget' hw
        · exact h.published u left ((Function.update_of_ne hu _ _).symm.trans hst) j o' hle hget' hw

/-- What `return_row` leaves of the row. -/
theorem DbInv.returnRow (h : DbInv S prog base s) (hsmall : ∀ t, S.ts t < 2 ^ 32) {commit : Bool}
    {i minTs : Nat} {o : Op R D} {row : Sys T D} (ht : s.status t = .ending commit (i + 1))
    (hget : (s.ops t)[i]? = some o)
    (hrow : returnRow S threadCnt prog s t minTs commit i o = some row) :
    DbInv S prog base ((s.setRow o.row row).goto t (.ending commit i)) := by
  have hself : (s.setRow o.row row).rows o.row = row := Function.update_self ..
  unfold Mvcc.returnRow at hrow
  split at hrow
  · rename_i hw
    split at hrow
    · rename_i hc
      obtain ⟨stored, hstore, hwrite⟩ := Option.bind_eq_some_iff.mp hrow
      have hversions := store_write_versions hstore hwrite
      have hinv := (inv_of_step (h.rows o.row) hsmall hstore).1
      refine DbInv.returned (h.setRow (inv_of_step hinv hsmall hwrite).1
        (List.Subset.trans (step_handed hstore) (step_handed hwrite)) ?_ ?_) ht hget ?_
      · rw [hversions]
        exact List.subset_cons_self ..
      · rw [hversions]
        intro v hv
        rcases List.mem_cons.mp hv with rfl | hmem
        · exact .inr ⟨t, (h.committed t).mpr ⟨_, hc ▸ ht⟩, rfl, i, o, hget, rfl, hw, rfl⟩
        · exact .inl hmem
      · intro _ _
        rw [hself, hversions]
        exact List.mem_cons_self ..
    · rename_i hc
      exact (h.stepRow hsmall rfl hrow).returned ht hget fun hc' => absurd hc' hc
  · rename_i hw
    split at hrow
    · exact (h.stepRow hsmall rfl hrow).returned ht hget fun _ hw' => absurd hw' hw
    · cases hrow
      refine DbInv.returned (h.setRow (h.rows o.row) (List.Subset.refl _) (List.Subset.refl _)
        fun v hv => .inl hv) ht hget fun _ hw' => absurd hw' hw

theorem DbInv.step (h : DbInv S prog base s) (hsmall : ∀ t, S.ts t < 2 ^ 32) {a : DbAction T}
    (hstep : dbStep S threadCnt prog s a = some s') : DbInv S prog base s' := by
  have hnot : ∀ {t p}, s.status t = p → (∀ left, p ≠ .ending true left) → t ∉ s.committed := by
    intro t p ht hp hc
    obtain ⟨left, hst⟩ := (h.committed t).mp hc
    exact hp left (ht.symm.trans hst)
  cases a with
  | access t minTs =>
      simp only [dbStep] at hstep
      split at hstep
      · rename_i r writes hst hnext
        obtain ⟨row, hrow, hsettle⟩ := Option.bind_eq_some_iff.mp hstep
        refine (h.stepRow hsmall ?_ hrow).settle (hnot hst nofun) hnext hsettle
        cases writes <;> rfl
      · cases hstep
  | wake t =>
      simp only [dbStep] at hstep
      split at hstep
      · rename_i r writes hst
        obtain ⟨row, hrow, hsettle⟩ := Option.bind_eq_some_iff.mp hstep
        exact (h.stepRow hsmall rfl hrow).settle (hnot hst nofun) (h.asked t r writes hst) hsettle
      · cases hstep
  | decide t commit =>
      simp only [dbStep] at hstep
      split at hstep
      · rename_i hwhen
        cases hstep
        exact h.decide hwhen.1 hwhen.2
      · cases hstep
  | returnRow t minTs =>
      simp only [dbStep] at hstep
      split at hstep
      · rename_i commit i hst
        obtain ⟨o, hget, hstep⟩ := Option.bind_eq_some_iff.mp hstep
        obtain ⟨row, hrow, hstep⟩ := Option.bind_eq_some_iff.mp hstep
        cases hstep
        exact h.returnRow hsmall hst hget hrow
      · cases hstep

end DbInv

/-! ### The order of the timestamps -/

/-- The contents of the rows now. -/
def Db.latest (s : Db R T D) (r : R) : D := (s.rows r).row.data (s.rows r).row.latestRow

omit [DecidableEq R] [DecidableEq T] in
/-- Once the committed transactions have returned their accesses, the versions are what they have
    left, and each has read the newest ones below its timestamp. -/
theorem DbInv.versioned {S : MvStamps T} {prog : T → Program R D} {base : R → D} {s : Db R T D}
    (h : DbInv S prog base s) (hreturned : ∀ t ∈ s.committed, s.status t = .ending true 0) :
    Versioned S.ts (fun t => (prog t, s.ops t)) s.committed base fun r => (s.rows r).versions where
  nodup := h.nodup
  distinct := fun t _ u _ heq => S.distinct heq
  pos := fun t _ => S.pos t
  sorted := fun r => (h.rows r).core.sorted
  first := h.first
  left := h.versions
  published := fun t ht i o => h.published t 0 (hreturned t ht) i o (Nat.zero_le i)
  observes := fun t ht => ⟨h.continues t, h.complete t ht⟩
  reads := by
    intro t ht o ho
    obtain ⟨g, hg, rfl, htype, hdata⟩ := h.recorded t o ho
    have hc := (h.rows o.row).core
    rw [← hdata]
    cases hw : o.writes with
    | false =>
        rw [hw] at htype
        exact (hc.reads g hg htype).2
    | true =>
        rw [hw] at htype
        rcases hc.copies g hg htype with ⟨-, hbelow⟩ | ⟨-, hnone⟩
        · exact hbelow
        · obtain ⟨i, hget⟩ := List.mem_iff_getElem?.mp ho
          have hpub := h.published _ 0 (hreturned _ ht) i o (Nat.zero_le _) hget hw
          exact absurd rfl (hnone _ hpub)

/-- The accesses are fixed, and every write leaves one more than the sum of what was read. -/
def sumOf (accesses : List (Bool × Bool)) : Program Bool Nat where
  next values := accesses[values.length]?
  result values _ := values.sum + 1

/-- The first transaction writes both rows, the third reads the second row before the second
    transaction comes, and the fifth waits for the fourth. -/
def twoRows (t : Fin 8) : Program Bool Nat :=
  sumOf ([[(false, true), (true, true)], [(true, true)], [(true, false)],
    [(false, false), (false, true)], [(false, false), (true, true)]][t.val]?.getD [])

end VeriTxn.Mvcc
