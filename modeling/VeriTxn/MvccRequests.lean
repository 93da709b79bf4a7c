import VeriTxn.MvccHistory
import VeriTxn.StampOrder

/-!
# What one request does to a row under multiversion timestamp ordering

The row, its callers and the requests that wait fit together before and after each request, and
the answer to a write serves every read that had to wait for it.
-/

namespace VeriTxn.Mvcc

open Serial Timestamp Transition

variable {T D : Type} {S : MvStamps T} {s s' : Sys T D} {t : T}

/-! ### What holds of a row between two requests -/

/-- The transaction has a row to write, or is about to find out. -/
def Sys.Writing (s : Sys T D) (t : T) : Prop :=
  s.phase t = .prewriting ∨ s.phase t = .prewaiting ∧ s.row.tsReady t = true

def ReqType.waits : ReqType → Phase
  | .rReq => .reading
  | .pReq => .prewaiting

theorem ReqType.waits_cases (type : ReqType) : type.waits = .reading ∨ type.waits = .prewaiting := by
  cases type
  · exact .inl rfl
  · exact .inr rfl

def pendingOf (requests : List (Option (ReqEntry T))) : List (ReqEntry T) := requests.filterMap id

/-- The row, its callers and the requests that wait fit together. -/
structure Core (S : MvStamps T) (s : Sys T D) (pending : List (ReqEntry T)) : Prop where
  keeps : Keeps s.row.his s.row.data s.versions
  sorted : s.versions.Pairwise fun a b => b.1 < a.1
  stamped : ∀ v ∈ s.versions, v.1 = 0 ∨ ∃ t, S.ts t = v.1 ∧ s.phase t = .done
  head : s.versions.head? = some (s.row.latestWts, s.row.data s.row.latestRow)
  latest : s.row.his.Holds s.row.latestWts s.row.latestRow
  announced : s.row.his.existsPrewrite = true → s.row.latestWts < s.row.his.prewriteTs ∧
    s.row.maxServedRts ≤ s.row.his.prewriteTs ∧ ∃ t, s.Writing t
  writing : ∀ t, s.Writing t → s.row.his.existsPrewrite = true ∧ s.row.his.prewriteTs = S.ts t ∧
    ∃ row, s.row.curRow t = some row ∧
      s.row.his.At s.row.his.prewriteHisId ⟨false, true, S.ts t, some row⟩
  asked : ∀ q ∈ pending, q.ts = S.ts q.txn ∧ s.row.tsReady q.txn = false ∧
    s.phase q.txn = q.type.waits ∧ s.row.latestWts < q.ts
  once : (pending.map ReqEntry.txn).Nodup
  waiting : ∀ t, s.row.tsReady t = false → ∃ q ∈ pending, q.txn = t
  reads : ∀ h ∈ s.row.handed, h.type = .rReq →
    S.ts h.txn ≤ max s.row.latestWts s.row.maxServedRts ∧
    (below s.versions (S.ts h.txn)).map Prod.snd = some h.data
  copies : ∀ h ∈ s.row.handed, h.type = .pReq →
    ((S.ts h.txn ≤ s.row.latestWts ∨ s.Writing h.txn) ∧
      (below s.versions (S.ts h.txn)).map Prod.snd = some h.data) ∨
    (s.phase h.txn = .done ∧ ∀ v ∈ s.versions, v.1 ≠ S.ts h.txn)

variable {pending : List (ReqEntry T)}

theorem Core.perm (hc : Core S s pending) {pending' : List (ReqEntry T)}
    (hperm : pending.Perm pending') : Core S s pending' :=
  { hc with
    asked := fun q hq => hc.asked q (hperm.mem_iff.mpr hq)
    once := (hperm.map _).nodup_iff.mp hc.once
    waiting := fun t ht => by
      obtain ⟨q, hq, hqt⟩ := hc.waiting t ht
      exact ⟨q, hperm.mem_iff.mp hq, hqt⟩ }

theorem Core.version_le (hc : Core S s pending) {v : Nat × D} (hv : v ∈ s.versions) :
    v.1 ≤ s.row.latestWts := by
  have hhead := hc.head
  have hsorted := hc.sorted
  cases hvs : s.versions with
  | nil =>
      rw [hvs] at hv
      cases hv
  | cons u rest =>
      rw [hvs] at hv hhead hsorted
      cases hhead
      rcases List.mem_cons.mp hv with rfl | hmem
      · exact Nat.le_refl _
      · exact Nat.le_of_lt ((List.pairwise_cons.mp hsorted).1 v hmem)

theorem Core.latest_mem (hc : Core S s pending) :
    (s.row.latestWts, s.row.data s.row.latestRow) ∈ s.versions :=
  List.mem_of_head? hc.head

theorem Core.below_latest (hc : Core S s pending) {ts : Nat} (hlt : s.row.latestWts < ts) :
    below s.versions ts = some (s.row.latestWts, s.row.data s.row.latestRow) :=
  below_eq hc.sorted hc.latest_mem hlt fun _ hu _ => hc.version_le hu

/-- A transaction that has not ended is no version's. -/
theorem Core.not_version (hc : Core S s pending) (ht : s.phase t ≠ .done) {v : Nat × D}
    (hv : v ∈ s.versions) : v.1 ≠ S.ts t := by
  intro heq
  rcases hc.stamped v hv with hzero | ⟨u, hu, hdone⟩
  · have := S.pos t
    omega
  · exact ht (S.distinct (hu.trans heq) ▸ hdone)

theorem Core.versions_lt_max (hc : Core S s pending) : ∀ v ∈ s.versions, v.1 < uint64Max := by
  intro v hv
  rcases hc.stamped v hv with hzero | ⟨t, ht, -⟩
  · rw [hzero]
    decide
  · exact ht ▸ S.lt_max t

theorem Core.writing_unique (hc : Core S s pending) {u : T} (ht : s.Writing t) (hu : s.Writing u) :
    t = u :=
  S.distinct ((hc.writing t ht).2.1.symm.trans (hc.writing u hu).2.1)

theorem Core.quiet (hc : Core S s pending) (hno : s.row.his.existsPrewrite = false) (t : T) :
    ¬ s.Writing t := fun ht =>
  absurd (hno.symm.trans (hc.writing t ht).1) Bool.false_ne_true

theorem Core.not_pending (hc : Core S s pending) (ht : s.phase t ≠ .reading)
    (ht' : s.phase t ≠ .prewaiting) {q : ReqEntry T} (hq : q ∈ pending) : q.txn ≠ t := by
  rintro rfl
  have hphase := (hc.asked q hq).2.2.1
  cases htype : q.type with
  | rReq =>
      rw [htype] at hphase
      exact ht hphase
  | pReq =>
      rw [htype] at hphase
      exact ht' hphase

theorem Core.ready (hc : Core S s pending) (hnot : ∀ q ∈ pending, q.txn ≠ t) :
    s.row.tsReady t = true := by
  by_contra hready
  obtain ⟨q, hq, hqt⟩ := hc.waiting t (Bool.of_not_eq_true hready)
  exact hnot q hq hqt

/-- The writer's own row holds no version. -/
theorem Core.own_row (hc : Core S s pending) (ht : s.Writing t) {row : Nat}
    (hcur : s.row.curRow t = some row) {ts r : Nat} (hr : s.row.his.Holds ts r) : r ≠ row := by
  obtain ⟨-, -, row', hcur', hat⟩ := hc.writing t ht
  cases hcur.symm.trans hcur'
  rintro rfl
  rcases hr with ⟨-, heq⟩ | ⟨i, e, hi, hv, -, hrow⟩
  · exact hc.keeps.layout.base _ _ hat (congrArg some heq)
  · obtain rfl := hc.keeps.layout.apart _ _ _ _ _ hi hat hrow rfl
    cases hat.symm.trans hi
    cases hv

/-! ### What a transaction does on its own -/

variable [DecidableEq T]

/-- A transaction that neither has a row to write nor gets one changes its state. -/
theorem Core.reassign (hc : Core S s pending) {pending' : List (ReqEntry T)} {p : Phase} {b : Bool}
    (requests : List (Option (ReqEntry T))) (hno : ¬ s.Writing t) (hrun : s.phase t ≠ .done)
    (hp : p ≠ .prewriting) (hp' : ¬ (p = .prewaiting ∧ b = true))
    (hasked : ∀ q ∈ pending', q ∈ pending ∧ q.txn ≠ t ∨
      q.txn = t ∧ q.ts = S.ts t ∧ b = false ∧ p = q.type.waits ∧ s.row.latestWts < q.ts)
    (honce : (pending'.map ReqEntry.txn).Nodup)
    (hwaiting : ∀ q ∈ pending, q.txn ≠ t → q ∈ pending')
    (hself : b = false → ∃ q ∈ pending', q.txn = t) :
    Core S ({ s with row := { s.row with
      tsReady := Function.update s.row.tsReady t b
      requests := requests } }.goto t p) pending' := by
  have hwriting : ∀ u, ({ s with row := { s.row with
      tsReady := Function.update s.row.tsReady t b, requests := requests } }.goto t p).Writing u ↔
      u ≠ t ∧ s.Writing u := by
    intro u
    unfold Sys.Writing Sys.goto
    dsimp only
    by_cases hu : u = t
    · subst hu
      rw [Function.update_self, Function.update_self]
      exact ⟨fun h => (h.elim hp hp').elim, fun h => absurd rfl h.1⟩
    · rw [Function.update_of_ne hu, Function.update_of_ne hu]
      exact ⟨fun h => ⟨hu, h⟩, fun h => h.2⟩
  have hphase : ∀ {u}, u ≠ t → Function.update s.phase t p u = s.phase u :=
    fun hu => Function.update_of_ne hu _ _
  have hdone : ∀ {u}, s.phase u = .done → Function.update s.phase t p u = .done :=
    fun hu => (hphase fun heq => hrun (heq ▸ hu)).trans hu
  constructor
  · exact hc.keeps
  · exact hc.sorted
  · exact fun v hv => (hc.stamped v hv).imp_right fun ⟨u, hu, h⟩ => ⟨u, hu, hdone h⟩
  · exact hc.head
  · exact hc.latest
  · intro hex
    obtain ⟨hlt, hle, u, hu⟩ := hc.announced hex
    exact ⟨hlt, hle, u, (hwriting u).mpr ⟨fun heq => hno (heq ▸ hu), hu⟩⟩
  · exact fun u hu => hc.writing u ((hwriting u).mp hu).2
  · intro q hq
    rcases hasked q hq with ⟨hmem, hne⟩ | ⟨heq, hts, hb, hpq, hlt⟩
    · obtain ⟨hts, hready, hwaits, hlt⟩ := hc.asked q hmem
      exact ⟨hts, (Function.update_of_ne hne _ _).trans hready, (hphase hne).trans hwaits, hlt⟩
    · rw [heq]
      exact ⟨hts, (Function.update_self t _ _).trans hb, (Function.update_self t _ _).trans hpq,
        hlt⟩
  · exact honce
  · intro u hu
    by_cases heq : u = t
    · subst heq
      exact hself ((Function.update_self u _ _).symm.trans hu)
    · obtain ⟨q, hq, hqu⟩ := hc.waiting u ((Function.update_of_ne heq _ _).symm.trans hu)
      exact ⟨q, hwaiting q hq (hqu ▸ heq), hqu⟩
  · exact hc.reads
  · intro h hh htype
    rcases hc.copies h hh htype with ⟨hor, hbelow⟩ | ⟨h₀, hnone⟩
    · refine .inl ⟨hor.imp_right fun hw => ?_, hbelow⟩
      exact (hwriting _).mpr ⟨fun heq => hno (heq ▸ hw), hw⟩
    · exact .inr ⟨hdone h₀, hnone⟩

/-- A transaction without a request or a row to write goes on. -/
theorem Core.rephase (hc : Core S s pending) (hno : ¬ s.Writing t)
    (hnot : ∀ q ∈ pending, q.txn ≠ t) (hrun : s.phase t ≠ .done) {p : Phase}
    (hp : p ≠ .prewriting) (hp' : p ≠ .prewaiting) : Core S (s.goto t p) pending := by
  have h := hc.reassign (b := true) s.row.requests hno hrun hp (fun h => hp' h.1)
    (fun q hq => .inl ⟨hq, hnot q hq⟩) hc.once (fun q hq _ => hq) nofun
  rwa [Function.update_eq_self_iff.mpr (hc.ready hnot).symm] at h

omit [DecidableEq T] in
/-- The transaction writes into its row. -/
theorem Core.store (hc : Core S s pending) (ht : s.Writing t) {row : Nat}
    (hcur : s.row.curRow t = some row) (d : D) :
    Core S { s with row := { s.row with data := Function.update s.row.data row d } } pending :=
  { hc with
    keeps := { hc.keeps with
      holding := hc.keeps.holding.data_congr
        (Function.update_of_ne (hc.own_row ht hcur (.inl ⟨rfl, rfl⟩)) _ _)
        fun i e r hi hv hr =>
          Function.update_of_ne (hc.own_row ht hcur (.inr ⟨i, e, hi, hv, rfl, hr⟩)) _ _ }
    head := by
      show s.versions.head? =
        some (s.row.latestWts, Function.update s.row.data row d s.row.latestRow)
      rw [Function.update_of_ne (hc.own_row ht hcur hc.latest)]
      exact hc.head
    latest := hc.latest }

/-- A transaction that does not write gets a version to read. -/
theorem Core.hand (hc : Core S s pending) (hno : ¬ s.Writing t) (row rts : Nat)
    (hbelow : (below s.versions (S.ts t)).map Prod.snd = some (s.row.data row))
    (hts : S.ts t ≤ max s.row.latestWts rts) (hrts : s.row.maxServedRts ≤ rts)
    (hpre : s.row.his.existsPrewrite = true → rts ≤ s.row.his.prewriteTs) :
    Core S { s with row := { s.row.hand t .rReq row with maxServedRts := rts } } pending :=
  { hc with
    announced := by
      intro hex
      obtain ⟨hlt, -, hw⟩ := hc.announced hex
      exact ⟨hlt, hpre hex, hw⟩
    writing := by
      intro u hu
      obtain ⟨hex, hpts, r, hcur, hat⟩ := hc.writing u hu
      have hne : u ≠ t := fun heq => hno (heq ▸ hu)
      exact ⟨hex, hpts, r, (Function.update_of_ne hne _ _).trans hcur, hat⟩
    reads := by
      intro h hh htype
      rcases List.mem_cons.mp hh with rfl | hmem
      · exact ⟨hts, hbelow⟩
      · obtain ⟨hle, hdata⟩ := hc.reads h hmem htype
        refine ⟨Nat.le_trans hle ?_, hdata⟩
        show max s.row.latestWts s.row.maxServedRts ≤ max s.row.latestWts rts
        omega
    copies := by
      intro h hh htype
      rcases List.mem_cons.mp hh with rfl | hmem
      · cases htype
      · exact hc.copies h hmem htype }

/-! ### Requests that wait -/

omit [DecidableEq T] in
theorem pendingOf_bufferReq (q : ReqEntry T) (requests : List (Option (ReqEntry T))) :
    (pendingOf (bufferReq q requests)).Perm (q :: pendingOf requests) := by
  unfold bufferReq pendingOf
  split
  · rename_i i hfind
    obtain ⟨hlt, hnone, -⟩ := List.findIdx?_eq_some_iff_getElem.mp hfind
    have hget : requests[i] = none := Option.isNone_iff_eq_none.mp hnone
    rw [List.set_eq_take_append_cons_drop, if_pos hlt]
    conv_rhs => rw [← List.take_append_drop i requests, List.drop_eq_getElem_cons hlt, hget]
    simp only [List.filterMap_append, List.filterMap_cons, id]
    exact List.perm_middle
  · have hnone : (List.replicate (requests.length - 1) (none : Option (ReqEntry T))).filterMap id =
        [] := by
      rw [List.filterMap_eq_nil_iff]
      exact fun r hr => List.eq_of_mem_replicate hr
    rw [List.filterMap_append, List.filterMap_cons_some (f := id) (b := q) rfl, hnone]
    exact List.perm_append_comm

/-- A request waits for the announced write. -/
theorem Core.wait (hc : Core S s pending) (hidle : s.phase t = .idle) (type : ReqType)
    (hlt : s.row.latestWts < S.ts t) :
    Core S ({ s with row := s.row.wait type (S.ts t) t }.goto t type.waits)
      (⟨type, S.ts t, t⟩ :: pending) := by
  have hnot : ∀ q ∈ pending, q.txn ≠ t := fun q hq =>
    hc.not_pending (by rw [hidle]; exact nofun) (by rw [hidle]; exact nofun) hq
  refine hc.reassign (b := false) _ ?_ (by rw [hidle]; exact nofun) ?_ nofun ?_ ?_ ?_ ?_
  · rintro (hphase | ⟨hphase, -⟩) <;> rw [hidle] at hphase <;> cases hphase
  · rcases type.waits_cases with h | h <;> rw [h] <;> exact nofun
  · intro q hq
    rcases List.mem_cons.mp hq with rfl | hmem
    · exact .inr ⟨rfl, rfl, rfl, rfl, hlt⟩
    · exact .inl ⟨hmem, hnot q hmem⟩
  · refine List.nodup_cons.mpr ⟨fun hmem => ?_, hc.once⟩
    obtain ⟨q, hq, hqt⟩ := List.mem_map.mp hmem
    exact hnot q hq hqt
  · exact fun q hq _ => List.mem_cons_of_mem _ hq
  · exact fun _ => ⟨_, List.mem_cons_self .., rfl⟩

/-- A request is taken from the list; its transaction is as before the request. -/
theorem Core.withdraw {q : ReqEntry T} (before after : List (ReqEntry T))
    (hc : Core S s (before ++ q :: after)) :
    Core S ({ s with row := s.row.ready q.txn }.goto q.txn .idle) (before ++ after) ∧
      ∀ q' ∈ before ++ after, q'.txn ≠ q.txn := by
  have hc := hc.perm List.perm_middle
  obtain ⟨hts, hready, hphase, hlt⟩ := hc.asked q (List.mem_cons_self ..)
  have honce := hc.once
  rw [List.map_cons, List.nodup_cons] at honce
  have hnot : ∀ q' ∈ before ++ after, q'.txn ≠ q.txn :=
    fun q' hq' heq => honce.1 (List.mem_map.mpr ⟨q', hq', heq⟩)
  refine ⟨hc.reassign (b := true) _ ?_ ?_ nofun nofun ?_ honce.2 ?_ nofun, hnot⟩
  · rintro (hpre | ⟨-, hr⟩)
    · rcases q.type.waits_cases with h | h <;> rw [hphase, h] at hpre <;> cases hpre
    · exact absurd (hready.symm.trans hr) Bool.false_ne_true
  · rcases q.type.waits_cases with h | h <;> rw [hphase, h] <;> exact nofun
  · exact fun q' hq' => .inl ⟨List.mem_cons_of_mem _ hq', hnot q' hq'⟩
  · intro q' hq' hne
    rcases List.mem_cons.mp hq' with rfl | hmem
    · exact absurd rfl hne
    · exact hmem

/-! ### A row to write -/

/-- What reserving a row leaves of the history. -/
structure Moves (threadCnt minTs : Nat) (h h' : History) : Prop where
  holds : ∀ w r, h.Holds w r → h'.oldestWts ≤ w → h'.Holds w r
  oldest : h.oldestWts ≤ h'.oldestWts
  len : h'.hisLen = h.hisLen ∨ h.hisLen < threadCnt ∧ h'.hisLen = 2 * h.hisLen
  base : h'.oldestWts = h.oldestWts ∨ h'.oldestWts < minTs ∨ threadCnt ≤ h.hisLen ∧
    ∀ i e, h.At i e → e.valid = true → h'.oldestWts ≤ e.ts

/-- What a grant does to the row. -/
structure Granted (threadCnt minTs ts : Nat) (row row' : RowMvcc T D) : Prop where
  announced : row'.his.existsPrewrite = true
  prewriteTs : row'.his.prewriteTs = ts
  moves : Moves threadCnt minTs row.his row'.his
  latestWts : row'.latestWts = row.latestWts
  latestRow : row'.latestRow = row.latestRow
  maxServedRts : row'.maxServedRts = row.maxServedRts
  requests : row'.requests = row.requests
  handed : ∀ h ∈ row'.handed, h ∈ row.handed ∨ h.type = .pReq

/-- A transaction gets a row to write, now or while it waits. -/
theorem Core.grant (hc : Core S s pending) (hno : s.row.his.existsPrewrite = false)
    (hnot : ∀ q ∈ pending, q.txn ≠ t) (hrun : s.phase t ≠ .done)
    (hlatest : s.row.latestWts < S.ts t) (hserved : s.row.maxServedRts ≤ S.ts t)
    (threadCnt minTs : Nat) {p : Phase} (hp : p = .prewriting ∨ p = .prewaiting) :
    ∃ row, s.row.grant threadCnt minTs (S.ts t) t = some row ∧
      Core S ({ s with row := row }.goto t p) pending ∧
      Granted threadCnt minTs (S.ts t) s.row row := by
  obtain ⟨his, own, hres, hr, hlen, hbase⟩ :=
    reserveRow_spec hc.keeps hno hc.versions_lt_max threadCnt minTs (S.ts t)
  have hready := hc.ready hnot
  have hheld : ∀ {w r}, his.Holds w r → r ≠ own := by
    rintro w r (⟨-, rfl⟩ | ⟨i, e, hi, hv, -, hrow⟩) rfl
    · exact hr.keeps.layout.base _ _ hr.entry rfl
    · obtain rfl := hr.keeps.layout.apart _ _ _ _ _ hi hr.entry hrow rfl
      cases hr.entry.symm.trans hi
      cases hv
  have hold : his.oldestWts ≤ s.row.latestWts := hc.version_le hr.keeps.holding.base
  have hlatest' := hr.holds _ _ hc.latest hold
  have hcopy : Function.update s.row.data own (s.row.data s.row.latestRow) s.row.latestRow =
      s.row.data s.row.latestRow := Function.update_of_ne (hheld hlatest') _ _
  obtain ⟨row, hrow⟩ : ∃ row, row = RowMvcc.hand { s.row with
      his := his, data := Function.update s.row.data own (s.row.data s.row.latestRow) } t .pReq own :=
    ⟨_, rfl⟩
  have hphase : ∀ {u}, u ≠ t → ({ s with row := row }.goto t p).phase u = s.phase u :=
    fun hu => Function.update_of_ne hu _ _
  have hself : ({ s with row := row }.goto t p).phase t = p := Function.update_self ..
  have hwriting : ({ s with row := row }.goto t p).Writing t := by
    rcases hp with rfl | rfl
    · exact .inl hself
    · refine .inr ⟨hself, ?_⟩
      rw [hrow]
      exact hready
  have honly : ∀ u, ({ s with row := row }.goto t p).Writing u → u = t := by
    intro u hu
    by_contra hne
    refine hc.quiet hno u ?_
    rw [Sys.Writing, hphase hne, hrow] at hu
    exact hu
  refine ⟨row, ?_, ?_, ?_⟩
  · unfold RowMvcc.grant
    rw [hres, Option.bind_eq_bind, Option.bind_some, hrow]
  · subst hrow
    constructor
    · exact { hr.keeps with
        holding := hr.keeps.holding.data_congr (Function.update_of_ne (hheld (.inl ⟨rfl, rfl⟩)) _ _)
          fun i e r hi hv hr' => Function.update_of_ne (hheld (.inr ⟨i, e, hi, hv, rfl, hr'⟩)) _ _ }
    · exact hc.sorted
    · refine fun v hv => (hc.stamped v hv).imp_right fun ⟨u, hu, hdone⟩ => ⟨u, hu, ?_⟩
      exact (hphase fun heq => hrun (heq ▸ hdone)).trans hdone
    · show s.versions.head? = some (s.row.latestWts,
        Function.update s.row.data own (s.row.data s.row.latestRow) s.row.latestRow)
      rw [hcopy]
      exact hc.head
    · exact hlatest'
    · intro _
      show s.row.latestWts < his.prewriteTs ∧ s.row.maxServedRts ≤ his.prewriteTs ∧ _
      rw [hr.prewriteTs]
      exact ⟨hlatest, hserved, t, hwriting⟩
    · intro u hu
      obtain rfl := honly u hu
      exact ⟨hr.announced, hr.prewriteTs, own, Function.update_self .., hr.entry⟩
    · intro q hq
      obtain ⟨hts, hq', hwaits, hlt⟩ := hc.asked q hq
      exact ⟨hts, hq', (hphase (hnot q hq)).trans hwaits, hlt⟩
    · exact hc.once
    · exact hc.waiting
    · intro h hh htype
      rcases List.mem_cons.mp hh with rfl | hmem
      · cases htype
      · exact hc.reads h hmem htype
    · intro h hh htype
      rcases List.mem_cons.mp hh with rfl | hmem
      · refine .inl ⟨.inr hwriting, ?_⟩
        show (below s.versions (S.ts t)).map Prod.snd =
          some (Function.update s.row.data own (s.row.data s.row.latestRow) own)
        rw [hc.below_latest hlatest, Function.update_self]
        rfl
      · rcases hc.copies h hmem htype with ⟨hle | hw, hbelow⟩ | ⟨hdone, hnone⟩
        · exact .inl ⟨.inl hle, hbelow⟩
        · exact absurd hw (hc.quiet hno _)
        · exact .inr ⟨(hphase fun heq => hrun (heq ▸ hdone)).trans hdone, hnone⟩
  · subst hrow
    refine ⟨hr.announced, hr.prewriteTs, ⟨hr.holds, hr.oldest, hlen, hbase⟩, rfl, rfl, rfl, rfl, ?_⟩
    intro h hh
    rcases List.mem_cons.mp hh with rfl | hmem
    · exact .inr rfl
    · exact .inl hmem

/-! ### The loops of `update_buffer` -/

omit [DecidableEq T] in
theorem nextPreTs_spec (ts : Nat) (requests : List (Option (ReqEntry T))) :
    nextPreTs ts requests ≤ uint64Max ∧
    (∀ q ∈ pendingOf requests, q.type = .pReq → ts < q.ts → nextPreTs ts requests ≤ q.ts) ∧
    (nextPreTs ts requests = uint64Max ∨
      ∃ q ∈ pendingOf requests, q.type = .pReq ∧ ts < q.ts ∧ q.ts = nextPreTs ts requests) := by
  have hfold : ∀ (rs : List (Option (ReqEntry T))) (m : Nat), ∃ next,
      next = rs.foldl (nextPre ts) m ∧ next ≤ m ∧
      (∀ q ∈ pendingOf rs, q.type = .pReq → ts < q.ts → next ≤ q.ts) ∧
      (next = m ∨ ∃ q ∈ pendingOf rs, q.type = .pReq ∧ ts < q.ts ∧ q.ts = next) := by
    intro rs
    induction rs with
    | nil => exact fun m => ⟨m, rfl, Nat.le_refl _, nofun, .inl rfl⟩
    | cons r rs ih =>
        intro m
        cases r with
        | none => exact ih m
        | some q =>
            rw [List.foldl_cons, pendingOf, List.filterMap_cons_some (f := id) (b := q) rfl, nextPre]
            split
            · rename_i hq
              obtain ⟨next, heq, hle, hall, hor⟩ := ih q.ts
              refine ⟨next, heq, Nat.le_trans hle (Nat.le_of_lt hq.2.2), fun q' hq' => ?_, ?_⟩
              · rcases List.mem_cons.mp hq' with rfl | hmem
                · exact fun _ _ => hle
                · exact hall q' hmem
              · rcases hor with hsame | ⟨q', hq', h'⟩
                · exact .inr ⟨q, List.mem_cons_self .., hq.1, hq.2.1, hsame.symm⟩
                · exact .inr ⟨q', List.mem_cons_of_mem _ hq', h'⟩
            · rename_i hq
              obtain ⟨next, heq, hle, hall, hor⟩ := ih m
              refine ⟨next, heq, hle, fun q' hq' => ?_, ?_⟩
              · rcases List.mem_cons.mp hq' with rfl | hmem
                · intro htype hlt
                  have : ¬ q'.ts < m := fun h => hq ⟨htype, hlt, h⟩
                  omega
                · exact hall q' hmem
              · refine hor.imp_right ?_
                rintro ⟨q', hq', h'⟩
                exact ⟨q', List.mem_cons_of_mem _ hq', h'⟩
  obtain ⟨next, heq, hle, hall, hor⟩ := hfold requests uint64Max
  rw [← show next = nextPreTs ts requests from heq]
  exact ⟨hle, hall, hor⟩

/-- Where the second loop is: `kept` still wait, and `rest` has not been looked at. -/
structure Round (ts next : Nat) (row : RowMvcc T D) (kept rest : List (ReqEntry T)) : Prop where
  kept : ∀ q ∈ kept, next < q.ts
  later : ∀ q ∈ rest, ts < q.ts
  lower : ∀ q ∈ rest, q.type = .pReq → next ≤ q.ts
  served : row.maxServedRts ≤ next
  prewrite : (row.his.existsPrewrite = true ∧ row.his.prewriteTs = next ∧ ∀ q ∈ rest, q.ts ≠ next) ∨
    (row.his.existsPrewrite = false ∧
      (next = uint64Max ∨ ∃ q ∈ rest, q.type = .pReq ∧ q.ts = next))

/-- What the loop does. -/
structure Served (S : MvStamps T) (threadCnt minTs next : Nat) (s : Sys T D) (row : RowMvcc T D)
    (pending : List (ReqEntry T)) : Prop where
  core : Core S { s with row := row } pending
  waits : ∀ q ∈ pending, next < q.ts
  prewrite : (row.his.existsPrewrite = true ∧ row.his.prewriteTs = next) ∨
    (row.his.existsPrewrite = false ∧ next = uint64Max)
  moves : row.his = s.row.his ∨
    (s.row.his.existsPrewrite = false ∧ Moves threadCnt minTs s.row.his row.his)
  latestWts : row.latestWts = s.row.latestWts
  latestRow : row.latestRow = s.row.latestRow
  handed : ∀ h ∈ row.handed, h ∈ s.row.handed ∨ h.type = .pReq ∨
    h.row = s.row.latestRow ∧ s.row.latestWts < S.ts h.txn

theorem grant_ready (row : RowMvcc T D) (threadCnt minTs ts : Nat) (t : T) :
    (row.ready t).grant threadCnt minTs ts t =
      (row.grant threadCnt minTs ts t).map (·.ready t) := by
  unfold RowMvcc.grant
  show (row.his.reserveRow threadCnt minTs ts).bind _ = _
  cases row.his.reserveRow threadCnt minTs ts <;> rfl

/-- A read that waits gets the latest version. -/
theorem Core.serveRead {q : ReqEntry T} (kept rest : List (ReqEntry T))
    (hc : Core S s (kept ++ q :: rest)) (htype : q.type = .rReq)
    (hpre : s.row.his.existsPrewrite = true → q.ts ≤ s.row.his.prewriteTs) :
    Core S { s with row := ((s.row.serveRts q.ts).hand q.txn .rReq s.row.latestRow).ready q.txn }
      (kept ++ rest) := by
  obtain ⟨hts, -, hphase, hlt⟩ :=
    hc.asked q (List.mem_append_right _ (List.mem_cons_self ..))
  obtain ⟨hc₁, hnot⟩ := hc.withdraw kept rest
  have hno : ∀ p, p ≠ Phase.prewriting → p ≠ Phase.prewaiting →
      ¬ ({ s with row := s.row.ready q.txn }.goto q.txn p).Writing q.txn := by
    intro p hp hp' hw
    have hself : ({ s with row := s.row.ready q.txn }.goto q.txn p).phase q.txn = p :=
      Function.update_self ..
    exact hw.elim (fun h => hp (hself.symm.trans h)) fun h => hp' (hself.symm.trans h.1)
  have hc₂ := hc₁.hand (hno _ nofun nofun) s.row.latestRow
    (if s.row.maxServedRts < q.ts then q.ts else s.row.maxServedRts) ?_ ?_ ?_ ?_
  · have hidle : Function.update s.phase q.txn .idle q.txn = .idle := Function.update_self ..
    have hc₃ := hc₂.rephase (t := q.txn) (p := .reading) (hno _ nofun nofun) hnot
      (fun h => by cases hidle.symm.trans h) nofun nofun
    have hback : Function.update (Function.update s.phase q.txn .idle) q.txn .reading =
        s.phase := by
      rw [Function.update_idem]
      rw [htype] at hphase
      exact Function.update_eq_self_iff.mpr hphase.symm
    rw [Sys.goto] at hc₃
    dsimp only [Sys.goto] at hc₃
    rw [hback] at hc₃
    exact hc₃
  · show (below s.versions (S.ts q.txn)).map Prod.snd = some (s.row.data s.row.latestRow)
    rw [hc.below_latest (hts ▸ hlt)]
    rfl
  · show S.ts q.txn ≤ max s.row.latestWts _
    split <;> omega
  · show s.row.maxServedRts ≤ _
    split <;> omega
  · intro hex
    obtain ⟨-, hle, -⟩ := hc.announced hex
    have := hpre hex
    show _ ≤ s.row.his.prewriteTs
    split <;> omega

/-- The write that is next gets a row. -/
theorem Core.serveWrite {q : ReqEntry T} (kept rest : List (ReqEntry T))
    (hc : Core S s (kept ++ q :: rest)) (htype : q.type = .pReq)
    (hno : s.row.his.existsPrewrite = false) (hserved : s.row.maxServedRts ≤ q.ts)
    (threadCnt minTs : Nat) :
    ∃ row, (s.row.grant threadCnt minTs q.ts q.txn).map (fun row => (row.ready q.txn, none)) =
        some (row, (none : Option (ReqEntry T))) ∧
      Core S { s with row := row } (kept ++ rest) ∧ Granted threadCnt minTs q.ts s.row row := by
  obtain ⟨hts, -, hphase, hlt⟩ :=
    hc.asked q (List.mem_append_right _ (List.mem_cons_self ..))
  obtain ⟨hc₁, hnot⟩ := hc.withdraw kept rest
  rw [hts] at hserved hlt ⊢
  obtain ⟨row, hgrant, hc₂, hgranted⟩ := hc₁.grant (t := q.txn) hno hnot
    (by show Function.update s.phase q.txn .idle q.txn ≠ _; rw [Function.update_self]; exact nofun)
    hlt hserved threadCnt minTs (p := .prewaiting) (.inr rfl)
  obtain ⟨row₀, hrow₀, rfl⟩ := Option.map_eq_some_iff.mp ((grant_ready ..).symm.trans hgrant)
  refine ⟨row₀.ready q.txn, by rw [hrow₀]; rfl, ?_, hgranted.announced, hgranted.prewriteTs,
    hgranted.moves, hgranted.latestWts, hgranted.latestRow, hgranted.maxServedRts,
    hgranted.requests, hgranted.handed⟩
  have hback : Function.update (Function.update s.phase q.txn .idle) q.txn .prewaiting =
      s.phase := by
    rw [Function.update_idem]
    rw [htype] at hphase
    exact Function.update_eq_self_iff.mpr hphase.symm
  dsimp only [Sys.goto] at hc₂
  rwa [hback] at hc₂

section Round

variable {threadCnt minTs ts next : Nat} {row row₁ : RowMvcc T D} {q : ReqEntry T}
  {kept rest : List (ReqEntry T)}

/-- A read below the next write is served. -/
theorem Round.read (hr : Round ts next row kept (q :: rest)) (htype : q.type = .rReq)
    (hlt : q.ts < next) :
    Round ts next (((row.serveRts q.ts).hand q.txn .rReq row.latestRow).ready q.txn) kept rest := by
  refine ⟨hr.kept, fun q' hq' => hr.later q' (List.mem_cons_of_mem _ hq'),
    fun q' hq' => hr.lower q' (List.mem_cons_of_mem _ hq'), ?_, ?_⟩
  · show (if row.maxServedRts < q.ts then q.ts else row.maxServedRts) ≤ next
    have := hr.served
    split <;> omega
  · rcases hr.prewrite with ⟨hex, hpts, hne⟩ | ⟨hno, hor⟩
    · exact .inl ⟨hex, hpts, fun q' hq' => hne q' (List.mem_cons_of_mem _ hq')⟩
    · refine .inr ⟨hno, hor.imp_right ?_⟩
      rintro ⟨q', hq', htype', hts'⟩
      rcases List.mem_cons.mp hq' with rfl | hin
      · cases htype'.symm.trans htype
      · exact ⟨q', hin, htype', hts'⟩

omit [DecidableEq T] in
/-- A request that is next is a write, and no write is announced. -/
theorem Round.unannounced (hr : Round ts next row kept (q :: rest)) (hnext : q.ts = next)
    (hother : ∀ q' ∈ rest, q'.ts ≠ q.ts) (hlt : q.ts < uint64Max) :
    row.his.existsPrewrite = false ∧ q.type = .pReq := by
  rcases hr.prewrite with ⟨-, -, hne⟩ | ⟨hno, hnone | ⟨q', hq', htype', hts'⟩⟩
  · exact absurd hnext (hne q (List.mem_cons_self ..))
  · omega
  · rcases List.mem_cons.mp hq' with rfl | hin
    · exact ⟨hno, htype'⟩
    · exact absurd (hts'.trans hnext.symm) (hother q' hin)

omit [DecidableEq T] in
/-- It gets its row. -/
theorem Round.grant (hr : Round ts next row kept (q :: rest)) (hnext : q.ts = next)
    (hother : ∀ q' ∈ rest, q'.ts ≠ q.ts) (hgranted : Granted threadCnt minTs q.ts row row₁) :
    Round ts next row₁ kept rest := by
  refine ⟨hr.kept, fun q' hq' => hr.later q' (List.mem_cons_of_mem _ hq'),
    fun q' hq' => hr.lower q' (List.mem_cons_of_mem _ hq'), ?_, .inl ⟨hgranted.announced, ?_, ?_⟩⟩
  · rw [hgranted.maxServedRts]
    exact hr.served
  · rw [hgranted.prewriteTs, hnext]
  · exact fun q' hq' heq => hother q' hq' (heq.trans hnext.symm)

omit [DecidableEq T] in
/-- Every other request goes on waiting. -/
theorem Round.keep (hr : Round ts next row kept (q :: rest))
    (hread : ¬ (q.type = .rReq ∧ q.ts < next)) (hnext : ¬ q.ts = next) :
    Round ts next row (kept ++ [q]) rest := by
  have hgt : next < q.ts := by
    cases htype : q.type with
    | rReq =>
        have : ¬ q.ts < next := fun h => hread ⟨htype, h⟩
        omega
    | pReq =>
        have := hr.lower q (List.mem_cons_self ..) htype
        omega
  refine ⟨fun q' hq' => ?_, fun q' hq' => hr.later q' (List.mem_cons_of_mem _ hq'),
    fun q' hq' => hr.lower q' (List.mem_cons_of_mem _ hq'), hr.served, ?_⟩
  · rcases List.mem_append.mp hq' with hk | hlast
    · exact hr.kept q' hk
    · rw [List.mem_singleton.mp hlast]
      exact hgt
  · rcases hr.prewrite with ⟨hex, hpts, hne⟩ | ⟨hno, hor⟩
    · exact .inl ⟨hex, hpts, fun q' hq' => hne q' (List.mem_cons_of_mem _ hq')⟩
    · refine .inr ⟨hno, hor.imp_right ?_⟩
      rintro ⟨q', hq', htype', hts'⟩
      rcases List.mem_cons.mp hq' with rfl | hin
      · exact absurd hts' hnext
      · exact ⟨q', hin, htype', hts'⟩

/-- The rest of the loop after a read that was served. -/
theorem Served.read {pending : List (ReqEntry T)}
    (hserved : Served S threadCnt minTs next
      { s with row := ((s.row.serveRts q.ts).hand q.txn .rReq s.row.latestRow).ready q.txn } row
      pending) (hlt : s.row.latestWts < S.ts q.txn) :
    Served S threadCnt minTs next s row pending := by
  refine ⟨hserved.core, hserved.waits, hserved.prewrite, hserved.moves, hserved.latestWts,
    hserved.latestRow, fun h hh => ?_⟩
  rcases hserved.handed h hh with hold | hnew
  · rcases List.mem_cons.mp hold with rfl | hold
    · exact .inr (.inr ⟨rfl, hlt⟩)
    · exact .inl hold
  · exact .inr hnew

omit [DecidableEq T] in
/-- The rest of the loop after a write that got its row. -/
theorem Served.grant {pending : List (ReqEntry T)}
    (hserved : Served S threadCnt minTs next { s with row := row₁ } row pending)
    (hgranted : Granted threadCnt minTs q.ts s.row row₁) (hno : s.row.his.existsPrewrite = false) :
    Served S threadCnt minTs next s row pending := by
  have hsame : row.his = row₁.his := by
    rcases hserved.moves with hsame | ⟨hquiet, -⟩
    · exact hsame
    · exact absurd (hquiet.symm.trans hgranted.announced) Bool.false_ne_true
  refine ⟨hserved.core, hserved.waits, hserved.prewrite, .inr ⟨hno, hsame ▸ hgranted.moves⟩,
    hserved.latestWts.trans hgranted.latestWts, hserved.latestRow.trans hgranted.latestRow,
    fun h hh => ?_⟩
  rcases hserved.handed h hh with hold | hp | ⟨hrow, hlt⟩
  · exact (hgranted.handed h hold).imp_right .inl
  · exact .inr (.inl hp)
  · refine .inr (.inr ⟨hrow.trans hgranted.latestRow, ?_⟩)
    rw [← hgranted.latestWts]
    exact hlt

end Round

theorem serveAll_spec (threadCnt minTs ts next : Nat)
    (rs : List (Option (ReqEntry T))) :
    ∀ {s : Sys T D} (kept : List (ReqEntry T)), Core S s (kept ++ pendingOf rs) →
      Round ts next s.row kept (pendingOf rs) →
      ∃ row rs', serveAll threadCnt minTs ts next rs s.row = some (row, rs') ∧
        Served S threadCnt minTs next s row (kept ++ pendingOf rs') := by
  induction rs with
  | nil =>
      intro s kept hc hr
      refine ⟨s.row, [], rfl, hc, fun q hq => ?_, ?_, .inl rfl, rfl, rfl, fun h hh => .inl hh⟩
      · rw [pendingOf, List.filterMap_nil, List.append_nil] at hq
        exact hr.kept q hq
      · rcases hr.prewrite with ⟨hex, hpts, -⟩ | ⟨hno, hnext | ⟨q, hq, -⟩⟩
        · exact .inl ⟨hex, hpts⟩
        · exact .inr ⟨hno, hnext⟩
        · cases hq
  | cons r rs ih =>
      intro s kept hc hr
      cases r with
      | none =>
          obtain ⟨row, rs', heq, hserved⟩ := ih _ hc hr
          refine ⟨row, none :: rs', ?_, hserved⟩
          rw [serveAll]
          show (serveAll threadCnt minTs ts next rs s.row).bind _ = _
          rw [heq]
          rfl
      | some q =>
          have hmem : q ∈ pendingOf (some q :: rs) := List.mem_cons_self ..
          have hlater : ¬ q.ts ≤ ts := Nat.not_le.mpr (hr.later q hmem)
          obtain ⟨hts, -, -, hlt⟩ := hc.asked q (List.mem_append_right _ hmem)
          by_cases hread : q.type = .rReq ∧ q.ts < next
          · have hpre : s.row.his.existsPrewrite = true → q.ts ≤ s.row.his.prewriteTs := by
              intro hex
              rcases hr.prewrite with ⟨-, hpts, -⟩ | ⟨hno, -⟩
              · rw [hpts]
                exact Nat.le_of_lt hread.2
              · exact absurd (hno.symm.trans hex) Bool.false_ne_true
            obtain ⟨row, rs', heq, hserved⟩ :=
              ih _ (hc.serveRead kept (pendingOf rs) hread.1 hpre) (Round.read hr hread.1 hread.2)
            refine ⟨row, none :: rs', ?_, hserved.read (hts ▸ hlt)⟩
            rw [serveAll, RowMvcc.serve, if_neg hlater, if_pos hread]
            show (serveAll threadCnt minTs ts next rs _).bind _ = _
            rw [heq]
            rfl
          · by_cases hnext : q.ts = next
            · -- a transaction asks once, so no other request has the timestamp
              have hother : ∀ q' ∈ pendingOf rs, q'.ts ≠ q.ts := by
                intro q' hq' heq
                obtain ⟨hts', -⟩ :=
                  hc.asked q' (List.mem_append_right _ (List.mem_cons_of_mem _ hq'))
                have htxn : q'.txn = q.txn := S.distinct (hts'.symm.trans (heq.trans hts))
                exact (hc.withdraw kept (pendingOf rs)).2 q' (List.mem_append_right _ hq') htxn
              obtain ⟨hno, htype⟩ :=
                Round.unannounced hr hnext hother (hts ▸ S.lt_max q.txn)
              obtain ⟨row₁, hgrant, hc', hgranted⟩ :=
                hc.serveWrite kept (pendingOf rs) htype hno (hnext ▸ hr.served) threadCnt minTs
              obtain ⟨row, rs', heq, hserved⟩ := ih _ hc' (Round.grant hr hnext hother hgranted)
              refine ⟨row, none :: rs', ?_, hserved.grant hgranted hno⟩
              rw [serveAll, RowMvcc.serve, if_neg hlater, if_neg hread, if_pos hnext,
                if_pos htype, hgrant]
              show (serveAll threadCnt minTs ts next rs _).bind _ = _
              rw [heq]
              rfl
            · have happ : ∀ rs', kept ++ pendingOf (some q :: rs') =
                  (kept ++ [q]) ++ pendingOf rs' := by
                simp [pendingOf]
              obtain ⟨row, rs', heq, hserved⟩ := ih _ (happ rs ▸ hc) (Round.keep hr hread hnext)
              refine ⟨row, some q :: rs', ?_, happ rs' ▸ hserved⟩
              rw [serveAll, RowMvcc.serve, if_neg hlater, if_neg hread, if_neg hnext]
              show (serveAll threadCnt minTs ts next rs s.row).bind _ = _
              rw [heq]
              rfl

end VeriTxn.Mvcc
