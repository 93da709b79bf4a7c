import VeriTxn.MvccRequests

/-!
# Reads and writes under multiversion timestamp ordering

In every run each read returns the newest version below its timestamp, and no write that is
published later comes between the two.  Requests wait only while a write with a smaller timestamp
is announced, and the answer to that write serves them; no assertion of the row fails.
-/

namespace VeriTxn.Mvcc

open Serial Timestamp Transition

variable {T D : Type} {S : MvStamps T} {s s' : Sys T D} {t : T}

variable [DecidableEq T] {pending : List (ReqEntry T)}

/-! ### The invariant -/

/-- Between two requests, whoever waits waits for an announced write with a smaller timestamp. -/
structure Inv (S : MvStamps T) (s : Sys T D) : Prop where
  core : Core S s (pendingOf s.row.requests)
  behind : ∀ q ∈ pendingOf s.row.requests,
    s.row.his.existsPrewrite = true ∧ s.row.his.prewriteTs < q.ts

/-- The row holds the version that a read with this timestamp returns. -/
def Sys.Serves (s : Sys T D) (ts row : Nat) : Prop :=
  ∃ w, s.row.his.Holds w row ∧ w < ts ∧ ∀ v ∈ s.versions, v.1 < ts → v.1 ≤ w

/-- What a step keeps for those who have read. -/
structure Carried (S : MvStamps T) (threadCnt minTs : Nat) (s s' : Sys T D) : Prop where
  holds : ∀ w r, s.row.his.Holds w r → s'.row.his.oldestWts ≤ w → s'.row.his.Holds w r
  base : s'.row.his.oldestWts = s.row.his.oldestWts ∨ s'.row.his.oldestWts < minTs ∨
    threadCnt ≤ s.row.his.hisLen ∧
      ∀ i e, s.row.his.At i e → e.valid = true → s'.row.his.oldestWts ≤ e.ts
  handed : ∀ h ∈ s'.row.handed, h.type = .rReq →
    h ∈ s.row.handed ∨ s'.Serves (S.ts h.txn) h.row
  versions : ∀ v ∈ s'.versions, v ∈ s.versions ∨
    ∀ h ∈ s.row.handed, h.type = .rReq → S.ts h.txn ≤ v.1
  phase : ∀ t, s.phase t = .done → s'.phase t = .done

omit [DecidableEq T] in
theorem Carried.of_his (hhis : s'.row.his = s.row.his) (hversions : s'.versions = s.versions)
    (hhanded : ∀ h ∈ s'.row.handed, h.type = .rReq →
      h ∈ s.row.handed ∨ s'.Serves (S.ts h.txn) h.row)
    (hphase : ∀ t, s.phase t = .done → s'.phase t = .done) (threadCnt minTs : Nat) :
    Carried S threadCnt minTs s s' where
  holds := fun _ _ hr _ => hhis ▸ hr
  base := .inl (hhis ▸ rfl)
  handed := hhanded
  versions := fun _ hv => .inl (hversions ▸ hv)
  phase := hphase

omit [DecidableEq T] in
/-- The pending list is empty while nothing is announced. -/
theorem Inv.pending_nil (hi : Inv S s) (hno : s.row.his.existsPrewrite = false) :
    pendingOf s.row.requests = [] := by
  refine List.eq_nil_iff_forall_not_mem.mpr fun q hq => ?_
  exact absurd (hno.symm.trans (hi.behind q hq).1) Bool.false_ne_true

omit [DecidableEq T] in
theorem Inv.idle_free (hi : Inv S s) (hidle : s.phase t = .idle) :
    (¬ s.Writing t) ∧ ∀ q ∈ pendingOf s.row.requests, q.txn ≠ t := by
  constructor
  · rintro (h | ⟨h, -⟩) <;> rw [hidle] at h <;> cases h
  · intro q hq
    exact hi.core.not_pending (by rw [hidle]; exact nofun) (by rw [hidle]; exact nofun) hq

theorem goto_done_of_ne {p : Phase} (hrun : s.phase t ≠ .done) {u : T} (hu : s.phase u = .done) :
    (s.goto t p).phase u = .done :=
  (Function.update_of_ne (fun heq : u = t => hrun (heq ▸ hu)) _ _).trans hu

/-- A transaction that has no request and no row to write goes on or ends. -/
theorem Inv.rephase (hi : Inv S s) (hidle : s.phase t = .idle) {p : Phase} (hp : p ≠ .prewriting)
    (hp' : p ≠ .prewaiting) : Inv S (s.goto t p) := by
  obtain ⟨hno, hnot⟩ := hi.idle_free hidle
  exact ⟨hi.core.rephase hno hnot (by rw [hidle]; exact nofun) hp hp', hi.behind⟩

omit [DecidableEq T] in
theorem Core.serves_latest (hc : Core S s pending) {ts : Nat} (hlt : s.row.latestWts < ts) :
    s.Serves ts s.row.latestRow :=
  ⟨_, hc.latest, hlt, fun _ hv _ => hc.version_le hv⟩

omit [DecidableEq T] in
theorem Core.below_of_serves (hc : Core S s pending) {ts row : Nat} (hs : s.Serves ts row) :
    (below s.versions ts).map Prod.snd = some (s.row.data row) := by
  obtain ⟨w, hw, hlt, hmax⟩ := hs
  rw [below_eq hc.sorted (hc.keeps.holds_mem hw) hlt hmax]
  rfl

omit [DecidableEq T] in
/-- The loop over the history, with timestamps that fit in 32 bits, finds the version to read. -/
theorem Core.older_version (hc : Core S s pending) (hsmall : ∀ t, S.ts t < 2 ^ 32)
    (hrun : s.phase t ≠ .done) (hle : s.row.his.oldestWts ≤ S.ts t) :
    (newestBelow (· % 2 ^ 32) (S.ts t) s.row.his.entries = (0, none) ∧
      s.Serves (S.ts t) s.row.his.row) ∨
    ∃ i e row, newestBelow (· % 2 ^ 32) (S.ts t) s.row.his.entries = (e.ts, some i) ∧
      s.row.his.At i e ∧ e.row = some row ∧ s.Serves (S.ts t) row := by
  have hcast : ∀ e ∈ s.row.his.entries, e.valid = true → e.ts % 2 ^ 32 = e.ts := by
    intro e he hv
    obtain ⟨i, hi⟩ := List.mem_iff_getElem?.mp he
    obtain ⟨row, -, hmem, -⟩ := hc.keeps.holding.valid i e hi hv
    rcases hc.stamped _ hmem with hzero | ⟨u, hu, -⟩
    · have hzero : e.ts = 0 := hzero
      exact Nat.mod_eq_of_lt (by omega)
    · have hu : S.ts u = e.ts := hu
      exact Nat.mod_eq_of_lt (hu ▸ hsmall u)
  have hlt : s.row.his.oldestWts < S.ts t :=
    Nat.lt_of_le_of_ne hle (hc.not_version hrun hc.keeps.holding.base)
  rcases newestBelow_cases (· % 2 ^ 32) (S.ts t) _ hcast with
    ⟨heq, hall⟩ | ⟨i, e, hat, heq, hv, hets, hall⟩
  · refine .inl ⟨heq, _, .inl ⟨rfl, rfl⟩, hlt, fun v hv hvt => ?_⟩
    by_contra hgt
    obtain ⟨i, e, hi, hv', hts⟩ := hc.keeps.holding.complete v hv (Nat.lt_of_not_le hgt)
    have := hall e (List.mem_of_getElem? hi) hv' (hts ▸ hvt)
    omega
  · obtain ⟨row, hrow, -, hold⟩ := hc.keeps.holding.valid i e hat hv
    refine .inr ⟨i, e, row, heq, hat, hrow, e.ts, .inr ⟨i, e, hat, hv, rfl, hrow⟩, hets,
      fun v hmem hvt => ?_⟩
    by_contra hgt
    obtain ⟨j, e', hj, hv', hts⟩ := hc.keeps.holding.complete v hmem (by omega)
    have := hall e' (List.mem_of_getElem? hj) hv' (hts ▸ hvt)
    omega

/-- A read returns at once: it is aborted, waits, or gets the version below its timestamp. -/
theorem Inv.read (hi : Inv S s) (hsmall : ∀ t, S.ts t < 2 ^ 32) (hidle : s.phase t = .idle)
    (threadCnt minTs : Nat) :
    ∃ rc row, s.row.read (S.ts t) t = some (rc, row) ∧
      Inv S ({ s with row := row }.goto t (ReqType.rReq.next rc)) ∧
      Carried S threadCnt minTs s ({ s with row := row }.goto t (ReqType.rReq.next rc)) := by
  obtain ⟨hno, hnot⟩ := hi.idle_free hidle
  have hrun : s.phase t ≠ .done := by rw [hidle]; exact nofun
  have hstay : ∀ row : RowMvcc T D, Inv S { s with row := row } →
      (∀ h ∈ row.handed, h.type = .rReq → h ∈ s.row.handed ∨
        ({ s with row := row }.goto t .idle).Serves (S.ts h.txn) h.row) →
      row.his = s.row.his → Inv S ({ s with row := row }.goto t .idle) ∧
        Carried S threadCnt minTs s ({ s with row := row }.goto t .idle) := by
    intro row hinv hhanded hhis
    refine ⟨hinv.rephase hidle nofun nofun, ?_⟩
    refine Carried.of_his ?_ ?_ ?_ ?_ _ _
    · exact hhis
    · rfl
    · exact hhanded
    · exact fun _ => goto_done_of_ne hrun
  have hsame : ∀ (row : RowMvcc T D) p, row.his = s.row.his → row.handed = s.row.handed →
      Carried S threadCnt minTs s ({ s with row := row }.goto t p) := by
    intro row p hhis hhanded
    refine Carried.of_his ?_ ?_ ?_ ?_ _ _
    · exact hhis
    · rfl
    · exact fun h hh _ => .inl (hhanded ▸ hh)
    · exact fun _ => goto_done_of_ne hrun
  have hserve : ∀ row rts, s.Serves (S.ts t) row → S.ts t ≤ max s.row.latestWts rts →
      s.row.maxServedRts ≤ rts → (s.row.his.existsPrewrite = true → rts ≤ s.row.his.prewriteTs) →
      Inv S { s with row := { s.row.hand t .rReq row with maxServedRts := rts } } := by
    intro row rts hs hts hle hpre
    exact ⟨hi.core.hand hno row rts (hi.core.below_of_serves hs) hts hle hpre, hi.behind⟩
  have hhanded : ∀ row, s.Serves (S.ts t) row → ∀ h ∈ (s.row.hand t .rReq row).handed,
      h.type = .rReq → h ∈ s.row.handed ∨ s.Serves (S.ts h.txn) h.row := by
    intro row hs h hh _
    rcases List.mem_cons.mp hh with rfl | hmem
    · exact .inr hs
    · exact .inl hmem
  unfold RowMvcc.read
  split
  · exact ⟨_, _, rfl, hi.rephase hidle nofun nofun, hsame _ _ rfl rfl⟩
  · rename_i hold
    split
    · rename_i hlatest
      have hs := hi.core.serves_latest hlatest
      split
      · rename_i hpre
        refine ⟨_, _, rfl, ⟨?_, ?_⟩, hsame _ _ rfl rfl⟩
        · exact (hi.core.wait hidle .rReq hlatest).perm (pendingOf_bufferReq _ _).symm
        · intro q hq
          rcases List.mem_cons.mp ((pendingOf_bufferReq _ _).mem_iff.mp hq) with rfl | hmem
          · exact hpre
          · exact hi.behind q hmem
      · rename_i hpre
        refine ⟨_, _, rfl, hstay _ (hserve _
          (if s.row.maxServedRts < S.ts t then S.ts t else s.row.maxServedRts) hs ?_ ?_ ?_)
          (hhanded _ hs) rfl⟩
        · split <;> omega
        · split <;> omega
        · intro hex
          have hle := (hi.core.announced hex).2.1
          have : ¬ s.row.his.prewriteTs < S.ts t := fun h => hpre ⟨hex, h⟩
          split <;> omega
    · rename_i hlatest
      have hpre : s.row.his.existsPrewrite = true → s.row.maxServedRts ≤ s.row.his.prewriteTs :=
        fun hex => (hi.core.announced hex).2.1
      rcases hi.core.older_version hsmall hrun (Nat.le_of_not_lt hold) with
        ⟨heq, hs⟩ | ⟨i, e, row, heq, hat, hrow, hs⟩
      · rw [heq]
        exact ⟨_, _, rfl, hstay _ (hserve _ s.row.maxServedRts hs (by omega) (Nat.le_refl _) hpre)
          (hhanded _ hs) rfl⟩
      · rw [heq]
        dsimp only
        rw [hat, Option.bind_eq_bind, Option.bind_some, hrow, Option.bind_eq_bind, Option.bind_some]
        exact ⟨_, _, rfl, hstay _ (hserve _ s.row.maxServedRts hs (by omega) (Nat.le_refl _) hpre)
          (hhanded _ hs) rfl⟩

omit [DecidableEq T] in
/-- The prewrite of another transaction has another timestamp. -/
theorem Core.prewrite_ne (hc : Core S s pending) (hno : ¬ s.Writing t)
    (hex : s.row.his.existsPrewrite = true) : s.row.his.prewriteTs ≠ S.ts t := by
  obtain ⟨-, -, u, hu⟩ := hc.announced hex
  intro heq
  exact hno (S.distinct ((hc.writing u hu).2.1.symm.trans heq) ▸ hu)

/-- A request for a row to write returns at once: it is aborted, waits, or gets one. -/
theorem Inv.prewrite (hi : Inv S s) (hidle : s.phase t = .idle) (threadCnt minTs : Nat) :
    ∃ rc row, s.row.prewrite threadCnt minTs (S.ts t) t = some (rc, row) ∧
      Inv S ({ s with row := row }.goto t (ReqType.pReq.next rc)) ∧
      Carried S threadCnt minTs s ({ s with row := row }.goto t (ReqType.pReq.next rc)) := by
  obtain ⟨hno, hnot⟩ := hi.idle_free hidle
  have hrun : s.phase t ≠ .done := by rw [hidle]; exact nofun
  unfold RowMvcc.prewrite
  split
  · refine ⟨_, _, rfl, hi.rephase hidle nofun nofun, ?_⟩
    refine Carried.of_his ?_ ?_ ?_ ?_ _ _
    · rfl
    · rfl
    · exact fun h hh _ => .inl hh
    · exact fun _ => goto_done_of_ne hrun
  · rename_i habort
    have hlatest : s.row.latestWts < S.ts t := by
      have := hi.core.not_version hrun hi.core.latest_mem
      have : ¬ S.ts t < s.row.latestWts := fun h => habort (.inl h)
      dsimp only at *
      omega
    split
    · rename_i hex
      refine ⟨_, _, rfl, ⟨?_, ?_⟩, ?_⟩
      · exact (hi.core.wait hidle .pReq hlatest).perm (pendingOf_bufferReq _ _).symm
      · intro q hq
        rcases List.mem_cons.mp ((pendingOf_bufferReq _ _).mem_iff.mp hq) with rfl | hmem
        · have := hi.core.prewrite_ne hno hex
          have : ¬ S.ts t < s.row.his.prewriteTs := fun h => habort (.inr (.inr ⟨hex, h⟩))
          refine ⟨hex, ?_⟩
          show s.row.his.prewriteTs < S.ts t
          omega
        · exact hi.behind q hmem
      · refine Carried.of_his ?_ ?_ ?_ ?_ _ _
        · rfl
        · rfl
        · exact fun h hh _ => .inl hh
        · exact fun _ => goto_done_of_ne hrun
    · rename_i hex
      have hquiet : s.row.his.existsPrewrite = false := Bool.of_not_eq_true hex
      have hserved : s.row.maxServedRts ≤ S.ts t :=
        Nat.le_of_not_lt fun h => habort (.inr (.inl h))
      obtain ⟨row, hgrant, hc, hg⟩ := hi.core.grant hquiet hnot hrun hlatest hserved threadCnt minTs
        (p := .prewriting) (.inl rfl)
      rw [hgrant]
      refine ⟨_, _, rfl, ⟨?_, ?_⟩, ⟨hg.moves.holds, hg.moves.base, ?_, fun v hv => .inl hv, ?_⟩⟩
      · show Core S _ (pendingOf row.requests)
        rw [hg.requests]
        exact hc
      · intro q hq
        have hq : q ∈ pendingOf row.requests := hq
        rw [hg.requests, hi.pending_nil hquiet] at hq
        cases hq
      · intro h hh htype
        rcases hg.handed h hh with hold | hp
        · exact .inl hold
        · cases htype.symm.trans hp
      · exact fun _ => goto_done_of_ne hrun

/-- After the answer to the announced write, `update_buffer` returns with nobody left behind. -/
theorem Core.updateBuffer (hc : Core S s (pendingOf s.row.requests))
    (hno : s.row.his.existsPrewrite = false) {ts : Nat} (hts : ts < uint64Max)
    (hlater : ∀ q ∈ pendingOf s.row.requests, ts < q.ts) (hserved : s.row.maxServedRts ≤ ts)
    (threadCnt minTs : Nat) :
    ∃ row, s.row.updateBuffer threadCnt minTs ts = some row ∧ Inv S { s with row := row } ∧
      (row.his = s.row.his ∨ Moves threadCnt minTs s.row.his row.his) ∧
      ∀ h ∈ row.handed, h.type = .rReq →
        h ∈ s.row.handed ∨ { s with row := row }.Serves (S.ts h.txn) h.row := by
  obtain ⟨hmax, hlower, hor⟩ := nextPreTs_spec ts s.row.requests
  have hnext : ts < nextPreTs ts s.row.requests := by
    rcases hor with heq | ⟨q, -, -, hlt, heq⟩ <;> omega
  obtain ⟨row, rs', heq, hs⟩ := serveAll_spec threadCnt minTs ts (nextPreTs ts s.row.requests)
    s.row.requests [] hc
    { kept := nofun
      later := hlater
      lower := fun q hq htype => hlower q hq htype (hlater q hq)
      served := Nat.le_trans hserved (Nat.le_of_lt hnext)
      prewrite := .inr ⟨hno, hor.imp_right fun ⟨q, hq, htype, _, hqts⟩ => ⟨q, hq, htype, hqts⟩⟩ }
  refine ⟨{ row with requests := rs' }, ?_, ⟨{ hs.core with }, fun q hq => ?_⟩,
    hs.moves.imp_right fun h => h.2, fun h hh htype => ?_⟩
  · unfold RowMvcc.updateBuffer
    rw [heq]
    rfl
  · rcases hs.prewrite with ⟨hex, hpts⟩ | ⟨-, hlast⟩
    · exact ⟨hex, hpts ▸ hs.waits q hq⟩
    · have hlt := hs.waits q hq
      have hqts := (hs.core.asked q hq).1
      have := S.lt_max q.txn
      omega
  · rcases hs.handed h hh with hold | hp | ⟨hrow, hlt⟩
    · exact .inl hold
    · cases htype.symm.trans hp
    · right
      rw [hrow, ← hs.latestRow]
      have hlt : row.latestWts < S.ts h.txn := hs.latestWts ▸ hlt
      exact hs.core.serves_latest hlt

/-- The announced write is answered and its transaction ends.  `versions` are those before it, or
    those and its own. -/
theorem Core.answer (hc : Core S s pending) (ht : s.phase t = .prewriting) {his : History}
    {latestWts latestRow : Nat} {versions : List (Nat × D)} (hquiet : his.existsPrewrite = false)
    (hkeeps : Keeps his s.row.data versions) (hsorted : versions.Pairwise fun a b => b.1 < a.1)
    (hversions : ∀ v ∈ versions, v ∈ s.versions ∨ v.1 = S.ts t)
    (hhead : versions.head? = some (latestWts, s.row.data latestRow))
    (hlatest : his.Holds latestWts latestRow) (hle : s.row.latestWts ≤ latestWts)
    (hasked : ∀ q ∈ pending, latestWts < q.ts)
    (hbelow : ∀ ts, ts ≤ S.ts t → below versions ts = below s.versions ts)
    (hown : S.ts t ≤ latestWts ∨ ∀ v ∈ versions, v.1 ≠ S.ts t) :
    Core S ⟨{ s.row with his := his, latestWts := latestWts, latestRow := latestRow },
      Function.update s.phase t .done, versions⟩ pending := by
  have hw : s.Writing t := .inl ht
  have hrun : s.phase t ≠ .done := by rw [ht]; exact nofun
  obtain ⟨hex, hpts, -⟩ := hc.writing t hw
  obtain ⟨hlt, hserved, -⟩ := hc.announced hex
  rw [hpts] at hlt hserved
  have hself : Function.update s.phase t Phase.done t = .done := Function.update_self ..
  have hother : ∀ {u}, u ≠ t → Function.update s.phase t Phase.done u = s.phase u :=
    fun hu => Function.update_of_ne hu _ _
  have hdone : ∀ {u}, s.phase u = .done → Function.update s.phase t Phase.done u = .done :=
    fun hu => (hother fun heq => hrun (heq ▸ hu)).trans hu
  constructor
  · exact hkeeps
  · exact hsorted
  · intro v hv
    rcases hversions v hv with hold | hts
    · exact (hc.stamped v hold).imp_right fun ⟨u, hu, h⟩ => ⟨u, hu, hdone h⟩
    · exact .inr ⟨t, hts.symm, hself⟩
  · exact hhead
  · exact hlatest
  · exact fun h => absurd (hquiet.symm.trans h) Bool.false_ne_true
  · intro u hu
    exfalso
    by_cases heq : u = t
    · rw [heq] at hu
      rcases hu with h | ⟨h, -⟩ <;> cases hself.symm.trans h
    · refine heq (hc.writing_unique (hu.imp ?_ ?_) hw)
      · exact fun h => (hother heq).symm.trans h
      · exact fun h => ⟨(hother heq).symm.trans h.1, h.2⟩
  · intro q hq
    obtain ⟨hts, hready, hwaits, -⟩ := hc.asked q hq
    have hne : q.txn ≠ t := by
      intro heq
      rcases q.type.waits_cases with h | h <;> rw [heq, ht, h] at hwaits <;> cases hwaits
    exact ⟨hts, hready, (hother hne).trans hwaits, hasked q hq⟩
  · exact hc.once
  · exact hc.waiting
  · intro h hh htype
    obtain ⟨hmax, hdata⟩ := hc.reads h hh htype
    refine ⟨?_, ?_⟩
    · show S.ts h.txn ≤ max latestWts s.row.maxServedRts
      omega
    · rw [← hdata]
      exact congrArg _ (hbelow _ (by omega))
  · intro h hh htype
    by_cases heq : h.txn = t
    · rcases hc.copies h hh htype with ⟨-, hdata⟩ | ⟨hend, -⟩
      · rw [heq] at hdata ⊢
        refine hown.imp (fun hle => ⟨.inl hle, ?_⟩) fun hnone => ⟨hself, hnone⟩
        rw [← hdata]
        exact congrArg _ (hbelow _ (Nat.le_refl _))
      · exact absurd (heq ▸ hend) hrun
    · rcases hc.copies h hh htype with ⟨hor, hdata⟩ | ⟨hend, hnone⟩
      · have hlast : S.ts h.txn ≤ s.row.latestWts :=
          hor.resolve_right fun hw' => heq (hc.writing_unique hw' hw)
        refine .inl ⟨.inl (Nat.le_trans hlast hle), ?_⟩
        rw [← hdata]
        exact congrArg _ (hbelow _ (by omega))
      · refine .inr ⟨hdone hend, fun v hv => ?_⟩
        rcases hversions v hv with hold | hts
        · exact hnone v hold
        · exact fun h' => heq (S.distinct (h'.symm.trans hts))

/-- The announced write is published. -/
theorem Core.publish (hc : Core S s pending) (ht : s.phase t = .prewriting) {own : Nat}
    (hat : s.row.his.At s.row.his.prewriteHisId ⟨false, true, S.ts t, some own⟩)
    (hbehind : ∀ q ∈ pending, s.row.his.prewriteTs < q.ts) :
    Core S ⟨{ s.row with
        his := s.row.his.answered ⟨true, true, S.ts t, some own⟩ (s.row.his.numVersions + 1)
        latestWts := S.ts t
        latestRow := own },
      Function.update s.phase t .done, (S.ts t, s.row.data own) :: s.versions⟩ pending := by
  obtain ⟨hex, hpts, -⟩ := hc.writing t (.inl ht)
  obtain ⟨hlatest, -⟩ := hc.announced hex
  rw [hpts] at hlatest hbehind
  have hnew : ∀ v ∈ s.versions, v.1 < S.ts t :=
    fun v hv => Nat.lt_of_le_of_lt (hc.version_le hv) hlatest
  refine hc.answer ht rfl (hc.keeps.publish hat hnew) (List.pairwise_cons.mpr ⟨hnew, hc.sorted⟩)
    (fun v hv => ?_) rfl (holds_published hat _) (Nat.le_of_lt hlatest) hbehind
    (fun ts hle => below_cons hle) (.inl (Nat.le_refl _))
  rcases List.mem_cons.mp hv with rfl | hmem
  · exact .inr rfl
  · exact .inl hmem

/-- The announced write is given up. -/
theorem Core.release (hc : Core S s pending) (ht : s.phase t = .prewriting) {own : Nat}
    (hat : s.row.his.At s.row.his.prewriteHisId ⟨false, true, S.ts t, some own⟩) :
    Core S ⟨{ s.row with
        his := s.row.his.answered ⟨false, false, S.ts t, some own⟩ s.row.his.numVersions },
      Function.update s.phase t .done, s.versions⟩ pending :=
  hc.answer ht rfl (hc.keeps.release hat) hc.sorted (fun _ hv => .inl hv) hc.head
    (holds_answered hat hc.latest) (Nat.le_refl _) (fun q hq => (hc.asked q hq).2.2.2)
    (fun _ _ => rfl) (.inr fun _ hv => hc.not_version (by rw [ht]; exact nofun) hv)

omit [DecidableEq T] in
/-- An answer, and what `update_buffer` does after it. -/
theorem Carried.of_answer {threadCnt minTs ts own n : Nat} {e : WriteHisEntry}
    (hat : s.row.his.At s.row.his.prewriteHisId ⟨false, true, ts, some own⟩)
    (hmoves : s'.row.his = s.row.his.answered e n ∨
      Moves threadCnt minTs (s.row.his.answered e n) s'.row.his)
    (hhanded : ∀ h ∈ s'.row.handed, h.type = .rReq →
      h ∈ s.row.handed ∨ s'.Serves (S.ts h.txn) h.row)
    (hversions : ∀ v ∈ s'.versions, v ∈ s.versions ∨
      ∀ h ∈ s.row.handed, h.type = .rReq → S.ts h.txn ≤ v.1)
    (hphase : ∀ t, s.phase t = .done → s'.phase t = .done) : Carried S threadCnt minTs s s' where
  holds := by
    intro w r hr hle
    rcases hmoves with heq | hm
    · exact heq ▸ holds_answered hat hr
    · exact hm.holds w r (holds_answered hat hr) hle
  base := by
    rcases hmoves with heq | hm
    · exact .inl (heq ▸ rfl)
    · refine hm.base.imp id (Or.imp_right fun ⟨hlen, hleast⟩ => ⟨?_, ?_⟩)
      · exact Nat.le_trans hlen (Nat.le_of_eq List.length_set)
      · exact fun i e' hi hv => hleast i e' (at_answered (Keeps.ne_of_valid hat hi hv) hi) hv
  handed := hhanded
  versions := hversions
  phase := hphase

/-- `W_REQ` returns. -/
theorem Inv.write (hi : Inv S s) (ht : s.phase t = .prewriting) (threadCnt minTs : Nat) :
    ∃ own row, s.row.curRow t = some own ∧
      s.row.write threadCnt minTs (S.ts t) own = some row ∧
      Inv S (Sys.goto
        { s with row := row, versions := (S.ts t, s.row.data own) :: s.versions } t .done) ∧
      Carried S threadCnt minTs s (Sys.goto
        { s with row := row, versions := (S.ts t, s.row.data own) :: s.versions } t .done) := by
  obtain ⟨hex, hpts, own, hcur, hat⟩ := hi.core.writing t (.inl ht)
  obtain ⟨hlatest, hserved, -⟩ := hi.core.announced hex
  have hrun : s.phase t ≠ .done := by rw [ht]; exact nofun
  have hbehind := fun q hq => (hi.behind q hq).2
  have hcore := hi.core.publish ht hat hbehind
  rw [hpts] at hlatest hserved hbehind
  obtain ⟨row, heq, hinv, hmoves, hhanded⟩ :=
    hcore.updateBuffer rfl (S.lt_max t) hbehind hserved threadCnt minTs
  refine ⟨own, row, hcur, ?_, hinv, ?_⟩
  · unfold RowMvcc.write
    rw [hat, Option.bind_eq_bind, Option.bind_some, if_pos ⟨hlatest, rfl⟩]
    exact heq
  · refine Carried.of_answer hat hmoves hhanded (fun v hv => ?_) (fun _ => goto_done_of_ne hrun)
    rcases List.mem_cons.mp hv with rfl | hmem
    · refine .inr fun h hh htype => ?_
      have := (hi.core.reads h hh htype).1
      show S.ts h.txn ≤ S.ts t
      omega
    · exact .inl hmem

/-- `XP_REQ` returns. -/
theorem Inv.cancel (hi : Inv S s) (ht : s.phase t = .prewriting) (threadCnt minTs : Nat) :
    ∃ own row, s.row.curRow t = some own ∧
      s.row.cancel threadCnt minTs (S.ts t) own = some row ∧
      Inv S ({ s with row := row }.goto t .done) ∧
      Carried S threadCnt minTs s ({ s with row := row }.goto t .done) := by
  obtain ⟨hex, hpts, own, hcur, hat⟩ := hi.core.writing t (.inl ht)
  obtain ⟨-, hserved, -⟩ := hi.core.announced hex
  have hrun : s.phase t ≠ .done := by rw [ht]; exact nofun
  have hbehind := fun q hq => (hi.behind q hq).2
  have hcore := hi.core.release ht hat
  rw [hpts] at hserved hbehind
  obtain ⟨row, heq, hinv, hmoves, hhanded⟩ :=
    hcore.updateBuffer rfl (S.lt_max t) hbehind hserved threadCnt minTs
  refine ⟨own, row, hcur, ?_, hinv, ?_⟩
  · unfold RowMvcc.cancel
    rw [hat, Option.bind_eq_bind, Option.bind_some, if_pos rfl]
    exact heq
  · exact Carried.of_answer hat hmoves hhanded (fun v hv => .inl hv) (fun _ => goto_done_of_ne hrun)

/-- A transaction whose `P_REQ` has been served goes on. -/
theorem Core.wake (hc : Core S s pending) (ht : s.phase t = .prewaiting)
    (hready : s.row.tsReady t = true) : Core S (s.goto t .prewriting) pending := by
  have hwriting : ∀ u, (s.goto t .prewriting).Writing u ↔ s.Writing u := by
    intro u
    unfold Sys.Writing Sys.goto
    dsimp only
    by_cases hu : u = t
    · rw [hu, Function.update_self, ht, hready]
      exact ⟨fun _ => .inr ⟨rfl, rfl⟩, fun _ => .inl rfl⟩
    · rw [Function.update_of_ne hu]
  have hrun : s.phase t ≠ .done := by rw [ht]; exact nofun
  exact { hc with
    stamped := fun v hv => (hc.stamped v hv).imp_right fun ⟨u, hu, h⟩ =>
      ⟨u, hu, goto_done_of_ne hrun h⟩
    announced := fun hex => by
      obtain ⟨hlt, hle, u, hu⟩ := hc.announced hex
      exact ⟨hlt, hle, u, (hwriting u).mpr hu⟩
    writing := fun u hu => hc.writing u ((hwriting u).mp hu)
    asked := fun q hq => by
      obtain ⟨hts, hwait, hwaits, hlt⟩ := hc.asked q hq
      have hne : q.txn ≠ t := by
        intro heq
        rw [heq, hready] at hwait
        cases hwait
      exact ⟨hts, hwait, (Function.update_of_ne hne _ _).trans hwaits, hlt⟩
    copies := fun h hh htype => by
      rcases hc.copies h hh htype with ⟨hor, hdata⟩ | ⟨hend, hnone⟩
      · exact .inl ⟨hor.imp_right (hwriting _).mpr, hdata⟩
      · exact .inr ⟨goto_done_of_ne hrun hend, hnone⟩ }

/-- `get_min_ts` as an action has it. -/
def Action.minTs : Action T D → Nat
  | .prewrite _ minTs | .write _ minTs | .cancel _ minTs => minTs
  | .read _ | .wake _ | .store _ _ | .finish _ => 0

/-- The length from which an action may use the oldest version's place again. -/
def Action.limit (threadCnt : Nat) (s : Sys T D) : Action T D → Nat
  | .prewrite _ _ | .write _ _ | .cancel _ _ => threadCnt
  | .read _ | .wake _ | .store _ _ | .finish _ => s.row.his.hisLen + 1

/-- Every request that a caller may make returns, no assertion of the row failing. -/
theorem Inv.step (hi : Inv S s) (hsmall : ∀ t, S.ts t < 2 ^ 32) {threadCnt : Nat}
    {a : Action T D} (hallowed : a.allowed s = true) :
    ∃ s', step S threadCnt s a = some s' ∧ Inv S s' ∧
      Carried S (a.limit threadCnt s) a.minTs s s' := by
  have hstep : Mvcc.step S threadCnt s a = a.apply S threadCnt s := if_pos hallowed
  rw [hstep]
  cases a with
  | read t =>
      have hidle : s.phase t = .idle := of_decide_eq_true hallowed
      obtain ⟨rc, row, heq, hinv, hcar⟩ := hi.read hsmall hidle (s.row.his.hisLen + 1) 0
      exact ⟨_, by simp only [Action.apply, heq, Option.map_some], hinv, hcar⟩
  | prewrite t minTs =>
      have hidle : s.phase t = .idle := of_decide_eq_true hallowed
      obtain ⟨rc, row, heq, hinv, hcar⟩ := hi.prewrite hidle threadCnt minTs
      exact ⟨_, by simp only [Action.apply, heq, Option.map_some], hinv, hcar⟩
  | wake t =>
      simp only [Action.allowed, Bool.and_eq_true, Bool.or_eq_true, decide_eq_true_eq] at hallowed
      obtain ⟨hready, ht⟩ := hallowed
      have hrun : s.phase t ≠ .done := by rcases ht with ht | ht <;> rw [ht] <;> exact nofun
      have hcar : ∀ p, Carried S (s.row.his.hisLen + 1) 0 s (s.goto t p) := by
        intro p
        refine Carried.of_his ?_ ?_ ?_ ?_ _ _
        · rfl
        · rfl
        · exact fun h hh _ => .inl hh
        · exact fun _ => goto_done_of_ne hrun
      refine ⟨_, rfl, ?_, hcar _⟩
      rcases ht with ht | ht
      · rw [if_pos ht]
        refine ⟨hi.core.rephase ?_ ?_ hrun nofun nofun, hi.behind⟩
        · rintro (h | ⟨h, -⟩) <;> rw [ht] at h <;> cases h
        · intro q hq heq
          have := (hi.core.asked q hq).2.1
          rw [heq, hready] at this
          cases this
      · rw [if_neg (by rw [ht]; exact nofun)]
        exact ⟨hi.core.wake ht hready, hi.behind⟩
  | store t d =>
      have ht : s.phase t = .prewriting := of_decide_eq_true hallowed
      obtain ⟨-, -, own, hcur, -⟩ := hi.core.writing t (.inl ht)
      refine ⟨_, by simp only [Action.apply, hcur, Option.map_some],
        ⟨hi.core.store (.inl ht) hcur d, hi.behind⟩, ?_⟩
      refine Carried.of_his ?_ ?_ ?_ ?_ _ _
      · rfl
      · rfl
      · exact fun h hh _ => .inl hh
      · exact fun _ h => h
  | write t minTs =>
      have ht : s.phase t = .prewriting := of_decide_eq_true hallowed
      obtain ⟨own, row, hcur, heq, hinv, hcar⟩ := hi.write ht threadCnt minTs
      refine ⟨_, ?_, hinv, hcar⟩
      simp only [Action.apply, hcur, Option.bind_eq_bind, Option.bind_some, heq]
  | cancel t minTs =>
      have ht : s.phase t = .prewriting := of_decide_eq_true hallowed
      obtain ⟨own, row, hcur, heq, hinv, hcar⟩ := hi.cancel ht threadCnt minTs
      refine ⟨_, ?_, hinv, hcar⟩
      simp only [Action.apply, hcur, Option.bind_eq_bind, Option.bind_some, heq]
  | finish t =>
      have hidle : s.phase t = .idle := of_decide_eq_true hallowed
      have hrun : s.phase t ≠ .done := by rw [hidle]; exact nofun
      refine ⟨_, rfl, hi.rephase hidle nofun nofun, ?_⟩
      refine Carried.of_his ?_ ?_ ?_ ?_ _ _
      · rfl
      · rfl
      · exact fun h hh _ => .inl hh
      · exact fun _ => goto_done_of_ne hrun

omit [DecidableEq T] in
theorem Inv.init (S : MvStamps T) (data : Nat → D) : Inv S (Sys.init data : Sys T D) where
  core :=
    { keeps :=
        { long := Nat.le_refl _
          layout :=
            { apart := fun i j e e' row hi _ hr => by
                rw [List.eq_of_mem_replicate (List.mem_of_getElem? hi)] at hr
                cases hr
              base := fun i e hi => by
                rw [List.eq_of_mem_replicate (List.mem_of_getElem? hi)]
                exact nofun
              row_lt := Nat.zero_lt_one
              below := fun i e row hi hr => by
                rw [List.eq_of_mem_replicate (List.mem_of_getElem? hi)] at hr
                cases hr }
          holding :=
            { base := List.mem_singleton_self _
              valid := fun i e hi hv => by
                rw [List.eq_of_mem_replicate (List.mem_of_getElem? hi)] at hv
                cases hv
              complete := fun v hv hlt => by
                rw [List.mem_singleton.mp hv] at hlt
                exact absurd hlt (Nat.lt_irrefl _)
              once := fun i j e e' hi _ hv => by
                rw [List.eq_of_mem_replicate (List.mem_of_getElem? hi)] at hv
                cases hv
              count := rfl }
          marked :=
            { reserved := fun i e hi _ hr => by
                rw [List.eq_of_mem_replicate (List.mem_of_getElem? hi)] at hr
                cases hr
              prewrite := nofun } }
      sorted := List.pairwise_singleton ..
      stamped := fun v hv => .inl (List.mem_singleton.mp hv ▸ rfl)
      head := rfl
      latest := .inl ⟨rfl, rfl⟩
      announced := nofun
      writing := fun t ht => by rcases ht with h | ⟨h, -⟩ <;> cases h
      asked := nofun
      once := List.nodup_nil
      waiting := nofun
      reads := nofun
      copies := nofun }
  behind := nofun

theorem inv_of_step (hi : Inv S s) (hsmall : ∀ t, S.ts t < 2 ^ 32) {threadCnt : Nat}
    {a : Action T D} (hstep : step S threadCnt s a = some s') :
    Inv S s' ∧ Carried S (a.limit threadCnt s) a.minTs s s' := by
  have hallowed : a.allowed s = true := by
    by_contra hno
    rw [step, if_neg hno] at hstep
    cases hstep
  obtain ⟨s₁, hs₁, hi₁, hc₁⟩ : ∃ s₁, step S threadCnt s a = some s₁ ∧ Inv S s₁ ∧
      Carried S (a.limit threadCnt s) a.minTs s s₁ := hi.step hsmall hallowed
  cases hstep.symm.trans hs₁
  exact ⟨hi₁, hc₁⟩

/-- Nobody reads below `get_min_ts`, and if a history as long as there are threads is full, every
    reader is younger than some version in it. -/
def Spares (S : MvStamps T) (threadCnt : Nat) (s : Sys T D) (a : Action T D) : Prop :=
  ∀ h ∈ s.row.handed, h.type = .rReq → s.phase h.txn ≠ .done →
    a.minTs ≤ S.ts h.txn ∧ (s.row.his.hisLen < a.limit threadCnt s ∨
      ∃ e ∈ s.row.his.entries, e.valid = true ∧ e.ts < S.ts h.txn)

instance (S : MvStamps T) (threadCnt : Nat) (s : Sys T D) (a : Action T D) :
    Decidable (Spares S threadCnt s a) :=
  inferInstanceAs (Decidable (∀ h ∈ s.row.handed, h.type = .rReq → s.phase h.txn ≠ .done → _ ∧ _))

/-- The rows of the readers hold the versions that they read. -/
def Sys.Held (S : MvStamps T) (s : Sys T D) : Prop :=
  ∀ h ∈ s.row.handed, h.type = .rReq → s.phase h.txn ≠ .done → s.Serves (S.ts h.txn) h.row

omit [DecidableEq T] in
theorem Carried.held {threadCnt : Nat} {a : Action T D} (hi : Inv S s) (hi' : Inv S s')
    (hc : Carried S (a.limit threadCnt s) a.minTs s s') (hspare : Spares S threadCnt s a)
    (h : s.Held S) : s'.Held S := by
  intro g hg htype hrun
  rcases hc.handed g hg htype with hold | hnew
  · have hrun₀ : s.phase g.txn ≠ .done := fun hdone => hrun (hc.phase _ hdone)
    obtain ⟨w, hw, hlt, hmax⟩ := h g hold htype hrun₀
    obtain ⟨hmin, hfull⟩ := hspare g hold htype hrun₀
    have hmax' : ∀ v ∈ s'.versions, v.1 < S.ts g.txn → v.1 ≤ w := by
      intro v hv hvt
      rcases hc.versions v hv with hmem | hlater
      · exact hmax v hmem hvt
      · exact absurd hvt (Nat.not_lt.mpr (hlater g hold htype))
    have hbase : s'.row.his.oldestWts ≤ w := by
      rcases hc.base with heq | hbelow | ⟨hlen, hleast⟩
      · exact heq ▸ hi.core.keeps.oldest_le hw
      · exact hmax' _ hi'.core.keeps.holding.base (Nat.lt_of_lt_of_le hbelow hmin)
      · rcases hfull with hshort | ⟨e, he, hv, hets⟩
        · exact absurd hshort (Nat.not_lt.mpr hlen)
        · obtain ⟨i, hat⟩ := List.mem_iff_getElem?.mp he
          exact hmax' _ hi'.core.keeps.holding.base (Nat.lt_of_le_of_lt (hleast i e hat hv) hets)
    exact ⟨w, hc.holds w g.row hw hbase, hlt, hmax'⟩
  · exact hnew

end VeriTxn.Mvcc
