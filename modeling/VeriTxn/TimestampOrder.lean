import VeriTxn.RowTs

/-!
# Writes and reads under timestamp ordering

The queues stay consistent in every run: no assertion fails, and every call returns.  That every
write is applied and every read served depends on the rounds of `update_buffer`: a round loses the
write of the first announcement when no read waits for it, and it takes writes too early when no
read waits between them.
-/

namespace VeriTxn.Timestamp

open Transition

variable {T D : Type} [DecidableEq T] {S : Stamps T} {s s' : Sys T D} {t : T}

/-! ### The queues -/

/-- The queues, their minima and the announcements fit together. -/
structure Sound (S : Stamps T) (s : Sys T D) : Prop where
  running : s.row.phase ≠ .failed
  minPts_le : ∀ t ∈ s.row.prereq, s.row.minPts ≤ S.ts t
  minPts_max : s.row.minPts ≤ uint64Max
  minPts_eq : s.row.phase = .idle → s.row.minPts = calMin (s.row.prereq.map S.ts)
  minRts_eq : s.row.minRts = calMin (s.row.readreq.map S.ts)
  reads : ∀ t ∈ s.row.readreq, s.row.minPts < S.ts t
  ready : ∀ t, s.row.tsReady t = false → t ∈ s.row.readreq
  nodup : s.row.prereq.Nodup
  writes_nodup : (s.row.writereq.map Prod.fst).Nodup
  buffered : ∀ w ∈ s.row.writereq, w.1 ∈ s.row.prereq ∧ s.pre w.1 = .written w.2
  announced : ∀ t ∈ s.row.prereq, s.pre t = .accepted ∨ ∃ row, (t, row) ∈ s.row.writereq
  accepted : ∀ t, s.pre t = .accepted → t ∈ s.row.prereq

omit [DecidableEq T] in
theorem Sound.init (S : Stamps T) (row : D) (curRow : T → D) : Sound S (Sys.init row curRow) where
  running := nofun
  minPts_le := nofun
  minPts_max := Nat.le_refl _
  minPts_eq := fun _ => rfl
  minRts_eq := rfl
  reads := nofun
  ready := nofun
  nodup := .nil
  writes_nodup := .nil
  buffered := nofun
  announced := nofun
  accepted := nofun

theorem Pre.eq_accepted {pre : Pre D} (h : pre.isAccepted = true) : pre = .accepted := by
  cases pre with
  | accepted => rfl
  | fresh | written row | cancelled => cases h

theorem Pre.eq_fresh {pre : Pre D} (h : pre.isFresh = true) : pre = .fresh := by
  cases pre with
  | fresh => rfl
  | accepted | written row | cancelled => cases h

omit [DecidableEq T] in
/-- A transaction that has not announced a write has nothing in the queues for it. -/
theorem Sound.not_mem_of_fresh (h : Sound S s) (hfresh : s.pre t = .fresh) :
    t ∉ s.row.prereq := by
  intro hmem
  rcases h.announced t hmem with hpre | ⟨row, hbuffered⟩
  · rw [hfresh] at hpre
    cases hpre
  · have hpre := (h.buffered _ hbuffered).2
    rw [hfresh] at hpre
    cases hpre

omit [DecidableEq T] in
/-- The write of an announcement that has not been answered is not in the queue. -/
theorem Sound.not_buffered (h : Sound S s) (haccepted : s.pre t = .accepted) :
    ∀ w ∈ s.row.writereq, w.1 ≠ t := by
  rintro w hw rfl
  have hpre := (h.buffered w hw).2
  rw [haccepted] at hpre
  cases hpre

theorem RowTs.debufferP_of_mem {row : RowTs T D} (h : t ∈ row.prereq) :
    row.debufferP t = { row with prereq := row.prereq.erase t, phase := .updating } := by
  rw [RowTs.debufferP, debufferTxn, if_pos h]

/-- An announcement is answered by a write that is performed, or cancelled. -/
theorem Sound.answer (h : Sound S s) (haccepted : s.pre t = .accepted) (pre : Pre D)
    (hpre : pre ≠ .accepted) (row : D) (wts : Nat) :
    Sound S ⟨{ s.row with
      row := row
      wts := wts
      prereq := s.row.prereq.erase t
      phase := .updating }, Function.update s.pre t pre⟩ where
  running := nofun
  minPts_le := fun u hu => h.minPts_le u (List.mem_of_mem_erase hu)
  minPts_max := h.minPts_max
  minPts_eq := nofun
  minRts_eq := h.minRts_eq
  reads := h.reads
  ready := h.ready
  nodup := h.nodup.erase t
  writes_nodup := h.writes_nodup
  buffered := by
    intro w hw
    have hne := h.not_buffered haccepted w hw
    obtain ⟨hmem, hwritten⟩ := h.buffered w hw
    refine ⟨(List.mem_erase_of_ne hne).mpr hmem, ?_⟩
    dsimp only
    rw [Function.update_of_ne hne]
    exact hwritten
  announced := by
    intro u hu
    obtain ⟨hne, hmem⟩ := h.nodup.mem_erase_iff.mp hu
    dsimp only
    rw [Function.update_of_ne hne]
    exact h.announced u hmem
  accepted := by
    intro u hu
    dsimp only at hu ⊢
    by_cases hut : u = t
    · rw [hut, Function.update_self] at hu
      exact absurd hu hpre
    · rw [Function.update_of_ne hut] at hu
      exact (List.mem_erase_of_ne hut).mpr (h.accepted u hu)

/-- A write comes before its turn. -/
theorem Sound.bufferW (h : Sound S s) (haccepted : s.pre t = .accepted) (row : D) :
    Sound S ⟨s.row.bufferW t row, Function.update s.pre t (.written row)⟩ where
  running := h.running
  minPts_le := h.minPts_le
  minPts_max := h.minPts_max
  minPts_eq := h.minPts_eq
  minRts_eq := h.minRts_eq
  reads := h.reads
  ready := h.ready
  nodup := h.nodup
  writes_nodup := by
    refine List.nodup_cons.mpr ⟨fun hmem => ?_, h.writes_nodup⟩
    obtain ⟨w, hw, heq⟩ := List.mem_map.mp hmem
    exact h.not_buffered haccepted w hw heq
  buffered := by
    intro w hw
    dsimp only
    rcases List.mem_cons.mp hw with rfl | hw
    · exact ⟨h.accepted t haccepted, Function.update_self ..⟩
    · rw [Function.update_of_ne (h.not_buffered haccepted w hw)]
      exact h.buffered w hw
  announced := by
    intro u hu
    dsimp only
    by_cases hut : u = t
    · rw [hut]
      exact .inr ⟨row, List.mem_cons_self ..⟩
    · rw [Function.update_of_ne hut]
      rcases h.announced u hu with hpre | ⟨row', hw⟩
      · exact .inl hpre
      · exact .inr ⟨row', List.mem_cons_of_mem _ hw⟩
  accepted := by
    intro u hu
    dsimp only at hu
    by_cases hut : u = t
    · rw [hut, Function.update_self] at hu
      cases hu
    · rw [Function.update_of_ne hut] at hu
      exact h.accepted u hu

/-- A write is announced. -/
theorem Sound.bufferP (h : Sound S s) (hidle : s.row.phase = .idle) (hfresh : s.pre t = .fresh) :
    Sound S ⟨s.row.bufferP S t, Function.update s.pre t .accepted⟩ where
  running := h.running
  minPts_le := by
    intro u hu
    dsimp only [RowTs.bufferP]
    rcases List.mem_cons.mp hu with rfl | hu
    · split <;> omega
    · have := h.minPts_le u hu
      split <;> omega
  minPts_max := by
    have := h.minPts_max
    dsimp only [RowTs.bufferP]
    split <;> omega
  minPts_eq := by
    intro _
    dsimp only [RowTs.bufferP]
    rw [List.map_cons, calMin_cons _ _ (S.lt_max t), h.minPts_eq hidle]
  minRts_eq := h.minRts_eq
  reads := by
    intro u hu
    have := h.reads u hu
    dsimp only [RowTs.bufferP]
    split <;> omega
  ready := h.ready
  nodup := List.nodup_cons.mpr ⟨h.not_mem_of_fresh hfresh, h.nodup⟩
  writes_nodup := h.writes_nodup
  buffered := by
    intro w hw
    obtain ⟨hmem, hwritten⟩ := h.buffered w hw
    refine ⟨List.mem_cons_of_mem _ hmem, ?_⟩
    have hne : w.1 ≠ t := by
      rintro rfl
      rw [hfresh] at hwritten
      cases hwritten
    dsimp only
    rw [Function.update_of_ne hne]
    exact hwritten
  announced := by
    intro u hu
    dsimp only
    by_cases hut : u = t
    · rw [hut, Function.update_self]
      exact .inl rfl
    · rw [Function.update_of_ne hut]
      exact h.announced u ((List.mem_cons.mp hu).resolve_left hut)
  accepted := by
    intro u hu
    dsimp only at hu
    by_cases hut : u = t
    · exact hut ▸ List.mem_cons_self ..
    · rw [Function.update_of_ne hut] at hu
      exact List.mem_cons_of_mem _ (h.accepted u hu)

/-- A read waits. -/
theorem Sound.bufferR (h : Sound S s) (hlt : s.row.minPts < S.ts t) :
    Sound S ⟨{ s.row.bufferR S t with tsReady := Function.update s.row.tsReady t false }, s.pre⟩ where
  running := h.running
  minPts_le := h.minPts_le
  minPts_max := h.minPts_max
  minPts_eq := h.minPts_eq
  minRts_eq := by
    dsimp only [RowTs.bufferR]
    rw [List.map_cons, calMin_cons _ _ (S.lt_max t), h.minRts_eq]
  reads := by
    intro u hu
    rcases List.mem_cons.mp hu with rfl | hu
    · exact hlt
    · exact h.reads u hu
  ready := by
    intro u hu
    dsimp only at hu
    by_cases hut : u = t
    · exact hut ▸ List.mem_cons_self ..
    · rw [Function.update_of_ne hut] at hu
      exact List.mem_cons_of_mem _ (h.ready u hu)
  nodup := h.nodup
  writes_nodup := h.writes_nodup
  buffered := h.buffered
  announced := h.announced
  accepted := h.accepted

/-! ### What a request does -/

/-- What a call does before `update_buffer`, if it gets there. -/
theorem request_cases (h : Sound S s) {req : Request D} (hstep : s.step S (.request t req) = some s') :
    s.row.phase = .idle ∧
    ((∃ curRow rts, s' = ⟨{ s.row with curRow := curRow, rts := rts }, s.pre⟩) ∨
    (s.row.minPts < S.ts t ∧ s' =
      ⟨{ s.row.bufferR S t with tsReady := Function.update s.row.tsReady t false }, s.pre⟩) ∨
    (s.pre t = .fresh ∧ s.row.wts ≤ S.ts t ∧
      s' = ⟨s.row.bufferP S t, Function.update s.pre t .accepted⟩) ∨
    (∃ row, s.pre t = .accepted ∧ (s.row.minPts < S.ts t ∨ s.row.minRts < S.ts t) ∧
      s' = ⟨s.row.bufferW t row, Function.update s.pre t (.written row)⟩) ∨
    (∃ row, s.pre t = .accepted ∧ S.ts t ≤ s.row.minPts ∧
      s' = ⟨{ s.row with
        row := row
        wts := if s.row.wts < S.ts t then S.ts t else s.row.wts
        prereq := s.row.prereq.erase t
        phase := .updating }, Function.update s.pre t (.written row)⟩) ∨
    (s.pre t = .accepted ∧
      s' = ⟨{ s.row with prereq := s.row.prereq.erase t, phase := .updating },
        Function.update s.pre t .cancelled⟩)) := by
  have hsame : Function.update s.pre t (s.pre t) = s.pre := Function.update_eq_self t s.pre
  simp only [Sys.step] at hstep
  split at hstep
  · rename_i hallowed
    obtain ⟨hidle, hallowed⟩ := hallowed
    refine ⟨hidle, ?_⟩
    cases hstep
    cases req with
    | rReq =>
        dsimp only [RowTs.access, Request.answer]
        rw [hsame]
        split
        · exact .inl ⟨s.row.curRow, s.row.rts, rfl⟩
        · split
          · rename_i hlt
            exact .inr (.inl ⟨hlt, rfl⟩)
          · exact .inl ⟨_, _, rfl⟩
    | pReq =>
        have hfresh := Pre.eq_fresh hallowed
        dsimp only [RowTs.access, Request.answer]
        split
        · rw [if_neg nofun, hsame]
          exact .inl ⟨s.row.curRow, s.row.rts, rfl⟩
        · split
          · rw [if_neg nofun, hsame]
            exact .inl ⟨s.row.curRow, s.row.rts, rfl⟩
          · rename_i hwts
            exact .inr (.inr (.inl ⟨hfresh, Nat.le_of_not_lt hwts, rfl⟩))
    | wReq row =>
        have haccepted := Pre.eq_accepted hallowed
        dsimp only [RowTs.access, Request.answer]
        split
        · rename_i hlt
          exact .inr (.inr (.inr (.inl ⟨row, haccepted, .inl hlt, rfl⟩)))
        · rename_i hle
          split
          · rename_i hlt
            exact .inr (.inr (.inr (.inl ⟨row, haccepted, .inr hlt, rfl⟩)))
          · refine .inr (.inr (.inr (.inr (.inl ⟨row, haccepted, Nat.le_of_not_lt hle, ?_⟩))))
            exact congrArg (Sys.mk · _) (RowTs.debufferP_of_mem (h.accepted t haccepted))
    | xpReq =>
        have haccepted := Pre.eq_accepted hallowed
        refine .inr (.inr (.inr (.inr (.inr ⟨haccepted, ?_⟩))))
        exact congrArg (Sys.mk · _) (RowTs.debufferP_of_mem (h.accepted t haccepted))
  · cases hstep

theorem Sound.request (h : Sound S s) {req : Request D}
    (hstep : s.step S (.request t req) = some s') : Sound S s' := by
  obtain ⟨hidle, hcases⟩ := request_cases h hstep
  rcases hcases with ⟨curRow, rts, rfl⟩ | ⟨hlt, rfl⟩ | ⟨hfresh, -, rfl⟩ | ⟨row, haccepted, -, rfl⟩ |
    ⟨row, haccepted, -, rfl⟩ | ⟨haccepted, rfl⟩
  · exact ⟨h.running, h.minPts_le, h.minPts_max, h.minPts_eq, h.minRts_eq, h.reads, h.ready, h.nodup,
      h.writes_nodup, h.buffered, h.announced, h.accepted⟩
  · exact h.bufferR hlt
  · exact h.bufferP hidle hfresh
  · exact h.bufferW haccepted row
  · exact h.answer haccepted (.written row) nofun row _
  · exact h.answer haccepted .cancelled nofun s.row.row s.row.wts

/-! ### What a round does -/

theorem serve_foldl (S : Stamps T) (ready : List T) (row : RowTs T D) :
    ∃ curRow rts tsReady, ready.foldl (RowTs.serve S) row =
        { row with curRow := curRow, rts := rts, tsReady := tsReady } ∧
      ∀ t, tsReady t = false → row.tsReady t = false ∧ t ∉ ready := by
  induction ready generalizing row with
  | nil => exact ⟨row.curRow, row.rts, row.tsReady, rfl, fun t ht => ⟨ht, List.not_mem_nil⟩⟩
  | cons u ready ih =>
      obtain ⟨curRow, rts, tsReady, heq, hready⟩ := ih (row.serve S u)
      refine ⟨curRow, rts, tsReady, heq, fun t ht => ?_⟩
      obtain ⟨hbefore, hmem⟩ := hready t ht
      have hne : t ≠ u := by
        rintro rfl
        dsimp only [RowTs.serve] at hbefore
        rw [Function.update_self] at hbefore
        cases hbefore
      dsimp only [RowTs.serve] at hbefore
      rw [Function.update_of_ne hne] at hbefore
      refine ⟨hbefore, fun hin => ?_⟩
      rcases List.mem_cons.mp hin with heq | hin
      · exact hne heq
      · exact hmem hin

/-- A round that has served the reads up to `m`. -/
structure Served (S : Stamps T) (row row' : RowTs T D) (m : Nat) : Prop where
  some_read : ∃ t ∈ row.readreq, S.ts t ≤ m
  minPts_eq : row'.minPts = m
  readreq_eq : row'.readreq = remaining S.ts row.readreq m
  minRts_eq : row'.minRts = calMin (row'.readreq.map S.ts)
  ready : ∀ t, row'.tsReady t = false → row.tsReady t = false ∧ ¬ (t ∈ row.readreq ∧ S.ts t ≤ m)

/-- It found no write that is ready. -/
structure NoWrite (S : Stamps T) (row row' : RowTs T D) : Prop where
  phase_eq : row'.phase = .idle
  row_eq : row'.row = row.row
  wts_eq : row'.wts = row.wts
  prereq_eq : row'.prereq = row.prereq
  writereq_eq : row'.writereq = row.writereq
  later : ∀ w ∈ row.writereq, row'.minRts < S.ts w.1

/-- It took the writes up to the next read and applied `w`. -/
structure Wrote (S : Stamps T) (row row' : RowTs T D) (w : T × D) : Prop where
  phase_eq : row'.phase = .updating
  mem : w ∈ row.writereq
  le : S.ts w.1 ≤ row'.minRts
  row_eq : row'.row = w.2
  wts_eq : row'.wts = if row.wts < S.ts w.1 then S.ts w.1 else row.wts
  writereq_eq : row'.writereq = remaining (fun w => S.ts w.1) row.writereq row'.minRts
  nodup : row'.prereq.Nodup
  prereq_iff : ∀ t, t ∈ row'.prereq ↔
    t ∈ row.prereq ∧ ∀ w ∈ row.writereq, S.ts w.1 ≤ row'.minRts → w.1 ≠ t

omit [DecidableEq T] in
/-- The first waiting read has been served, so the next one is later. -/
theorem Sound.minRts_lt (h : Sound S s) {m : Nat} (hread : ∃ t ∈ s.row.readreq, S.ts t ≤ m) :
    s.row.minRts < calMin ((remaining S.ts s.row.readreq m).map S.ts) := by
  obtain ⟨t, ht, hle⟩ := hread
  have hfirst : s.row.minRts ≤ S.ts t := by
    rw [h.minRts_eq]
    exact calMin_le (List.mem_map_of_mem ht)
  refine le_calMin (hfirst.trans_lt (S.lt_max t)) ?_
  intro ts hts
  obtain ⟨u, hu, rfl⟩ := List.mem_map.mp hts
  exact (hfirst.trans hle).trans_lt (mem_remaining.mp hu).2

/-- The writes up to a bound are taken with their announcements, and one of them is applied. -/
theorem applyWrites_eq (h : Sound S s) (row : RowTs T D) {bound : Nat}
    (hready : debufferTs (fun w => S.ts w.1) s.row.writereq bound ≠ [])
    (hpre : row.prereq = s.row.prereq) :
    ∃ rest w, row.applyWrites S (debufferTs (fun w => S.ts w.1) s.row.writereq bound) =
        { row with
          prereq := rest
          row := w.2
          wts := if row.wts < S.ts w.1 then S.ts w.1 else row.wts } ∧
      w ∈ s.row.writereq ∧ S.ts w.1 ≤ bound ∧ rest.Nodup ∧
      ∀ t, t ∈ rest ↔ t ∈ s.row.prereq ∧ ∀ w ∈ s.row.writereq, S.ts w.1 ≤ bound → w.1 ≠ t := by
  have hnodup : ((debufferTs (fun w => S.ts w.1) s.row.writereq bound).map Prod.fst).Nodup := by
    rw [debufferTs, List.map_reverse, List.nodup_reverse]
    exact h.writes_nodup.sublist (List.filter_sublist.map _)
  obtain ⟨rest, hfold, hrest, hiff⟩ := debufferTxn_foldlM (hpre.symm ▸ h.nodup) hnodup
    fun w hw => hpre.symm ▸ (h.buffered w (mem_debufferTs.mp hw).1).1
  obtain ⟨w, hw, hyoung⟩ := young_isSome S hready
  obtain ⟨hmem, hle⟩ := mem_debufferTs.mp hw
  refine ⟨rest, w, ?_, hmem, hle, hrest, fun t => ?_⟩
  · rw [RowTs.applyWrites, hfold, hyoung]
  · rw [hiff, hpre, List.mem_map]
    refine and_congr_right fun _ => ⟨fun hnone w hw hle heq => ?_, fun hnone => ?_⟩
    · exact hnone ⟨w, mem_debufferTs.mpr ⟨hw, hle⟩, heq⟩
    · rintro ⟨w, hw, heq⟩
      obtain ⟨hw, hle⟩ := mem_debufferTs.mp hw
      exact hnone w hw hle heq

/-- A round ends without a change, without a read to serve, without a write that is ready, or it
    applies a write. -/
theorem round_cases (h : Sound S s) (hphase : s.row.phase = .updating) {m : Nat}
    (hm : m = calMin (s.row.prereq.map S.ts)) :
    (m = s.row.minPts ∧ s.row.round S = { s.row with phase := .idle }) ∨
    (s.row.minPts < m ∧ (∀ t ∈ s.row.readreq, m < S.ts t) ∧
      s.row.round S = { s.row with minPts := m, phase := .idle }) ∨
    (s.row.minPts < m ∧ Served S s.row (s.row.round S) m ∧
      (NoWrite S s.row (s.row.round S) ∨ ∃ w, Wrote S s.row (s.row.round S) w)) := by
  -- the minimum of fewer announcements is not smaller
  have hle : s.row.minPts ≤ m := by
    rw [hm]
    refine le_calMin h.minPts_max fun ts hts => ?_
    obtain ⟨t, ht, rfl⟩ := List.mem_map.mp hts
    exact h.minPts_le t ht
  unfold RowTs.round
  dsimp only
  rw [← hm]
  split
  · rename_i hlt
    omega
  · split
    · rename_i hlt
      right
      split
      · rename_i hempty
        left
        have hnone := lt_of_debufferTs_isEmpty hempty
        exact ⟨hlt, hnone, by rw [remaining_eq_self hnone]⟩
      · rename_i hready
        right
        refine ⟨hlt, ?_⟩
        have hread : ∃ t ∈ s.row.readreq, S.ts t ≤ m := by
          rw [Bool.not_eq_true, List.isEmpty_eq_false_iff_exists_mem] at hready
          obtain ⟨t, ht⟩ := hready
          exact ⟨t, mem_debufferTs.mp ht⟩
        obtain ⟨curRow, rts, tsReady, hserve, htsReady⟩ := serve_foldl S
          (debufferTs S.ts s.row.readreq m)
          { s.row with minPts := m, readreq := remaining S.ts s.row.readreq m }
        have hserved : ∀ t, tsReady t = false →
            s.row.tsReady t = false ∧ ¬ (t ∈ s.row.readreq ∧ S.ts t ≤ m) := by
          intro t ht
          obtain ⟨hbefore, hnot⟩ := htsReady t ht
          exact ⟨hbefore, fun hin => hnot (mem_debufferTs.mpr hin)⟩
        rw [hserve, RowTs.roundWrites]
        dsimp only
        rw [if_pos (h.minRts_lt hread)]
        split
        · rename_i hempty
          have hlater := lt_of_debufferTs_isEmpty hempty
          refine ⟨⟨hread, rfl, rfl, rfl, hserved⟩, .inl ⟨rfl, rfl, rfl, rfl, ?_, hlater⟩⟩
          exact remaining_eq_self hlater
        · rename_i hwrites
          have hne : debufferTs (fun w => S.ts w.1) s.row.writereq
              (calMin ((remaining S.ts s.row.readreq m).map S.ts)) ≠ [] :=
            fun heq => hwrites (List.isEmpty_iff.mpr heq)
          obtain ⟨rest, w, heq, hmem, hbound, hnodup, hiff⟩ :=
            applyWrites_eq h { s.row with
              minPts := m
              minRts := calMin ((remaining S.ts s.row.readreq m).map S.ts)
              readreq := remaining S.ts s.row.readreq m
              writereq := remaining (fun w => S.ts w.1) s.row.writereq
                (calMin ((remaining S.ts s.row.readreq m).map S.ts))
              curRow := curRow
              rts := rts
              tsReady := tsReady } hne rfl
          rw [heq]
          exact ⟨⟨hread, rfl, rfl, rfl, hserved⟩,
            .inr ⟨w, hphase, hmem, hbound, rfl, rfl, rfl, hnodup, hiff⟩⟩
    · rename_i hge
      left
      exact ⟨by omega, rfl⟩

omit [DecidableEq T] in
/-- The reads that stay are those of later announcements. -/
theorem Served.reads {m : Nat} {row row' : RowTs T D} (h : Served S row row' m) :
    ∀ t ∈ row'.readreq, row'.minPts < S.ts t := by
  intro t ht
  rw [h.readreq_eq] at ht
  rw [h.minPts_eq]
  exact (mem_remaining.mp ht).2

omit [DecidableEq T] in
theorem Served.still_read {m : Nat} {row' : RowTs T D} (hserved : Served S s.row row' m)
    (h : Sound S s) : ∀ t, row'.tsReady t = false → t ∈ row'.readreq := by
  intro t ht
  obtain ⟨hbefore, hnot⟩ := hserved.ready t ht
  have hmem := h.ready t hbefore
  rw [hserved.readreq_eq]
  exact mem_remaining.mpr ⟨hmem, Nat.lt_of_not_le fun hle => hnot ⟨hmem, hle⟩⟩

omit [DecidableEq T] in
/-- The announcements that a round leaves are those whose writes it has not taken. -/
theorem Sound.wrote (h : Sound S s) {m : Nat} (hm : m = calMin (s.row.prereq.map S.ts))
    {row' : RowTs T D} {w : T × D} (hserved : Served S s.row row' m)
    (hwrote : Wrote S s.row row' w) : Sound S ⟨row', s.pre⟩ where
  running := by
    rw [hwrote.phase_eq]
    nofun
  minPts_le := by
    intro t ht
    rw [hserved.minPts_eq, hm]
    exact calMin_le (List.mem_map_of_mem ((hwrote.prereq_iff t).mp ht).1)
  minPts_max := by
    rw [hserved.minPts_eq, hm]
    exact calMin_le_max _
  minPts_eq := by
    rw [hwrote.phase_eq]
    nofun
  minRts_eq := hserved.minRts_eq
  reads := hserved.reads
  ready := hserved.still_read h
  nodup := hwrote.nodup
  writes_nodup := by
    rw [hwrote.writereq_eq]
    exact h.writes_nodup.sublist (List.filter_sublist.map _)
  buffered := by
    intro w' hw'
    rw [hwrote.writereq_eq] at hw'
    obtain ⟨hmem, hlater⟩ := mem_remaining.mp hw'
    obtain ⟨hpre, hwritten⟩ := h.buffered w' hmem
    refine ⟨(hwrote.prereq_iff w'.1).mpr ⟨hpre, fun w₁ _ hle heq => ?_⟩, hwritten⟩
    rw [heq] at hle
    omega
  announced := by
    intro t ht
    obtain ⟨hmem, hnone⟩ := (hwrote.prereq_iff t).mp ht
    rcases h.announced t hmem with hpre | ⟨row, hbuffered⟩
    · exact .inl hpre
    · refine .inr ⟨row, ?_⟩
      rw [hwrote.writereq_eq]
      refine mem_remaining.mpr ⟨hbuffered, Nat.lt_of_not_le fun hle => ?_⟩
      exact hnone _ hbuffered hle rfl
  accepted := by
    intro t ht
    refine (hwrote.prereq_iff t).mpr ⟨h.accepted t ht, fun w₁ hw₁ _ => ?_⟩
    exact h.not_buffered ht w₁ hw₁

omit [DecidableEq T] in
theorem Sound.noWrite (h : Sound S s) {m : Nat} (hm : m = calMin (s.row.prereq.map S.ts))
    {row' : RowTs T D} (hserved : Served S s.row row' m) (hno : NoWrite S s.row row') :
    Sound S ⟨row', s.pre⟩ where
  running := by
    rw [hno.phase_eq]
    nofun
  minPts_le := by
    intro t ht
    rw [hno.prereq_eq] at ht
    rw [hserved.minPts_eq, hm]
    exact calMin_le (List.mem_map_of_mem ht)
  minPts_max := by
    rw [hserved.minPts_eq, hm]
    exact calMin_le_max _
  minPts_eq := by
    intro _
    rw [hserved.minPts_eq, hno.prereq_eq, hm]
  minRts_eq := hserved.minRts_eq
  reads := hserved.reads
  ready := hserved.still_read h
  nodup := by
    rw [hno.prereq_eq]
    exact h.nodup
  writes_nodup := by
    rw [hno.writereq_eq]
    exact h.writes_nodup
  buffered := by
    rw [hno.writereq_eq, hno.prereq_eq]
    exact h.buffered
  announced := by
    rw [hno.writereq_eq, hno.prereq_eq]
    exact h.announced
  accepted := by
    rw [hno.prereq_eq]
    exact h.accepted

theorem Sound.round (h : Sound S s) (hphase : s.row.phase = .updating) :
    Sound S ⟨s.row.round S, s.pre⟩ := by
  obtain ⟨m, hm⟩ : ∃ m, m = calMin (s.row.prereq.map S.ts) := ⟨_, rfl⟩
  rcases round_cases h hphase hm with ⟨heq, hround⟩ | ⟨-, hnone, hround⟩ |
    ⟨-, hserved, hno | ⟨w, hwrote⟩⟩
  · rw [hround]
    exact ⟨nofun, h.minPts_le, h.minPts_max, fun _ => heq.symm.trans hm, h.minRts_eq, h.reads,
      h.ready, h.nodup, h.writes_nodup, h.buffered, h.announced, h.accepted⟩
  · rw [hround]
    refine ⟨nofun, fun t ht => ?_, ?_, fun _ => hm, h.minRts_eq, hnone, h.ready, h.nodup,
      h.writes_nodup, h.buffered, h.announced, h.accepted⟩
    · dsimp only
      rw [hm]
      exact calMin_le (List.mem_map_of_mem ht)
    · dsimp only
      rw [hm]
      exact calMin_le_max _
  · exact h.noWrite hm hserved hno
  · exact h.wrote hm hserved hwrote

theorem Sound.step {a : Action T D} (h : Sound S s) (hstep : s.step S a = some s') :
    Sound S s' := by
  cases a with
  | request t req => exact h.request hstep
  | round =>
      simp only [Sys.step] at hstep
      split at hstep
      · rename_i hphase
        cases hstep
        exact h.round hphase
      · cases hstep

/-- `update_buffer` returns: every round but the last one takes a write. -/
theorem Sound.returns (h : Sound S s) (hphase : s.row.phase = .updating) :
    ∃ n s', runs (Sys.step S) s (List.replicate n .round) = some s' ∧ s'.row.phase = .idle := by
  induction hn : s.row.writereq.length using Nat.strong_induction_on generalizing s with
  | _ n ih =>
      have hstep : s.step S .round = some ⟨s.row.round S, s.pre⟩ := if_pos hphase
      have hsound := h.round hphase
      obtain ⟨m, hm⟩ : ∃ m, m = calMin (s.row.prereq.map S.ts) := ⟨_, rfl⟩
      by_cases hidle : (s.row.round S).phase = .idle
      · exact ⟨1, _, runs_cons_eq_some.mpr ⟨_, hstep, rfl⟩, hidle⟩
      · obtain ⟨w, hwrote⟩ : ∃ w, Wrote S s.row (s.row.round S) w := by
          rcases round_cases h hphase hm with ⟨-, hround⟩ | ⟨-, -, hround⟩ | ⟨-, -, hno | hwrote⟩
          · exact absurd (by rw [hround]) hidle
          · exact absurd (by rw [hround]) hidle
          · exact absurd hno.phase_eq hidle
          · exact hwrote
        have hshort : (s.row.round S).writereq.length < n := by
          rw [hwrote.writereq_eq, ← hn, remaining]
          refine List.length_filter_lt_length_iff_exists.mpr ⟨w, hwrote.mem, ?_⟩
          simpa using hwrote.le
        obtain ⟨k, s', hrun, hdone⟩ := ih _ hshort hsound hwrote.phase_eq rfl
        exact ⟨k + 1, s', runs_cons_eq_some.mpr ⟨_, hstep, hrun⟩, hdone⟩

/-! ### Rounds that lose no write -/

/-- When a round moves `min_pts` to `m`: if the write of `m` is buffered, a read up to `m` waits; and
    if one does, another read waits between `m` and every other buffered write. -/
def RoundOk (S : Stamps T) (s : Sys T D) : Action T D → Prop
  | .request _ _ => True
  | .round =>
      let m := calMin (s.row.prereq.map S.ts)
      s.row.minPts < m →
        ((∃ w ∈ s.row.writereq, S.ts w.1 = m) → ∃ t ∈ s.row.readreq, S.ts t ≤ m) ∧
        ((∃ t ∈ s.row.readreq, S.ts t ≤ m) → ∀ w ∈ s.row.writereq, S.ts w.1 ≠ m →
          ∃ t ∈ s.row.readreq, m < S.ts t ∧ S.ts t < S.ts w.1)

instance (S : Stamps T) (s : Sys T D) (a : Action T D) : Decidable (RoundOk S s a) :=
  match a with
  | .request _ _ => .isTrue trivial
  | .round => inferInstanceAs (Decidable (_ → _ ∧ _))

/-- Buffered writes wait for a smaller announcement; the others have been applied in order. -/
structure Inv (S : Stamps T) (row₀ : D) (s : Sys T D) : Prop where
  sound : Sound S s
  writes : ∀ w ∈ s.row.writereq, s.row.minPts < S.ts w.1
  wts_le : ∀ t ∈ s.row.prereq, s.row.wts ≤ S.ts t
  applied : ∀ t row, s.pre t = .written row → (t, row) ∉ s.row.writereq → S.ts t ≤ s.row.wts
  value : (s.row.row = row₀ ∧ ∀ t row, s.pre t = .written row → (t, row) ∈ s.row.writereq) ∨
    ∃ t, s.pre t = .written s.row.row ∧ (t, s.row.row) ∉ s.row.writereq ∧ S.ts t = s.row.wts

omit [DecidableEq T] in
theorem Inv.init (S : Stamps T) (row : D) (curRow : T → D) : Inv S row (Sys.init row curRow) where
  sound := Sound.init S row curRow
  writes := nofun
  wts_le := nofun
  applied := nofun
  value := .inl ⟨rfl, nofun⟩

variable {row₀ : D}

/-- The announcement of a transaction changes, and its write was not buffered. -/
theorem Inv.announce (h : Inv S row₀ s) (hbefore : ∀ row, s.pre t ≠ .written row) (pre : Pre D)
    (hafter : ∀ row, pre ≠ .written row) :
    (∀ u row, Function.update s.pre t pre u = .written row → (u, row) ∉ s.row.writereq →
      S.ts u ≤ s.row.wts) ∧
    ((s.row.row = row₀ ∧ ∀ u row, Function.update s.pre t pre u = .written row →
      (u, row) ∈ s.row.writereq) ∨
    ∃ u, Function.update s.pre t pre u = .written s.row.row ∧
      (u, s.row.row) ∉ s.row.writereq ∧ S.ts u = s.row.wts) := by
  have hsame : ∀ {u row}, Function.update s.pre t pre u = .written row →
      s.pre u = .written row := by
    intro u row hu
    by_cases hut : u = t
    · rw [hut, Function.update_self] at hu
      exact absurd hu (hafter row)
    · rwa [Function.update_of_ne hut] at hu
  refine ⟨fun u row hu => h.applied u row (hsame hu), ?_⟩
  rcases h.value with ⟨hrow, hall⟩ | ⟨u, hu, hrest⟩
  · exact .inl ⟨hrow, fun u row hu => hall u row (hsame hu)⟩
  · refine .inr ⟨u, ?_, hrest⟩
    have hut : u ≠ t := by
      rintro rfl
      exact hbefore _ hu
    rwa [Function.update_of_ne hut]

omit [DecidableEq T] in
/-- A write whose turn it is not waits for a smaller announcement. -/
theorem Inv.minPts_lt (h : Inv S row₀ s) (haccepted : s.pre t = .accepted)
    (hlt : s.row.minPts < S.ts t ∨ s.row.minRts < S.ts t) : s.row.minPts < S.ts t := by
  have hle := h.sound.minPts_le t (h.sound.accepted t haccepted)
  rcases hlt with hlt | hlt
  · exact hlt
  · have hmax := S.lt_max t
    have hreads : s.row.minPts < s.row.minRts ∨ s.row.minPts = uint64Max := by
      rcases Nat.lt_or_ge s.row.minPts uint64Max with hmin | hmin
      · left
        rw [h.sound.minRts_eq]
        refine le_calMin hmin fun ts hts => ?_
        obtain ⟨u, hu, rfl⟩ := List.mem_map.mp hts
        exact h.sound.reads u hu
      · exact .inr (Nat.le_antisymm h.sound.minPts_max hmin)
    omega

theorem Inv.bufferW (h : Inv S row₀ s) (haccepted : s.pre t = .accepted) (row : D)
    (hlt : s.row.minPts < S.ts t) :
    Inv S row₀ ⟨s.row.bufferW t row, Function.update s.pre t (.written row)⟩ where
  sound := h.sound.bufferW haccepted row
  writes := by
    intro w hw
    rcases List.mem_cons.mp hw with rfl | hw
    · exact hlt
    · exact h.writes w hw
  wts_le := h.wts_le
  applied := by
    intro u row' hu hnot
    dsimp only at hu
    by_cases hut : u = t
    · rw [hut, Function.update_self] at hu
      cases hu
      exact absurd (hut ▸ List.mem_cons_self ..) hnot
    · rw [Function.update_of_ne hut] at hu
      exact h.applied u row' hu fun hmem => hnot (List.mem_cons_of_mem _ hmem)
  value := by
    rcases h.value with ⟨hrow, hall⟩ | ⟨u, hu, hnot, hts⟩
    · refine .inl ⟨hrow, fun u row' hu => ?_⟩
      dsimp only at hu
      by_cases hut : u = t
      · rw [hut, Function.update_self] at hu
        cases hu
        exact hut ▸ List.mem_cons_self ..
      · rw [Function.update_of_ne hut] at hu
        exact List.mem_cons_of_mem _ (hall u row' hu)
    · have hut : u ≠ t := by
        rintro rfl
        rw [haccepted] at hu
        cases hu
      refine .inr ⟨u, ?_, ?_, hts⟩
      · dsimp only
        rw [Function.update_of_ne hut]
        exact hu
      · intro hmem
        rcases List.mem_cons.mp hmem with heq | hmem
        · exact hut (congrArg Prod.fst heq)
        · exact hnot hmem

/-- The write of the first announcement is performed at once. -/
theorem Inv.write (h : Inv S row₀ s) (haccepted : s.pre t = .accepted) (row : D)
    (hle : S.ts t ≤ s.row.minPts) :
    Inv S row₀ ⟨{ s.row with
      row := row
      wts := if s.row.wts < S.ts t then S.ts t else s.row.wts
      prereq := s.row.prereq.erase t
      phase := .updating }, Function.update s.pre t (.written row)⟩ := by
  have hmem := h.sound.accepted t haccepted
  have hwts := h.wts_le t hmem
  have hnew : (if s.row.wts < S.ts t then S.ts t else s.row.wts) = S.ts t := by
    split <;> omega
  rw [hnew]
  refine ⟨h.sound.answer haccepted (.written row) nofun row _, h.writes, fun u hu => ?_,
    fun u row' hu hnot => ?_, .inr ⟨t, Function.update_self .., ?_, rfl⟩⟩
  · exact hle.trans (h.sound.minPts_le u (List.mem_of_mem_erase hu))
  · dsimp only at hu ⊢
    by_cases hut : u = t
    · exact (congrArg S.ts hut).le
    · rw [Function.update_of_ne hut] at hu
      exact (h.applied u row' hu hnot).trans hwts
  · exact fun hin => h.sound.not_buffered haccepted _ hin rfl

theorem Inv.request (h : Inv S row₀ s) {req : Request D}
    (hstep : s.step S (.request t req) = some s') : Inv S row₀ s' := by
  have hsound := h.sound.request hstep
  obtain ⟨hidle, hcases⟩ := request_cases h.sound hstep
  rcases hcases with ⟨curRow, rts, rfl⟩ | ⟨hlt, rfl⟩ | ⟨hfresh, hwts, rfl⟩ |
    ⟨row, haccepted, hlt, rfl⟩ | ⟨row, haccepted, hle, rfl⟩ | ⟨haccepted, rfl⟩
  · exact ⟨hsound, h.writes, h.wts_le, h.applied, h.value⟩
  · exact ⟨hsound, h.writes, h.wts_le, h.applied, h.value⟩
  · obtain ⟨happlied, hvalue⟩ := h.announce (t := t) (by simp [hfresh]) .accepted nofun
    refine ⟨hsound, fun w hw => ?_, fun u hu => ?_, happlied, hvalue⟩
    · have := h.writes w hw
      dsimp only [RowTs.bufferP]
      split <;> omega
    · rcases List.mem_cons.mp hu with rfl | hu
      · exact hwts
      · exact h.wts_le u hu
  · exact h.bufferW haccepted row (h.minPts_lt haccepted hlt)
  · exact h.write haccepted row hle
  · obtain ⟨happlied, hvalue⟩ :=
      h.announce (t := t) (by simp [haccepted]) .cancelled nofun
    exact ⟨hsound, h.writes, fun u hu => h.wts_le u (List.mem_of_mem_erase hu), happlied, hvalue⟩

omit [DecidableEq T] in
/-- Under the condition, the only write that a round takes is the one of the first announcement. -/
theorem taken_eq (hok : RoundOk S s .round) {m : Nat} (hm : m = calMin (s.row.prereq.map S.ts))
    (hlt : s.row.minPts < m) {row' : RowTs T D} (hserved : Served S s.row row' m) {w : T × D}
    (hw : w ∈ s.row.writereq) (hle : S.ts w.1 ≤ row'.minRts) : S.ts w.1 = m := by
  subst hm
  by_contra hne
  obtain ⟨t, ht, hlow, hhigh⟩ := (hok hlt).2 hserved.some_read w hw hne
  have hnext : row'.minRts ≤ S.ts t := by
    rw [hserved.minRts_eq, hserved.readreq_eq]
    exact calMin_le (List.mem_map_of_mem (mem_remaining.mpr ⟨ht, hlow⟩))
  omega

theorem Inv.wrote (h : Inv S row₀ s) (hok : RoundOk S s .round) {m : Nat}
    (hm : m = calMin (s.row.prereq.map S.ts)) (hlt : s.row.minPts < m) {row' : RowTs T D}
    {w : T × D} (hserved : Served S s.row row' m) (hwrote : Wrote S s.row row' w) :
    Inv S row₀ ⟨row', s.pre⟩ := by
  have hts : S.ts w.1 = m := taken_eq hok hm hlt hserved hwrote.mem hwrote.le
  obtain ⟨hpre, hwritten⟩ := h.sound.buffered w hwrote.mem
  have hwts : row'.wts = m := by
    have := h.wts_le w.1 hpre
    rw [hwrote.wts_eq]
    split <;> omega
  refine ⟨h.sound.wrote hm hserved hwrote, fun w' hw' => ?_, fun t ht => ?_,
    fun t row ht hnot => ?_, .inr ⟨w.1, ?_, ?_, hts.trans hwts.symm⟩⟩
  · rw [hwrote.writereq_eq] at hw'
    rw [hserved.minPts_eq, ← hts]
    exact hwrote.le.trans_lt (mem_remaining.mp hw').2
  · rw [hwts, hm]
    exact calMin_le (List.mem_map_of_mem ((hwrote.prereq_iff t).mp ht).1)
  · rw [hwts]
    by_cases hmem : (t, row) ∈ s.row.writereq
    · refine (taken_eq hok hm hlt hserved hmem ?_).le
      rw [hwrote.writereq_eq] at hnot
      exact Nat.le_of_not_lt fun hlater => hnot (mem_remaining.mpr ⟨hmem, hlater⟩)
    · have hold := h.applied t row ht hmem
      have := h.wts_le w.1 hpre
      omega
  · dsimp only
    rw [hwrote.row_eq]
    exact hwritten
  · dsimp only
    rw [hwrote.writereq_eq]
    intro hmem
    have hlater : row'.minRts < S.ts w.1 := (mem_remaining.mp hmem).2
    have hle := hwrote.le
    omega

theorem Inv.round (h : Inv S row₀ s) (hok : RoundOk S s .round)
    (hphase : s.row.phase = .updating) : Inv S row₀ ⟨s.row.round S, s.pre⟩ := by
  have hsound := h.sound.round hphase
  obtain ⟨m, hm⟩ : ∃ m, m = calMin (s.row.prereq.map S.ts) := ⟨_, rfl⟩
  have hfirst : ∀ w ∈ s.row.writereq, m ≤ S.ts w.1 := by
    intro w hw
    rw [hm]
    exact calMin_le (List.mem_map_of_mem (h.sound.buffered w hw).1)
  rcases round_cases h.sound hphase hm with ⟨-, hround⟩ | ⟨hlt, hnone, hround⟩ |
    ⟨hlt, hserved, hno | ⟨w, hwrote⟩⟩
  · rw [hround] at hsound ⊢
    exact ⟨hsound, h.writes, h.wts_le, h.applied, h.value⟩
  · rw [hround] at hsound ⊢
    refine ⟨hsound, fun w hw => ?_, h.wts_le, h.applied, h.value⟩
    refine lt_of_le_of_ne (hfirst w hw) fun heq => ?_
    obtain ⟨t, ht, hle⟩ := (hok (hm ▸ hlt)).1 ⟨w, hw, hm ▸ heq.symm⟩
    have := hnone t ht
    omega
  · obtain ⟨-, hrow, hwts, hpre, hwrites, hlater⟩ := hno
    refine ⟨hsound, ?_, ?_, ?_, ?_⟩
    · dsimp only
      rw [hwrites, hserved.minPts_eq]
      intro w hw
      have hnext : m < (s.row.round S).minRts := by
        rw [hserved.minRts_eq, hserved.readreq_eq]
        refine le_calMin ((hfirst w hw).trans_lt (S.lt_max w.1)) fun ts hts => ?_
        obtain ⟨t, ht, rfl⟩ := List.mem_map.mp hts
        exact (mem_remaining.mp ht).2
      exact hnext.trans (hlater w hw)
    · dsimp only
      rw [hpre, hwts]
      exact h.wts_le
    · dsimp only
      rw [hwrites, hwts]
      exact h.applied
    · dsimp only
      rw [hwrites, hwts, hrow]
      exact h.value
  · exact h.wrote hok hm hlt hserved hwrote

theorem Inv.step {a : Action T D} (h : Inv S row₀ s) (hok : RoundOk S s a)
    (hstep : s.step S a = some s') : Inv S row₀ s' := by
  cases a with
  | request t req => exact h.request hstep
  | round =>
      simp only [Sys.step] at hstep
      split at hstep
      · rename_i hphase
        cases hstep
        exact h.round hok hphase
      · cases hstep

/-- Every announcement has been answered: nothing is left in the queues, and the row is that of the
    last write. -/
structure Settled (S : Stamps T) (row₀ : D) (s : Sys T D) : Prop where
  prereq : s.row.prereq = []
  writereq : s.row.writereq = []
  readreq : s.row.readreq = []
  ready : ∀ t, s.row.tsReady t = true
  last : ∀ t row, s.pre t = .written row →
    (∀ u row', s.pre u = .written row' → S.ts u ≤ S.ts t) → s.row.row = row ∧ s.row.wts = S.ts t
  untouched : (∀ t row, s.pre t ≠ .written row) → s.row.row = row₀

omit [DecidableEq T] in
theorem Inv.settled (h : Inv S row₀ s) (hidle : s.row.phase = .idle)
    (hanswered : ∀ t, s.pre t ≠ .accepted) : Settled S row₀ s := by
  have hmin := h.sound.minPts_eq hidle
  -- the first announcement has no buffered write, so there is none
  have hpre : s.row.prereq = [] := by
    by_contra hne
    obtain ⟨t, ht⟩ := List.exists_mem_of_ne_nil _ hne
    have hlt : s.row.minPts < uint64Max := (h.sound.minPts_le t ht).trans_lt (S.lt_max t)
    obtain ⟨u, hu, hts⟩ := List.mem_map.mp (calMin_mem (hmin ▸ hlt))
    rcases h.sound.announced u hu with haccepted | ⟨row, hbuffered⟩
    · exact hanswered u haccepted
    · have hlater : s.row.minPts < S.ts u := h.writes _ hbuffered
      omega
  have hwrites : s.row.writereq = [] := by
    rw [List.eq_nil_iff_forall_not_mem]
    intro w hw
    have hmem := (h.sound.buffered w hw).1
    rw [hpre] at hmem
    exact List.not_mem_nil hmem
  have hreads : s.row.readreq = [] := by
    rw [List.eq_nil_iff_forall_not_mem]
    intro t ht
    have hlt := h.sound.reads t ht
    have hmax := S.lt_max t
    rw [hmin, hpre] at hlt
    have hnone : calMin (([] : List T).map S.ts) = uint64Max := rfl
    omega
  refine ⟨hpre, hwrites, hreads, fun t => ?_, fun t row ht hlargest => ?_, fun hnone => ?_⟩
  · cases hready : s.row.tsReady t with
    | true => rfl
    | false =>
        have hmem := h.sound.ready t hready
        rw [hreads] at hmem
        exact (List.not_mem_nil hmem).elim
  · have hmem : ∀ u row', (u, row') ∉ s.row.writereq := by
      intro u row'
      rw [hwrites]
      exact List.not_mem_nil
    rcases h.value with ⟨-, hall⟩ | ⟨u, hu, -, hts⟩
    · exact absurd (hall t row ht) (hmem t row)
    · have hle := h.applied t row ht (hmem t row)
      have hge := hlargest u _ hu
      have hut : u = t := S.distinct (by omega)
      rw [hut, ht] at hu
      cases hu
      exact ⟨rfl, by omega⟩
  · rcases h.value with ⟨hrow, -⟩ | ⟨u, hu, -, -⟩
    · exact hrow
    · exact absurd hu (hnone u _)

/-- In every run no assertion fails and every call returns.  If all its rounds meet the condition,
    then, once every announcement has been answered, all writes have been applied in order and all
    reads have been served. -/
theorem timestamp_order_of_roundOk (S : Stamps T) (row : D) (curRow : T → D)
    {as : List (Action T D)} (hrun : runs (Sys.step S) (Sys.init row curRow) as = some s) :
    s.row.phase ≠ .failed ∧
    (s.row.phase = .updating →
      ∃ n s', runs (Sys.step S) s (List.replicate n .round) = some s' ∧ s'.row.phase = .idle) ∧
    (AllSteps (Sys.step S) (RoundOk S) (Sys.init row curRow) as → s.row.phase = .idle →
      (∀ t, s.pre t ≠ .accepted) → Settled S row s) := by
  have hsound : Sound S s := runs_invariant (C := fun _ _ => True)
    (fun _ _ _ h _ hstep => h.step hstep) (Sound.init S row curRow)
    (allSteps_of_forall (fun _ _ _ => trivial) _) hrun
  refine ⟨hsound.running, hsound.returns, fun hmeet => ?_⟩
  have hinv : Inv S row s := runs_invariant (fun _ _ _ h hc hstep => h.step hc hstep)
    (Inv.init S row curRow) hmeet hrun
  exact hinv.settled

/-- Three transactions with the timestamps 1, 2 and 3. -/
def threeStamps : Stamps (Fin 3) where
  ts := fun t => t.val + 1
  distinct := fun t u h => Fin.ext (Nat.succ.inj h)
  lt_max := by decide

/-- The first and the last transaction write, the second one reads in between; the last write comes
    first and waits for the read. -/
theorem timestamp_order_of_roundOk_read_between :
    ∃ s : Sys (Fin 3) Nat,
      runs (Sys.step threeStamps) (Sys.init 0 fun _ => 0)
        [.request 0 .pReq, .request 2 .pReq, .request 1 .rReq, .request 2 (.wReq 30),
          .request 0 (.wReq 10), .round, .round] = some s ∧
      s.row.row = 30 ∧ s.row.curRow 1 = 10 ∧ Settled threeStamps 0 s := by
  have hsome : ((runs (Sys.step threeStamps) (Sys.init 0 fun _ => 0)
      [.request 0 .pReq, .request 2 .pReq, .request 1 .rReq, .request 2 (.wReq 30),
        .request 0 (.wReq 10), .round, .round]).map fun s => (s.row.phase, s.row.row,
          s.row.curRow 1, (List.finRange 3).all fun t => !(s.pre t).isAccepted)) =
      some (.idle, 30, 10, true) := by
    decide
  obtain ⟨s, hrun, hs⟩ := Option.map_eq_some_iff.mp hsome
  simp only [Prod.mk.injEq, List.all_eq_true] at hs
  obtain ⟨hphase, hrow, hcur, hanswered⟩ := hs
  refine ⟨s, hrun, hrow, hcur, (timestamp_order_of_roundOk threeStamps 0 _ hrun).2.2 ?_ hphase ?_⟩
  · decide
  · intro t haccepted
    have := hanswered t (List.mem_finRange t)
    rw [haccepted] at this
    cases this

/-- Two writes are announced; the second one is buffered, the first one performed: the second one
    stays in its queue for good. -/
theorem buffered_write_lost :
    ¬ ∀ (as : List (Action (Fin 3) Nat)) (s : Sys (Fin 3) Nat),
      runs (Sys.step threeStamps) (Sys.init 0 fun _ => 0) as = some s →
      s.row.phase = .idle → (∀ t, s.pre t ≠ .accepted) → Settled threeStamps 0 s := by
  intro h
  have hsome : ((runs (Sys.step threeStamps) (Sys.init 0 fun _ => 0)
      [.request 0 .pReq, .request 1 .pReq, .request 1 (.wReq 20), .request 0 (.wReq 10),
        .round]).map fun s => (s.row.phase, s.row.prereq,
          (List.finRange 3).all fun t => !(s.pre t).isAccepted)) = some (.idle, [1], true) := by
    decide
  obtain ⟨s, hrun, hs⟩ := Option.map_eq_some_iff.mp hsome
  simp only [Prod.mk.injEq, List.all_eq_true] at hs
  obtain ⟨hphase, hprereq, hanswered⟩ := hs
  have hsettled := h _ s hrun hphase fun t haccepted => by
    have := hanswered t (List.mem_finRange t)
    rw [haccepted] at this
    cases this
  have := hsettled.prereq
  rw [hprereq] at this
  cases this

end VeriTxn.Timestamp
