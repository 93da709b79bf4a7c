import VeriTxn.RowMvcc

/-!
# The version history of a row

The entries of the history and `_row` hold, between them, every version from `_oldest_wts` on, each
in a row of its own.  `reserveRow` keeps it so: garbage collection and the reuse of the oldest
version both make one entry the new base and drop what is older.
-/

namespace VeriTxn.Mvcc

open Timestamp

/-! ### The loops over the history -/

/-- What a loop that keeps the best candidate has after the entries `es`. -/
def Best (cand : WriteHisEntry → Bool) (better : Nat → Nat → Bool) (start : Nat)
    (es : List WriteHisEntry) (best : Nat × Option Nat) : Prop :=
  (best = (start, none) ∧ ∀ e ∈ es, cand e = true → better e.ts start = false) ∨
  ∃ i e, es[i]? = some e ∧ best = (e.ts, some i) ∧ cand e = true ∧ better e.ts start = true ∧
    ∀ e' ∈ es, cand e' = true → better e'.ts e.ts = false

section Scan

variable {cand : WriteHisEntry → Bool} {better : Nat → Nat → Bool} {cast : Nat → Nat} {start : Nat}

theorem Best.snoc (hirrefl : ∀ a, better a a = false)
    (htrans : ∀ a b c, better a b = true → better b c = true → better a c = true)
    {es : List WriteHisEntry} {best : Nat × Option Nat} (h : Best cand better start es best)
    (e : WriteHisEntry) :
    Best cand better start (es ++ [e])
      (if cand e && better e.ts best.1 then (e.ts, some es.length) else best) := by
  have hstart : better e.ts best.1 = true → better e.ts start = true := by
    intro hlt
    rcases h with ⟨rfl, -⟩ | ⟨i, e₀, -, rfl, -, h₀, -⟩
    · exact hlt
    · exact htrans _ _ _ hlt h₀
  have hbest : ∀ e' ∈ es, cand e' = true → better e'.ts best.1 = false := by
    rcases h with ⟨rfl, h⟩ | ⟨i, e₀, -, rfl, -, -, h⟩ <;> exact h
  split
  · rename_i hnew
    obtain ⟨hcand, hlt⟩ := (Bool.and_eq_true _ _).mp hnew
    refine .inr ⟨es.length, e, by simp, rfl, hcand, hstart hlt, fun e' he' hcand' => ?_⟩
    rcases List.mem_append.mp he' with hold | hlast
    · by_contra hne
      have hbetter := htrans _ _ _ (Bool.of_not_eq_false hne) hlt
      rw [hbest e' hold hcand'] at hbetter
      cases hbetter
    · cases List.mem_singleton.mp hlast
      exact hirrefl _
  · rename_i hold
    have hlast : cand e = true → better e.ts best.1 = false := by
      intro hcand
      rw [hcand, Bool.true_and] at hold
      exact Bool.of_not_eq_true hold
    rcases h with ⟨rfl, h⟩ | ⟨i, e₀, hget, rfl, hcand, h₀, h⟩
    · refine .inl ⟨rfl, fun e' he' hcand' => ?_⟩
      rcases List.mem_append.mp he' with hmem | hmem
      · exact h e' hmem hcand'
      · cases List.mem_singleton.mp hmem
        exact hlast hcand'
    · refine .inr ⟨i, e₀, ?_, rfl, hcand, h₀, fun e' he' hcand' => ?_⟩
      · rw [List.getElem?_append_left (List.getElem?_eq_some_iff.mp hget).1]
        exact hget
      · rcases List.mem_append.mp he' with hmem | hmem
        · exact h e' hmem hcand'
        · cases List.mem_singleton.mp hmem
          exact hlast hcand'

theorem scan_best (hirrefl : ∀ a, better a a = false)
    (htrans : ∀ a b c, better a b = true → better b c = true → better a c = true)
    {seen es : List WriteHisEntry} {best : Nat × Option Nat}
    (hcast : ∀ e ∈ es, cand e = true → cast e.ts = e.ts) (h : Best cand better start seen best) :
    Best cand better start (seen ++ es) (scan cand better cast seen.length best es) := by
  induction es generalizing seen best with
  | nil =>
      rw [List.append_nil]
      exact h
  | cons e es ih =>
      have hnext := ih (fun e' he' => hcast e' (List.mem_cons_of_mem _ he'))
        (h.snoc hirrefl htrans e)
      rw [List.append_assoc, List.singleton_append, List.length_append, List.length_singleton]
        at hnext
      rw [scan]
      by_cases hnew : (cand e && better e.ts best.1) = true
      · rw [if_pos hnew] at hnext ⊢
        rw [hcast e (List.mem_cons_self ..) ((Bool.and_eq_true _ _).mp hnew).1]
        exact hnext
      · rw [if_neg hnew] at hnext ⊢
        exact hnext

end Scan

theorem newestBelow_cases (cast : Nat → Nat) (bound : Nat) (es : List WriteHisEntry)
    (hcast : ∀ e ∈ es, e.valid = true → cast e.ts = e.ts) :
    (newestBelow cast bound es = (0, none) ∧
      ∀ e ∈ es, e.valid = true → e.ts < bound → e.ts = 0) ∨
    ∃ i e, es[i]? = some e ∧ newestBelow cast bound es = (e.ts, some i) ∧ e.valid = true ∧
      e.ts < bound ∧ ∀ e' ∈ es, e'.valid = true → e'.ts < bound → e'.ts ≤ e.ts := by
  have hbest : Best (fun e => e.valid && decide (e.ts < bound)) (fun ts best => decide (best < ts))
      0 ([] ++ es) (newestBelow cast bound es) :=
    scan_best (fun a => by simp) (fun a b c hab hbc => by simp at *; omega)
      (fun e he hcand => hcast e he ((Bool.and_eq_true _ _).mp hcand).1) (.inl ⟨rfl, nofun⟩)
  rw [List.nil_append] at hbest
  rcases hbest with ⟨heq, hall⟩ | ⟨i, e, hget, heq, hcand, -, hall⟩
  · refine .inl ⟨heq, fun e he hvalid hlt => ?_⟩
    have := hall e he (by simp [hvalid, hlt])
    simpa using this
  · obtain ⟨hvalid, hlt⟩ := (Bool.and_eq_true _ _).mp hcand
    refine .inr ⟨i, e, hget, heq, hvalid, of_decide_eq_true hlt, fun e' he' hvalid' hlt' => ?_⟩
    have := hall e' he' (by simp [hvalid', hlt'])
    simpa using this

theorem oldestEntry_cases {es : List WriteHisEntry}
    (hsome : ∃ e ∈ es, e.valid = true ∧ e.ts < uint64Max) :
    ∃ i e, es[i]? = some e ∧ oldestEntry es = (e.ts, some i) ∧ e.valid = true ∧
      ∀ e' ∈ es, e'.valid = true → e.ts ≤ e'.ts := by
  have hbest : Best (fun e => e.valid) (fun ts best => decide (ts < best)) uint64Max ([] ++ es)
      (oldestEntry es) :=
    scan_best (fun a => by simp) (fun a b c hab hbc => by simp at *; omega) (fun _ _ _ => rfl)
      (.inl ⟨rfl, nofun⟩)
  rw [List.nil_append] at hbest
  rcases hbest with ⟨-, hall⟩ | ⟨i, e, hget, heq, hvalid, -, hall⟩
  · obtain ⟨e, he, hvalid, hlt⟩ := hsome
    have := hall e he hvalid
    simp only [decide_eq_false_iff_not] at this
    exact absurd hlt this
  · refine ⟨i, e, hget, heq, hvalid, fun e' he' hvalid' => ?_⟩
    have := hall e' he' hvalid'
    simpa using this

/-- The search for an unused entry finds one when there is one. -/
theorem unusedEntry_spec {es : List WriteHisEntry} (seen : List WriteHisEntry) (idx : Nat)
    (h : (∃ e ∈ es, e.valid = false ∧ e.reserved = false) ∨
      ∃ e, (seen ++ es)[idx]? = some e ∧ e.valid = false ∧ e.reserved = false) :
    ∃ e, (seen ++ es)[unusedEntry seen.length idx es]? = some e ∧ e.valid = false ∧
      e.reserved = false := by
  induction es generalizing seen idx with
  | nil => exact h.resolve_left fun ⟨_, he, _⟩ => List.not_mem_nil he
  | cons e es ih =>
      have happ : seen ++ e :: es = (seen ++ [e]) ++ es := by simp
      have hat : ((seen ++ [e]) ++ es)[seen.length]? = some e := by simp
      have hlen : seen.length + 1 = (seen ++ [e]).length := by simp
      rw [unusedEntry, hlen]
      rw [happ] at h ⊢
      split
      · rename_i hfree
        simp only [Bool.and_eq_true, Bool.not_eq_true'] at hfree
        exact ⟨e, hat, hfree.1⟩
      · split
        · rename_i hfree
          simp only [Bool.and_eq_true, Bool.not_eq_true'] at hfree
          exact ih _ _ (.inr ⟨e, hat, hfree⟩)
        · rename_i hused
          refine ih _ _ (h.imp_left ?_)
          rintro ⟨e', he', hfree⟩
          rcases List.mem_cons.mp he' with rfl | hmem
          · simp [hfree] at hused
          · exact ⟨e', hmem, hfree⟩

/-! ### Dropping the entries up to a timestamp -/

section Drop

variable {m : Nat} {e : WriteHisEntry}

@[simp] theorem WriteHisEntry.drop_row : (e.drop m).row = e.row := by
  unfold WriteHisEntry.drop
  split <;> rfl

@[simp] theorem WriteHisEntry.drop_ts : (e.drop m).ts = e.ts := by
  unfold WriteHisEntry.drop
  split <;> rfl

theorem WriteHisEntry.drop_valid : (e.drop m).valid = true ↔ e.valid = true ∧ m < e.ts := by
  unfold WriteHisEntry.drop WriteHisEntry.stale
  cases hvalid : e.valid
  · simp [hvalid]
  · by_cases hle : e.ts ≤ m
    · simp [hle]
    · simp [hle, hvalid, Nat.not_le.mp hle]

/-- An entry is free after dropping when it was free before or has been dropped. -/
theorem WriteHisEntry.drop_reserved (hvalid : (e.drop m).valid = false)
    (h : (e.drop m).reserved = true) : e.valid = false ∧ e.reserved = true := by
  revert hvalid h
  unfold WriteHisEntry.drop
  split
  · simp
  · exact fun hvalid h => ⟨hvalid, h⟩

theorem countP_drop (es : List WriteHisEntry) :
    (es.map (·.drop m)).countP (·.valid) + es.countP (·.stale m) = es.countP (·.valid) := by
  induction es with
  | nil => rfl
  | cons e es ih =>
      have hsplit : (if (e.drop m).valid = true then 1 else 0) +
          (if e.stale m = true then 1 else 0) = if e.valid = true then 1 else 0 := by
        unfold WriteHisEntry.drop
        cases hvalid : e.valid <;> cases hstale : e.stale m <;>
          simp_all [WriteHisEntry.stale]
      simp only [List.map_cons, List.countP_cons]
      omega

end Drop

theorem countP_of_only {α : Type} {p : α → Bool} {l : List α} {i : Nat} {a : α}
    (hget : l[i]? = some a) (ha : p a = true)
    (honly : ∀ (j : Nat) b, l[j]? = some b → p b = true → j = i) : l.countP p = 1 := by
  induction l generalizing i with
  | nil => cases hget
  | cons b l ih =>
      cases i with
      | zero =>
          cases hget
          have htail : l.countP p = 0 := by
            refine List.countP_eq_zero.mpr fun c hc hp => ?_
            obtain ⟨j, hj⟩ := List.mem_iff_getElem?.mp hc
            exact absurd (honly (j + 1) c hj hp) (Nat.succ_ne_zero j)
          rw [List.countP_cons_of_pos ha, htail]
      | succ i =>
          have hhead : ¬ p b = true := fun hb => absurd (honly 0 b rfl hb) (Nat.succ_ne_zero i).symm
          rw [List.countP_cons_of_neg hhead]
          exact ih hget fun j c hj hp => Nat.succ.inj (honly (j + 1) c hj hp)

/-! ### What the history keeps -/

section Keeps

variable {D : Type}

abbrev History.At (h : History) (i : Nat) (e : WriteHisEntry) : Prop := h.entries[i]? = some e

/-- The rows of the history are distinct. -/
structure Layout (h : History) : Prop where
  apart : ∀ i j e e' row, h.At i e → h.At j e' →
    e.row = some row → e'.row = some row → i = j
  base : ∀ i e, h.At i e → e.row ≠ some h.row
  row_lt : h.row < h.nextRow
  below : ∀ i e row, h.At i e → e.row = some row → row < h.nextRow

/-- The base and the valid entries hold the versions from `oldestWts` on. -/
structure Holding (h : History) (data : Nat → D) (versions : List (Nat × D)) : Prop where
  base : (h.oldestWts, data h.row) ∈ versions
  valid : ∀ i e, h.At i e → e.valid = true →
    ∃ row, e.row = some row ∧ (e.ts, data row) ∈ versions ∧ h.oldestWts < e.ts
  complete : ∀ v ∈ versions, h.oldestWts < v.1 →
    ∃ i e, h.At i e ∧ e.valid = true ∧ e.ts = v.1
  once : ∀ i j e e', h.At i e → h.At j e' → e.valid = true →
    e'.valid = true → e.ts = e'.ts → i = j
  count : h.numVersions = h.entries.countP (·.valid)

/-- An entry is reserved for the announced write only. -/
structure Marked (h : History) : Prop where
  reserved : ∀ i e, h.At i e → e.valid = false → e.reserved = true →
    h.existsPrewrite = true ∧ i = h.prewriteHisId
  prewrite : h.existsPrewrite = true →
    ∃ row, h.entries[h.prewriteHisId]? = some ⟨false, true, h.prewriteTs, some row⟩

structure Keeps (h : History) (data : Nat → D) (versions : List (Nat × D)) : Prop where
  long : 4 ≤ h.hisLen
  layout : Layout h
  holding : Holding h data versions
  marked : Marked h

/-- The row holds the version. -/
def History.Holds (h : History) (ts row : Nat) : Prop :=
  (ts = h.oldestWts ∧ row = h.row) ∨
  ∃ i e, h.At i e ∧ e.valid = true ∧ e.ts = ts ∧ e.row = some row

variable {h h' : History} {data : Nat → D} {versions : List (Nat × D)}

theorem Keeps.holds_mem (hk : Keeps h data versions) {ts row : Nat} (hrow : h.Holds ts row) :
    (ts, data row) ∈ versions := by
  rcases hrow with ⟨rfl, rfl⟩ | ⟨i, e, hget, hvalid, rfl, hrow⟩
  · exact hk.holding.base
  · obtain ⟨row', hrow', hmem, -⟩ := hk.holding.valid i e hget hvalid
    cases hrow.symm.trans hrow'
    exact hmem

theorem Keeps.oldest_le (hk : Keeps h data versions) {ts row : Nat} (hrow : h.Holds ts row) :
    h.oldestWts ≤ ts := by
  rcases hrow with ⟨rfl, -⟩ | ⟨i, e, hget, hvalid, rfl, -⟩
  · exact Nat.le_refl _
  · obtain ⟨-, -, -, hlt⟩ := hk.holding.valid i e hget hvalid
    exact Nat.le_of_lt hlt

/-- Only the rows that hold versions matter. -/
theorem Holding.data_congr (hh : Holding h data versions) {data' : Nat → D}
    (hbase : data' h.row = data h.row)
    (hvalid : ∀ i e row, h.At i e → e.valid = true → e.row = some row →
      data' row = data row) : Holding h data' versions where
  base := hbase ▸ hh.base
  valid := by
    intro i e hget hv
    obtain ⟨row, hrow, hmem, hlt⟩ := hh.valid i e hget hv
    exact ⟨row, hrow, hvalid i e row hget hv hrow ▸ hmem, hlt⟩
  complete := hh.complete
  once := hh.once
  count := hh.count

/-! ### A new base -/

/-- The valid entry `e` becomes the base; what is not newer is dropped. -/
def History.advance (h : History) (idx : Nat) (e : WriteHisEntry) (row : Nat) : History :=
  let es := h.entries.set idx { e with row := some h.row }
  { h with
    row := row
    oldestWts := e.ts
    entries := es.map (·.drop e.ts)
    numVersions := h.numVersions - es.countP (·.stale e.ts) }

section Advance

variable {idx row : Nat} {e : WriteHisEntry}

theorem advance_hisLen : (h.advance idx e row).hisLen = h.hisLen := by
  simp [History.advance, History.hisLen]

theorem advance_at (hat : h.At idx e) {i : Nat} {e' : WriteHisEntry}
    (hi : (h.advance idx e row).At i e') :
    ∃ e₀, h.At i e₀ ∧ e'.ts = e₀.ts ∧ (e'.valid = true ↔ e₀.valid = true ∧ e.ts < e₀.ts) ∧
      (e'.valid = false → e'.reserved = true → e₀.valid = false ∧ e₀.reserved = true) ∧
      e'.row = if i = idx then some h.row else e₀.row := by
  have hlt := (List.getElem?_eq_some_iff.mp hat).1
  rw [History.At, History.advance, List.getElem?_map, List.getElem?_set] at hi
  by_cases hidx : idx = i
  · subst hidx
    rw [if_pos rfl, if_pos hlt] at hi
    cases hi
    refine ⟨e, hat, by simp, WriteHisEntry.drop_valid, WriteHisEntry.drop_reserved, by simp⟩
  · rw [if_neg hidx] at hi
    obtain ⟨e₀, hget, rfl⟩ := Option.map_eq_some_iff.mp hi
    exact ⟨e₀, hget, by simp, WriteHisEntry.drop_valid, WriteHisEntry.drop_reserved,
      by rw [if_neg (Ne.symm hidx)]; simp⟩

theorem at_advance (row : Nat) (hat : h.At idx e) {i : Nat} {e₀ : WriteHisEntry} (hi : h.At i e₀) :
    ∃ e', (h.advance idx e row).At i e' ∧ e'.ts = e₀.ts ∧
      (e'.valid = true ↔ e₀.valid = true ∧ e.ts < e₀.ts) ∧
      e'.row = if i = idx then some h.row else e₀.row := by
  have hlt : i < (h.advance idx e row).hisLen := by
    rw [advance_hisLen]
    exact (List.getElem?_eq_some_iff.mp hi).1
  have hget : (h.advance idx e row).At i _ := List.getElem?_eq_getElem hlt
  obtain ⟨e₁, he₁, hts, hvalid, -, hrow⟩ := advance_at hat hget
  cases hi.symm.trans he₁
  exact ⟨_, hget, hts, hvalid, hrow⟩

theorem Layout.advance (hl : Layout h) (hat : h.At idx e) (hrow : e.row = some row) :
    Layout (h.advance idx e row) where
  apart := by
    intro i j e₁ e₂ r hi hj hr₁ hr₂
    obtain ⟨e₁', hi', -, -, -, hrow₁⟩ := advance_at hat hi
    obtain ⟨e₂', hj', -, -, -, hrow₂⟩ := advance_at hat hj
    rw [hr₁] at hrow₁
    rw [hr₂] at hrow₂
    by_cases hiidx : i = idx <;> by_cases hjidx : j = idx
    · rw [hiidx, hjidx]
    · rw [if_pos hiidx] at hrow₁
      rw [if_neg hjidx, hrow₁] at hrow₂
      exact absurd hrow₂.symm (hl.base j e₂' hj')
    · rw [if_neg hiidx] at hrow₁
      rw [if_pos hjidx] at hrow₂
      exact absurd (hrow₁.symm.trans hrow₂) (hl.base i e₁' hi')
    · rw [if_neg hiidx] at hrow₁
      rw [if_neg hjidx] at hrow₂
      exact hl.apart i j e₁' e₂' r hi' hj' hrow₁.symm hrow₂.symm
  base := by
    intro i e₁ hi
    obtain ⟨e₁', hi', -, -, -, hrow₁⟩ := advance_at hat hi
    rw [hrow₁]
    split
    · intro heq
      exact hl.base idx e hat (hrow.trans heq.symm)
    · rename_i hiidx
      exact fun heq => hiidx (hl.apart i idx e₁' e row hi' hat heq hrow)
  row_lt := hl.below idx e row hat hrow
  below := by
    intro i e₁ r hi hr
    obtain ⟨e₁', hi', -, -, -, hrow₁⟩ := advance_at hat hi
    rw [hr] at hrow₁
    split at hrow₁
    · cases hrow₁
      exact hl.row_lt
    · exact hl.below i e₁' r hi' hrow₁.symm

theorem Holding.advance (hh : Holding h data versions) (hat : h.At idx e) (hvalid : e.valid = true)
    (hrow : e.row = some row) : Holding (h.advance idx e row) data versions where
  base := by
    obtain ⟨row', hrow', hmem, -⟩ := hh.valid idx e hat hvalid
    cases hrow.symm.trans hrow'
    exact hmem
  valid := by
    intro i e₁ hi hv
    obtain ⟨e₀, hi₀, hts, hv₀, -, hr₀⟩ := advance_at hat hi
    obtain ⟨hvalid₀, hlt⟩ := hv₀.mp hv
    obtain ⟨r, hr, hmem, -⟩ := hh.valid i e₀ hi₀ hvalid₀
    have hne : i ≠ idx := by
      rintro rfl
      cases hat.symm.trans hi₀
      exact absurd hlt (Nat.lt_irrefl _)
    rw [if_neg hne, hr] at hr₀
    exact ⟨r, hr₀, hts ▸ hmem, hts ▸ hlt⟩
  complete := by
    intro v hv hlt
    obtain ⟨r, -, -, hold⟩ := hh.valid idx e hat hvalid
    obtain ⟨i, e₀, hi₀, hvalid₀, hts₀⟩ := hh.complete v hv (Nat.lt_trans hold hlt)
    obtain ⟨e₁, hi, hts, hv₁, -⟩ := at_advance row hat hi₀
    exact ⟨i, e₁, hi, hv₁.mpr ⟨hvalid₀, hts₀ ▸ hlt⟩, hts.trans hts₀⟩
  once := by
    intro i j e₁ e₂ hi hj hv₁ hv₂ hts
    obtain ⟨e₁', hi', hts₁, hv₁', -⟩ := advance_at hat hi
    obtain ⟨e₂', hj', hts₂, hv₂', -⟩ := advance_at hat hj
    exact hh.once i j e₁' e₂' hi' hj' (hv₁'.mp hv₁).1 (hv₂'.mp hv₂).1 (hts₁ ▸ hts₂ ▸ hts)
  count := by
    have hset : (h.entries.set idx { e with row := some h.row }).countP (·.valid) =
        h.entries.countP (·.valid) := by
      obtain ⟨hlt, hget⟩ := List.getElem?_eq_some_iff.mp hat
      rw [List.countP_set hlt, hget]
      have hpos : 0 < h.entries.countP (·.valid) :=
        List.countP_pos_iff.mpr ⟨e, List.mem_of_getElem? hat, hvalid⟩
      simp only [hvalid, if_true]
      omega
    have hdrop := countP_drop (m := e.ts) (h.entries.set idx { e with row := some h.row })
    rw [hset, ← hh.count] at hdrop
    simp only [History.advance]
    omega

/-- The versions from the new base on stay in their rows. -/
theorem Holding.holds_advance (hh : Holding h data versions) (hat : h.At idx e)
    (hvalid : e.valid = true) (hrow : e.row = some row) {ts r : Nat} (hr : h.Holds ts r)
    (hle : e.ts ≤ ts) : (h.advance idx e row).Holds ts r := by
  rcases hr with ⟨rfl, -⟩ | ⟨i, e₀, hi, hv₀, rfl, hr₀⟩
  · obtain ⟨-, -, -, hlt⟩ := hh.valid idx e hat hvalid
    omega
  · by_cases heq : e₀.ts = e.ts
    · obtain rfl := hh.once i idx e₀ e hi hat hv₀ hvalid heq
      cases hat.symm.trans hi
      cases hrow.symm.trans hr₀
      exact .inl ⟨rfl, rfl⟩
    · obtain ⟨e₁, hi₁, hts, hv₁, hr₁⟩ := at_advance row hat hi
      have hne : i ≠ idx := by
        rintro rfl
        cases hat.symm.trans hi
        exact heq rfl
      rw [if_neg hne] at hr₁
      exact .inr ⟨i, e₁, hi₁, hv₁.mpr ⟨hv₀, by omega⟩, hts, hr₁.trans hr₀⟩

theorem Keeps.advance (hk : Keeps h data versions) (hno : h.existsPrewrite = false)
    (hat : h.At idx e) (hvalid : e.valid = true) (hrow : e.row = some row) :
    Keeps (h.advance idx e row) data versions where
  long := advance_hisLen (h := h) ▸ hk.long
  layout := hk.layout.advance hat hrow
  holding := hk.holding.advance hat hvalid hrow
  marked :=
    { reserved := by
        intro i e₁ hi hv hr
        obtain ⟨e₀, hi₀, -, -, hres, -⟩ := advance_at hat hi
        obtain ⟨hv₀, hr₀⟩ := hres hv hr
        exact hk.marked.reserved i e₀ hi₀ hv₀ hr₀
      prewrite := fun hex => absurd (hno.symm.trans hex) Bool.false_ne_true }

end Advance

/-! ### Reserving a row -/

/-- No version from the new base on has moved. -/
structure Later (h h' : History) (data : Nat → D) (versions : List (Nat × D)) : Prop where
  keeps : Keeps h' data versions
  quiet : h'.existsPrewrite = false
  holds : ∀ ts r, h.Holds ts r → h'.oldestWts ≤ ts → h'.Holds ts r
  oldest : h.oldestWts ≤ h'.oldestWts

theorem Later.refl (hk : Keeps h data versions) (hno : h.existsPrewrite = false) :
    Later h h data versions := ⟨hk, hno, fun _ _ hr _ => hr, Nat.le_refl _⟩

theorem Later.advance (hk : Keeps h data versions) (hno : h.existsPrewrite = false) {idx row : Nat}
    {e : WriteHisEntry} (hat : h.At idx e) (hvalid : e.valid = true) (hrow : e.row = some row) :
    Later h (h.advance idx e row) data versions where
  keeps := hk.advance hno hat hvalid hrow
  quiet := hno
  holds := fun _ _ hr hle => hk.holding.holds_advance hat hvalid hrow hr hle
  oldest := by
    obtain ⟨-, -, -, hlt⟩ := hk.holding.valid idx e hat hvalid
    exact Nat.le_of_lt hlt

theorem Keeps.all_valid (hk : Keeps h data versions) (hfull : ¬ h.numVersions < h.hisLen) {i : Nat}
    {e : WriteHisEntry} (hi : h.At i e) : e.valid = true := by
  have hle : h.entries.countP (·.valid) ≤ h.hisLen := List.countP_le_length
  have heq : h.entries.countP (·.valid) = h.entries.length := by
    rw [hk.holding.count] at hfull
    exact Nat.le_antisymm hle (Nat.le_of_not_lt hfull)
  exact List.countP_eq_length.mp heq e (List.mem_of_getElem? hi)

/-- A new base leaves its entry free. -/
theorem Keeps.advance_not_full (hk : Keeps h data versions) (hno : h.existsPrewrite = false)
    {idx row : Nat} {e : WriteHisEntry} (hat : h.At idx e) (hvalid : e.valid = true)
    (hrow : e.row = some row) :
    (h.advance idx e row).numVersions < (h.advance idx e row).hisLen := by
  by_contra hfull
  obtain ⟨e', hat', -, hv, -⟩ := at_advance row hat hat
  have hlt := (hv.mp ((hk.advance hno hat hvalid hrow).all_valid hfull hat')).2
  exact Nat.lt_irrefl _ hlt

theorem collect_spec (hk : Keeps h data versions) (hno : h.existsPrewrite = false) (minTs : Nat) :
    ∃ h', h.collect minTs = some h' ∧ Later h h' data versions ∧ h'.hisLen = h.hisLen ∧
      (h' = h ∨ h'.oldestWts < minTs ∧ h'.numVersions < h'.hisLen) := by
  have hsame : ∃ h', some h = some h' ∧ Later h h' data versions ∧ h'.hisLen = h.hisLen ∧
      (h' = h ∨ h'.oldestWts < minTs ∧ h'.numVersions < h'.hisLen) :=
    ⟨h, rfl, .refl hk hno, rfl, .inl rfl⟩
  unfold History.collect
  split
  · rcases newestBelow_cases id minTs h.entries fun _ _ _ => rfl with
      ⟨heq, -⟩ | ⟨idx, e, hat, heq, hvalid, hlt, -⟩
    · rw [heq]
      exact hsame
    · rw [heq]
      obtain ⟨row, hrow, -⟩ := hk.holding.valid idx e hat hvalid
      have hrows : ((h.entries.set idx { e with row := some h.row }).all
          fun e' => !e'.stale e.ts || e'.row.isSome) = true := by
        refine List.all_eq_true.mpr fun e' he' => ?_
        obtain ⟨i, hi⟩ := List.mem_iff_getElem?.mp he'
        rw [List.getElem?_set] at hi
        split at hi
        · split at hi <;> cases hi
          simp
        · cases hv : e'.valid
          · simp [WriteHisEntry.stale, hv]
          · obtain ⟨r, hr, -⟩ := hk.holding.valid i e' hi hv
            simp [hr]
      refine ⟨h.advance idx e row, ?_, .advance hk hno hat hvalid hrow, advance_hisLen,
        .inr ⟨hlt, hk.advance_not_full hno hat hvalid hrow⟩⟩
      dsimp only
      rw [hat, Option.bind_eq_bind, Option.bind_some, hrow, Option.bind_eq_bind, Option.bind_some]
      exact if_pos hrows
  · exact hsame

theorem Keeps.exists_free (hk : Keeps h data versions) (hno : h.existsPrewrite = false)
    (hlt : h.numVersions < h.hisLen) :
    ∃ e ∈ h.entries, e.valid = false ∧ e.reserved = false := by
  have hsome : ∃ e ∈ h.entries, e.valid = false := by
    by_contra hall
    have heq : h.entries.countP (·.valid) = h.entries.length :=
      List.countP_eq_length.mpr fun e he => by
        by_contra hv
        exact hall ⟨e, he, Bool.of_not_eq_true hv⟩
    rw [hk.holding.count, heq] at hlt
    exact Nat.lt_irrefl _ hlt
  obtain ⟨e, he, hv⟩ := hsome
  obtain ⟨i, hi⟩ := List.mem_iff_getElem?.mp he
  refine ⟨e, he, hv, ?_⟩
  by_contra hr
  have := (hk.marked.reserved i e hi hv (Bool.of_not_eq_false hr)).1
  rw [hno] at this
  cases this

/-- Using the oldest version's place again is the same as making it the base. -/
theorem recycleOldest_spec (hk : Keeps h data versions)
    (hfull : ¬ h.numVersions < h.hisLen) (hmax : ∀ v ∈ versions, v.1 < uint64Max) :
    ∃ h' idx e row, h.recycleOldest = some (h', idx) ∧ h.At idx e ∧ e.valid = true ∧
      e.row = some row ∧ (∀ i e', h.At i e' → e'.valid = true → e.ts ≤ e'.ts) ∧
      ∀ ts, h'.mark idx ts = (h.advance idx e row).mark idx ts := by
  have hpos : 0 < h.entries.length := Nat.lt_of_lt_of_le (by decide) hk.long
  have hfirst : h.At 0 _ := List.getElem?_eq_getElem hpos
  have hvalid₀ := hk.all_valid hfull hfirst
  obtain ⟨r₀, -, hmem₀, -⟩ := hk.holding.valid 0 _ hfirst hvalid₀
  obtain ⟨idx, e, hat, heq, hvalid, hleast⟩ :=
    oldestEntry_cases ⟨_, List.mem_of_getElem? hfirst, hvalid₀, hmax _ hmem₀⟩
  obtain ⟨row, hrow, -, hlt⟩ := hk.holding.valid idx e hat hvalid
  have hleast' : ∀ i e', h.At i e' → e'.valid = true → e.ts ≤ e'.ts :=
    fun i e' hi => hleast e' (List.mem_of_getElem? hi)
  refine ⟨{ h with
    row := row, oldestWts := e.ts, entries := h.entries.set idx { e with row := some h.row },
    numVersions := h.numVersions - 1 }, idx, e, row, ?_, hat, hvalid, hrow, hleast', ?_⟩
  · unfold History.recycleOldest
    rw [heq]
    dsimp only
    rw [hat, Option.bind_eq_bind, Option.bind_some, hrow, Option.bind_eq_bind, Option.bind_some]
    exact if_pos hlt
  · intro ts
    have hidx : idx < h.entries.length := (List.getElem?_eq_some_iff.mp hat).1
    have hstale : (h.entries.set idx { e with row := some h.row }).countP (·.stale e.ts) = 1 := by
      refine countP_of_only (i := idx) (a := { e with row := some h.row }) ?_ ?_ ?_
      · rw [List.getElem?_set_self hidx]
      · simp [WriteHisEntry.stale, hvalid]
      · intro j e' hj hs
        by_contra hne
        rw [List.getElem?_set_ne (Ne.symm hne)] at hj
        obtain ⟨hv, hle⟩ := (Bool.and_eq_true _ _).mp hs
        exact hne (hk.holding.once j idx e' e hj hat hv hvalid
          (Nat.le_antisymm (of_decide_eq_true hle) (hleast' j e' hj hv)))
    have hrest : ∀ X, (h.entries.set idx { e with row := some h.row }).set idx X =
        ((h.entries.set idx { e with row := some h.row }).map (·.drop e.ts)).set idx X := by
      intro X
      rw [List.set_set, List.map_set, List.set_set]
      refine List.ext_getElem? fun j => ?_
      rw [List.getElem?_set, List.getElem?_set, List.length_map]
      by_cases hj : idx = j
      · rw [if_pos hj, if_pos hj]
      · rw [if_neg hj, if_neg hj, List.getElem?_map]
        cases hget : h.entries[j]? with
        | none => rfl
        | some e' =>
            have hnot : e'.stale e.ts = false := by
              by_contra hs
              obtain ⟨hv, hle⟩ := (Bool.and_eq_true _ _).mp (Bool.of_not_eq_false hs)
              exact hj (hk.holding.once idx j e e' hat hget hvalid hv
                (Nat.le_antisymm (hleast' j e' hget hv) (of_decide_eq_true hle)))
            rw [Option.map_some, WriteHisEntry.drop, hnot]
            rfl
    unfold History.mark History.advance
    dsimp only
    rw [hstale, List.getElem?_set_self hidx, List.getElem?_map, List.getElem?_set_self hidx,
      Option.map_some, Option.bind_eq_bind, Option.bind_some, Option.bind_some,
      WriteHisEntry.drop_row, ← hrest]

theorem doubleList_at {i : Nat} {e : WriteHisEntry} (hi : h.doubleList.At i e) :
    h.At i e ∨ e = .unused := by
  rw [History.At, History.doubleList, List.getElem?_append] at hi
  split at hi
  · exact .inl hi
  · exact .inr (List.eq_of_mem_replicate (List.mem_of_getElem? hi))

theorem at_doubleList {i : Nat} {e : WriteHisEntry} (hi : h.At i e) : h.doubleList.At i e := by
  rw [History.At, History.doubleList, List.getElem?_append_left (List.getElem?_eq_some_iff.mp hi).1]
  exact hi

theorem Later.doubleList (hk : Keeps h data versions) (hno : h.existsPrewrite = false) :
    Later h h.doubleList data versions where
  keeps :=
    { long := Nat.le_trans hk.long (by simp [History.doubleList, History.hisLen])
      layout :=
        { apart := by
            intro i j e e' row hi hj hr hr'
            rcases doubleList_at hi with hi | rfl
            · rcases doubleList_at hj with hj | rfl
              · exact hk.layout.apart i j e e' row hi hj hr hr'
              · cases hr'
            · cases hr
          base := by
            intro i e hi
            rcases doubleList_at hi with hi | rfl
            · exact hk.layout.base i e hi
            · exact nofun
          row_lt := hk.layout.row_lt
          below := by
            intro i e row hi hr
            rcases doubleList_at hi with hi | rfl
            · exact hk.layout.below i e row hi hr
            · cases hr }
      holding :=
        { base := hk.holding.base
          valid := by
            intro i e hi hv
            rcases doubleList_at hi with hi | rfl
            · exact hk.holding.valid i e hi hv
            · cases hv
          complete := by
            intro v hv hlt
            obtain ⟨i, e, hi, he⟩ := hk.holding.complete v hv hlt
            exact ⟨i, e, at_doubleList hi, he⟩
          once := by
            intro i j e e' hi hj hv hv' hts
            rcases doubleList_at hi with hi | rfl
            · rcases doubleList_at hj with hj | rfl
              · exact hk.holding.once i j e e' hi hj hv hv' hts
              · cases hv'
            · cases hv
          count := by
            have hnone : (List.replicate h.hisLen WriteHisEntry.unused).countP (·.valid) = 0 := by
              refine List.countP_eq_zero.mpr fun e he => ?_
              rw [List.eq_of_mem_replicate he]
              exact Bool.false_ne_true
            simp only [History.doubleList, List.countP_append, hnone]
            exact hk.holding.count }
      marked :=
        { reserved := by
            intro i e hi hv hr
            rcases doubleList_at hi with hi | rfl
            · exact hk.marked.reserved i e hi hv hr
            · cases hr
          prewrite := fun hex => absurd (hno.symm.trans hex) Bool.false_ne_true } }
  quiet := hno
  holds := by
    rintro ts row (hbase | ⟨i, e, hi, he⟩) -
    · exact .inl hbase
    · exact .inr ⟨i, e, at_doubleList hi, he⟩
  oldest := Nat.le_refl _

/-- The new version goes to a free entry of a history that has lost no version from its base on. -/
theorem place_spec (hk : Keeps h data versions) (hno : h.existsPrewrite = false)
    (hmax : ∀ v ∈ versions, v.1 < uint64Max) (threadCnt : Nat) :
    ∃ placed idx base e, h.place threadCnt = some (placed, idx) ∧ Later h base data versions ∧
      base.At idx e ∧ e.valid = false ∧ (∀ ts, placed.mark idx ts = base.mark idx ts) ∧
      (base.hisLen = h.hisLen ∨ h.hisLen < threadCnt ∧ base.hisLen = 2 * h.hisLen) ∧
      (base.oldestWts = h.oldestWts ∨ ¬ h.numVersions < h.hisLen ∧ threadCnt ≤ h.hisLen ∧
        ∀ i e', h.At i e' → e'.valid = true → base.oldestWts ≤ e'.ts) := by
  unfold History.place
  split
  · rename_i hlt
    obtain ⟨e, hat, hv, -⟩ := unusedEntry_spec [] h.hisLen (.inl (hk.exists_free hno hlt))
    have hidx : unusedEntry 0 h.hisLen h.entries < h.hisLen := (List.getElem?_eq_some_iff.mp hat).1
    exact ⟨h, _, h, e, if_pos hidx, .refl hk hno, hat, hv, fun _ => rfl, .inl rfl, .inl rfl⟩
  · rename_i hfull
    split
    · rename_i hle
      obtain ⟨placed, idx, e, row, heq, hat, hvalid, hrow, hleast, hmark⟩ :=
        recycleOldest_spec hk hfull hmax
      obtain ⟨e', hat', -, hv', -⟩ := at_advance row hat hat
      have hv : e'.valid = false := by
        refine Bool.of_not_eq_true fun hv => ?_
        exact absurd (hv'.mp hv).2 (Nat.lt_irrefl _)
      exact ⟨placed, idx, _, e', heq, .advance hk hno hat hvalid hrow, hat', hv, hmark,
        .inl advance_hisLen, .inr ⟨hfull, hle, hleast⟩⟩
    · rename_i hlt
      have hat : h.doubleList.At h.hisLen .unused := by
        have hpos : 0 < h.entries.length := Nat.lt_of_lt_of_le (by decide) hk.long
        simp only [History.At, History.doubleList, History.hisLen]
        rw [List.getElem?_append_right (Nat.le_refl _), Nat.sub_self, List.getElem?_replicate,
          if_pos hpos]
      refine ⟨_, _, _, _, rfl, .doubleList hk hno, hat, rfl, fun _ => rfl, .inr ⟨?_, ?_⟩, .inl rfl⟩
      · exact Nat.lt_of_not_le hlt
      · simp only [History.doubleList, History.hisLen, List.length_append, List.length_replicate]
        omega

/-! ### The reserved row -/

/-- What the history is after a row has been reserved. -/
structure Reserved (h h' : History) (data : Nat → D) (versions : List (Nat × D)) (ts row : Nat) :
    Prop where
  keeps : Keeps h' data versions
  announced : h'.existsPrewrite = true
  prewriteTs : h'.prewriteTs = ts
  entry : h'.At h'.prewriteHisId ⟨false, true, ts, some row⟩
  holds : ∀ ts r, h.Holds ts r → h'.oldestWts ≤ ts → h'.Holds ts r
  oldest : h.oldestWts ≤ h'.oldestWts

section Mark

variable {idx ts row next : Nat}

def History.marked (h : History) (idx ts row next : Nat) : History :=
  { h with
    entries := h.entries.set idx ⟨false, true, ts, some row⟩
    nextRow := next
    existsPrewrite := true
    prewriteTs := ts
    prewriteHisId := idx }

theorem marked_at (hidx : idx < h.hisLen) {i : Nat} {e : WriteHisEntry}
    (hi : (h.marked idx ts row next).At i e) :
    (i = idx ∧ e = ⟨false, true, ts, some row⟩) ∨ (i ≠ idx ∧ h.At i e) := by
  rw [History.At, History.marked, List.getElem?_set] at hi
  split at hi
  · rename_i heq
    rw [if_pos (show idx < h.entries.length from hidx)] at hi
    exact .inl ⟨heq.symm, (Option.some.inj hi).symm⟩
  · rename_i hne
    exact .inr ⟨Ne.symm hne, hi⟩

theorem at_marked {i : Nat} {e : WriteHisEntry} (hne : i ≠ idx) (hi : h.At i e) :
    (h.marked idx ts row next).At i e := by
  rw [History.At, History.marked, List.getElem?_set_ne (Ne.symm hne)]
  exact hi

theorem at_marked_self (hidx : idx < h.hisLen) :
    (h.marked idx ts row next).At idx ⟨false, true, ts, some row⟩ :=
  List.getElem?_set_self hidx

theorem Layout.marked (hl : Layout h) (hidx : idx < h.hisLen)
    (hfresh : ∀ i e, i ≠ idx → h.At i e → e.row ≠ some row) (hbase : row ≠ h.row)
    (hlt : row < next) (hle : h.nextRow ≤ next) : Layout (h.marked idx ts row next) where
  apart := by
    intro i j e e' r hi hj hr hr'
    rcases marked_at hidx hi with ⟨rfl, rfl⟩ | ⟨hine, hi⟩
    · rcases marked_at hidx hj with ⟨rfl, rfl⟩ | ⟨hjne, hj⟩
      · rfl
      · cases hr
        exact absurd hr' (hfresh j e' hjne hj)
    · rcases marked_at hidx hj with ⟨hjidx, rfl⟩ | ⟨-, hj⟩
      · cases hr'
        exact absurd hr (hfresh i e hine hi)
      · exact hl.apart i j e e' r hi hj hr hr'
  base := by
    intro i e hi
    rcases marked_at hidx hi with ⟨rfl, rfl⟩ | ⟨-, hi⟩
    · exact fun heq => hbase (Option.some.inj heq)
    · exact hl.base i e hi
  row_lt := Nat.lt_of_lt_of_le hl.row_lt hle
  below := by
    intro i e r hi hr
    rcases marked_at hidx hi with ⟨rfl, rfl⟩ | ⟨-, hi⟩
    · cases hr
      exact hlt
    · exact Nat.lt_of_lt_of_le (hl.below i e r hi hr) hle

theorem Holding.marked (hh : Holding h data versions) {e : WriteHisEntry} (hat : h.At idx e)
    (hfree : e.valid = false) : Holding (h.marked idx ts row next) data versions := by
  have hidx : idx < h.hisLen := (List.getElem?_eq_some_iff.mp hat).1
  have hold : ∀ {i e'}, (h.marked idx ts row next).At i e' → e'.valid = true → h.At i e' := by
    intro i e' hi hv
    rcases marked_at hidx hi with ⟨rfl, rfl⟩ | ⟨-, hi⟩
    · cases hv
    · exact hi
  constructor
  · exact hh.base
  · exact fun i e' hi hv => hh.valid i e' (hold hi hv) hv
  · intro v hv hlt
    obtain ⟨i, e', hi, hv', hts⟩ := hh.complete v hv hlt
    have hne : i ≠ idx := by
      rintro rfl
      cases hat.symm.trans hi
      exact absurd (hfree.symm.trans hv') Bool.false_ne_true
    exact ⟨i, e', at_marked hne hi, hv', hts⟩
  · exact fun i j e₁ e₂ hi hj hv₁ hv₂ => hh.once i j e₁ e₂ (hold hi hv₁) (hold hj hv₂) hv₁ hv₂
  · obtain ⟨hlt, hget⟩ := List.getElem?_eq_some_iff.mp hat
    show h.numVersions = (h.entries.set idx ⟨false, true, ts, some row⟩).countP (·.valid)
    rw [List.countP_set hlt, hget, hh.count]
    simp [hfree]

theorem Marked.marked (hm : Marked h) (hno : h.existsPrewrite = false) (hidx : idx < h.hisLen) :
    Marked (h.marked idx ts row next) where
  reserved := by
    intro i e hi hv hr
    rcases marked_at hidx hi with ⟨rfl, -⟩ | ⟨-, hi⟩
    · exact ⟨rfl, rfl⟩
    · exact absurd (hno.symm.trans (hm.reserved i e hi hv hr).1) Bool.false_ne_true
  prewrite := fun _ => ⟨row, at_marked_self hidx⟩

theorem mark_spec (hk : Keeps h data versions) (hno : h.existsPrewrite = false)
    {e : WriteHisEntry} (hat : h.At idx e) (hfree : e.valid = false) (ts : Nat) :
    ∃ h' row, h.mark idx ts = some (h', row) ∧ Reserved h h' data versions ts row ∧
      h'.hisLen = h.hisLen ∧ h'.oldestWts = h.oldestWts := by
  have hidx : idx < h.hisLen := (List.getElem?_eq_some_iff.mp hat).1
  obtain ⟨row, next, hmark, hfresh, hbase, hlt, hle⟩ : ∃ row next,
      h.mark idx ts = some (h.marked idx ts row next, row) ∧
      (∀ i e', i ≠ idx → h.At i e' → e'.row ≠ some row) ∧ row ≠ h.row ∧ row < next ∧
      h.nextRow ≤ next := by
    refine ⟨e.row.getD h.nextRow, if e.row.isSome then h.nextRow else h.nextRow + 1, ?_, ?_⟩
    · unfold History.mark
      rw [hat, Option.bind_eq_bind, Option.bind_some]
      rfl
    · cases hr : e.row with
      | some r =>
          refine ⟨fun i e' hi hget heq => ?_, fun heq => ?_, ?_, Nat.le_refl _⟩
          · exact hi (hk.layout.apart i idx e' e r hget hat heq hr)
          · exact hk.layout.base idx e hat (hr.trans (congrArg some heq))
          · exact hk.layout.below idx e r hat hr
      | none =>
          refine ⟨fun i e' hi hget heq => ?_, fun heq => ?_, ?_, ?_⟩
          · exact absurd (hk.layout.below i e' _ hget heq) (Nat.lt_irrefl _)
          · exact absurd (heq ▸ hk.layout.row_lt) (Nat.lt_irrefl _)
          · exact Nat.lt_succ_self _
          · exact Nat.le_succ _
  have hlen : (h.marked idx ts row next).hisLen = h.hisLen := List.length_set
  refine ⟨_, row, hmark, ⟨⟨hlen ▸ hk.long, ?_, ?_, ?_⟩, rfl, rfl, ?_, ?_, Nat.le_refl _⟩, hlen, rfl⟩
  · exact hk.layout.marked hidx hfresh hbase hlt hle
  · exact hk.holding.marked hat hfree
  · exact hk.marked.marked hno hidx
  · exact at_marked_self hidx
  · rintro w r (hold | ⟨i, e', hi, hv, hrest⟩) -
    · exact .inl hold
    · have hne : i ≠ idx := by
        rintro rfl
        cases hat.symm.trans hi
        exact absurd (hfree.symm.trans hv) Bool.false_ne_true
      exact .inr ⟨i, e', at_marked hne hi, hv, hrest⟩

end Mark

/-- `reserveRow` returns, and the base moves only below `minTs` or to the oldest version of a
    history that is full and long. -/
theorem reserveRow_spec (hk : Keeps h data versions) (hno : h.existsPrewrite = false)
    (hmax : ∀ v ∈ versions, v.1 < uint64Max) (threadCnt minTs ts : Nat) :
    ∃ h' row, h.reserveRow threadCnt minTs ts = some (h', row) ∧
      Reserved h h' data versions ts row ∧
      (h'.hisLen = h.hisLen ∨ h.hisLen < threadCnt ∧ h'.hisLen = 2 * h.hisLen) ∧
      (h'.oldestWts = h.oldestWts ∨ h'.oldestWts < minTs ∨ threadCnt ≤ h.hisLen ∧
        ∀ i e, h.At i e → e.valid = true → h'.oldestWts ≤ e.ts) := by
  obtain ⟨h₁, hcollect, hl₁, hlen₁, hbase₁⟩ := collect_spec hk hno minTs
  obtain ⟨placed, idx, h₂, e, hplace, hl₂, hat, hfree, hmark, hlen₂, hbase₂⟩ :=
    place_spec hl₁.keeps hl₁.quiet hmax threadCnt
  obtain ⟨h', row, heq, hres, hlen₃, hbase₃⟩ := mark_spec hl₂.keeps hl₂.quiet hat hfree ts
  refine ⟨h', row, ?_, ⟨hres.keeps, hres.announced, hres.prewriteTs, hres.entry, ?_, ?_⟩, ?_, ?_⟩
  · unfold History.reserveRow
    rw [hno, if_neg Bool.false_ne_true, hcollect, Option.bind_eq_bind, Option.bind_some, hplace,
      Option.bind_eq_bind, Option.bind_some]
    exact (hmark ts).trans heq
  · intro w r hr hle
    have hle₂ : h₂.oldestWts ≤ w := hbase₃ ▸ hle
    exact hres.holds w r (hl₂.holds w r (hl₁.holds w r hr (Nat.le_trans hl₂.oldest hle₂)) hle₂) hle
  · exact Nat.le_trans hl₁.oldest (Nat.le_trans hl₂.oldest hres.oldest)
  · rw [hlen₃, ← hlen₁]
    exact hlen₂
  · rw [hbase₃]
    rcases hbase₁ with rfl | ⟨hlt, hspace⟩
    · exact hbase₂.imp_right fun ⟨_, hold⟩ => .inr hold
    · rcases hbase₂ with hsame | ⟨hfull, -⟩
      · exact .inr (.inl (hsame ▸ hlt))
      · exact absurd hspace hfull

/-! ### The answer to the announced write -/

section Answer

variable {ts row : Nat}

/-- The entry of the announced write becomes `e`, and nothing is announced any more. -/
def History.answered (h : History) (e : WriteHisEntry) (numVersions : Nat) : History :=
  { h with
    entries := h.entries.set h.prewriteHisId e
    existsPrewrite := false
    numVersions := numVersions }

theorem answered_at {e e' : WriteHisEntry} {n i : Nat} (hi : (h.answered e n).At i e') :
    (i = h.prewriteHisId ∧ e' = e) ∨ (i ≠ h.prewriteHisId ∧ h.At i e') := by
  rw [History.At, History.answered, List.getElem?_set] at hi
  split at hi
  · rename_i heq
    split at hi
    · exact .inl ⟨heq.symm, (Option.some.inj hi).symm⟩
    · cases hi
  · rename_i hne
    exact .inr ⟨Ne.symm hne, hi⟩

theorem at_answered {e e' : WriteHisEntry} {n i : Nat} (hne : i ≠ h.prewriteHisId)
    (hi : h.At i e') : (h.answered e n).At i e' := by
  rw [History.At, History.answered, List.getElem?_set_ne (Ne.symm hne)]
  exact hi

theorem Keeps.ne_of_valid (hat : h.At h.prewriteHisId ⟨false, true, ts, some row⟩) {i : Nat}
    {e : WriteHisEntry} (hi : h.At i e) (hv : e.valid = true) : i ≠ h.prewriteHisId := by
  rintro rfl
  cases hat.symm.trans hi
  cases hv

theorem Layout.answered (hl : Layout h) (hat : h.At h.prewriteHisId ⟨false, true, ts, some row⟩)
    {e : WriteHisEntry} (hrow : e.row = some row) (n : Nat) : Layout (h.answered e n) := by
  have hback : ∀ {i e'}, (h.answered e n).At i e' → ∃ e₀, h.At i e₀ ∧ e₀.row = e'.row := by
    intro i e' hi
    rcases answered_at hi with ⟨rfl, rfl⟩ | ⟨-, hi⟩
    · exact ⟨_, hat, hrow.symm⟩
    · exact ⟨e', hi, rfl⟩
  constructor
  · intro i j e₁ e₂ r hi hj hr₁ hr₂
    obtain ⟨e₁', hi', heq₁⟩ := hback hi
    obtain ⟨e₂', hj', heq₂⟩ := hback hj
    exact hl.apart i j e₁' e₂' r hi' hj' (heq₁.trans hr₁) (heq₂.trans hr₂)
  · intro i e₁ hi
    obtain ⟨e₁', hi', heq₁⟩ := hback hi
    exact heq₁ ▸ hl.base i e₁' hi'
  · exact hl.row_lt
  · intro i e₁ r hi hr
    obtain ⟨e₁', hi', heq₁⟩ := hback hi
    exact hl.below i e₁' r hi' (heq₁.trans hr)

theorem Marked.answered (hm : Marked h) {e : WriteHisEntry}
    (he : e.valid = true ∨ e.reserved = false) (n : Nat) : Marked (h.answered e n) where
  reserved := by
    intro i e' hi hv hr
    rcases answered_at hi with ⟨rfl, rfl⟩ | ⟨hne, hi⟩
    · rcases he with he | he
      · exact absurd (hv.symm.trans he) Bool.false_ne_true
      · exact absurd (he.symm.trans hr) Bool.false_ne_true
    · exact absurd (hm.reserved i e' hi hv hr).2 hne
  prewrite := nofun

/-- The announced write is published. -/
theorem Keeps.publish (hk : Keeps h data versions)
    (hat : h.At h.prewriteHisId ⟨false, true, ts, some row⟩) (hnew : ∀ v ∈ versions, v.1 < ts) :
    Keeps (h.answered ⟨true, true, ts, some row⟩ (h.numVersions + 1)) data
      ((ts, data row) :: versions) where
  long := by
    rw [show (h.answered _ _).hisLen = h.hisLen from List.length_set]
    exact hk.long
  layout := hk.layout.answered hat rfl _
  holding :=
    { base := List.mem_cons_of_mem _ hk.holding.base
      valid := by
        intro i e hi hv
        rcases answered_at hi with ⟨-, rfl⟩ | ⟨-, hi⟩
        · exact ⟨row, rfl, List.mem_cons_self .., hnew _ hk.holding.base⟩
        · obtain ⟨r, hr, hmem, hlt⟩ := hk.holding.valid i e hi hv
          exact ⟨r, hr, List.mem_cons_of_mem _ hmem, hlt⟩
      complete := by
        intro v hv hlt
        rcases List.mem_cons.mp hv with rfl | hmem
        · exact ⟨_, _, List.getElem?_set_self (List.getElem?_eq_some_iff.mp hat).1, rfl, rfl⟩
        · obtain ⟨i, e, hi, hv', hts⟩ := hk.holding.complete v hmem hlt
          exact ⟨i, e, at_answered (Keeps.ne_of_valid hat hi hv') hi, hv', hts⟩
      once := by
        have hold : ∀ {i e}, h.At i e → e.valid = true → e.ts < ts := by
          intro i e hi hv
          obtain ⟨r, -, hmem, -⟩ := hk.holding.valid i e hi hv
          exact hnew _ hmem
        intro i j e e' hi hj hv hv' hts
        rcases answered_at hi with ⟨rfl, rfl⟩ | ⟨-, hi⟩
        · rcases answered_at hj with ⟨rfl, -⟩ | ⟨-, hj⟩
          · rfl
          · exact absurd (hold hj hv') (hts ▸ Nat.lt_irrefl _)
        · rcases answered_at hj with ⟨rfl, rfl⟩ | ⟨-, hj⟩
          · exact absurd (hold hi hv) (hts ▸ Nat.lt_irrefl _)
          · exact hk.holding.once i j e e' hi hj hv hv' hts
      count := by
        obtain ⟨hlt, hget⟩ := List.getElem?_eq_some_iff.mp hat
        show h.numVersions + 1 =
          (h.entries.set h.prewriteHisId ⟨true, true, ts, some row⟩).countP (·.valid)
        rw [List.countP_set hlt, hget, hk.holding.count]
        simp }
  marked := hk.marked.answered (.inl rfl) _

/-- The announced write is given up. -/
theorem Keeps.release (hk : Keeps h data versions)
    (hat : h.At h.prewriteHisId ⟨false, true, ts, some row⟩) :
    Keeps (h.answered ⟨false, false, ts, some row⟩ h.numVersions) data versions := by
  have hback : ∀ {i e}, (h.answered ⟨false, false, ts, some row⟩ h.numVersions).At i e →
      e.valid = true → h.At i e := by
    intro i e hi hv
    rcases answered_at hi with ⟨-, rfl⟩ | ⟨-, hi⟩
    · cases hv
    · exact hi
  constructor
  · rw [show (h.answered _ _).hisLen = h.hisLen from List.length_set]
    exact hk.long
  · exact hk.layout.answered hat rfl _
  · constructor
    · exact hk.holding.base
    · exact fun i e hi hv => hk.holding.valid i e (hback hi hv) hv
    · intro v hv hlt
      obtain ⟨i, e, hi, hv', hts⟩ := hk.holding.complete v hv hlt
      exact ⟨i, e, at_answered (Keeps.ne_of_valid hat hi hv') hi, hv', hts⟩
    · exact fun i j e e' hi hj hv hv' =>
        hk.holding.once i j e e' (hback hi hv) (hback hj hv') hv hv'
    · obtain ⟨hlt, hget⟩ := List.getElem?_eq_some_iff.mp hat
      show h.numVersions =
        (h.entries.set h.prewriteHisId ⟨false, false, ts, some row⟩).countP (·.valid)
      rw [List.countP_set hlt, hget, hk.holding.count]
      simp
  · exact hk.marked.answered (.inr rfl) _

/-- The versions stay where they are. -/
theorem holds_answered (hat : h.At h.prewriteHisId ⟨false, true, ts, some row⟩) {w r n : Nat}
    {e : WriteHisEntry} (hr : h.Holds w r) : (h.answered e n).Holds w r := by
  rcases hr with hbase | ⟨i, e', hi, hv, hrest⟩
  · exact .inl hbase
  · exact .inr ⟨i, e', at_answered (Keeps.ne_of_valid hat hi hv) hi, hv, hrest⟩

theorem holds_published (hat : h.At h.prewriteHisId ⟨false, true, ts, some row⟩) (n : Nat) :
    (h.answered ⟨true, true, ts, some row⟩ n).Holds ts row :=
  .inr ⟨_, _, List.getElem?_set_self (List.getElem?_eq_some_iff.mp hat).1, rfl, rfl, rfl⟩

end Answer

end Keeps

end VeriTxn.Mvcc
