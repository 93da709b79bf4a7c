import VeriTxn.TictocRuns

/-!
# Calls to a TicToc row

A call may take several steps of the row, with steps of other threads in between.  Each kind of call
has one lemma about a step of it: what the step does to the two timestamps, and what the word is when
the call returns.
-/

namespace VeriTxn.Tictoc

open Lease Serial Transition

/-! ### Calls to a row -/

section Calls

variable {T : Type} {v : Nat}

theorem wtsOf_le_getRts (v : Nat) : wtsOf v ≤ getRts v := Nat.le_add_left ..

theorem wtsOf_set (h : v < 2 ^ 63) : wtsOf (v ||| lockBit) = wtsOf v := by
  rw [set_lockBit h, wtsOf_eq, wtsOf_eq]
  omega

theorem wtsOf_clear (v : Nat) : wtsOf (v &&& compl64 lockBit) = wtsOf v := by
  rw [clear_lockBit, wtsOf_eq, wtsOf_eq]
  omega

theorem written_timestamps {wts : Nat} (h : wts < 2 ^ 48) :
    wtsOf (2 ^ 63 + wts) = wts ∧ getRts (2 ^ 63 + wts) = wts := by
  rw [wtsOf_eq, getRts_eq]
  omega

theorem pack_timestamps {wts delta : Nat} (h : wts < 2 ^ 48) : wtsOf (pack wts delta) = wts := by
  rw [pack_eq h, wtsOf_eq]
  omega

/-- In `lock` or `try_lock`, or before it. -/
def Thread.Locking : Thread → Prop
  | .idle | .lockLoad | .lockCas _ | .tryLockLoad | .tryLockCas _ => True
  | _ => False

/-- In `release`, or before it. -/
def Thread.Releasing : Thread → Prop
  | .held | .heldRts _ | .releaseLoad | .releaseStore _ => True
  | _ => False

/-- In `write_data(data, c)`, or before it. -/
def Thread.Writing (c : Nat) : Thread → Prop
  | .held | .heldRts _ => True
  | .writeLoad wts | .writeStore wts _ => wts = c
  | _ => False

/-- In `try_renew(wts, c)`: the word that was loaded has the write timestamp `wts`. -/
def Thread.Renewing (wts c : Nat) : Thread → Prop
  | .renewLoad wts' rts => wts' = wts ∧ rts = c
  | .renewCas wts' rts rebase v v2 =>
      rts = c ∧ wtsOf v = wts ∧ wtsOf v2 = wts' ∧ wts ≤ wts' ∧ (rebase = false → wts' = wts)
  | _ => False

variable [DecidableEq T] {row row' : Row T} {t : T}

def Action.thd : Action T → T
  | .tryRenew t _ _ | .lock t | .tryLock t | .getRts t | .writeData t _ | .release t | .work t => t

/-- A step moves its own thread. -/
theorem step_goto {a : Action T} (h : row.step a = some row') :
    ∃ th word leases, row' = { row.goto a.thd th with word := word, leases := leases } := by
  cases a with
  | tryRenew t wts rts | lock t | tryLock t | getRts t =>
      simp only [Row.step] at h
      split at h
      · cases h
        exact ⟨_, _, _, rfl⟩
      · cases h
  | writeData t wts =>
      simp only [Row.step] at h
      split at h
      · split at h
        · cases h
          exact ⟨_, _, _, rfl⟩
        · cases h
      · cases h
  | release t =>
      simp only [Row.step] at h
      split at h
      · cases h
        exact ⟨_, _, _, rfl⟩
      · cases h
        exact ⟨_, _, _, rfl⟩
      · cases h
  | work t =>
      simp only [Row.step, Row.work] at h
      split at h
      · cases h
      · cases h
      · cases h
      · split at h <;> cases h <;> exact ⟨_, _, _, rfl⟩
      · split at h
        · cases h
          exact ⟨_, _, _, rfl⟩
        · split at h
          · cases h
            exact ⟨_, _, _, rfl⟩
          · split at h <;> cases h <;> exact ⟨_, _, _, rfl⟩
      · cases h
        exact ⟨_, _, _, rfl⟩
      · split at h <;> cases h <;> exact ⟨_, _, _, rfl⟩
      · cases h
        exact ⟨_, _, _, rfl⟩
      · split at h <;> cases h <;> exact ⟨_, _, _, rfl⟩
      · cases h
        exact ⟨_, _, _, rfl⟩
      · cases h
        exact ⟨_, _, _, rfl⟩
      · cases h
        exact ⟨_, _, _, rfl⟩
      · cases h
        exact ⟨_, _, _, rfl⟩

theorem step_others {a : Action T} (h : row.step a = some row') {u : T} (hu : u ≠ a.thd) :
    row'.threads u = row.threads u := by
  obtain ⟨th, word, leases, rfl⟩ := step_goto h
  exact Row.goto_of_ne hu

/-- A step of `lock` or `try_lock` takes the lock of an unlocked word, or leaves the word. -/
theorem lock_spec (h : Wf row) (hth : (row.threads t).Locking) {noWait : Bool}
    (hcall : row.call t Thread.isIdle (if noWait then .tryLock t else .lock t) = some row') :
    (row'.word = row.word ∧ (row'.threads t).Locking) ∨
    (row.word < 2 ^ 63 ∧ row'.word = row.word ||| lockBit ∧ row'.threads t = .held) := by
  unfold Row.call at hcall
  have hok := h.ok t
  cases hcase : row.threads t with
  | idle =>
      rw [hcase, if_pos (by rfl)] at hcall
      left
      cases noWait with
      | true =>
          simp only [if_true, Row.step, hcase] at hcall
          cases hcall
          exact ⟨rfl, by rw [Row.goto_self]; trivial⟩
      | false =>
          simp only [Bool.false_eq_true, if_false, if_true, Row.step, hcase] at hcall
          cases hcall
          exact ⟨rfl, by rw [Row.goto_self]; trivial⟩
  | lockLoad | tryLockLoad =>
      rw [hcase, if_neg (by decide)] at hcall
      simp only [Row.step, Row.work, hcase] at hcall
      cases hcall
      left
      refine ⟨rfl, ?_⟩
      rw [Row.goto_self]
      split <;> trivial
  | lockCas v | tryLockCas v =>
      rw [hcase] at hok
      rw [hcase, if_neg (by exact Bool.false_ne_true)] at hcall
      simp only [Row.step, Row.work, hcase] at hcall
      split at hcall
      · rename_i heq
        cases hcall
        right
        subst heq
        exact ⟨hok, rfl, Row.goto_self ..⟩
      · cases hcall
        left
        exact ⟨rfl, by rw [Row.goto_self]; trivial⟩
  | held | heldRts rts | writeLoad wts | writeStore wts v | releaseLoad | releaseStore v
  | renewLoad wts rts | renewCas wts rts rebase v v2 =>
      rw [hcase] at hth
      exact hth.elim

/-- A step of `release` clears the lock bit, or leaves the word. -/
theorem release_spec (h : Wf row) (hth : (row.threads t).Releasing)
    (hcall : row.call t Thread.isHeld (.release t) = some row') :
    (row'.word = row.word ∧ (row'.threads t).Releasing ∧ (row'.threads t).isIdle = false) ∨
    (row'.word = row.word &&& compl64 lockBit ∧ row'.threads t = .idle) := by
  unfold Row.call at hcall
  have hok := h.ok t
  cases hcase : row.threads t with
  | held | heldRts rts =>
      rw [hcase, if_pos (by rfl)] at hcall
      simp only [Row.step, hcase] at hcall
      cases hcall
      left
      refine ⟨rfl, ?_⟩
      rw [Row.goto_self]
      exact ⟨trivial, rfl⟩
  | releaseLoad =>
      rw [hcase, if_neg (by exact Bool.false_ne_true)] at hcall
      simp only [Row.step, Row.work, hcase] at hcall
      cases hcall
      left
      refine ⟨rfl, ?_⟩
      rw [Row.goto_self]
      exact ⟨trivial, rfl⟩
  | releaseStore v =>
      rw [hcase] at hok
      rw [hcase, if_neg (by exact Bool.false_ne_true)] at hcall
      simp only [Row.step, Row.work, hcase] at hcall
      cases hcall
      obtain rfl : v = row.word := hok
      exact .inr ⟨rfl, Row.goto_self ..⟩
  | idle | lockLoad | lockCas v | tryLockLoad | tryLockCas v | writeLoad wts | writeStore wts v
  | renewLoad wts rts | renewCas wts rts rebase v v2 =>
      rw [hcase] at hth
      exact hth.elim

/-- A step of `write_data` stores the timestamp, which is behind the lease, or leaves the word. -/
theorem write_spec (h : Wf row) {c : Nat} (hth : (row.threads t).Writing c)
    (hcall : row.call t Thread.isHeld (.writeData t c) = some row') :
    (row'.word = row.word ∧ (row'.threads t).Writing c ∧ (row'.threads t).isHeld = false) ∨
    (row'.word = 2 ^ 63 + c ∧ c < 2 ^ 48 ∧ row'.threads t = .held) := by
  unfold Row.call at hcall
  have hok := h.ok t
  cases hcase : row.threads t with
  | held =>
      rw [hcase, if_pos (by rfl)] at hcall
      simp only [Row.step, hcase] at hcall
      cases hcall
  | heldRts rts =>
      rw [hcase, if_pos (by rfl)] at hcall
      simp only [Row.step, hcase] at hcall
      split at hcall
      · cases hcall
        left
        refine ⟨rfl, ?_⟩
        rw [Row.goto_self]
        exact ⟨rfl, rfl⟩
      · cases hcall
  | writeLoad wts =>
      rw [hcase] at hth
      obtain rfl : wts = c := hth
      rw [hcase, if_neg (by exact Bool.false_ne_true)] at hcall
      simp only [Row.step, Row.work, hcase] at hcall
      cases hcall
      left
      refine ⟨rfl, ?_⟩
      rw [Row.goto_self]
      exact ⟨rfl, rfl⟩
  | writeStore wts v =>
      rw [hcase] at hth hok
      obtain rfl : wts = c := hth
      obtain rfl : v = row.word := hok.1
      obtain ⟨hword, -, hwts⟩ := h.write_eq hcase
      rw [hcase, if_neg (by exact Bool.false_ne_true)] at hcall
      simp only [Row.step, Row.work, hcase] at hcall
      cases hcall
      exact .inr ⟨hword, hwts, Row.goto_self ..⟩
  | idle | lockLoad | lockCas v | tryLockLoad | tryLockCas v | releaseLoad | releaseStore v
  | renewLoad wts rts | renewCas wts rts rebase v v2 =>
      rw [hcase] at hth
      exact hth.elim

/-- `try_renew` up to its loop: a lease is there if it returns true. -/
theorem renewStart_renewing {wts c : Nat} (hle : wts ≤ c) (hc : c < 2 ^ 48) :
    renewStart wts c v = .inl false ∨
    (renewStart wts c v = .inl true ∧ wtsOf v = wts ∧ c ≤ getRts v) ∨
    ∃ th, renewStart wts c v = .inr th ∧ th.Renewing wts c ∧ th.isIdle = false := by
  have hrts : getRts v = deltaOf v + wtsOf v := rfl
  unfold renewStart
  split
  · rename_i hlease
    refine .inr (.inl ⟨rfl, hlease.1, ?_⟩)
    omega
  · split
    · exact .inl rfl
    · split
      · exact .inl rfl
      · rename_i hsame
        have hwts : wtsOf v = wts := (Decidable.not_not.mp hsame).symm
        dsimp only
        split
        · refine .inr (.inl ⟨rfl, hwts, ?_⟩)
          omega
        · split
          · refine .inr (.inr ⟨_, rfl, ⟨rfl, hwts, pack_timestamps ?_, ?_, nofun⟩, rfl⟩)
            · rw [and_high (by omega)]
              omega
            · omega
          · refine .inr (.inr ⟨_, rfl, ⟨rfl, hwts, pack_timestamps ?_, Nat.le_refl _, fun _ => rfl⟩,
              rfl⟩)
            omega

/-- A step of `try_renew` swaps in a word with the lease, finds one, fails or goes on. -/
theorem renew_spec (h : Wf row) {wts c : Nat} (hth : (row.threads t).Renewing wts c)
    (hstep : row.step (.work t) = some row') :
    (row'.word = row.word ∧ (row'.threads t).Renewing wts c ∧ (row'.threads t).isIdle = false) ∨
    (row'.word = row.word ∧ row'.threads t = .idle ∧ row'.leases = row.leases) ∨
    (row'.word = row.word ∧ row'.threads t = .idle ∧ wtsOf row.word = wts ∧
      c ≤ getRts row.word) ∨
    (row.word < 2 ^ 63 ∧ wtsOf row.word = wts ∧ row'.threads t = .idle ∧
      getRts row'.word = c ∧ wts ≤ wtsOf row'.word ∧
      ∃ wts' rebase v2, row.threads t = .renewCas wts' c rebase row.word v2) := by
  have hok := h.ok t
  cases hcase : row.threads t with
  | renewLoad wts' rts =>
      rw [hcase] at hth hok
      obtain ⟨rfl, rfl⟩ := hth
      simp only [Row.step, Row.work, hcase] at hstep
      rcases renewStart_renewing (v := row.word) hok.1 hok.2 with heq | ⟨heq, hwts, hrts⟩ |
        ⟨th, heq, hth, hbusy⟩
      · rw [heq] at hstep
        cases hstep
        exact .inr (.inl ⟨rfl, Row.goto_self .., rfl⟩)
      · rw [heq] at hstep
        cases hstep
        exact .inr (.inr (.inl ⟨rfl, Row.goto_self .., hwts, hrts⟩))
      · rw [heq] at hstep
        cases hstep
        left
        rw [Row.goto_self]
        exact ⟨rfl, hth, hbusy⟩
  | renewCas wts' rts rebase v v2 =>
      rw [hcase] at hth hok
      obtain ⟨rfl, hv, hv2, hle, hrebase⟩ := hth
      obtain ⟨-, hlt, -, -, hrts⟩ := hok
      simp only [Row.step, Row.work, hcase] at hstep
      split at hstep
      · rename_i heq
        cases hstep
        subst heq
        exact .inr (.inr (.inr ⟨hlt, hv, Row.goto_self .., hrts, hv2 ▸ hle, _, _, _, rfl⟩))
      · split at hstep
        · cases hstep
          exact .inr (.inl ⟨rfl, Row.goto_self .., rfl⟩)
        · rename_i hsame
          simp only [not_or, Decidable.not_not] at hsame
          have hwts : wts' = wts := hrebase (Bool.of_not_eq_true hsame.1)
          split at hstep
          · rename_i hlease
            cases hstep
            refine .inr (.inr (.inl ⟨rfl, Row.goto_self .., hsame.2.2.symm.trans hwts, ?_⟩))
            rw [getRts]
            omega
          · cases hstep
            left
            rw [Row.goto_self]
            exact ⟨rfl, ⟨rfl, hsame.2.2.symm.trans hwts, hv2, hle, hrebase⟩, rfl⟩
  | idle | lockLoad | lockCas v | tryLockLoad | tryLockCas v | releaseLoad | releaseStore v
  | held | heldRts rts | writeLoad wts' | writeStore wts' v =>
      rw [hcase] at hth
      exact hth.elim

end Calls

end VeriTxn.Tictoc
