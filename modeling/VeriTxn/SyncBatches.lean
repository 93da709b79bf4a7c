import VeriTxn.Types
import VeriTxn.Transition
import Mathlib.Logic.Function.Basic

/-!
# Batches of version broadcasts

`IndexEnc::sync_version` with `updated`, for one bucket and any number of threads.  The addition to
`batch_cnt` is atomic, but the call that finds the batch full sends the hash and then stores 0,
whatever has been added in between.
-/

namespace VeriTxn.SyncBatch

open Transition

/-- `SYNC_VERSION_BATCH`. -/
def syncVersionBatch : Nat := 16

/-- Where a thread is in `sync_version`: outside, before `async_hash_value`, before the reset. -/
inductive Call where
  | idle
  | full
  | sent
deriving DecidableEq

/-- `batch_cnt`, the calls of the threads, the hashes sent, and the calls completed. -/
structure Sys (T : Type) where
  batchCnt : Nat
  call : T → Call
  broadcasts : Nat
  completed : Nat

inductive Action (T : Type) where
  | add (t : T)
  | send (t : T)
  | reset (t : T)

section

variable {T : Type} [DecidableEq T]

def Sys.init : Sys T := ⟨0, fun _ => .idle, 0, 0⟩

/-- A step of `sync_version`, for batches of that size. -/
def step (batch : Nat) (s : Sys T) : Action T → Option (Sys T)
  | .add t =>
      if s.call t ≠ .idle then none
      else
        let curCnt := wrap64 (s.batchCnt + 1)
        if curCnt ≠ batch then some { s with batchCnt := curCnt, completed := s.completed + 1 }
        else some { s with batchCnt := curCnt, call := Function.update s.call t .full }
  | .send t =>
      if s.call t ≠ .full then none
      else some { s with
        broadcasts := s.broadcasts + 1, call := Function.update s.call t .sent }
  | .reset t =>
      if s.call t ≠ .sent then none
      else some { s with
        batchCnt := 0, completed := s.completed + 1, call := Function.update s.call t .idle }

/-- No call is under way. -/
def Sys.Quiet (s : Sys T) : Prop := ∀ t, s.call t = .idle

/-- After `n` calls `n / batch` hashes are sent, and the rest is in the counter. -/
def Sys.Counted (batch : Nat) (s : Sys T) : Prop :=
  s.broadcasts = s.completed / batch ∧ s.batchCnt = s.completed % batch

/-- An addition does not fall between a full batch and its reset. -/
def Undisturbed (batch : Nat) (s : Sys T) : Action T → Prop
  | .add _ => s.batchCnt ≠ batch
  | _ => True

instance (batch : Nat) (s : Sys T) : ∀ a, Decidable (Undisturbed batch s a)
  | .add _ => inferInstanceAs (Decidable (_ ≠ _))
  | .send _ => .isTrue trivial
  | .reset _ => .isTrue trivial

/-! ### Additions that are lost -/

/-- The state of the bucket when so many additions were lost.  At most one call has found the batch
    full; while its reset is due the counter is not below the batch. -/
inductive Shape (batch : Nat) (s : Sys T) (lost : Nat) : Prop where
  | quiet (hidle : s.Quiet) (hlt : s.batchCnt < batch)
      (hcount : s.broadcasts * batch + s.batchCnt + lost = s.completed)
  | full (t : T) (hcall : s.call t = .full) (hothers : ∀ u, u ≠ t → s.call u = .idle)
      (hge : batch ≤ s.batchCnt) (hzero : lost = 0 → s.batchCnt = batch)
      (hcount : s.broadcasts * batch + batch + lost = s.completed + 1)
  | sent (t : T) (hcall : s.call t = .sent) (hothers : ∀ u, u ≠ t → s.call u = .idle)
      (hge : batch ≤ s.batchCnt) (hzero : lost = 0 → s.batchCnt = batch)
      (hcount : s.broadcasts * batch + lost = s.completed + 1)

variable {batch lost : Nat} {s s' : Sys T}

omit [DecidableEq T] in
theorem shape_init (hpos : 0 < batch) : Shape batch (Sys.init : Sys T) 0 := by
  apply Shape.quiet
  · intro t
    rfl
  · exact hpos
  · simp [Sys.init]

/-- An addition while a reset is due is lost. -/
theorem add_lost {t : T} (hge : batch ≤ s.batchCnt) (hfit : s.batchCnt + 1 < 2 ^ 64)
    (hstep : step batch s (.add t) = some s') :
    s' = { s with batchCnt := s.batchCnt + 1, completed := s.completed + 1 } := by
  have hwrap : wrap64 (s.batchCnt + 1) = s.batchCnt + 1 := Nat.mod_eq_of_lt hfit
  rw [step] at hstep
  split at hstep
  · cases hstep
  · simp only [hwrap] at hstep
    rw [if_pos (by omega), Option.some.injEq] at hstep
    exact hstep.symm

theorem Shape.add (h : Shape batch s lost) {t : T} (hfit : s.batchCnt + 1 < 2 ^ 64)
    (hstep : step batch s (.add t) = some s') :
    ∃ lost', Shape batch s' lost' ∧ (lost' = 0 ↔ lost = 0 ∧ s.batchCnt ≠ batch) := by
  have hwrap : wrap64 (s.batchCnt + 1) = s.batchCnt + 1 := Nat.mod_eq_of_lt hfit
  rcases h with ⟨hidle, hlt, hcount⟩ | ⟨u, hcall, hothers, hge, hzero, hcount⟩ |
    ⟨u, hcall, hothers, hge, hzero, hcount⟩
  · refine ⟨lost, ?_, by omega⟩
    rw [step, if_neg (by simp [hidle t])] at hstep
    simp only [hwrap] at hstep
    split at hstep
    · rename_i hmore
      cases hstep
      apply Shape.quiet
      · exact hidle
      · change s.batchCnt + 1 < batch
        omega
      · change s.broadcasts * batch + (s.batchCnt + 1) + lost = s.completed + 1
        omega
    · rename_i hlast
      rw [not_not] at hlast
      cases hstep
      refine Shape.full t (Function.update_self ..) ?_ (Nat.le_of_eq hlast.symm) (fun _ => hlast) ?_
      · intro u hu
        exact (Function.update_of_ne hu ..).trans (hidle u)
      · change s.broadcasts * batch + batch + lost = s.completed + 1
        omega
  · rw [add_lost hge hfit hstep]
    refine ⟨lost + 1, Shape.full u hcall hothers (Nat.le_succ_of_le hge) (by omega) ?_, by omega⟩
    change s.broadcasts * batch + batch + (lost + 1) = s.completed + 1 + 1
    omega
  · rw [add_lost hge hfit hstep]
    refine ⟨lost + 1, Shape.sent u hcall hothers (Nat.le_succ_of_le hge) (by omega) ?_, by omega⟩
    change s.broadcasts * batch + (lost + 1) = s.completed + 1 + 1
    omega

theorem Shape.send (h : Shape batch s lost) {t : T} (hstep : step batch s (.send t) = some s') :
    Shape batch s' lost := by
  rw [step] at hstep
  split at hstep
  · cases hstep
  rename_i hfull
  rw [not_not] at hfull
  cases hstep
  rcases h with ⟨hidle, -, -⟩ | ⟨u, hcall, hothers, hge, hzero, hcount⟩ | ⟨u, hcall, hothers, -⟩
  · rw [hidle t] at hfull
    cases hfull
  · have htu : t = u := by
      by_contra hne
      rw [hothers t hne] at hfull
      cases hfull
    subst htu
    refine Shape.sent t (Function.update_self ..) ?_ hge hzero ?_
    · intro v hv
      exact (Function.update_of_ne hv ..).trans (hothers v hv)
    · change (s.broadcasts + 1) * batch + lost = s.completed + 1
      rw [Nat.succ_mul]
      exact hcount
  · by_cases htu : t = u
    · rw [htu, hcall] at hfull
      cases hfull
    · rw [hothers t htu] at hfull
      cases hfull

theorem Shape.reset (h : Shape batch s lost) (hpos : 0 < batch) {t : T}
    (hstep : step batch s (.reset t) = some s') : Shape batch s' lost := by
  rw [step] at hstep
  split at hstep
  · cases hstep
  rename_i hsent
  rw [not_not] at hsent
  cases hstep
  rcases h with ⟨hidle, -, -⟩ | ⟨u, hcall, hothers, -⟩ | ⟨u, hcall, hothers, hge, hzero, hcount⟩
  · rw [hidle t] at hsent
    cases hsent
  · by_cases htu : t = u
    · rw [htu, hcall] at hsent
      cases hsent
    · rw [hothers t htu] at hsent
      cases hsent
  · have htu : t = u := by
      by_contra hne
      rw [hothers t hne] at hsent
      cases hsent
    subst htu
    apply Shape.quiet
    · intro v
      by_cases hv : v = t
      · subst hv
        exact Function.update_self ..
      · exact (Function.update_of_ne hv ..).trans (hothers v hv)
    · exact hpos
    · change s.broadcasts * batch + 0 + lost = s.completed + 1
      omega

/-- A step adds at most 1 to the counter. -/
theorem batchCnt_step {a : Action T} (hstep : step batch s a = some s') :
    s'.batchCnt ≤ s.batchCnt + 1 := by
  have hle : wrap64 (s.batchCnt + 1) ≤ s.batchCnt + 1 := Nat.mod_le ..
  cases a with
  | add t =>
      rw [step] at hstep
      split at hstep
      · cases hstep
      · dsimp only at hstep
        split at hstep
        · cases hstep
          exact hle
        · cases hstep
          exact hle
  | send t =>
      rw [step] at hstep
      split at hstep
      · cases hstep
      · cases hstep
        exact Nat.le_succ _
  | reset t =>
      rw [step] at hstep
      split at hstep
      · cases hstep
      · cases hstep
        exact Nat.zero_le _

/-- In a run nothing is lost if and only if no step is disturbed. -/
theorem Shape.run (hpos : 0 < batch) {as : List (Action T)} (h : Shape batch s lost)
    (hfit : s.batchCnt + as.length < 2 ^ 64) (hrun : runs (step batch) s as = some s') :
    ∃ lost', Shape batch s' lost' ∧
      (lost' = 0 ↔ lost = 0 ∧ AllSteps (step batch) (Undisturbed batch) s as) := by
  induction as generalizing s lost with
  | nil =>
      cases hrun
      exact ⟨lost, h, by simp [AllSteps]⟩
  | cons a as ih =>
      obtain ⟨s₁, hfirst, hrest⟩ := runs_cons_eq_some.mp hrun
      rw [List.length_cons] at hfit
      have hone : ∃ lost₁, Shape batch s₁ lost₁ ∧
          (lost₁ = 0 ↔ lost = 0 ∧ Undisturbed batch s a) := by
        cases a with
        | add t => exact h.add (by omega) hfirst
        | send t => exact ⟨lost, h.send hfirst, by simp [Undisturbed]⟩
        | reset t => exact ⟨lost, h.reset hpos hfirst, by simp [Undisturbed]⟩
      obtain ⟨lost₁, h₁, hlost₁⟩ := hone
      have hcnt := batchCnt_step hfirst
      obtain ⟨lost', h', hlost'⟩ := ih h₁ (by omega) hrest
      refine ⟨lost', h', hlost'.trans ?_⟩
      constructor
      · rintro ⟨hzero, hall⟩
        obtain ⟨hzero, hone⟩ := hlost₁.mp hzero
        refine ⟨hzero, hone, ?_⟩
        intro s₂ hs₂
        rw [hfirst, Option.some.injEq] at hs₂
        exact hs₂ ▸ hall
      · rintro ⟨hzero, hone, hall⟩
        exact ⟨hlost₁.mpr ⟨hzero, hone⟩, hall s₁ hfirst⟩

/-- **The broadcasts are counted if and only if no addition fell between a full batch and its
    reset**, in a state where no call is under way. -/
theorem broadcasts_counted_iff (hpos : 0 < batch) {as : List (Action T)}
    (hlength : as.length < 2 ^ 64) (hrun : runs (step batch) Sys.init as = some s)
    (hquiet : s.Quiet) :
    s.Counted batch ↔ AllSteps (step batch) (Undisturbed batch) Sys.init as := by
  obtain ⟨lost, hshape, hlost⟩ := (shape_init hpos).run hpos (by simpa [Sys.init] using hlength) hrun
  rw [← true_and (AllSteps ..), ← eq_self_iff_true (0 : Nat), ← hlost]
  rcases hshape with ⟨-, hlt, hcount⟩ | ⟨t, hcall, -⟩ | ⟨t, hcall, -⟩
  · have hdiv : (s.broadcasts * batch + s.batchCnt) / batch = s.broadcasts := by
      rw [Nat.add_comm, Nat.add_mul_div_right _ _ hpos, Nat.div_eq_of_lt hlt, Nat.zero_add]
    have hmod : (s.broadcasts * batch + s.batchCnt) % batch = s.batchCnt := by
      rw [Nat.add_comm, Nat.add_mul_mod_self_right, Nat.mod_eq_of_lt hlt]
    constructor
    · rintro ⟨hbroadcasts, hbatch⟩
      have hsplit := Nat.div_add_mod s.completed batch
      rw [← hbroadcasts, ← hbatch, Nat.mul_comm] at hsplit
      omega
    · rintro rfl
      rw [Nat.add_zero] at hcount
      rw [Sys.Counted, ← hcount, hdiv, hmod]
      exact ⟨rfl, rfl⟩
  · rw [hquiet t] at hcall
    cases hcall
  · rw [hquiet t] at hcall
    cases hcall

end

/-- The 16 updates of one thread make one broadcast. -/
def fullBatch : List (Action Bool) :=
  List.replicate 16 (.add false) ++ [.send false, .reset false]

theorem broadcasts_counted_iff_one_batch :
    ∃ s, runs (step syncVersionBatch) Sys.init fullBatch = some s ∧
      (s.Counted syncVersionBatch ↔
        AllSteps (step syncVersionBatch) (Undisturbed syncVersionBatch) Sys.init fullBatch) :=
  ⟨_, rfl, broadcasts_counted_iff (by decide) (by decide)
    (show runs _ _ fullBatch = some _ from rfl) (by unfold Sys.Quiet; decide)⟩

/-- Another thread adds its update before the reset, and the next broadcast comes too late. -/
def lostUpdate : List (Action Bool) :=
  List.replicate 16 (.add false) ++ [.add true, .send false, .reset false]

theorem added_update_is_lost :
    ∃ s, runs (step syncVersionBatch) Sys.init lostUpdate = some s ∧ s.Quiet ∧ s.completed = 17 ∧
      s.broadcasts = 1 ∧ s.batchCnt = 0 ∧ ¬ s.Counted syncVersionBatch :=
  ⟨_, rfl, by unfold Sys.Quiet; decide, rfl, rfl, rfl, by unfold Sys.Counted; decide⟩

end VeriTxn.SyncBatch
