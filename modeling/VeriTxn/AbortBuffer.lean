import VeriTxn.Transition
import VeriTxn.Types
import Mathlib.Algebra.Order.Group.Nat
import Mathlib.Data.List.Perm.Basic
import Mathlib.Data.List.Count

/-!
# The abort buffer

`thread_t::run` puts the query of an aborted transaction into a buffer with a time from which it may
be run again.  `generate_txn_for_run` takes one whose time has come, waits when the buffer is full
of others, and otherwise fetches the next query of the thread's queue.

The readings of the clock, the penalties, the outcomes and the other threads' `sim_done` are
arbitrary.  A query is named by its place in the queue.
-/

namespace VeriTxn.AbortBuffer

open Transition

/-- `ABORT_BUFFER_SIZE`, `WARMUP / g_thread_cnt` and `MAX_TXN_PER_PART`. -/
structure Config where
  size : Nat
  warmup : Nat
  maxTxn : Nat

/-- `AbortBufferEntry`. -/
structure Entry where
  query : Option Nat
  readyTime : UInt64
deriving DecidableEq

/-- The assertions of the two functions. -/
inductive Assertion where
  | emptySlots | trial | minReadyTime | txnCnt
deriving DecidableEq

/-- Where the thread is: in the loop of `generate_txn_for_run` with its `trial`, in the transaction
    of a query, behind the `return FINISH`, or at a failed assertion. -/
inductive Phase where
  | generating (trial : Nat)
  | executing (query : Nat)
  | returned
  | failed (a : Assertion)
deriving DecidableEq

/-- The thread's fields, its `q_idx`, the `txn_cnt` of its `run`, and what it has committed. -/
structure Worker where
  buffer : List Entry
  emptySlots : Nat
  qIdx : Nat
  txnCnt : Nat
  warmupFinish : Bool
  phase : Phase
  committed : List Nat

inductive Action where
  /-- An iteration of the loop of `generate_txn_for_run`. -/
  | look (currTime : UInt64)
  /-- `run_txn_ecall` returns, and the rest of the loop of `run`. -/
  | ends (rc : RC) (now penalty : UInt64) (simDone : Bool)
  /-- `run` is called again with `warmup_finish` set. -/
  | rerun

/-- The loop over the buffer from entry `i` on: the entry taken with its query, and
    `min_ready_time`. -/
def scan (emptySlots : Nat) (currTime : UInt64) :
    List Entry → (i : Nat) → (minReadyTime : UInt64) → Option (Nat × Nat) × UInt64
  | [], _, minReadyTime => (none, minReadyTime)
  | e :: es, i, minReadyTime =>
      match (if currTime > e.readyTime then e.query else none) with
      | some query => (some (i, query), minReadyTime)
      | none =>
          scan emptySlots currTime es (i + 1)
            (if emptySlots = 0 ∧ e.readyTime < minReadyTime then e.readyTime else minReadyTime)

/-- The loop that looks for an empty slot. -/
def put (query : Nat) (readyTime : UInt64) (s : Worker) : Worker :=
  match s.buffer.findIdx? (·.query = none) with
  | none => s
  | some i => { s with
      buffer := s.buffer.set i ⟨some query, readyTime⟩, emptySlots := s.emptySlots - 1 }

/-- The thread after `thread_t::init`, at the call of `run`. -/
def Worker.init (cfg : Config) (warmupFinish : Bool) : Worker :=
  ⟨List.replicate cfg.size ⟨none, 0⟩, cfg.size, 0, 0, warmupFinish, .generating 0, []⟩

/-- An iteration of the loop of `generate_txn_for_run`. -/
def look (cfg : Config) (s : Worker) (trial : Nat) (currTime : UInt64) : Worker :=
  let (taken, minReadyTime) :=
    if s.emptySlots < cfg.size then scan s.emptySlots currTime s.buffer 0 (.ofNat (2 ^ 64 - 1))
    else (none, .ofNat (2 ^ 64 - 1))
  match taken with
  | some (i, query) => { s with
      buffer := s.buffer.modify i fun e => { e with query := none }
      emptySlots := s.emptySlots + 1
      phase := .executing query }
  | none =>
      if s.emptySlots = 0 then
        if trial ≠ 0 then { s with phase := .failed .trial }
        else if minReadyTime < currTime then { s with phase := .failed .minReadyTime }
        else s
      else { s with qIdx := s.qIdx + 1, phase := .executing s.qIdx }

/-- The checks at the end of the loop of `run`. -/
def checks (cfg : Config) (s : Worker) (simDone : Bool) : Worker :=
  if ¬ s.warmupFinish ∧ cfg.warmup ≤ s.txnCnt then { s with phase := .returned }
  else if s.warmupFinish ∧ cfg.maxTxn ≤ s.txnCnt then
    if s.txnCnt = cfg.maxTxn then { s with phase := .returned }
    else { s with phase := .failed .txnCnt }
  else if simDone then { s with phase := .returned }
  else { s with phase := .generating 0 }

/-- A step of the thread. -/
def step (cfg : Config) (s : Worker) : Action → Option Worker
  | .look currTime =>
      match s.phase with
      | .generating trial => if trial < 2 then some (look cfg s trial currTime) else none
      | _ => none
  | .ends rc now penalty simDone =>
      match s.phase, rc with
      | .executing query, .rcok =>
          some (checks cfg { s with
            txnCnt := s.txnCnt + 1, committed := s.committed ++ [query] } simDone)
      | .executing query, .abort =>
          if s.emptySlots > 0 then some (checks cfg (put query (now + penalty) s) simDone)
          else some { s with phase := .failed .emptySlots }
      | _, _ => none
  | .rerun =>
      if s.phase = .returned ∧ ¬ s.warmupFinish then
        some { s with txnCnt := 0, warmupFinish := true, phase := .generating 0 }
      else none

/-- `request_cnt` of `Query_thd::init`. -/
def Config.requestCnt (cfg : Config) : Nat := cfg.warmup + cfg.maxTxn + 4 + cfg.size

/-! ### The entries -/

/-- The queries in the buffer. -/
def buffered (buffer : List Entry) : List Nat := buffer.filterMap Entry.query

/-- The entries with NULL. -/
def free (buffer : List Entry) : Nat := buffer.countP (·.query = none)

variable {buffer : List Entry}

theorem buffered_add_free (buffer : List Entry) :
    (buffered buffer).length + free buffer = buffer.length := by
  induction buffer with
  | nil => rfl
  | cons e es ih =>
      cases hquery : e.query with
      | none =>
          simp only [buffered, free] at ih
          simp [buffered, free, hquery]
          omega
      | some query =>
          simp only [buffered, free] at ih
          simp [buffered, free, hquery]
          omega

theorem exists_split {k : Nat} {e : Entry} (h : buffer[k]? = some e) :
    ∃ front back, buffer = front ++ e :: back ∧ front.length = k := by
  obtain ⟨hk, rfl⟩ := List.getElem?_eq_some_iff.mp h
  refine ⟨buffer.take k, buffer.drop (k + 1), ?_, ?_⟩
  · rw [List.getElem_cons_drop, List.take_append_drop]
  · rw [List.length_take]
    exact Nat.min_eq_left (Nat.le_of_lt hk)

theorem modify_length_append (front back : List Entry) (e : Entry) (f : Entry → Entry) :
    (front ++ e :: back).modify front.length f = front ++ f e :: back := by
  induction front with
  | nil => rfl
  | cons a front ih => rw [List.length_cons, List.cons_append, List.modify_succ_cons, ih]; rfl

/-- An entry taken leaves an empty slot. -/
theorem taken_spec {k query : Nat} {e : Entry} (h : buffer[k]? = some e)
    (hquery : e.query = some query) :
    (query :: buffered (buffer.modify k fun e => { e with query := none })).Perm (buffered buffer) ∧
      free (buffer.modify k fun e => { e with query := none }) = free buffer + 1 := by
  obtain ⟨front, back, rfl, rfl⟩ := exists_split h
  rw [modify_length_append]
  constructor
  · simpa [buffered, hquery] using List.perm_middle.symm
  · simp only [free, List.countP_append, List.countP_cons, hquery]
    simp
    omega

/-- An empty slot is filled. -/
theorem filled_spec (query : Nat) (readyTime : UInt64) {k : Nat} {e : Entry}
    (h : buffer[k]? = some e) (hquery : e.query = none) :
    (buffered (buffer.set k ⟨some query, readyTime⟩)).Perm (query :: buffered buffer) ∧
      free (buffer.set k ⟨some query, readyTime⟩) + 1 = free buffer := by
  obtain ⟨front, back, rfl, rfl⟩ := exists_split h
  constructor
  · simp [buffered, hquery]
  · simp only [free, List.set_append_right _ _ le_rfl, Nat.sub_self, List.set_cons_zero,
      List.countP_append, List.countP_cons, hquery]
    simp
    omega

/-! ### The loop over the buffer -/

theorem scan_taken {slots : Nat} {currTime minReadyTime : UInt64} {i k query : Nat}
    (h : (scan slots currTime buffer i minReadyTime).1 = some (k, query)) :
    ∃ j e, k = i + j ∧ buffer[j]? = some e ∧ e.query = some query := by
  induction buffer generalizing i minReadyTime with
  | nil => cases h
  | cons e es ih =>
      rw [scan] at h
      split at h
      · rename_i query' hready
        cases h
        split at hready
        · exact ⟨0, e, rfl, rfl, hready⟩
        · cases hready
      · obtain ⟨j, e', rfl, hentry, hquery⟩ := ih h
        exact ⟨j + 1, e', by omega, hentry, hquery⟩

/-- When the buffer is full and no time has come, `min_ready_time` is not before the clock. -/
theorem scan_min {currTime minReadyTime : UInt64} {i : Nat}
    (h : (scan 0 currTime buffer i minReadyTime).1 = none)
    (hfull : ∀ e ∈ buffer, e.query ≠ none) (hmin : ¬ minReadyTime < currTime) :
    ¬ (scan 0 currTime buffer i minReadyTime).2 < currTime := by
  induction buffer generalizing i minReadyTime with
  | nil => exact hmin
  | cons e es ih =>
      rw [scan] at h ⊢
      split at h
      · cases h
      · rename_i hready
        have hlate : ¬ currTime > e.readyTime := by
          intro htime
          rw [if_pos htime] at hready
          exact hfull e (List.mem_cons_self ..) hready
        refine ih h (fun e' he' => hfull e' (List.mem_cons_of_mem _ he')) ?_
        split
        · exact hlate
        · exact hmin

/-! ### The invariant -/

/-- The commits after which `run` returns. -/
def limit (cfg : Config) (s : Worker) : Nat := if s.warmupFinish then cfg.maxTxn else cfg.warmup

/-- The query being executed. -/
def Phase.queries : Phase → List Nat
  | .executing query => [query]
  | _ => []

/-- Where the queries are: committed, in the buffer, or being executed. -/
def Worker.places (s : Worker) : List Nat :=
  s.committed ++ buffered s.buffer ++ s.phase.queries

/-- The fields but for the phase: the queries with those of `rest` are the fetched ones. -/
structure Fields (cfg : Config) (s : Worker) (rest : List Nat) : Prop where
  size : s.buffer.length = cfg.size
  slots : s.emptySlots = free s.buffer
  places : (s.committed ++ buffered s.buffer ++ rest).Perm (List.range s.qIdx)
  commits : s.committed.length ≤ (if s.warmupFinish then max 1 cfg.warmup else 0) + s.txnCnt

/-- An active thread may commit once more; one at an assertion is at that on `txn_cnt`. -/
def PhaseOk (cfg : Config) (s : Worker) : Prop :=
  match s.phase with
  | .generating trial => trial = 0 ∧ s.txnCnt < max 1 (limit cfg s)
  | .executing _ => 0 < s.emptySlots ∧ s.txnCnt < max 1 (limit cfg s)
  | .returned => s.txnCnt ≤ max 1 (limit cfg s)
  | .failed a => a = .txnCnt ∧ cfg.maxTxn = 0 ∧ s.txnCnt ≤ max 1 (limit cfg s)

def Inv (cfg : Config) (s : Worker) : Prop := Fields cfg s s.phase.queries ∧ PhaseOk cfg s

variable {cfg : Config} {s s' : Worker}

theorem inv_init (cfg : Config) (warmupFinish : Bool) : Inv cfg (.init cfg warmupFinish) := by
  refine ⟨⟨by simp [Worker.init], ?_, ?_, Nat.zero_le _⟩, rfl, ?_⟩
  · simp [Worker.init, free, List.countP_replicate]
  · simp [Worker.init, buffered, Phase.queries]
  · exact lt_of_lt_of_le Nat.one_pos (le_max_left ..)

/-- The checks keep the fields, and let the thread go on only below its limit. -/
theorem Fields.checks (h : Fields cfg s []) (hcnt : s.txnCnt ≤ max 1 (limit cfg s))
    (simDone : Bool) : Inv cfg (checks cfg s simDone) := by
  rw [AbortBuffer.checks]
  split
  · exact ⟨⟨h.size, h.slots, h.places, h.commits⟩, hcnt⟩
  · rename_i hwarm
    split
    · rename_i hrun
      split
      · exact ⟨⟨h.size, h.slots, h.places, h.commits⟩, hcnt⟩
      · rename_i hne
        refine ⟨⟨h.size, h.slots, h.places, h.commits⟩, rfl, ?_, hcnt⟩
        rw [limit, if_pos hrun.1] at hcnt
        omega
    · rename_i hrun
      split
      · exact ⟨⟨h.size, h.slots, h.places, h.commits⟩, hcnt⟩
      · refine ⟨⟨h.size, h.slots, h.places, h.commits⟩, rfl, ?_⟩
        have hlt : s.txnCnt < limit cfg s := by
          rw [limit]
          cases hfinish : s.warmupFinish with
          | false => simp [hfinish] at hwarm ⊢; exact hwarm
          | true => simp [hfinish] at hrun ⊢; exact hrun
        exact lt_of_lt_of_le hlt (le_max_right ..)

/-- With an empty slot the query of an aborted transaction comes into the buffer. -/
theorem Fields.put {query : Nat} (h : Fields cfg s [query]) (hslots : 0 < s.emptySlots)
    (readyTime : UInt64) : Fields cfg (put query readyTime s) [] := by
  have hfree : 0 < free s.buffer := h.slots ▸ hslots
  cases hfind : s.buffer.findIdx? (·.query = none) with
  | none =>
      obtain ⟨e, he, hnone⟩ := List.countP_pos_iff.mp hfree
      exact absurd hnone (by rw [List.findIdx?_eq_none_iff.mp hfind e he]; decide)
  | some i =>
      obtain ⟨hi, hnone, -⟩ := List.findIdx?_eq_some_iff_getElem.mp hfind
      obtain ⟨hperm, hcount⟩ := filled_spec query readyTime
        (List.getElem?_eq_getElem hi) (of_decide_eq_true hnone)
      rw [AbortBuffer.put, hfind]
      refine ⟨?_, ?_, ?_, h.commits⟩
      · rw [List.length_set]
        exact h.size
      · have hslots' := h.slots
        simp only
        omega
      · rw [List.append_nil]
        refine List.Perm.trans ?_ h.places
        rw [List.append_assoc]
        exact (hperm.trans (List.perm_append_singleton query _).symm).append_left _

/-- What an iteration of `generate_txn_for_run` finds. -/
theorem Fields.look (h : Fields cfg s []) (hcnt : s.txnCnt < max 1 (limit cfg s))
    (hphase : s.phase = .generating 0) (currTime : UInt64) : Inv cfg (look cfg s 0 currTime) := by
  rw [AbortBuffer.look]
  set found := if s.emptySlots < cfg.size then scan s.emptySlots currTime s.buffer 0
    (.ofNat (2 ^ 64 - 1)) else (none, .ofNat (2 ^ 64 - 1)) with hfound
  obtain ⟨taken, minReadyTime⟩ := found
  cases taken with
  | some entry =>
      obtain ⟨i, query⟩ := entry
      have hscan : (scan s.emptySlots currTime s.buffer 0 (.ofNat (2 ^ 64 - 1))).1 =
          some (i, query) := by
        split at hfound
        · rw [← hfound]
        · cases hfound
      obtain ⟨j, e, hj, hentry, hquery⟩ := scan_taken hscan
      rw [Nat.zero_add] at hj
      subst hj
      obtain ⟨hperm, hcount⟩ := taken_spec hentry hquery
      refine ⟨⟨?_, ?_, ?_, h.commits⟩, Nat.succ_pos _, hcnt⟩
      · rw [List.length_modify]
        exact h.size
      · exact (congrArg (· + 1) h.slots).trans hcount.symm
      · have hplaces := h.places
        rw [List.append_nil] at hplaces
        refine List.Perm.trans ?_ hplaces
        rw [List.append_assoc]
        exact ((List.perm_append_singleton query _).trans hperm).append_left _
  | none =>
      simp only
      by_cases hfull : s.emptySlots = 0
      · rw [if_pos hfull, if_neg (by simp)]
        have hnotLate : ¬ minReadyTime < currTime := by
          have hmax : ¬ (.ofNat (2 ^ 64 - 1) : UInt64) < currTime := by
            rw [UInt64.lt_iff_toNat_lt, Nat.not_lt]
            exact Nat.le_pred_of_lt currTime.toNat_lt
          split at hfound
          · rw [hfull] at hfound
            have hscan := scan_min (show (scan 0 currTime s.buffer 0 _).1 = none by
              rw [← hfound]) ?_ hmax
            · rwa [← hfound] at hscan
            · intro e he hnone
              have hpos : 0 < free s.buffer :=
                List.countP_pos_iff.mpr ⟨e, he, decide_eq_true hnone⟩
              rw [← h.slots, hfull] at hpos
              exact absurd hpos (lt_irrefl 0)
          · rw [Prod.mk.injEq] at hfound
            rw [hfound.2]
            exact hmax
        rw [if_neg hnotLate]
        refine ⟨?_, ?_⟩
        · rw [hphase]
          exact h
        · rw [PhaseOk, hphase]
          exact ⟨rfl, hcnt⟩
      · rw [if_neg hfull]
        refine ⟨⟨h.size, h.slots, ?_, h.commits⟩, Nat.pos_of_ne_zero hfull, hcnt⟩
        have hplaces := h.places
        rw [List.append_nil] at hplaces
        rw [List.range_succ]
        exact hplaces.append_right _

theorem put_frame (cfg : Config) (query : Nat) (readyTime : UInt64) (s : Worker) :
    (put query readyTime s).txnCnt = s.txnCnt ∧
      limit cfg (put query readyTime s) = limit cfg s := by
  rw [put]
  cases s.buffer.findIdx? (·.query = none) with
  | none => exact ⟨rfl, rfl⟩
  | some i => exact ⟨rfl, rfl⟩

theorem Inv.step (h : Inv cfg s) {a : Action} (hstep : step cfg s a = some s') : Inv cfg s' := by
  obtain ⟨hfields, hok⟩ := h
  cases a with
  | look currTime =>
      unfold AbortBuffer.step at hstep
      cases hphase : s.phase with
      | generating trial =>
          rw [hphase] at hfields hstep
          rw [PhaseOk, hphase] at hok
          obtain ⟨rfl, hcnt⟩ := hok
          cases hstep
          exact hfields.look hcnt hphase currTime
      | _ =>
          rw [hphase] at hstep
          cases hstep
  | ends rc now penalty simDone =>
      unfold AbortBuffer.step at hstep
      cases hphase : s.phase with
      | executing query =>
          rw [hphase] at hfields hstep
          rw [PhaseOk, hphase] at hok
          obtain ⟨hslots, hcnt⟩ := hok
          cases rc with
          | rcok =>
              cases hstep
              have hcommit : Fields cfg { s with
                  txnCnt := s.txnCnt + 1, committed := s.committed ++ [query] } [] := by
                refine ⟨hfields.size, hfields.slots, ?_, ?_⟩
                · refine List.Perm.trans ?_ hfields.places
                  rw [List.append_nil, List.append_assoc, List.append_assoc]
                  exact List.perm_append_comm.append_left _
                · have hcommits := hfields.commits
                  rw [List.length_append, List.length_singleton]
                  simp only
                  omega
              exact hcommit.checks hcnt simDone
          | abort =>
              simp only [gt_iff_lt, if_pos hslots] at hstep
              cases hstep
              obtain ⟨htxn, hlimit⟩ := put_frame cfg query (now + penalty) s
              refine (hfields.put hslots (now + penalty)).checks ?_ simDone
              rw [htxn, hlimit]
              exact Nat.le_of_lt hcnt
          | _ => cases hstep
      | _ =>
          rw [hphase] at hstep
          cases hstep
  | rerun =>
      simp only [AbortBuffer.step] at hstep
      split at hstep
      · rename_i hret
        obtain ⟨hphase, hwarm⟩ := hret
        cases hstep
        rw [hphase] at hfields
        rw [PhaseOk, hphase, limit, if_neg hwarm] at hok
        refine ⟨⟨hfields.size, hfields.slots, hfields.places, ?_⟩, rfl, ?_⟩
        · have hcommits := hfields.commits
          rw [if_neg hwarm] at hcommits
          simp only [if_true]
          omega
        · exact lt_of_lt_of_le Nat.one_pos (le_max_left ..)
      · cases hstep

theorem Inv.runs {as : List Action} (h : Inv cfg s)
    (hrun : runs (AbortBuffer.step cfg) s as = some s') : Inv cfg s' := by
  induction as generalizing s with
  | nil =>
      cases hrun
      exact h
  | cons a as ih =>
      obtain ⟨s₁, hfirst, hrest⟩ := runs_cons_eq_some.mp hrun
      exact ih (h.step hfirst) hrest

/-- The transaction counter of a run does not pass its limit. -/
theorem PhaseOk.txnCnt_le (h : PhaseOk cfg s) : s.txnCnt ≤ max 1 (limit cfg s) := by
  rw [PhaseOk] at h
  split at h
  · exact Nat.le_of_lt h.2
  · exact Nat.le_of_lt h.2
  · exact h
  · exact h.2.2

/-- No more queries are fetched than there are. -/
theorem Inv.qIdx_le (h : Inv cfg s) : s.qIdx ≤ cfg.requestCnt := by
  obtain ⟨hfields, hok⟩ := h
  have hlength := hfields.places.length_eq
  rw [List.length_range, List.length_append, List.length_append] at hlength
  have hbuffer := buffered_add_free s.buffer
  rw [hfields.size, ← hfields.slots] at hbuffer
  have hexecuting : s.phase.queries.length ≤ s.emptySlots := by
    rw [PhaseOk] at hok
    split at hok
    · rename_i trial hphase
      rw [hphase]
      exact Nat.zero_le _
    · rename_i query hphase
      rw [hphase]
      exact hok.1
    · rename_i hphase
      rw [hphase]
      exact Nat.zero_le _
    · rename_i a hphase
      rw [hphase]
      exact Nat.zero_le _
  have hcommits := hfields.commits
  have hcnt := hok.txnCnt_le
  rw [limit] at hcnt
  rw [Config.requestCnt]
  split at hcnt
  · rename_i hrun
    rw [if_pos hrun] at hcommits
    omega
  · rename_i hwarm
    rw [if_neg hwarm] at hcommits
    omega

/-- Every fetched query is in one place, the empty slots are counted, no assertion on the buffer
    fails, and the queries suffice. -/
structure Worker.Sound (cfg : Config) (s : Worker) : Prop where
  places : s.places.Perm (List.range s.qIdx)
  slots : s.emptySlots = free s.buffer
  asserts : ∀ a, s.phase = .failed a → a = .txnCnt ∧ cfg.maxTxn = 0
  room : s.qIdx ≤ cfg.requestCnt

/-- **The abort buffer neither loses nor repeats queries.** -/
theorem abort_buffer_sound (warmupFinish : Bool) {as : List Action}
    (hrun : runs (step cfg) (.init cfg warmupFinish) as = some s) : s.Sound cfg := by
  have hinv := (inv_init cfg warmupFinish).runs hrun
  refine ⟨hinv.1.places, hinv.1.slots, fun a hfailed => ?_, hinv.qIdx_le⟩
  have hok := hinv.2
  rw [PhaseOk, hfailed] at hok
  exact ⟨hok.1, hok.2.1⟩

/-- A query aborts and another one in the time it has to wait; the first is committed, which ends
    the warm-up, then the second. -/
def oneRetry : List Action :=
  [.look 1, .ends .abort 2 5 false, .look 8, .ends .abort 9 0 false, .look 9, .ends .rcok 10 0 false,
    .rerun, .look 11, .ends .rcok 12 0 false]

theorem abort_buffer_sound_one_retry :
    ∃ s, runs (step ⟨10, 1, 10000⟩) (.init ⟨10, 1, 10000⟩ false) oneRetry = some s ∧
      s.Sound ⟨10, 1, 10000⟩ :=
  ⟨_, rfl, abort_buffer_sound false (show runs _ _ oneRetry = some _ from rfl)⟩

end VeriTxn.AbortBuffer
