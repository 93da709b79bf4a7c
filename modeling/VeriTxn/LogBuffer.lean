import Mathlib.Logic.Function.Basic
import VeriTxn.Bytes
import VeriTxn.Ring
import VeriTxn.Transition

/-!
# The log buffer: workers and the flusher

`Logger::logTxn` takes a range of positions from `*_lsn`, copies its entry to the circular buffer
and says in `_filled_lsn` that it is done; before it takes the range it publishes in
`_allocate_lsn` a position it will not go below.  `Logger::tryFlush` reads these markers and writes
to the file what lies before all of them.  There is one logger.

Every read and write of `_lsn`, `_allocate_lsn`, `_filled_lsn` and `_persistent_lsn`, every
fetch-and-add, `memcpy` and `write` is a step of its own; `_persistent_lsn` is written by the
flusher only, so its reads of it between two other steps are one.  Positions are not bounded:
a log does not reach 2^64 bytes.
-/

namespace VeriTxn.LogBuffer

open Bytes

/-- `_log_buffer_size`, `g_max_log_entry_size`, `g_thread_cnt` and `g_flush_blocksize`.  The parser
    asserts that the buffer is a multiple of 512 and enlarges it to more than the block; the block
    and the largest entry are constants, and there are markers for 128 threads. -/
structure LogConfig where
  logBufferSize : Nat
  maxLogEntrySize : Nat
  threadCnt : Nat
  flushBlocksize : Nat
  buffer_aligned : 512 ∣ logBufferSize
  block_aligned : 512 ∣ flushBlocksize
  block_pos : 0 < flushBlocksize
  block_lt : flushBlocksize < logBufferSize
  entry_le : maxLogEntrySize ≤ 2 ^ 31
  reserve_lt : maxLogEntrySize * threadCnt < 2 ^ 32
  reserve_le : maxLogEntrySize * threadCnt ≤ logBufferSize

/-- The values of `config.h`. -/
def LogConfig.default (threadCnt : Nat) (h : threadCnt ≤ 128) : LogConfig where
  logBufferSize := 1048576 * 200
  maxLogEntrySize := 16384
  threadCnt := threadCnt
  flushBlocksize := 1048576
  buffer_aligned := by decide
  block_aligned := by decide
  block_pos := by decide
  block_lt := by decide
  entry_le := by decide
  reserve_lt := by omega
  reserve_le := by omega

/-- The size rounded up to a cache line. -/
def aligned (size : Nat) : Nat := if size % 64 = 0 then size else size + 64 - size % 64

theorem le_aligned (size : Nat) : size ≤ aligned size := by
  unfold aligned
  split
  · exact Nat.le_refl _
  · omega

/-- Subtraction of `uint64_t`. -/
def sub64 (a b : Nat) : Nat := if b ≤ a then a - b else 2 ^ 64 + a - b

/-- Where a call of `logTxn(log_entry, size, …)` is. -/
inductive Worker where
  | idle
  /-- about to read `*_lsn` for the test for room -/
  | checkLsn (entry : List Byte)
  /-- has read it, and is about to read `*_persistent_lsn` -/
  | checkPersistent (entry : List Byte) (lsn : Nat)
  /-- about to read `*_lsn` for the marker -/
  | readMark (entry : List Byte)
  /-- about to write the marker -/
  | writeMark (entry : List Byte) (mark : Nat)
  /-- at `ATOM_FETCH_ADD`, or at `lsn = *_lsn` -/
  | alloc (entry : List Byte)
  /-- without `sync`: at the read of `*_lsn += size_aligned` -/
  | bump (entry : List Byte) (lsn : Nat)
  /-- without `sync`: at its write -/
  | store (entry : List Byte) (lsn value : Nat)
  | copy (entry : List Byte) (lsn : Nat)
  /-- at the second `memcpy` of an entry that wraps -/
  | copyRest (entry : List Byte) (lsn : Nat)
  /-- at the write of `_filled_lsn` -/
  | fill (entry : List Byte) (lsn : Nat)
deriving DecidableEq

/-- Where a call of `tryFlush` is. -/
inductive Flusher where
  | idle
  | readLsn
  /-- about to read the `_filled_lsn` of thread `i` -/
  | scan (ready i : Nat)
  /-- about to read its `_allocate_lsn` -/
  | scanMark (ready i filled : Nat)
  | test (ready : Nat)
  | write (start fin : Nat)
  /-- at the second `write` of a block that wraps -/
  | writeRest (start fin : Nat)
  /-- about to write `*_persistent_lsn` -/
  | persist (fin : Nat)
  /-- an assertion failed -/
  | failed
deriving DecidableEq

/-- The logger with its threads.  `granted` lists the entries with the positions they were given,
    for the analysis only. -/
structure Logger (cfg : LogConfig) where
  lsn : Nat
  persistentLsn : Nat
  filledLsn : Fin cfg.threadCnt → Nat
  allocateLsn : Fin cfg.threadCnt → Nat
  buffer : Nat → Byte
  file : List Byte
  workers : Fin cfg.threadCnt → Worker
  flusher : Flusher
  granted : List (Nat × List Byte)

variable {cfg : LogConfig}

/-- `Logger::init`. -/
def Logger.init (buffer : Nat → Byte) : Logger cfg :=
  ⟨0, 0, fun _ => 0, fun _ => 2 ^ 64 - 1, buffer, [], fun _ => .idle, .idle, []⟩

/-- What can happen next; `late` is the outcome of the comparison with `_flush_interval`. -/
inductive Action (cfg : LogConfig) where
  | logTxn (t : Fin cfg.threadCnt) (entry : List Byte)
  | work (t : Fin cfg.threadCnt)
  | tryFlush
  | flush (late : Bool)

def Logger.goto (s : Logger cfg) (t : Fin cfg.threadCnt) (w : Worker) : Logger cfg :=
  { s with workers := Function.update s.workers t w }

/-- The buffer has no room: the position read and the size reach what is kept free.  The
    subtraction of `uint64_t` may leave a huge number. -/
def full (cfg : LogConfig) (lsn size persistentLsn : Nat) : Bool :=
  decide (cfg.maxLogEntrySize * cfg.threadCnt % 2 ^ 32 ≤ persistentLsn + cfg.logBufferSize ∧
    persistentLsn + cfg.logBufferSize - cfg.maxLogEntrySize * cfg.threadCnt % 2 ^ 32 ≤ lsn + size)

/-- The entry reaches the end of the circular buffer. -/
def wraps (cfg : LogConfig) (lsn size : Nat) : Bool :=
  decide (lsn / cfg.logBufferSize < (lsn + size) / cfg.logBufferSize)

/-- How much of it fits before the end. -/
def tailSize (cfg : LogConfig) (lsn : Nat) : Nat := cfg.logBufferSize - lsn % cfg.logBufferSize

/-- The first `memcpy` of an entry. -/
def firstBlock (cfg : LogConfig) (entry : List Byte) (lsn : Nat) : List Byte :=
  if wraps cfg lsn entry.length then entry.take (tailSize cfg lsn) else entry

/-- The next step of a call of `logTxn`. -/
def Logger.work (sync : Bool) (s : Logger cfg) (t : Fin cfg.threadCnt) : Option (Logger cfg) :=
  match s.workers t with
  | .idle => none
  | .checkLsn entry => some (s.goto t (.checkPersistent entry s.lsn))
  | .checkPersistent entry lsn =>
      if full cfg lsn entry.length s.persistentLsn then some (s.goto t .idle)
      else some (s.goto t (if entry.head? = some 0x7f then .alloc entry else .readMark entry))
  | .readMark entry => some (s.goto t (.writeMark entry s.lsn))
  | .writeMark entry mark =>
      some { s.goto t (.alloc entry) with allocateLsn := Function.update s.allocateLsn t mark }
  | .alloc entry =>
      let s := { s with granted := s.granted ++ [(s.lsn, entry)] }
      if sync then
        some { s.goto t (.copy entry s.lsn) with lsn := s.lsn + aligned entry.length }
      else some (s.goto t (.bump entry s.lsn))
  | .bump entry lsn => some (s.goto t (.store entry lsn s.lsn))
  | .store entry lsn value =>
      some { s.goto t (.copy entry lsn) with lsn := value + aligned entry.length }
  | .copy entry lsn =>
      some { s.goto t (if wraps cfg lsn entry.length then .copyRest entry lsn else .fill entry lsn) with
        buffer := Ring.put s.buffer (lsn % cfg.logBufferSize) (firstBlock cfg entry lsn) }
  | .copyRest entry lsn =>
      some { s.goto t (.fill entry lsn) with
        buffer := Ring.put s.buffer 0 (entry.drop (tailSize cfg lsn)) }
  | .fill entry lsn =>
      some { s.goto t .idle with
        filledLsn := Function.update s.filledLsn t (lsn + aligned entry.length) }

/-- `end_lsn`. -/
def flushEnd (cfg : LogConfig) (start ready : Nat) : Nat :=
  let fin := ready - ready % 512
  if cfg.flushBlocksize < sub64 fin start then start + cfg.flushBlocksize else fin

/-- The next step of `tryFlush`. -/
def Logger.flush (s : Logger cfg) (late : Bool) : Option (Logger cfg) :=
  match s.flusher with
  | .idle => none
  | .failed => none
  | .readLsn => some { s with flusher := .scan s.lsn 0 }
  | .scan ready i =>
      if h : i < cfg.threadCnt then
        some { s with flusher := .scanMark ready i (s.filledLsn ⟨i, h⟩) }
      else some { s with flusher := .test ready }
  | .scanMark ready i filled =>
      if h : i < cfg.threadCnt then
        let mark := s.allocateLsn ⟨i, h⟩
        some { s with flusher := .scan (if filled ≤ mark ∧ mark < ready then mark else ready) (i + 1) }
      else none
  | .test ready =>
      let start := s.persistentLsn
      if late = false ∧ sub64 ready start < cfg.flushBlocksize then some { s with flusher := .idle }
      else if ready < start then some { s with flusher := .failed }
      else
        let fin := flushEnd cfg start ready
        if fin = start then some { s with flusher := .persist fin }
        else if sub64 fin start < cfg.logBufferSize then some { s with flusher := .write start fin }
        else some { s with flusher := .failed }
  | .write start fin =>
      let i := start % cfg.logBufferSize
      if start / cfg.logBufferSize < fin / cfg.logBufferSize then
        some { s with
          file := s.file ++ Ring.get s.buffer i (cfg.logBufferSize - i)
          flusher := .writeRest start fin }
      else
        some { s with
          file := s.file ++ Ring.get s.buffer i (fin - start)
          flusher := .persist fin }
  | .writeRest _ fin =>
      some { s with
        file := s.file ++ Ring.get s.buffer 0 (fin % cfg.logBufferSize)
        flusher := .persist fin }
  | .persist fin => some { s with persistentLsn := fin, flusher := .idle }

/-- One step of the logger; calls start only where none is under way. -/
def Logger.step (sync : Bool) (s : Logger cfg) : Action cfg → Option (Logger cfg)
  | .logTxn t entry => if s.workers t = .idle then some (s.goto t (.checkLsn entry)) else none
  | .work t => s.work sync t
  | .tryFlush => if s.flusher = .idle then some { s with flusher := .readLsn } else none
  | .flush late => s.flush late

@[simp] theorem Logger.goto_self (s : Logger cfg) (t : Fin cfg.threadCnt) (w : Worker) :
    (s.goto t w).workers t = w := Function.update_self ..

theorem Logger.goto_of_ne {s : Logger cfg} {t u : Fin cfg.threadCnt} {w : Worker} (h : u ≠ t) :
    (s.goto t w).workers u = s.workers u := Function.update_of_ne h _ _

/-- Two threads. -/
abbrev twoThreads : LogConfig := .default 2 (by decide)

def first : Fin twoThreads.threadCnt := ⟨0, by decide⟩

def second : Fin twoThreads.threadCnt := ⟨1, by decide⟩

/-- A call of `logTxn` by a thread, up to its step `n`. -/
def call (t : Fin cfg.threadCnt) (entry : List Byte) (n : Nat) : List (Action cfg) :=
  .logTxn t entry :: List.replicate n (.work t)

/-! ### Entries one behind the other -/

/-- The entries take up the positions before `top`, one behind the other. -/
inductive Tiled : List (Nat × List Byte) → Nat → Prop where
  | nil : Tiled [] 0
  | snoc {gs : List (Nat × List Byte)} {top : Nat} (entry : List Byte) (h : Tiled gs top) :
      Tiled (gs ++ [(top, entry)]) (top + aligned entry.length)

theorem Tiled.le {gs : List (Nat × List Byte)} {top : Nat} (h : Tiled gs top) :
    ∀ g ∈ gs, g.1 + aligned g.2.length ≤ top := by
  induction h with
  | nil => exact fun g hg => nomatch hg
  | snoc entry _ ih =>
      intro g hg
      rcases List.mem_append.mp hg with hg | hg
      · exact (ih g hg).trans (Nat.le_add_right _ _)
      · obtain rfl := List.mem_singleton.mp hg
        exact Nat.le_refl _

/-- The ranges are disjoint, in the order they were given. -/
theorem Tiled.pairwise {gs : List (Nat × List Byte)} {top : Nat} (h : Tiled gs top) :
    gs.Pairwise fun g g' => g.1 + aligned g.2.length ≤ g'.1 := by
  induction h with
  | nil => exact List.Pairwise.nil
  | snoc entry h ih =>
      refine List.pairwise_append.mpr ⟨ih, List.pairwise_singleton _ _, fun g hg g' hg' => ?_⟩
      obtain rfl := List.mem_singleton.mp hg'
      exact h.le g hg

theorem Tiled.top_eq {gs : List (Nat × List Byte)} {top : Nat} (h : Tiled gs top) :
    top = (gs.map fun g => aligned g.2.length).sum := by
  induction h with
  | nil => rfl
  | snoc entry _ ih =>
      rw [List.map_append, List.sum_append, ← ih]
      simp

/-! ### How far the file reaches -/

theorem flushEnd_spec (cfg : LogConfig) {start ready : Nat} (hstart : 512 ∣ start)
    (hle : start ≤ ready) :
    start ≤ flushEnd cfg start ready ∧ flushEnd cfg start ready ≤ ready ∧
      512 ∣ flushEnd cfg start ready ∧ flushEnd cfg start ready - start ≤ cfg.flushBlocksize := by
  have hblock := cfg.block_aligned
  have hround : start ≤ ready - ready % 512 := by omega
  have hsub : sub64 (ready - ready % 512) start = ready - ready % 512 - start := if_pos hround
  unfold flushEnd
  dsimp only
  rw [hsub]
  split
  · rename_i hlong
    exact ⟨by omega, by omega, by omega, by omega⟩
  · rename_i hshort
    exact ⟨hround, by omega, by omega, by omega⟩

/-- The positions a call of `tryFlush` works with, and the length of the file. -/
def Flusher.Within (B lsn persistent len : Nat) : Flusher → Prop
  | .idle | .readLsn | .failed => len = persistent
  | .scan ready _ | .scanMark ready _ _ | .test ready => len = persistent ∧ ready ≤ lsn
  | .write start fin =>
      len = persistent ∧ start = persistent ∧ start < fin ∧ fin ≤ lsn ∧ 512 ∣ fin ∧ fin - start < B
  | .writeRest start fin =>
      len = start + (B - start % B) ∧ start = persistent ∧ start / B < fin / B ∧ fin ≤ lsn ∧
        512 ∣ fin ∧ fin - start < B
  | .persist fin => len = fin ∧ persistent ≤ fin ∧ fin ≤ lsn ∧ 512 ∣ fin

/-- The file ends at whole blocks before `*_lsn`. -/
structure Extent (s : Logger cfg) : Prop where
  le : s.persistentLsn ≤ s.lsn
  whole : 512 ∣ s.persistentLsn
  within : s.flusher.Within cfg.logBufferSize s.lsn s.persistentLsn s.file.length

theorem Flusher.Within.mono {B lsn lsn' persistent len : Nat} {f : Flusher}
    (h : f.Within B lsn persistent len) (hle : lsn ≤ lsn') : f.Within B lsn' persistent len := by
  cases f with
  | idle | readLsn | failed => exact h
  | scan ready i | scanMark ready i filled | test ready => exact ⟨h.1, h.2.trans hle⟩
  | write start fin =>
      obtain ⟨hlen, hstart, hlt, hfin, hrest⟩ := h
      exact ⟨hlen, hstart, hlt, hfin.trans hle, hrest⟩
  | writeRest start fin =>
      obtain ⟨hlen, hstart, hlt, hfin, hrest⟩ := h
      exact ⟨hlen, hstart, hlt, hfin.trans hle, hrest⟩
  | persist fin =>
      obtain ⟨hlen, hle', hfin, hrest⟩ := h
      exact ⟨hlen, hle', hfin.trans hle, hrest⟩

/-- The second part of a block that wraps ends where the block does. -/
theorem wrap_end {B start fin : Nat} (hwrap : start / B < fin / B) (hlt : fin - start < B) :
    start + (B - start % B) + fin % B = fin := by
  have hstart := Nat.div_add_mod start B
  have hfin := Nat.div_add_mod fin B
  have hB : 0 < B := by omega
  have hmod := Nat.mod_lt start hB
  have hmod' := Nat.mod_lt fin hB
  have hnext : fin / B = start / B + 1 := by
    by_contra hne
    have htwo : start / B + 2 ≤ fin / B := by omega
    have hmul := Nat.mul_le_mul_left B htwo
    rw [Nat.mul_add] at hmul
    omega
  rw [hnext, Nat.mul_add] at hfin
  omega

/-- `tryFlush` keeps the file inside the log. -/
theorem Extent.flush {s s' : Logger cfg} {late : Bool} (h : Extent s)
    (hstep : s.flush late = some s') : Extent s' := by
  obtain ⟨hle, hwhole, hwithin⟩ := h
  cases hflusher : s.flusher with
  | idle | failed =>
      simp only [Logger.flush, hflusher] at hstep
      cases hstep
  | readLsn =>
      simp only [Logger.flush, hflusher] at hstep
      cases hstep
      rw [hflusher] at hwithin
      exact ⟨hle, hwhole, hwithin, Nat.le_refl _⟩
  | scan ready i =>
      simp only [Logger.flush, hflusher] at hstep
      rw [hflusher] at hwithin
      split at hstep <;> cases hstep <;> exact ⟨hle, hwhole, hwithin⟩
  | scanMark ready i filled =>
      simp only [Logger.flush, hflusher] at hstep
      rw [hflusher] at hwithin
      split at hstep
      · cases hstep
        refine ⟨hle, hwhole, hwithin.1, ?_⟩
        have hready := hwithin.2
        split
        · rename_i hmark
          exact hmark.2.le.trans hready
        · exact hready
      · cases hstep
  | test ready =>
      rw [hflusher] at hwithin
      obtain ⟨hlen, hready⟩ := hwithin
      simp only [Logger.flush, hflusher] at hstep
      split_ifs at hstep with hearly hlate hnone hshort
      · cases hstep
        exact ⟨hle, hwhole, hlen⟩
      · cases hstep
        exact ⟨hle, hwhole, hlen⟩
      · cases hstep
        refine ⟨hle, hwhole, ?_⟩
        rw [hnone]
        exact ⟨hlen, Nat.le_refl _, hle, hwhole⟩
      · cases hstep
        obtain ⟨hstart, hfin, hdvd, hblock⟩ :=
          flushEnd_spec cfg hwhole (Nat.le_of_not_lt hlate)
        have hlt := cfg.block_lt
        refine ⟨hle, hwhole, hlen, rfl, ?_, hfin.trans hready, hdvd, by omega⟩
        exact lt_of_le_of_ne hstart (Ne.symm hnone)
      · cases hstep
        exact ⟨hle, hwhole, hlen⟩
  | write start fin =>
      rw [hflusher] at hwithin
      obtain ⟨hlen, hstart, hlt, hfin, hdvd, hshort⟩ := hwithin
      simp only [Logger.flush, hflusher] at hstep
      split at hstep
      · rename_i hwrap
        cases hstep
        refine ⟨hle, hwhole, ?_, hstart, hwrap, hfin, hdvd, hshort⟩
        rw [List.length_append, Ring.length_get, hlen, hstart]
      · cases hstep
        refine ⟨hle, hwhole, ?_, hstart ▸ hlt.le, hfin, hdvd⟩
        rw [List.length_append, Ring.length_get]
        omega
  | writeRest start fin =>
      rw [hflusher] at hwithin
      obtain ⟨hlen, hstart, hwrap, hfin, hdvd, hshort⟩ := hwithin
      simp only [Logger.flush, hflusher] at hstep
      cases hstep
      have hend := wrap_end hwrap hshort
      have hbehind : s.persistentLsn ≤ fin := by omega
      refine ⟨hle, hwhole, ?_, hbehind, hfin, hdvd⟩
      rw [List.length_append, Ring.length_get]
      omega
  | persist fin =>
      rw [hflusher] at hwithin
      obtain ⟨hlen, -, hfin, hdvd⟩ := hwithin
      simp only [Logger.flush, hflusher] at hstep
      cases hstep
      exact ⟨hfin, hdvd, hlen⟩

/-- A step that leaves the flusher alone and does not move `*_lsn` back. -/
theorem Extent.frame {s s' : Logger cfg} (h : Extent s) (hflusher : s'.flusher = s.flusher)
    (hpersistent : s'.persistentLsn = s.persistentLsn) (hfile : s'.file = s.file)
    (hlsn : s.lsn ≤ s'.lsn) : Extent s' := by
  obtain ⟨hle, hwhole, hwithin⟩ := h
  constructor
  · rw [hpersistent]
    exact hle.trans hlsn
  · rwa [hpersistent]
  · rw [hflusher, hpersistent, hfile]
    exact hwithin.mono hlsn

/-- A call of `logTxn` leaves the flusher and the file alone; it writes `*_lsn` when it fetches
    and adds, or as the second half of its addition. -/
theorem work_frame {sync : Bool} {s s' : Logger cfg} {t : Fin cfg.threadCnt}
    (hstep : s.work sync t = some s') :
    s'.flusher = s.flusher ∧ s'.persistentLsn = s.persistentLsn ∧ s'.file = s.file ∧
      (s.lsn ≤ s'.lsn ∨ ∃ entry lsn value, s.workers t = .store entry lsn value ∧
        s'.lsn = value + aligned entry.length) := by
  cases hcall : s.workers t with
  | idle =>
      simp only [Logger.work, hcall] at hstep
      cases hstep
  | checkPersistent entry lsn =>
      simp only [Logger.work, hcall] at hstep
      split at hstep <;> cases hstep <;> exact ⟨rfl, rfl, rfl, .inl (Nat.le_refl _)⟩
  | alloc entry =>
      simp only [Logger.work, hcall] at hstep
      split at hstep <;> cases hstep
      · exact ⟨rfl, rfl, rfl, .inl (Nat.le_add_right _ _)⟩
      · exact ⟨rfl, rfl, rfl, .inl (Nat.le_refl _)⟩
  | store entry lsn value =>
      simp only [Logger.work, hcall] at hstep
      cases hstep
      exact ⟨rfl, rfl, rfl, .inr ⟨entry, lsn, value, rfl, rfl⟩⟩
  | checkLsn entry | readMark entry | writeMark entry mark | bump entry lsn | copy entry lsn
  | copyRest entry lsn | fill entry lsn =>
      simp only [Logger.work, hcall] at hstep
      cases hstep
      exact ⟨rfl, rfl, rfl, .inl (Nat.le_refl _)⟩

theorem Extent.init (buffer : Nat → Byte) : Extent (Logger.init buffer : Logger cfg) :=
  ⟨Nat.le_refl _, Nat.dvd_zero _, rfl⟩

end VeriTxn.LogBuffer
