import VeriTxn.LogAllocation

/-!
# Reading the log back

The destructor of the logger flushes the whole blocks before `*_lsn`; a recovering logger reads the
file block by block to its own circular buffer (`tryReadLog`), whose first bytes it repeats behind
its end, and hands out pointers to the entries (`get_next_log_entry_non_atom`).  An entry is handed
out only if more of the file follows it.
-/

namespace VeriTxn.LogBuffer

open Bytes Transition

variable {cfg : LogConfig} {s s' : Logger cfg}

/-! ### Closing the log -/

/-- What `Logger::flush(start_lsn, end_lsn)` writes; `none` where its assertion fails. -/
def flushBytes (cfg : LogConfig) (buffer : Nat → Byte) (start fin : Nat) : Option (List Byte) :=
  if start = fin then some []
  else if sub64 fin start < cfg.logBufferSize then
    let i := start % cfg.logBufferSize
    if start / cfg.logBufferSize < fin / cfg.logBufferSize then
      some (Ring.get buffer i (cfg.logBufferSize - i) ++
        Ring.get buffer 0 (fin % cfg.logBufferSize))
    else some (Ring.get buffer i (fin - start))
  else none

/-- `Logger::~Logger`: the data file it leaves. -/
def Logger.destroy (s : Logger cfg) : Option (List Byte) :=
  let fin := s.lsn / 512 * 512
  let start := s.persistentLsn
  if start < fin then (flushBytes cfg s.buffer start fin).map (s.file ++ ·) else some s.file

/-- An entry: its mark, its size and the rest. -/
def IsEntry (cfg : LogConfig) (entry : List Byte) : Prop :=
  8 ≤ entry.length ∧ entry.length ≤ cfg.maxLogEntrySize ∧
    unpackLE ((entry.drop 4).take 4) = entry.length

instance (cfg : LogConfig) (entry : List Byte) : Decidable (IsEntry cfg entry) :=
  inferInstanceAs (Decidable (_ ∧ _ ∧ _))

/-- The destructor adds only what lies before `*_lsn`. -/
theorem Extent.length_destroy {file : List Byte} (h : Extent s) (hidle : s.flusher = .idle)
    (hclose : s.destroy = some file) : file.length ≤ s.lsn := by
  obtain ⟨hle, -, hwithin⟩ := h
  rw [hidle] at hwithin
  have hlen : s.file.length = s.persistentLsn := hwithin
  simp only [Logger.destroy] at hclose
  split at hclose
  · rename_i hlt
    obtain ⟨bytes, hbytes, rfl⟩ := Option.map_eq_some_iff.mp hclose
    unfold flushBytes at hbytes
    split at hbytes
    · omega
    · dsimp only at hbytes
      split at hbytes
      · rename_i hshort
        rw [sub64, if_pos hlt.le] at hshort
        split at hbytes
        · rename_i hwrap
          cases hbytes
          have hend := wrap_end hwrap hshort
          simp only [List.length_append, Ring.length_get, hlen]
          omega
        · cases hbytes
          simp only [List.length_append, Ring.length_get, hlen]
          omega
      · cases hbytes
  · cases hclose
    exact hlen.symm ▸ hle

/-! ### The recovering logger -/

/-- Its constants; `g_read_blocksize` enlarges the buffer. -/
structure ReadConfig where
  logBufferSize : Nat
  maxLogEntrySize : Nat
  threadCnt : Nat
  readBlocksize : Nat

/-- The values of `config.h`, as the parser adjusts them. -/
def ReadConfig.default (threadCnt : Nat) : ReadConfig := ⟨419430400 * 4, 16384, threadCnt, 419430400⟩

/-- `offset` is the position of `_fd_data`; `recovered` lists the entries handed out. -/
structure Reader (rc : ReadConfig) where
  buffer : Nat → Byte
  offset : Nat
  diskLsn : Nat
  nextLsn : Nat
  gcLsn : Fin rc.threadCnt → Nat
  eof : Bool
  recovered : List (List Byte)

variable {rc : ReadConfig} {r r' : Reader rc} {file : List Byte}

/-- `Logger::init` with `g_log_recover`. -/
def Reader.init (buffer : Nat → Byte) : Reader rc := ⟨buffer, 0, 0, 0, fun _ => 0, false, []⟩

/-- The position up to which the buffer may be overwritten. -/
def Reader.gc (r : Reader rc) : Nat :=
  (List.finRange rc.threadCnt).foldl
    (fun gc i => if r.gcLsn i < gc ∧ r.gcLsn i ≠ 0 then r.gcLsn i else gc) r.nextLsn

/-- `bytes` of the `planned` bytes have been read. -/
def Reader.received (r : Reader rc) (buffer : Nat → Byte) (bytes planned : Nat) : Reader rc :=
  { r with
    buffer := buffer
    offset := r.offset + bytes
    diskLsn := r.diskLsn + bytes
    eof := r.eof || decide (bytes < planned) }

/-- The reads of `tryReadLog`, and its copies to the region behind the buffer. -/
def Reader.readBlock (file : List Byte) (r : Reader rc) (start fin : Nat) : Reader rc :=
  let i := start % rc.logBufferSize
  let j := fin % rc.logBufferSize
  let m := rc.maxLogEntrySize
  if 0 < j ∧ j ≤ i then
    let tail := rc.logBufferSize - i
    let block := (file.drop r.offset).take tail
    let buffer := Ring.put r.buffer i block
    let buffer :=
      if i < m then Ring.put buffer (i + rc.logBufferSize) (Ring.get buffer i (m - i)) else buffer
    if block.length < tail then r.received buffer block.length tail
    else
      let rest := (file.drop (r.offset + tail)).take j
      let buffer := Ring.put buffer 0 rest
      let buffer := Ring.put buffer rc.logBufferSize (Ring.get buffer 0 (if j < m then j else m))
      r.received buffer (block.length + rest.length) (fin - start)
  else
    let block := (file.drop r.offset).take (fin - start)
    let buffer := Ring.put r.buffer i block
    let n := if 0 < j then (if j < m then j else m) - i else m - i
    let buffer :=
      if i < m then Ring.put buffer (i + rc.logBufferSize) (Ring.get buffer i n) else buffer
    r.received buffer block.length (fin - start)

/-- Its `end_lsn`. -/
def readEnd (rc : ReadConfig) (start gc : Nat) : Nat :=
  if rc.logBufferSize ≤ start + rc.readBlocksize - gc then gc + rc.logBufferSize - 512
  else start + rc.readBlocksize

/-- `Logger::tryReadLog`; `none` where an assertion fails. -/
def Reader.tryReadLog (file : List Byte) (r : Reader rc) : Option (Reader rc) :=
  let gc := r.gc
  let start := r.diskLsn
  if start < gc then none
  else if rc.logBufferSize / 2 < start - gc then some r
  else if start % 512 ≠ 0 then none
  else
    let fin := readEnd rc start (gc - gc % 512)
    if sub64 fin start < rc.readBlocksize / 2 then some r
    else if start = fin then some r
    else if sub64 fin start ≤ rc.logBufferSize then some (r.readBlock file start fin)
    else none

/-- `Logger::get_next_log_entry_non_atom`: the entry and the position returned; `none` stands for
    the null pointer. -/
def Reader.getNextLogEntryNonAtom (r : Reader rc) : Option (List Byte × Nat × Reader rc) :=
  if r.diskLsn ≤ r.nextLsn + 8 then none
  else
    let i := r.nextLsn % rc.logBufferSize
    let size := unpackLE (Ring.get r.buffer (i + 4) 4)
    let rounded := aligned size % 2 ^ 32
    if r.diskLsn ≤ r.nextLsn + rounded then none
    else
      some (Ring.get r.buffer i size, r.nextLsn + rounded - 1,
        { r with nextLsn := r.nextLsn + rounded })

/-- `Logger::set_gc_lsn`. -/
def Reader.setGcLsn (r : Reader rc) (lsn : Nat) (t : Fin rc.threadCnt) : Reader rc :=
  { r with gcLsn := Function.update r.gcLsn t lsn }

inductive ReadAction (rc : ReadConfig) where
  | readLog
  | nextEntry (t : Fin rc.threadCnt)

/-- One round of the log thread or of the recovering thread. -/
def Reader.step (file : List Byte) (r : Reader rc) : ReadAction rc → Option (Reader rc)
  | .readLog => r.tryReadLog file
  | .nextEntry t =>
      match r.getNextLogEntryNonAtom with
      | none => some r
      | some (entry, lsn, r') =>
          some { r'.setGcLsn lsn t with recovered := r.recovered ++ [entry] }

/-- What has been read lies in the file; the entries handed out end before what has been read. -/
structure Behind (file : List Byte) (r : Reader rc) : Prop where
  offset : r.offset = r.diskLsn
  disk_le : r.diskLsn ≤ file.length
  next : r.nextLsn = (r.recovered.map fun e => aligned e.length % 2 ^ 32).sum
  next_lt : r.recovered ≠ [] → r.nextLsn < r.diskLsn

theorem Behind.init (file : List Byte) (buffer : Nat → Byte) :
    Behind file (Reader.init buffer : Reader rc) :=
  ⟨rfl, Nat.zero_le _, rfl, fun h => absurd rfl h⟩

theorem Behind.received {bytes planned : Nat} {buffer : Nat → Byte} (h : Behind file r)
    (hbytes : r.offset + bytes ≤ file.length) : Behind file (r.received buffer bytes planned) := by
  obtain ⟨hoffset, -, hnext, hlt⟩ := h
  constructor
  · exact congrArg (· + bytes) hoffset
  · rw [hoffset] at hbytes
    exact hbytes
  · exact hnext
  · exact fun hne => (hlt hne).trans_le (Nat.le_add_right _ _)

/-- `read` gives no more than the file has. -/
theorem length_read (file : List Byte) {offset : Nat} (n : Nat) (h : offset ≤ file.length) :
    offset + ((file.drop offset).take n).length ≤ file.length := by
  rw [List.length_take, List.length_drop]
  omega

theorem Behind.readBlock (h : Behind file r) (start fin : Nat) :
    Behind file (r.readBlock file start fin) := by
  have hoffset : r.offset ≤ file.length := h.offset ▸ h.disk_le
  unfold Reader.readBlock
  dsimp only
  split
  · have hfirst := length_read file (rc.logBufferSize - start % rc.logBufferSize) hoffset
    split
    · exact h.received hfirst
    · rename_i hall
      have hrest : ((file.drop r.offset).take (rc.logBufferSize - start % rc.logBufferSize)).length =
          rc.logBufferSize - start % rc.logBufferSize := by
        have := List.length_take_le (rc.logBufferSize - start % rc.logBufferSize) (file.drop r.offset)
        omega
      apply h.received
      rw [hrest] at hfirst ⊢
      rw [← Nat.add_assoc]
      exact length_read file _ hfirst
  · exact h.received (length_read file _ hoffset)

theorem Behind.tryReadLog (h : Behind file r) (hread : r.tryReadLog file = some r') :
    Behind file r' := by
  have hcases : r' = r ∨ ∃ start fin, r' = r.readBlock file start fin := by
    simp only [Reader.tryReadLog, -Nat.reducePow] at hread
    split at hread
    · cases hread
    · split at hread
      · exact .inl (Option.some.inj hread).symm
      · split at hread
        · cases hread
        · split at hread
          · exact .inl (Option.some.inj hread).symm
          · split at hread
            · exact .inl (Option.some.inj hread).symm
            · split at hread
              · exact .inr ⟨_, _, (Option.some.inj hread).symm⟩
              · cases hread
  rcases hcases with rfl | ⟨start, fin, rfl⟩
  · exact h
  · exact h.readBlock start fin

/-- An entry is handed out only if it ends before what has been read. -/
theorem getNext_spec {entry : List Byte} {lsn : Nat}
    (hnext : r.getNextLogEntryNonAtom = some (entry, lsn, r')) :
    r' = { r with nextLsn := r.nextLsn + aligned entry.length % 2 ^ 32 } ∧
      r'.nextLsn < r.diskLsn := by
  simp only [Reader.getNextLogEntryNonAtom, -Nat.reducePow] at hnext
  split at hnext
  · cases hnext
  · split at hnext
    · cases hnext
    · rename_i hend
      obtain ⟨hentry, hrest⟩ := Prod.mk.inj (Option.some.inj hnext)
      have hlength := congrArg List.length hentry
      rw [Ring.length_get] at hlength
      rw [← (Prod.mk.inj hrest).2, ← hlength]
      exact ⟨rfl, Nat.lt_of_not_le hend⟩

theorem Behind.step {a : ReadAction rc} (h : Behind file r) (hstep : r.step file a = some r') :
    Behind file r' := by
  cases a with
  | readLog => exact h.tryReadLog hstep
  | nextEntry t =>
      simp only [Reader.step] at hstep
      split at hstep
      · cases hstep
        exact h
      · rename_i entry lsn r₁ hnext
        cases hstep
        obtain ⟨rfl, hlt⟩ := getNext_spec hnext
        obtain ⟨hoffset, hdisk, hsum, -⟩ := h
        refine ⟨hoffset, hdisk, ?_, fun _ => hlt⟩
        simp [Reader.setGcLsn, hsum]

theorem Behind.run {buffer : Nat → Byte} {rs : List (ReadAction rc)}
    (hread : runs (Reader.step file) (Reader.init buffer) rs = some r) : Behind file r :=
  runs_invariant (C := fun _ _ => True) (fun _ _ _ h _ hstep => h.step hstep)
    (Behind.init file buffer) (allSteps_of_forall (fun _ _ _ => trivial) _) hread

/-- A log that was closed is read back whole exactly if it is empty: the last entry ends where the
    log does, and no entry is handed out that ends where the file does. -/
theorem recovered_iff_empty (cc : CcAlg) {buffer buffer' : Nat → Byte} {as : List (Action cfg)}
    (hmeet : AllSteps (Logger.step cc.sync) (Exclusive cc) (Logger.init buffer) as)
    (hrun : runs (Logger.step cc.sync) (Logger.init buffer) as = some s)
    (hidle : ∀ t, s.workers t = .idle) (hflusher : s.flusher = .idle)
    (hentries : ∀ g ∈ s.granted, IsEntry cfg g.2) (hclose : s.destroy = some file)
    {rs : List (ReadAction rc)}
    (hread : runs (Reader.step file) (Reader.init buffer') rs = some r) :
    r.recovered = s.granted.map Prod.snd ↔ s.granted = [] := by
  have hinv : Apart cc s ∧ Extent s := by
    refine runs_invariant (P := fun s => Apart cc s ∧ Extent s) (fun s a s' h hc hstep => ?_)
      ⟨Apart.init cc buffer, Extent.init buffer⟩ hmeet hrun
    exact ⟨h.1.step hc hstep, extent_step h.1 h.2 hstep⟩
  obtain ⟨⟨⟨top, hhanded⟩, -⟩, hextent⟩ := hinv
  have hlsn : s.lsn = (s.granted.map fun g => aligned g.2.length).sum := by
    rw [← hhanded.tiled.top_eq]
    refine hhanded.lsn fun t => ?_
    rw [hidle t]
    exact id
  have hfile := hextent.length_destroy hflusher hclose
  obtain ⟨-, hdisk, hnext, hlt⟩ := Behind.run hread
  constructor
  · intro hall
    by_contra hne
    have hsum : r.nextLsn = s.lsn := by
      rw [hnext, hall, hlsn, List.map_map]
      refine congrArg List.sum (List.map_congr_left fun g hg => ?_)
      have hle := (hentries g hg).2.1
      have hmax := cfg.entry_le
      refine Nat.mod_eq_of_lt ?_
      rw [aligned]
      split <;> omega
    have hrecovered : r.recovered ≠ [] := by
      rw [hall]
      simpa using hne
    have := hlt hrecovered
    omega
  · intro hnone
    rw [hnone] at hlsn ⊢
    by_contra hne
    have hzero : s.lsn = 0 := hlsn
    have := hlt hne
    omega

/-- An entry of eight bytes, logged by one thread. -/
def eightBytes : List Byte := [0xef, 0xbe, 0, 0, 8, 0, 0, 0]

/-- Its log is shorter than a block, and nothing is read back. -/
theorem eightBytes_closed :
    ∃ (s : Logger twoThreads) (r : Reader (.default 1)),
      runs (Logger.step CcAlg.silo.sync) (Logger.init fun _ => 0) (call first eightBytes 7) =
        some s ∧
      (∀ t, s.workers t = .idle) ∧ s.flusher = .idle ∧ s.granted = [(0, eightBytes)] ∧
      s.destroy = some [] ∧
      runs (Reader.step []) (Reader.init fun _ => 0) [.readLog, .nextEntry ⟨0, by decide⟩] =
        some r ∧
      r.eof = true ∧ r.getNextLogEntryNonAtom.isNone = true ∧ r.recovered = [] := by
  have hsome : ((runs (Logger.step CcAlg.silo.sync) (Logger.init fun _ => 0 : Logger twoThreads)
      (call first eightBytes 7)).map fun s =>
        ((s.workers first, s.workers second, s.flusher), s.granted, s.destroy.getD [0])) =
      some ((.idle, .idle, .idle), [(0, eightBytes)], []) := by
    decide
  have hread : ((runs (Reader.step []) (Reader.init fun _ => 0 : Reader (.default 1))
      [.readLog, .nextEntry ⟨0, by decide⟩]).map fun r =>
        (r.eof, r.getNextLogEntryNonAtom.isNone, r.recovered)) = some (true, true, []) := by
    decide
  obtain ⟨s, hrun, hs⟩ := Option.map_eq_some_iff.mp hsome
  obtain ⟨r, hread, hr⟩ := Option.map_eq_some_iff.mp hread
  simp only [Prod.mk.injEq] at hs hr
  obtain ⟨⟨hfirst, hsecond, hflusher⟩, hgranted, hfile⟩ := hs
  have hclose : s.destroy = some [] := by
    cases hd : s.destroy with
    | none =>
        rw [hd] at hfile
        cases hfile
    | some file =>
        rw [hd] at hfile
        exact congrArg some hfile
  refine ⟨s, r, hrun, ?_, hflusher, hgranted, hclose, hread, hr.1, hr.2.1, hr.2.2⟩
  rintro ⟨_ | _ | t, ht⟩
  · exact hfirst
  · exact hsecond
  · exact absurd ht (by simp [LogConfig.default])

theorem recovered_iff_empty_eight_bytes :
    ∃ (s : Logger twoThreads) (r : Reader (.default 1)),
      runs (Logger.step CcAlg.silo.sync) (Logger.init fun _ => 0) (call first eightBytes 7) =
        some s ∧
      s.destroy = some [] ∧
      runs (Reader.step []) (Reader.init fun _ => 0) [.readLog, .nextEntry ⟨0, by decide⟩] =
        some r ∧
      (r.recovered = s.granted.map Prod.snd ↔ s.granted = []) := by
  obtain ⟨s, r, hrun, hidle, hflusher, hgranted, hclose, hread, -, -, -⟩ := eightBytes_closed
  refine ⟨s, r, hrun, hclose, hread, recovered_iff_empty .silo ?_ hrun hidle hflusher ?_ hclose hread⟩
  · decide
  · rw [hgranted]
    decide

/-- One entry, logged, closed and read to the end of the file: it does not come back. -/
theorem last_entry_not_recovered :
    ¬ ∀ (as : List (Action twoThreads)) (s : Logger twoThreads) (file : List Byte)
      (rs : List (ReadAction (.default 1))) (r : Reader (.default 1)),
      runs (Logger.step CcAlg.silo.sync) (Logger.init fun _ => 0) as = some s →
      (∀ t, s.workers t = .idle) → s.flusher = .idle →
      (∀ g ∈ s.granted, IsEntry twoThreads g.2) → s.destroy = some file →
      runs (Reader.step file) (Reader.init fun _ => 0) rs = some r →
      r.eof = true → r.getNextLogEntryNonAtom = none →
      r.recovered = s.granted.map Prod.snd := by
  intro h
  obtain ⟨s, r, hrun, hidle, hflusher, hgranted, hclose, hread, heof, hnone, hrecovered⟩ :=
    eightBytes_closed
  have hentry : ∀ g ∈ s.granted, IsEntry twoThreads g.2 := by
    rw [hgranted]
    decide
  have hall := h _ s [] _ r hrun hidle hflusher hentry hclose hread heof
    (Option.isNone_iff_eq_none.mp hnone)
  rw [hrecovered, hgranted] at hall
  cases hall

end VeriTxn.LogBuffer
