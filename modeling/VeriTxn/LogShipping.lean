import VeriTxn.Bytes

/-!
# Log shipping: `RemoteStorage::send_log`

The logger hands every log entry to the storage client, which collects
`LOG_BATCH_SIZE` of them in one buffer and writes the buffer to the socket as
one message

    | LOGS | entry_num:4 | (entry_size:4 | log_entry_data:?) * entry_num

The model keeps the buffer with its capacity, the two counters and the messages
written so far.  A call that finds the batch full only flushes it: the entry
passed to that call is packed nowhere.
-/

namespace VeriTxn.LogShipping

open Bytes

abbrev Entry := List Byte

/-- `LOG_BATCH_SIZE` of `config.h`. -/
def logBatchSize : Nat := 10

/-- `MAX_LINE` of `global.cpp`. -/
def maxLine : Nat := 1024 * 1024

/-- The message prefix `"LOGS"`. -/
def logsPrefix : List Byte := [76, 79, 71, 83]

/-- The client: its batch counters, `log_buffer`, and what `write(sockfd, …)`
    has been given so far, oldest message first. -/
structure RemoteStorage where
  batchNum : Nat
  batchSize : Nat
  logBuffer : Buf maxLine
  sock : List (List Byte)

/-- The constructor: `malloc` leaves the buffer's contents arbitrary. -/
def RemoteStorage.init (buffer : Buf maxLine) : RemoteStorage :=
  ⟨0, 0, buffer, []⟩

/-- `PACK(log_buffer, size, batch_size)`: the four bytes of a `uint32_t`. -/
def RemoteStorage.pack (s : RemoteStorage) (size : Nat) : Option RemoteStorage := do
  let buffer ← s.logBuffer.memcpy s.batchSize (packLE 4 size)
  return { s with logBuffer := buffer, batchSize := s.batchSize + 4 }

/-- `PACK_SIZE(log_buffer, ptr, size, batch_size)`: nothing when `size` is 0. -/
def RemoteStorage.packSize (s : RemoteStorage) (ptr : List Byte) : Option RemoteStorage :=
  if 0 < ptr.length then do
    let buffer ← s.logBuffer.memcpy s.batchSize ptr
    return { s with logBuffer := buffer, batchSize := s.batchSize + ptr.length }
  else some s

/-- The `batch_num == 0` branch: clear the buffer, write the prefix and leave
    room for the entry count, which the flush fills in. -/
def RemoteStorage.startBatch (s : RemoteStorage) : Option RemoteStorage :=
  if s.batchNum = 0 then do
    let s ← { s with batchSize := 0, logBuffer := Buf.memset maxLine 0 }.packSize logsPrefix
    return { s with batchSize := s.batchSize + 4 }
  else some s

/-- The `batch_num < LOG_BATCH_SIZE` branch. -/
def RemoteStorage.addEntry (s : RemoteStorage) (logEntry : Entry) : Option RemoteStorage := do
  let s ← s.pack logEntry.length
  let s ← s.packSize logEntry
  return { s with batchNum := s.batchNum + 1 }

/-- The remaining branch: patch the count and write the batch to the socket. -/
def RemoteStorage.flush (s : RemoteStorage) : Option RemoteStorage := do
  let buffer ← s.logBuffer.memcpy 4 (packLE 4 s.batchNum)
  return { s with
    logBuffer := buffer
    sock := s.sock ++ [buffer.bytes.take s.batchSize]
    batchNum := 0 }

/-- `send_log(log_entry, size)` with `size` the entry's length; `none` when a
    copy leaves the buffer. -/
def RemoteStorage.sendLog (s : RemoteStorage) (logEntry : Entry) : Option RemoteStorage := do
  let s ← s.startBatch
  if s.batchNum < logBatchSize then s.addEntry logEntry else s.flush

/-- A sequence of `send_log` calls. -/
def RemoteStorage.sendLogs (s : RemoteStorage) : List Entry → Option RemoteStorage
  | [] => some s
  | e :: es => do
      let s ← s.sendLog e
      s.sendLogs es

/-! ### Reading messages back -/

/-- Read `count` records `| size:4 | data |` and return the bytes after them. -/
def decodeEntries : Nat → List Byte → Option (List Entry × List Byte)
  | 0, bytes => some ([], bytes)
  | count + 1, bytes => do
      let size := unpackLE (bytes.take 4)
      guard (4 + size ≤ bytes.length)
      let (rest, tail) ← decodeEntries count (bytes.drop (4 + size))
      return ((bytes.drop 4).take size :: rest, tail)

/-- Accept exactly the well-formed messages: the prefix, the entry count, that
    many records, and no byte after them. -/
def decodeLogs (msg : List Byte) : Option (List Entry) := do
  guard (msg.take 4 = logsPrefix ∧ 8 ≤ msg.length)
  let (entries, tail) ← decodeEntries (unpackLE ((msg.drop 4).take 4)) (msg.drop 8)
  guard (tail = [])
  return entries

/-- The entries still in the current batch, read from the buffer. -/
def RemoteStorage.pending (s : RemoteStorage) : Option (List Entry) :=
  (decodeEntries s.batchNum (s.logBuffer.bytes.drop 8)).map Prod.fst

/-- Every message written is well formed, and the entries they carry followed
    by the pending ones are exactly `entries`. -/
def RemoteStorage.LosesNothing (s : RemoteStorage) (entries : List Entry) : Prop :=
  ∃ batches pending, s.sock.mapM decodeLogs = some batches ∧ s.pending = some pending ∧
    batches.flatten ++ pending = entries

/-! ### Records and messages as bytes -/

def encodeEntry (e : Entry) : List Byte := packLE 4 e.length ++ e

def encodeEntries (es : List Entry) : List Byte := (es.map encodeEntry).flatten

def encodeLogs (es : List Entry) : List Byte :=
  logsPrefix ++ packLE 4 es.length ++ encodeEntries es

@[simp] theorem encodeEntries_nil : encodeEntries [] = [] := rfl

@[simp] theorem encodeEntries_cons (e : Entry) (es : List Entry) :
    encodeEntries (e :: es) = encodeEntry e ++ encodeEntries es := rfl

theorem encodeEntries_append (es fs : List Entry) :
    encodeEntries (es ++ fs) = encodeEntries es ++ encodeEntries fs := by
  simp [encodeEntries]

theorem length_encodeEntry (e : Entry) : (encodeEntry e).length = 4 + e.length := by
  simp [encodeEntry]

/-- Reading back records of representable size, whatever follows them. -/
theorem decodeEntries_encodeEntries (es : List Entry) (tail : List Byte)
    (hsize : ∀ e ∈ es, e.length < 256 ^ 4) :
    decodeEntries es.length (encodeEntries es ++ tail) = some (es, tail) := by
  induction es with
  | nil => rfl
  | cons e es ih =>
      have hhead : e.length < 256 ^ 4 := hsize e (by simp)
      have htail := ih (fun item hitem => hsize item (by simp [hitem]))
      have hbytes : encodeEntries (e :: es) ++ tail =
          packLE 4 e.length ++ (e ++ (encodeEntries es ++ tail)) := by
        simp [encodeEntry]
      have htake : (encodeEntries (e :: es) ++ tail).take 4 = packLE 4 e.length := by
        rw [hbytes]; exact List.take_left' (length_packLE 4 _)
      have hdrop : (encodeEntries (e :: es) ++ tail).drop 4 =
          e ++ (encodeEntries es ++ tail) := by
        rw [hbytes]; exact List.drop_left' (length_packLE 4 _)
      have hrest : (encodeEntries (e :: es) ++ tail).drop (4 + e.length) =
          encodeEntries es ++ tail := by
        rw [← List.drop_drop, hdrop, List.drop_left]
      have hroom : 4 + e.length ≤ (encodeEntries (e :: es) ++ tail).length := by
        rw [hbytes]; simp only [List.length_append, length_packLE]; omega
      simp only [List.length_cons, decodeEntries, htake, unpackLE_packLE hhead, hdrop, hrest,
        htail, List.take_left, guard, if_pos hroom]
      rfl

theorem decodeLogs_encodeLogs (es : List Entry) (hcount : es.length < 256 ^ 4)
    (hsize : ∀ e ∈ es, e.length < 256 ^ 4) : decodeLogs (encodeLogs es) = some es := by
  have hprefix : (encodeLogs es).take 4 = logsPrefix := by
    rw [encodeLogs, List.append_assoc]; exact List.take_left' rfl
  have hcountBytes : ((encodeLogs es).drop 4).take 4 = packLE 4 es.length := by
    have hdrop : (encodeLogs es).drop 4 = packLE 4 es.length ++ encodeEntries es := by
      rw [encodeLogs, List.append_assoc]; exact List.drop_left' rfl
    rw [hdrop]; exact List.take_left' (length_packLE 4 _)
  have hbody : (encodeLogs es).drop 8 = encodeEntries es :=
    List.drop_left' (by simp [logsPrefix])
  have hlen : 8 ≤ (encodeLogs es).length := by simp [encodeLogs, logsPrefix]
  have hdecode := decodeEntries_encodeEntries es [] hsize
  rw [List.append_nil] at hdecode
  simp only [decodeLogs, hprefix, hcountBytes, hbody, unpackLE_packLE hcount, hdecode, hlen,
    guard, and_self, if_true]
  rfl

/-! ### The batching it implements

Abstractly a client is the list of batches sent and the batch being filled; a
call either appends its entry or, on a full batch, sends the batch. -/

structure Batching where
  sent : List (List Entry)
  filling : List Entry

def Batching.empty : Batching := ⟨[], []⟩

def Batching.send (b : Batching) (e : Entry) : Batching :=
  if b.filling.length < logBatchSize then { b with filling := b.filling ++ [e] }
  else ⟨b.sent ++ [b.filling], []⟩

def Batching.sendAll (b : Batching) (entries : List Entry) : Batching :=
  entries.foldl Batching.send b

/-- Every call either keeps its entry or spends it on one flush. -/
theorem Batching.length_send (b : Batching) (e : Entry) :
    ((b.send e).sent.flatten ++ (b.send e).filling).length + (b.send e).sent.length =
      (b.sent.flatten ++ b.filling).length + b.sent.length + 1 := by
  unfold Batching.send
  split
  · simp only [List.length_append, List.length_singleton]; omega
  · simp only [List.flatten_append, List.flatten_cons, List.flatten_nil, List.append_nil,
      List.length_append, List.length_singleton]
    omega

theorem Batching.length_sendAll (b : Batching) (entries : List Entry) :
    ((b.sendAll entries).sent.flatten ++ (b.sendAll entries).filling).length +
        (b.sendAll entries).sent.length =
      (b.sent.flatten ++ b.filling).length + b.sent.length + entries.length := by
  induction entries generalizing b with
  | nil => rfl
  | cons e entries ih =>
      have hstep := b.length_send e
      have hrest := ih (b.send e)
      simp only [Batching.sendAll, List.foldl_cons, List.length_cons] at hrest ⊢
      omega

/-- As long as the batch has room for all of them, entries are only appended. -/
theorem Batching.sendAll_of_room (b : Batching) (entries : List Entry)
    (hroom : b.filling.length + entries.length ≤ logBatchSize) :
    b.sendAll entries = { b with filling := b.filling ++ entries } := by
  induction entries generalizing b with
  | nil => simp [Batching.sendAll]
  | cons e entries ih =>
      simp only [List.length_cons] at hroom
      have hsend : b.send e = { b with filling := b.filling ++ [e] } :=
        if_pos (by omega)
      have hrest := ih (b.send e) (by rw [hsend]; simp; omega)
      simp only [Batching.sendAll, List.foldl_cons] at hrest ⊢
      rw [hrest, hsend]
      simp

/-- A batch once sent stays sent. -/
theorem Batching.sent_length_mono (b : Batching) (entries : List Entry) :
    b.sent.length ≤ (b.sendAll entries).sent.length := by
  induction entries generalizing b with
  | nil => exact Nat.le_refl _
  | cons e entries ih =>
      refine Nat.le_trans ?_ (ih (b.send e))
      unfold Batching.send
      split <;> simp

/-- From the empty client nothing is lost exactly while the first batch lasts:
    the call after it is spent on the flush. -/
theorem Batching.sendAll_empty_iff (entries : List Entry) :
    (Batching.empty.sendAll entries).sent.flatten ++
        (Batching.empty.sendAll entries).filling = entries ↔
      entries.length ≤ logBatchSize := by
  constructor
  · intro hall
    -- counting: the calls that flushed are the entries missing on the left
    have hcount := Batching.empty.length_sendAll entries
    rw [hall] at hcount
    have hnone : (Batching.empty.sendAll entries).sent.length = 0 := by
      simp [Batching.empty] at hcount; simpa [Batching.empty] using hcount
    by_contra hlong
    have hsplit : Batching.empty.sendAll entries =
        ((Batching.empty.sendAll (entries.take logBatchSize)).send
          (entries.get ⟨logBatchSize, by omega⟩)).sendAll (entries.drop (logBatchSize + 1)) := by
      have hentries : entries = entries.take logBatchSize ++
          (entries.get ⟨logBatchSize, by omega⟩ :: entries.drop (logBatchSize + 1)) := by
        rw [List.get_eq_getElem, List.getElem_cons_drop, List.take_append_drop]
      conv_lhs => rw [hentries]
      simp only [Batching.sendAll, List.foldl_append, List.foldl_cons]
    have hfull := Batching.empty.sendAll_of_room (entries.take logBatchSize)
      (by simp [Batching.empty, List.length_take])
    have hflush : ((Batching.empty.sendAll (entries.take logBatchSize)).send
        (entries.get ⟨logBatchSize, by omega⟩)).sent.length = 1 := by
      rw [hfull]
      unfold Batching.send
      rw [if_neg (by simp [Batching.empty, List.length_take]; omega)]
      rfl
    have hmono := Batching.sent_length_mono
      ((Batching.empty.sendAll (entries.take logBatchSize)).send
        (entries.get ⟨logBatchSize, by omega⟩)) (entries.drop (logBatchSize + 1))
    rw [← hsplit] at hmono
    omega
  · intro hshort
    rw [Batching.empty.sendAll_of_room entries (by simpa [Batching.empty] using hshort)]
    simp [Batching.empty]

/-! ### The client refines the batching -/

/-- The first `batch_size` bytes of the buffer are `written`. -/
structure RemoteStorage.Filled (s : RemoteStorage) (written : List Byte) : Prop where
  size : s.batchSize = written.length
  holds : s.logBuffer.Holds written

theorem RemoteStorage.Filled.pack {s : RemoteStorage} {written : List Byte}
    (h : s.Filled written) (size : Nat) (hfit : written.length + 4 ≤ maxLine) :
    ∃ s', s.pack size = some s' ∧ s'.Filled (written ++ packLE 4 size) ∧
      s'.batchNum = s.batchNum ∧ s'.sock = s.sock := by
  obtain ⟨buffer, hcopy, hholds⟩ :=
    h.holds.memcpy_append (packLE 4 size) (by simpa using hfit)
  rw [← h.size] at hcopy
  refine ⟨{ s with logBuffer := buffer, batchSize := s.batchSize + 4 }, ?_,
    ⟨by simp [h.size], hholds⟩, rfl, rfl⟩
  simp only [RemoteStorage.pack, hcopy]
  rfl

theorem RemoteStorage.Filled.packSize {s : RemoteStorage} {written : List Byte}
    (h : s.Filled written) (ptr : List Byte) (hfit : written.length + ptr.length ≤ maxLine) :
    ∃ s', s.packSize ptr = some s' ∧ s'.Filled (written ++ ptr) ∧
      s'.batchNum = s.batchNum ∧ s'.sock = s.sock := by
  unfold RemoteStorage.packSize
  split
  · obtain ⟨buffer, hcopy, hholds⟩ := h.holds.memcpy_append ptr hfit
    rw [← h.size] at hcopy
    refine ⟨{ s with logBuffer := buffer, batchSize := s.batchSize + ptr.length }, ?_,
      ⟨by simp [h.size], hholds⟩, rfl, rfl⟩
    simp only [hcopy]
    rfl
  · rename_i hempty
    have hnil : ptr = [] := List.eq_nil_of_length_eq_zero (by omega)
    exact ⟨s, rfl, by simpa [hnil] using h, rfl, rfl⟩

/-- Bytes of the batch being filled, its count field still zero. -/
def fillingBytes (es : List Entry) : List Byte :=
  logsPrefix ++ List.replicate 4 0 ++ encodeEntries es

/-- The client's buffer, counters and socket represent the abstract state. -/
structure Represents (s : RemoteStorage) (b : Batching) : Prop where
  num : s.batchNum = b.filling.length
  room : b.filling.length ≤ logBatchSize
  small : ∀ e ∈ b.filling, e.length < 256 ^ 4
  filled : b.filling ≠ [] → s.Filled (fillingBytes b.filling)
  sock : s.sock.mapM decodeLogs = some b.sent

theorem represents_init (buffer : Buf maxLine) :
    Represents (RemoteStorage.init buffer) Batching.empty where
  num := rfl
  room := by decide
  small := by simp [Batching.empty]
  filled := fun h => absurd rfl h
  sock := rfl

/-- After the first branch the buffer holds the batch whether or not it was
    empty before. -/
theorem Represents.startBatch {s : RemoteStorage} {b : Batching} (h : Represents s b) :
    ∃ s', s.startBatch = some s' ∧ s'.Filled (fillingBytes b.filling) ∧
      s'.batchNum = s.batchNum ∧ s'.sock = s.sock := by
  unfold RemoteStorage.startBatch
  by_cases hzero : s.batchNum = 0
  · have hnil : b.filling = [] := List.eq_nil_of_length_eq_zero (by rw [← h.num, hzero])
    let cleared : RemoteStorage := { s with batchSize := 0, logBuffer := Buf.memset maxLine 0 }
    have hcleared : cleared.Filled [] := ⟨rfl, List.nil_prefix⟩
    obtain ⟨s', hpack, hfilled, hnum, hsock⟩ := hcleared.packSize logsPrefix (by decide)
    -- the packed prefix is followed by the zero bytes of the `memset`
    have hbytes : s'.logBuffer.Holds (logsPrefix ++ List.replicate 4 0) := by
      have hcopy : s'.logBuffer.bytes =
          [] ++ logsPrefix ++ (List.replicate maxLine 0).drop (0 + logsPrefix.length) := by
        have hs' : cleared.packSize logsPrefix = some s' := hpack
        rw [RemoteStorage.packSize, if_pos (by decide)] at hs'
        have hprefix : 0 + logsPrefix.length ≤ maxLine := by decide
        simp only [Buf.memcpy, cleared, Buf.memset, dif_pos hprefix, Option.bind_eq_bind,
          Option.bind_some, Option.pure_def, Option.some.injEq] at hs'
        rw [← hs']
        rfl
      rw [Buf.Holds, hcopy, List.nil_append, List.drop_replicate]
      refine List.prefix_append_right_inj _ |>.mpr ?_
      exact ⟨List.replicate (maxLine - 8) 0, by rw [List.replicate_append_replicate]; rfl⟩
    refine ⟨{ s' with batchSize := s'.batchSize + 4 }, ?_, ⟨?_, ?_⟩, hnum, hsock⟩
    · rw [if_pos hzero]
      change (cleared.packSize logsPrefix >>= _) = _
      rw [hpack]
      rfl
    · simp [fillingBytes, hnil, hfilled.size]
    · simpa [fillingBytes, hnil] using hbytes
  · have hne : b.filling ≠ [] := fun hnil => hzero (by rw [h.num, hnil]; rfl)
    exact ⟨s, if_neg hzero, h.filled hne, rfl, rfl⟩

/-- One call refines one abstract step, given room for the entry it packs. -/
theorem Represents.sendLog {s : RemoteStorage} {b : Batching} (h : Represents s b) (e : Entry)
    (hfit : b.filling.length < logBatchSize →
      (fillingBytes (b.filling ++ [e])).length ≤ maxLine) :
    ∃ s', s.sendLog e = some s' ∧ Represents s' (b.send e) := by
  obtain ⟨s₁, hstart, hfilled₁, hnum₁, hsock₁⟩ := h.startBatch
  have hnum : s₁.batchNum = b.filling.length := hnum₁.trans h.num
  by_cases hroom : b.filling.length < logBatchSize
  · have hlen := hfit hroom
    have hgrow : fillingBytes (b.filling ++ [e]) =
        fillingBytes b.filling ++ packLE 4 e.length ++ e := by
      simp [fillingBytes, encodeEntries_append, encodeEntry]
    rw [hgrow] at hlen
    simp only [List.length_append, length_packLE] at hlen
    obtain ⟨s₂, hpack, hfilled₂, hnum₂, hsock₂⟩ := hfilled₁.pack e.length (by omega)
    obtain ⟨s₃, hpackSize, hfilled₃, hnum₃, hsock₃⟩ :=
      hfilled₂.packSize e (by simp only [List.length_append, length_packLE]; omega)
    have hsend : b.send e = { b with filling := b.filling ++ [e] } := if_pos hroom
    refine ⟨{ s₃ with batchNum := s₃.batchNum + 1 }, ?_, ?_⟩
    · simp only [RemoteStorage.sendLog, hstart, Option.bind_eq_bind, Option.bind_some, hnum,
        if_pos hroom, RemoteStorage.addEntry, hpack, hpackSize]
      rfl
    · rw [hsend]
      refine ⟨?_, ?_, ?_, fun _ => ?_, ?_⟩
      · simp [hnum₃, hnum₂, hnum]
      · simpa using Nat.succ_le_of_lt hroom
      · intro item hitem
        rcases List.mem_append.mp hitem with hold | hnew
        · exact h.small item hold
        · have hmax : maxLine < 256 ^ 4 := by decide
          rw [List.mem_singleton.mp hnew]
          omega
      · rw [hgrow]; exact ⟨hfilled₃.size, hfilled₃.holds⟩
      · rw [← h.sock]; simp [hsock₃, hsock₂, hsock₁]
  · have hfull : b.filling.length = logBatchSize := by have := h.room; omega
    have hholds : s₁.logBuffer.Holds
        (logsPrefix ++ List.replicate 4 0 ++ encodeEntries b.filling) := hfilled₁.holds
    obtain ⟨buffer, hcopy, hpatched⟩ :=
      hholds.memcpy_inside (packLE 4 s₁.batchNum) (by simp)
    have hmessage : buffer.bytes.take s₁.batchSize = encodeLogs b.filling := by
      have hsize : s₁.batchSize =
          (logsPrefix ++ packLE 4 s₁.batchNum ++ encodeEntries b.filling).length := by
        rw [hfilled₁.size]
        simp only [fillingBytes, List.length_append, length_packLE, List.length_replicate]
      rw [hsize, hpatched.take_eq, hnum, encodeLogs]
    have hsend : b.send e = ⟨b.sent ++ [b.filling], []⟩ := if_neg hroom
    refine ⟨{ s₁ with
      logBuffer := buffer
      sock := s₁.sock ++ [buffer.bytes.take s₁.batchSize]
      batchNum := 0 }, ?_, ?_⟩
    · have hcopy' : s₁.logBuffer.memcpy 4 (packLE 4 s₁.batchNum) = some buffer := hcopy
      simp only [RemoteStorage.sendLog, hstart, Option.bind_eq_bind, Option.bind_some, hnum,
        if_neg hroom, RemoteStorage.flush]
      rw [← hnum, hcopy']
      rfl
    · rw [hsend]
      refine ⟨rfl, Nat.zero_le _, by simp, fun hne => absurd rfl hne, ?_⟩
      have hdecode := decodeLogs_encodeLogs b.filling (by rw [hfull]; decide) h.small
      simp only [hmessage, List.mapM_append, hsock₁, h.sock, List.mapM_cons, List.mapM_nil,
        hdecode]
      rfl

/-! ### Whole call sequences -/

/-- Any run of consecutive entries that one batch may hold fits the buffer. -/
def FitBuffer (entries : List Entry) : Prop :=
  ∀ start, (fillingBytes ((entries.drop start).take logBatchSize)).length ≤ maxLine

theorem length_encodeEntries_le_of_prefix {es fs : List Entry} (h : es <+: fs) :
    (encodeEntries es).length ≤ (encodeEntries fs).length := by
  obtain ⟨rest, rfl⟩ := h
  simp [encodeEntries_append]

/-- The batch being filled is a run of consecutive entries ending where the
    remaining calls `rest` begin, so it always has room for the next one. -/
theorem FitBuffer.next {done rest filling : List Entry} {e : Entry}
    (hfit : FitBuffer (done ++ e :: rest)) (hsuffix : filling <:+ done)
    (hroom : filling.length < logBatchSize) :
    (fillingBytes (filling ++ [e])).length ≤ maxLine := by
  obtain ⟨before, rfl⟩ := hsuffix
  have hwindow := hfit before.length
  have hdrop : (before ++ filling ++ e :: rest).drop before.length =
      filling ++ [e] ++ rest := by simp
  have hprefix : filling ++ [e] <+: (filling ++ [e] ++ rest).take logBatchSize := by
    rw [List.prefix_take_iff]
    exact ⟨List.prefix_append _ _, by simpa using Nat.succ_le_of_lt hroom⟩
  have hle := length_encodeEntries_le_of_prefix hprefix
  rw [hdrop] at hwindow
  simp only [fillingBytes, List.length_append] at hwindow ⊢
  omega

/-- A sequence of calls whose entries fit never leaves the buffer and refines
    the abstract batching. -/
theorem Represents.sendLogs {s : RemoteStorage} {b : Batching} (h : Represents s b)
    (done rest : List Entry) (hsuffix : b.filling <:+ done) (hfit : FitBuffer (done ++ rest)) :
    ∃ s', s.sendLogs rest = some s' ∧ Represents s' (b.sendAll rest) := by
  induction rest generalizing s b done with
  | nil => exact ⟨s, rfl, h⟩
  | cons e rest ih =>
      obtain ⟨s₁, hsend, hrep⟩ := h.sendLog e (fun hroom => hfit.next hsuffix hroom)
      have hsuffix₁ : (b.send e).filling <:+ done ++ [e] := by
        unfold Batching.send
        split
        · obtain ⟨before, rfl⟩ := hsuffix
          exact ⟨before, by simp⟩
        · exact List.nil_suffix
      obtain ⟨s', hsends, hrep'⟩ := ih hrep (done ++ [e]) hsuffix₁ (by simpa using hfit)
      exact ⟨s', by simp only [RemoteStorage.sendLogs, hsend, Option.bind_eq_bind,
        Option.bind_some, hsends], hrep'⟩

/-- What can be read back from a client is what its abstract state says. -/
theorem Represents.losesNothing_iff {s : RemoteStorage} {b : Batching} (h : Represents s b)
    (entries : List Entry) :
    s.LosesNothing entries ↔ b.sent.flatten ++ b.filling = entries := by
  have hpending : s.pending = some b.filling := by
    by_cases hnil : b.filling = []
    · simp [RemoteStorage.pending, h.num, hnil, decodeEntries]
    · obtain ⟨tail, htail⟩ := (h.filled hnil).holds
      have hbody : s.logBuffer.bytes.drop 8 = encodeEntries b.filling ++ tail := by
        rw [← htail, fillingBytes, List.append_assoc]
        exact List.drop_left' (by decide)
      simp only [RemoteStorage.pending, hbody, h.num,
        decodeEntries_encodeEntries b.filling tail h.small]
      rfl
  constructor
  · rintro ⟨batches, pending, hbatches, hcur, hall⟩
    rw [h.sock] at hbatches
    rw [hpending] at hcur
    cases hbatches
    cases hcur
    exact hall
  · exact fun hall => ⟨b.sent, b.filling, h.sock, hpending, hall⟩

/-- **Log shipping loses nothing exactly within the first batch.**  For every
    buffer and every sequence of entries that fit it the calls go through, all
    messages written are well formed, and the entries carried and pending are
    the ones passed in precisely when there are at most `LOG_BATCH_SIZE` of
    them: each later flush swallows the entry it was called with. -/
theorem sendLogs_losesNothing_iff (buffer : Buf maxLine) (entries : List Entry)
    (hfit : FitBuffer entries) :
    ∃ s, (RemoteStorage.init buffer).sendLogs entries = some s ∧
      (∃ batches, s.sock.mapM decodeLogs = some batches) ∧
      (s.LosesNothing entries ↔ entries.length ≤ logBatchSize) := by
  obtain ⟨s, hrun, hrep⟩ :=
    (represents_init buffer).sendLogs [] entries List.nil_suffix (by simpa using hfit)
  refine ⟨s, hrun, ⟨_, hrep.sock⟩, ?_⟩
  rw [hrep.losesNothing_iff, Batching.sendAll_empty_iff]

/-- Entries of one byte fit for any number of calls up to a whole batch and one. -/
theorem fitBuffer_replicate (count : Nat) (b : Byte) : FitBuffer (List.replicate count [b]) := by
  intro start
  have hlen : ∀ n, (encodeEntries (List.replicate n [b])).length = 5 * n := by
    intro n
    induction n with
    | zero => rfl
    | succ n ih =>
        rw [List.replicate_succ, encodeEntries_cons, List.length_append, length_encodeEntry, ih]
        simp only [List.length_singleton]
        omega
  rw [List.drop_replicate, List.take_replicate]
  simp only [fillingBytes, List.length_append, hlen, List.length_replicate]
  have hmin := Nat.min_le_left logBatchSize (count - start)
  have hprefix : logsPrefix.length = 4 := rfl
  have hbatch : logBatchSize = 10 := rfl
  have hmax : maxLine = 1048576 := rfl
  omega

/-- Three one-byte entries: the theorem at a concrete sequence within a batch. -/
theorem sendLogs_three_entries :
    FitBuffer (List.replicate 3 [7]) ∧
      ∃ s, (RemoteStorage.init (Buf.memset maxLine 0)).sendLogs (List.replicate 3 [7]) = some s ∧
        (∃ batches, s.sock.mapM decodeLogs = some batches) ∧
        (s.LosesNothing (List.replicate 3 [7]) ↔ 3 ≤ logBatchSize) :=
  ⟨fitBuffer_replicate 3 7,
    sendLogs_losesNothing_iff _ (List.replicate 3 [7]) (fitBuffer_replicate 3 7)⟩

/-- The eleventh of eleven one-byte entries is lost. -/
theorem sendLogs_eleventh_lost :
    ∃ s, (RemoteStorage.init (Buf.memset maxLine 0)).sendLogs (List.replicate 11 [7]) = some s ∧
      ¬ s.LosesNothing (List.replicate 11 [7]) := by
  obtain ⟨s, hrun, hrep⟩ := (represents_init (Buf.memset maxLine 0)).sendLogs []
    (List.replicate 11 [7]) List.nil_suffix (fitBuffer_replicate 11 7)
  refine ⟨s, hrun, ?_⟩
  rw [hrep.losesNothing_iff, Batching.sendAll_empty_iff]
  decide

end VeriTxn.LogShipping
