import VeriTxn.Messages
import VeriTxn.Transition

/-!
# The output thread: batches of messages

`MessageThread::run` takes one message from the queue and appends its bytes to the buffer of
its destination.  A buffer is sent as one batch when the next message does not fit, or when
its oldest message has waited long enough; the receiver takes the batch apart with
`create_messages`.  The clock is any sequence of readings, one for each call.
-/

namespace VeriTxn

open Bytes

/-- `MSG_SIZE_MAX`. -/
def msgSizeMax : Nat := 4096

/-- The header of a batch: destination, sender and count of 4 bytes, time of 8. -/
def batchHeader : Nat := 4 * 3 + 8

/-- `NODE_CNT`, `g_node_id`, `MSG_TIME_LIMIT` and what `get_sys_clock` returns at each call.
    Node ids are 32 bits wide. -/
structure NetConfig where
  nodeCnt : Nat
  nodeCnt_le : nodeCnt ≤ 2 ^ 32
  nodeId : UInt32
  msgTimeLimit : UInt64
  clock : Nat → UInt64

/-- `mbuf`. -/
structure Mbuf where
  buffer : Buf msgSizeMax
  starttime : UInt64
  ptr : Nat
  cnt : Nat

/-- `MessageThread`, with the number of clock readings made and the batches handed to
    `tport_man.send_msg`. -/
structure MessageThread where
  buffer : Nat → Mbuf
  reads : Nat
  sent : List (Nat × List Byte)

variable (cfg : NetConfig)

/-- `mbuf::reset`. -/
def Mbuf.reset (buffer : Buf msgSizeMax) (dest : Nat) : Option Mbuf := do
  let buffer ← buffer.memcpy 0 (packLE 4 dest)
  let buffer ← buffer.memcpy 4 (packLE 4 cfg.nodeId.toNat)
  return ⟨buffer, 0, batchHeader, 0⟩

def Mbuf.fits (m : Mbuf) (size : Nat) : Bool := m.ptr + size ≤ msgSizeMax

/-- `mbuf::ready`, and the number of clock readings afterwards. -/
def Mbuf.ready (m : Mbuf) (reads : Nat) : Bool × Nat :=
  if m.cnt = 0 then (false, reads)
  else (decide (cfg.msgTimeLimit ≤ cfg.clock reads - m.starttime), reads + 1)

namespace MessageThread

/-- `MessageThread::init` on buffers that hold any bytes. -/
def init (raw : Nat → Buf msgSizeMax) : Option MessageThread :=
  (List.range cfg.nodeCnt).foldlM (fun s n => do
    let m ← Mbuf.reset cfg (raw n) n
    return { s with buffer := Function.update s.buffer n m }) ⟨fun n => ⟨raw n, 0, 0, 0⟩, 0, []⟩

/-- `send_batch`; `none` when its assertion fails. -/
def sendBatch (s : MessageThread) (dest : Nat) : Option MessageThread := do
  let sbuf := s.buffer dest
  if sbuf.cnt = 0 then none
  else
    let buffer ← sbuf.buffer.memcpy 8 (packLE 4 sbuf.cnt)
    let buffer ← buffer.memcpy 12 (packLE 8 (cfg.clock s.reads).toNat)
    let m ← Mbuf.reset cfg buffer dest
    return ⟨Function.update s.buffer dest m, s.reads + 1,
      s.sent ++ [(dest, buffer.bytes.take sbuf.ptr)]⟩

/-- One round of `check_and_send_batches`. -/
def checkAndSend (s : MessageThread) (dest : Nat) : Option MessageThread :=
  if dest = cfg.nodeId.toNat then some s
  else
    let (ready, reads) := (s.buffer dest).ready cfg s.reads
    let s := { s with reads := reads }
    if ready then sendBatch cfg s dest else some s

def checkAndSendBatches (s : MessageThread) : Option MessageThread :=
  (List.range cfg.nodeCnt).foldlM (checkAndSend cfg) s

/-- A message that does not fit sends the buffer off first. -/
def makeRoom (s : MessageThread) (dest : Nat) (msg : Message) : Option MessageThread :=
  if (s.buffer dest).fits msg.payload.getSize then some s else sendBatch cfg s dest

/-- The message goes to the buffer; the first one sets its `starttime`. -/
def append (s : MessageThread) (dest : Nat) (msg : Message) : Option MessageThread := do
  let sbuf := s.buffer dest
  let buffer ← sbuf.buffer.memcpy sbuf.ptr msg.copyToBuf
  let first := sbuf.starttime = 0
  let starttime := if first then cfg.clock s.reads else sbuf.starttime
  return { s with
    buffer := Function.update s.buffer dest
      ⟨buffer, starttime, sbuf.ptr + msg.payload.getSize, sbuf.cnt + 1⟩
    reads := if first then s.reads + 1 else s.reads }

/-- `MessageThread::run` with what the queue returned; `none` when an assertion fails or
    the buffer is left. -/
def run (s : MessageThread) : Option (Nat × Message) → Option MessageThread
  | none => checkAndSendBatches cfg s
  | some (dest, msg) =>
      if dest < cfg.nodeCnt ∧ dest ≠ cfg.nodeId.toNat then do
        let s ← makeRoom cfg s dest msg
        let s ← append cfg s dest msg
        checkAndSendBatches cfg s
      else none

end MessageThread

/-! ### The receiver -/

/-- The loop of `create_messages`, with `n` messages to go. -/
def readMessages : Nat → List Byte → Option (List Message)
  | 0, _ => some []
  | n + 1, data => do
      let msg ← Message.createMessage data
      let msgs ← readMessages n (data.drop msg.payload.getSize)
      return msg :: msgs

/-- `Message::create_messages` on node `nodeId`; `none` when an assertion fails. -/
def createMessages (nodeId : Nat) (buf : List Byte) : Option (List Message) := do
  let destId ← word buf 0 4
  let returnId ← word buf 4 4
  let txnCnt ← word buf 8 4
  let _starttime ← word buf 12 8
  if destId = nodeId ∧ returnId ≠ nodeId then readMessages txnCnt (buf.drop batchHeader) else none

/-- The bytes of messages one after another. -/
def encodings (msgs : List Message) : List Byte := (msgs.map Message.copyToBuf).flatten

/-- A message as it is decoded. -/
def Message.decoded (m : Message) : Message := ⟨m.readTxnId, m.payload⟩

theorem encodings_append (msgs : List Message) (m : Message) :
    encodings (msgs ++ [m]) = encodings msgs ++ m.copyToBuf := by
  simp [encodings]

theorem readMessages_encodings (msgs : List Message) (rest : List Byte) :
    readMessages msgs.length (encodings msgs ++ rest) = some (msgs.map Message.decoded) := by
  induction msgs with
  | nil => rfl
  | cons m msgs ih =>
      have hsplit : encodings (m :: msgs) ++ rest = m.copyToBuf ++ (encodings msgs ++ rest) := by
        simp [encodings]
      have hskip : (m.copyToBuf ++ (encodings msgs ++ rest)).drop m.payload.getSize =
          encodings msgs ++ rest := List.drop_left' m.length_copyToBuf
      rw [hsplit, List.length_cons, readMessages, m.createMessage_copyToBuf]
      simp only [Option.bind_eq_bind, Option.bind_some, hskip, ih]
      rfl

/-- A message has at least its header. -/
theorem length_encodings_ge (msgs : List Message) :
    Message.mgetSize * msgs.length ≤ (encodings msgs).length := by
  induction msgs with
  | nil => exact Nat.zero_le _
  | cons m msgs ih =>
      have hsize : Message.mgetSize ≤ m.payload.getSize := by
        cases m.payload with
        | asyncHash fields =>
            simp only [Payload.getSize]
            omega
        | initDone => exact Nat.le_refl _
      have hsplit : (encodings (m :: msgs)).length = m.payload.getSize + (encodings msgs).length := by
        simp [encodings]
      rw [hsplit, List.length_cons, Nat.mul_succ]
      omega

/-! ### One buffer -/

/-- The buffer of `dest` holds the messages `pending` behind the header. -/
structure Mbuf.Holding (m : Mbuf) (dest : Nat) (pending : List Message) : Prop where
  cnt : m.cnt = pending.length
  ptr : m.ptr = batchHeader + (encodings pending).length
  bytes : ∃ count time : List Byte, count.length = 4 ∧ time.length = 8 ∧
    m.buffer.Holds (packLE 4 dest ++ packLE 4 cfg.nodeId.toNat ++ (count ++ (time ++
      encodings pending)))

variable {cfg} {m : Mbuf} {dest : Nat} {pending : List Message}

/-- Every buffer has room for the header. -/
theorem exists_header (buffer : Buf msgSizeMax) :
    ∃ d r c t : List Byte, d.length = 4 ∧ r.length = 4 ∧ c.length = 4 ∧ t.length = 8 ∧
      buffer.Holds (d ++ (r ++ (c ++ t))) := by
  have hsize := buffer.size
  simp only [msgSizeMax] at hsize
  refine ⟨buffer.bytes.take 4, (buffer.bytes.drop 4).take 4, (buffer.bytes.drop 8).take 4,
    (buffer.bytes.drop 12).take 8, by simp [hsize], by simp [hsize], by simp [hsize],
    by simp [hsize], ?_⟩
  have hjoin : buffer.bytes.take 4 ++ ((buffer.bytes.drop 4).take 4 ++
      ((buffer.bytes.drop 8).take 4 ++ (buffer.bytes.drop 12).take 8)) = buffer.bytes.take 20 := by
    rw [show (20 : Nat) = 4 + (4 + (4 + 8)) from rfl, List.take_add, List.take_add, List.take_add,
      List.drop_drop, List.drop_drop]
  rw [hjoin]
  exact List.take_prefix _ _

/-- After `reset` the buffer is empty and addressed. -/
theorem Mbuf.reset_holding (cfg : NetConfig) (buffer : Buf msgSizeMax) (dest : Nat) :
    ∃ m, Mbuf.reset cfg buffer dest = some m ∧ m.Holding cfg dest [] := by
  obtain ⟨d, r, c, t, hd, hr, hc, ht, hholds⟩ := exists_header buffer
  have hfirst : buffer.Holds ([] ++ d ++ (r ++ (c ++ t))) := hholds
  obtain ⟨b₁, hb₁, hholds₁⟩ := hfirst.memcpy_inside (packLE 4 dest) (by simp [hd])
  have hsecond : b₁.Holds (packLE 4 dest ++ r ++ (c ++ t)) := by
    rw [List.append_assoc]
    exact hholds₁
  obtain ⟨b₂, hb₂, hholds₂⟩ := hsecond.memcpy_inside (packLE 4 cfg.nodeId.toNat) (by simp [hr])
  rw [length_packLE] at hb₂
  refine ⟨⟨b₂, 0, batchHeader, 0⟩, ?_, rfl, rfl, c, t, hc, ht, ?_⟩
  · simp only [Mbuf.reset, List.length_nil] at hb₁ ⊢
    rw [hb₁, Option.bind_eq_bind, Option.bind_some, hb₂]
    rfl
  · simpa [encodings] using hholds₂

/-- The messages in a buffer are those `create_messages` would find there. -/
theorem Mbuf.Holding.readMessages (h : m.Holding cfg dest pending) :
    readMessages m.cnt (m.buffer.bytes.drop batchHeader) = some (pending.map Message.decoded) := by
  obtain ⟨c, t, hc, ht, rest, hrest⟩ := h.bytes
  have hlen : (packLE 4 dest ++ packLE 4 cfg.nodeId.toNat ++ (c ++ t)).length = batchHeader := by
    simp [hc, ht, batchHeader]
  have hbytes : m.buffer.bytes = (packLE 4 dest ++ packLE 4 cfg.nodeId.toNat ++ (c ++ t)) ++
      (encodings pending ++ rest) := by
    rw [← hrest]
    simp only [List.append_assoc]
  rw [h.cnt, hbytes, List.drop_left' hlen]
  exact readMessages_encodings pending rest

theorem Mbuf.Holding.ptr_le (h : m.Holding cfg dest pending) : m.ptr ≤ msgSizeMax := by
  obtain ⟨c, t, hc, ht, hholds⟩ := h.bytes
  have hle := hholds.length_le
  simp only [List.length_append, length_packLE, hc, ht] at hle
  rw [h.ptr, batchHeader]
  omega

theorem Mbuf.Holding.cnt_lt (h : m.Holding cfg dest pending) : m.cnt < 256 ^ 4 := by
  have hle := h.ptr_le
  have hge := length_encodings_ge pending
  rw [h.ptr, batchHeader, msgSizeMax] at hle
  rw [Message.mgetSize] at hge
  rw [h.cnt]
  omega

/-- A message that fits is appended. -/
theorem Mbuf.Holding.append (h : m.Holding cfg dest pending) (msg : Message)
    (hfits : m.fits msg.payload.getSize = true) (starttime : UInt64) :
    ∃ buffer, m.buffer.memcpy m.ptr msg.copyToBuf = some buffer ∧
      Mbuf.Holding cfg ⟨buffer, starttime, m.ptr + msg.payload.getSize, m.cnt + 1⟩ dest
        (pending ++ [msg]) := by
  obtain ⟨c, t, hc, ht, hholds⟩ := h.bytes
  have hptr : m.ptr = (packLE 4 dest ++ packLE 4 cfg.nodeId.toNat ++ (c ++ (t ++
      encodings pending))).length := by
    simp only [List.length_append, length_packLE, hc, ht, h.ptr, batchHeader]
    omega
  have hfit := of_decide_eq_true hfits
  obtain ⟨buffer, hcopy, hholds'⟩ := hholds.memcpy_append msg.copyToBuf (by
    rw [← hptr, msg.length_copyToBuf]
    exact hfit)
  refine ⟨buffer, by rw [hptr, hcopy], ?_, ?_, c, t, hc, ht, ?_⟩
  · rw [h.cnt, List.length_append, List.length_singleton]
  · rw [h.ptr, encodings_append, List.length_append, msg.length_copyToBuf, Nat.add_assoc]
  · rw [encodings_append]
    simpa only [List.append_assoc] using hholds'

/-- The count in the header of a batch. -/
theorem word_count {self n : Nat} (rest : List Byte) (hn : n < 256 ^ 4) :
    word (packLE 4 dest ++ (packLE 4 self ++ (packLE 4 n ++ rest))) 8 4 = some n := by
  rw [← List.append_assoc]
  exact word_field rest (by simp) hn

/-- What a batch of these messages is made into at its destination. -/
theorem createMessages_batch {msgs : List Message} {time : UInt64} (hdest : dest < 256 ^ 4)
    (hself : dest ≠ cfg.nodeId.toNat) (hcnt : msgs.length < 256 ^ 4) :
    createMessages dest (packLE 4 dest ++ (packLE 4 cfg.nodeId.toNat ++ (packLE 4 msgs.length ++
      (packLE 8 time.toNat ++ encodings msgs)))) = some (msgs.map Message.decoded) := by
  have hto : word (packLE 4 dest ++ (packLE 4 cfg.nodeId.toNat ++ (packLE 4 msgs.length ++
      (packLE 8 time.toNat ++ encodings msgs)))) 0 4 = some dest := word_packLE _ hdest
  have hfrom : word (packLE 4 dest ++ (packLE 4 cfg.nodeId.toNat ++ (packLE 4 msgs.length ++
      (packLE 8 time.toNat ++ encodings msgs)))) 4 4 = some cfg.nodeId.toNat :=
    word_field _ (by simp) (uint32_lt cfg.nodeId)
  have htime : word (packLE 4 dest ++ packLE 4 cfg.nodeId.toNat ++ packLE 4 msgs.length ++
      (packLE 8 time.toNat ++ encodings msgs)) 12 8 = some time.toNat :=
    word_field _ (by simp) (uint64_lt time)
  have hskip : (packLE 4 dest ++ packLE 4 cfg.nodeId.toNat ++ packLE 4 msgs.length ++
      packLE 8 time.toNat ++ encodings msgs).drop batchHeader = encodings msgs :=
    List.drop_left' (by simp [batchHeader])
  simp only [List.append_assoc] at htime hskip
  have hread := readMessages_encodings msgs []
  rw [List.append_nil] at hread
  simp only [createMessages, hto, hfrom, word_count _ hcnt, htime, hskip, Option.bind_eq_bind,
    Option.bind_some, ne_eq, hself.symm, not_false_eq_true, and_self, if_true, hread]

/-! ### The thread -/

namespace MessageThread

variable {s s' : MessageThread} {msgs : List Message}

/-- The batches sent to `dest`, in order. -/
def sentTo (s : MessageThread) (dest : Nat) : List (List Byte) :=
  (s.sent.filter fun b => b.1 = dest).map Prod.snd

/-- A batch that the transport may carry: not too long, and not empty. -/
def Sendable (batch : List Byte) : Prop := batch.length ≤ msgSizeMax ∧ word batch 8 4 ≠ some 0

/-- Of the messages for `dest` some went out in batches and the others are in its buffer. -/
def Accounted (cfg : NetConfig) (s : MessageThread) (dest : Nat) (msgs : List Message) : Prop :=
  ∃ (done : List (List Message)) (pending : List Message), done.flatten ++ pending = msgs ∧
    (s.buffer dest).Holding cfg dest pending ∧
    (s.sentTo dest).mapM (createMessages dest) = some (done.map (List.map Message.decoded)) ∧
    ∀ batch ∈ s.sentTo dest, Sendable batch

/-- What a step leaves alone for a destination. -/
theorem Accounted.frame (h : Accounted cfg s dest msgs) (hbuffer : s'.buffer dest = s.buffer dest)
    (hsent : s'.sentTo dest = s.sentTo dest) : Accounted cfg s' dest msgs := by
  unfold Accounted
  rw [hbuffer, hsent]
  exact h

/-- A batch that is sent holds all that was in the buffer. -/
theorem Accounted.sendBatch (h : Accounted cfg s dest msgs) (hdest : dest < 256 ^ 4)
    (hself : dest ≠ cfg.nodeId.toNat) (hcnt : (s.buffer dest).cnt ≠ 0) :
    ∃ s', sendBatch cfg s dest = some s' ∧ Accounted cfg s' dest msgs ∧
      (s'.buffer dest).ptr = batchHeader ∧
      ∀ d ≠ dest, s'.buffer d = s.buffer d ∧ s'.sentTo d = s.sentTo d := by
  obtain ⟨done, pending, hmsgs, hholding, hdone, hsendable⟩ := h
  obtain ⟨c, t, hc, ht, hholds⟩ := hholding.bytes
  have hcount : (s.buffer dest).buffer.Holds ((packLE 4 dest ++ packLE 4 cfg.nodeId.toNat) ++ c ++
      (t ++ encodings pending)) := by
    simpa only [List.append_assoc] using hholds
  obtain ⟨b₁, hb₁, hholds₁⟩ := hcount.memcpy_inside (packLE 4 (s.buffer dest).cnt) (by simp [hc])
  have htime : b₁.Holds ((packLE 4 dest ++ packLE 4 cfg.nodeId.toNat ++
      packLE 4 (s.buffer dest).cnt) ++ t ++ encodings pending) := by
    simpa only [List.append_assoc] using hholds₁
  obtain ⟨b₂, hb₂, hholds₂⟩ := htime.memcpy_inside (packLE 8 (cfg.clock s.reads).toNat)
    (by simp [ht])
  obtain ⟨m, hm, hempty⟩ := Mbuf.reset_holding cfg b₂ dest
  have hbatch : b₂.bytes.take (s.buffer dest).ptr = packLE 4 dest ++ (packLE 4 cfg.nodeId.toNat ++
      (packLE 4 pending.length ++ (packLE 8 (cfg.clock s.reads).toNat ++ encodings pending))) := by
    have htake := hholds₂.take_eq
    rw [hholding.cnt] at htake
    simp only [List.append_assoc, List.length_append, length_packLE] at htake
    rw [hholding.ptr, batchHeader, ← htake]
    congr 1
    omega
  have hlt : pending.length < 256 ^ 4 := hholding.cnt ▸ hholding.cnt_lt
  refine ⟨⟨Function.update s.buffer dest m, s.reads + 1,
      s.sent ++ [(dest, b₂.bytes.take (s.buffer dest).ptr)]⟩, ?_, ?_, ?_, ?_⟩
  · rw [List.length_append, length_packLE, length_packLE] at hb₁
    simp only [List.length_append, length_packLE] at hb₂
    simp only [MessageThread.sendBatch, hcnt, if_false, Option.bind_eq_bind, hb₁, Option.bind_some,
      hb₂, hm]
    rfl
  · have hsent : sentTo ⟨Function.update s.buffer dest m, s.reads + 1,
        s.sent ++ [(dest, b₂.bytes.take (s.buffer dest).ptr)]⟩ dest =
        s.sentTo dest ++ [b₂.bytes.take (s.buffer dest).ptr] := by
      simp [sentTo]
    refine ⟨done ++ [pending], [], by simp [hmsgs], ?_, ?_, ?_⟩
    · simpa only [Function.update_self] using hempty
    · rw [hsent, List.mapM_append, hdone, hbatch]
      simp [createMessages_batch hdest hself hlt]
    · rw [hsent]
      intro batch hmem
      rcases List.mem_append.mp hmem with hold | hnew
      · exact hsendable batch hold
      · obtain rfl := List.mem_singleton.mp hnew
        constructor
        · rw [List.length_take]
          exact (Nat.min_le_left _ _).trans hholding.ptr_le
        · rw [hbatch, word_count _ hlt, ne_eq, Option.some.injEq, ← hholding.cnt]
          exact hcnt
  · simp only [Function.update_self]
    rw [hempty.ptr]
    rfl
  · intro d hd
    constructor
    · exact Function.update_of_ne hd _ _
    · simp [sentTo, hd.symm]

/-- The messages of every other node are accounted for. -/
def AllAccounted (cfg : NetConfig) (s : MessageThread) (msgs : Nat → List Message) : Prop :=
  ∀ dest < cfg.nodeCnt, dest ≠ cfg.nodeId.toNat → Accounted cfg s dest (msgs dest)

variable {msgs : Nat → List Message}

theorem AllAccounted.sendBatch (h : AllAccounted cfg s msgs) (hdest : dest < cfg.nodeCnt)
    (hself : dest ≠ cfg.nodeId.toNat) (hcnt : (s.buffer dest).cnt ≠ 0) :
    ∃ s', MessageThread.sendBatch cfg s dest = some s' ∧ AllAccounted cfg s' msgs ∧
      (s'.buffer dest).ptr = batchHeader := by
  have hwidth : dest < 256 ^ 4 := lt_of_lt_of_le hdest cfg.nodeCnt_le
  obtain ⟨s', hsend, hthis, hptr, hothers⟩ := (h dest hdest hself).sendBatch hwidth hself hcnt
  refine ⟨s', hsend, fun d hd hd' => ?_, hptr⟩
  by_cases heq : d = dest
  · exact heq ▸ hthis
  · exact (h d hd hd').frame (hothers d heq).1 (hothers d heq).2

theorem AllAccounted.checkAndSend (h : AllAccounted cfg s msgs) (hdest : dest < cfg.nodeCnt) :
    ∃ s', MessageThread.checkAndSend cfg s dest = some s' ∧ AllAccounted cfg s' msgs := by
  unfold MessageThread.checkAndSend
  split
  · exact ⟨s, rfl, h⟩
  · rename_i hself
    by_cases hcnt : (s.buffer dest).cnt = 0
    · have hready : (s.buffer dest).ready cfg s.reads = (false, s.reads) := if_pos hcnt
      rw [hready]
      exact ⟨s, rfl, h⟩
    · have hreads : AllAccounted cfg { s with reads := s.reads + 1 } msgs :=
        fun d hd hd' => (h d hd hd').frame rfl rfl
      have hready : (s.buffer dest).ready cfg s.reads =
          (decide (cfg.msgTimeLimit ≤ cfg.clock s.reads - (s.buffer dest).starttime),
            s.reads + 1) := if_neg hcnt
      rw [hready]
      dsimp only
      split
      · obtain ⟨s', hsend, hall, -⟩ := hreads.sendBatch hdest hself hcnt
        exact ⟨s', hsend, hall⟩
      · exact ⟨_, rfl, hreads⟩

theorem AllAccounted.checkAndSendBatches (h : AllAccounted cfg s msgs) :
    ∃ s', MessageThread.checkAndSendBatches cfg s = some s' ∧ AllAccounted cfg s' msgs :=
  Transition.foldlM_eq_some (fun _ _ hd hs => hs.checkAndSend (List.mem_range.mp hd)) h

/-- The buffer takes the message over. -/
theorem AllAccounted.append (h : AllAccounted cfg s msgs) {msg : Message}
    (hdest : dest < cfg.nodeCnt) (hself : dest ≠ cfg.nodeId.toNat)
    (hfits : (s.buffer dest).fits msg.payload.getSize = true) :
    ∃ s', MessageThread.append cfg s dest msg = some s' ∧
      AllAccounted cfg s' (Function.update msgs dest (msgs dest ++ [msg])) := by
  obtain ⟨done, pending, hmsgs, hholding, hdone, hsendable⟩ := h dest hdest hself
  obtain ⟨buffer, hcopy, hholding'⟩ := hholding.append msg hfits
    (if (s.buffer dest).starttime = 0 then cfg.clock s.reads else (s.buffer dest).starttime)
  refine ⟨{ s with
    buffer := Function.update s.buffer dest ⟨buffer,
      if (s.buffer dest).starttime = 0 then cfg.clock s.reads else (s.buffer dest).starttime,
      (s.buffer dest).ptr + msg.payload.getSize, (s.buffer dest).cnt + 1⟩
    reads := if (s.buffer dest).starttime = 0 then s.reads + 1 else s.reads }, ?_, ?_⟩
  · rw [MessageThread.append]
    simp only [hcopy, Option.bind_eq_bind, Option.bind_some]
    rfl
  · intro d hd hd'
    by_cases heq : d = dest
    · subst heq
      rw [Function.update_self]
      refine ⟨done, pending ++ [msg], ?_, ?_, hdone, hsendable⟩
      · rw [← hmsgs, List.append_assoc]
      · simpa only [Function.update_self] using hholding'
    · rw [Function.update_of_ne heq]
      exact (h d hd hd').frame (Function.update_of_ne heq _ _) rfl

/-- Every message has room in an empty buffer. -/
theorem fits_of_empty {m : Mbuf} (hptr : m.ptr = batchHeader) (p : Payload) :
    m.fits p.getSize = true := by
  rw [Mbuf.fits, hptr]
  cases p <;> rfl

/-- A buffer without room for one more message is not empty. -/
theorem cnt_ne_zero_of_not_fits {m : Mbuf} {pending : List Message} {p : Payload}
    (h : m.Holding cfg dest pending) (hfits : ¬ m.fits p.getSize = true) : m.cnt ≠ 0 := by
  intro hzero
  rw [h.cnt] at hzero
  obtain rfl := List.length_eq_zero_iff.mp hzero
  exact hfits (fits_of_empty h.ptr p)

theorem AllAccounted.makeRoom (h : AllAccounted cfg s msgs) (msg : Message)
    (hdest : dest < cfg.nodeCnt) (hself : dest ≠ cfg.nodeId.toNat) :
    ∃ s', MessageThread.makeRoom cfg s dest msg = some s' ∧ AllAccounted cfg s' msgs ∧
      (s'.buffer dest).fits msg.payload.getSize = true := by
  unfold MessageThread.makeRoom
  by_cases hfits : (s.buffer dest).fits msg.payload.getSize = true
  · exact ⟨s, if_pos hfits, h, hfits⟩
  · obtain ⟨done, pending, -, hholding, -⟩ := h dest hdest hself
    obtain ⟨s', hs', hall, hptr⟩ :=
      h.sendBatch hdest hself (cnt_ne_zero_of_not_fits hholding hfits)
    exact ⟨s', (if_neg hfits).trans hs', hall, fits_of_empty hptr _⟩

/-- The messages for `dest` among what the queue returned. -/
def dequeued (inputs : List (Option (Nat × Message))) (dest : Nat) : List Message :=
  inputs.filterMap fun input => (input.filter fun i => i.1 = dest).map Prod.snd

theorem AllAccounted.run (h : AllAccounted cfg s msgs) (input : Option (Nat × Message))
    (hinput : ∀ i ∈ input, i.1 < cfg.nodeCnt ∧ i.1 ≠ cfg.nodeId.toNat) :
    ∃ s', MessageThread.run cfg s input = some s' ∧
      AllAccounted cfg s' (fun dest => msgs dest ++ dequeued [input] dest) := by
  cases input with
  | none =>
      obtain ⟨s', hs', hall⟩ := h.checkAndSendBatches
      exact ⟨s', hs', by simpa [dequeued] using hall⟩
  | some i =>
      obtain ⟨dest, msg⟩ := i
      obtain ⟨hdest, hself⟩ : dest < cfg.nodeCnt ∧ dest ≠ cfg.nodeId.toNat := hinput _ rfl
      obtain ⟨s₁, hs₁, hall₁, hfits⟩ := h.makeRoom msg hdest hself
      obtain ⟨s₂, hs₂, hall₂⟩ := hall₁.append hdest hself hfits
      obtain ⟨s₃, hs₃, hall₃⟩ := hall₂.checkAndSendBatches
      have hmsgs : (fun d => msgs d ++ dequeued [some (dest, msg)] d) =
          Function.update msgs dest (msgs dest ++ [msg]) := by
        funext d
        by_cases heq : d = dest
        · subst heq
          simp [dequeued, Option.filter]
        · simp [dequeued, Option.filter, Function.update_of_ne heq, Ne.symm heq]
      refine ⟨s₃, ?_, hmsgs ▸ hall₃⟩
      rw [MessageThread.run, if_pos ⟨hdest, hself⟩, hs₁, Option.bind_eq_bind, Option.bind_some,
        hs₂, Option.bind_some, hs₃]

theorem init_accounted (cfg : NetConfig) (raw : Nat → Buf msgSizeMax) :
    ∃ s, init cfg raw = some s ∧ AllAccounted cfg s fun _ => [] := by
  -- after `n` rounds the first `n` buffers are empty
  have hrounds : ∀ n, ∃ s, (List.range n).foldlM (fun s n => do
      let m ← Mbuf.reset cfg (raw n) n
      return { s with buffer := Function.update s.buffer n m })
        (⟨fun n => ⟨raw n, 0, 0, 0⟩, 0, []⟩ : MessageThread) = some s ∧ s.sent = [] ∧
      ∀ d < n, (s.buffer d).Holding cfg d [] := by
    intro n
    induction n with
    | zero => exact ⟨_, rfl, rfl, fun d hd => absurd hd (Nat.not_lt_zero d)⟩
    | succ n ih =>
        obtain ⟨s, hs, hsent, hempty⟩ := ih
        obtain ⟨m, hm, hnew⟩ := Mbuf.reset_holding cfg (raw n) n
        refine ⟨{ s with buffer := Function.update s.buffer n m }, ?_, hsent, fun d hd => ?_⟩
        · rw [List.range_succ, List.foldlM_append, hs, Option.bind_eq_bind, Option.bind_some]
          simp [hm]
        · by_cases heq : d = n
          · subst heq
            simpa only [Function.update_self] using hnew
          · simpa only [Function.update_of_ne heq] using hempty d (by omega)
  obtain ⟨s, hs, hsent, hempty⟩ := hrounds cfg.nodeCnt
  refine ⟨s, hs, fun dest hdest _ => ⟨[], [], rfl, hempty dest hdest, ?_, ?_⟩⟩
  · simp [sentTo, hsent]
  · simp [sentTo, hsent]

/-- All messages are accounted for after any sequence of calls. -/
theorem AllAccounted.runs (inputs : List (Option (Nat × Message)))
    (hinputs : ∀ input ∈ inputs, ∀ i ∈ input, i.1 < cfg.nodeCnt ∧ i.1 ≠ cfg.nodeId.toNat)
    (h : AllAccounted cfg s msgs) :
    ∃ s', Transition.runs (MessageThread.run cfg) s inputs = some s' ∧
      AllAccounted cfg s' (fun dest => msgs dest ++ dequeued inputs dest) := by
  induction inputs generalizing s msgs with
  | nil => exact ⟨s, rfl, by simpa [dequeued] using h⟩
  | cons input inputs ih =>
      obtain ⟨s₁, hs₁, hall₁⟩ := h.run input (hinputs input (List.mem_cons_self ..))
      obtain ⟨s', hs', hall'⟩ := ih (fun i hi => hinputs i (List.mem_cons_of_mem _ hi)) hall₁
      refine ⟨s', Transition.runs_cons_eq_some.mpr ⟨s₁, hs₁, hs'⟩, ?_⟩
      have hdequeued : ∀ dest, dequeued (input :: inputs) dest =
          dequeued [input] dest ++ dequeued inputs dest := by
        intro dest
        rw [dequeued, dequeued, dequeued, ← List.filterMap_append, List.singleton_append]
      simpa only [hdequeued, List.append_assoc] using hall'

/-- Batching loses nothing: at every other node the messages decoded from the batches sent
    to it, followed by those still in its buffer, are the messages dequeued for it. -/
theorem batching_loses_nothing (cfg : NetConfig) (raw : Nat → Buf msgSizeMax)
    (inputs : List (Option (Nat × Message)))
    (hinputs : ∀ input ∈ inputs, ∀ i ∈ input, i.1 < cfg.nodeCnt ∧ i.1 ≠ cfg.nodeId.toNat) :
    ∃ s₀ s, init cfg raw = some s₀ ∧ Transition.runs (MessageThread.run cfg) s₀ inputs = some s ∧
      ∀ dest < cfg.nodeCnt, dest ≠ cfg.nodeId.toNat →
        (∃ batches pending, (s.sentTo dest).mapM (createMessages dest) = some batches ∧
          readMessages (s.buffer dest).cnt ((s.buffer dest).buffer.bytes.drop batchHeader) =
            some pending ∧
          (batches.flatten ++ pending).map Message.payload =
            (dequeued inputs dest).map Message.payload) ∧
        ∀ batch ∈ s.sentTo dest, batch.length ≤ msgSizeMax ∧ word batch 8 4 ≠ some 0 := by
  obtain ⟨s₀, hs₀, hinit⟩ := init_accounted cfg raw
  obtain ⟨s, hs, hall⟩ := hinit.runs inputs hinputs
  refine ⟨s₀, s, hs₀, hs, fun dest hdest hself => ?_⟩
  obtain ⟨done, pending, hmsgs, hholding, hdone, hsendable⟩ := hall dest hdest hself
  refine ⟨⟨_, _, hdone, hholding.readMessages, ?_⟩, hsendable⟩
  have hpayload : Message.payload ∘ Message.decoded = Message.payload := rfl
  have hdequeued : done.flatten ++ pending = dequeued inputs dest := hmsgs
  rw [← hdequeued, ← List.map_flatten, ← List.map_append, List.map_map, hpayload]

/-- Three nodes, and messages for two of them. -/
theorem batching_loses_nothing_three_nodes :
    ∃ s₀ s, init ⟨3, by decide, 0, 0, fun n => UInt64.ofNat n⟩
        (fun _ => Buf.memset msgSizeMax 0) = some s₀ ∧
      Transition.runs (MessageThread.run ⟨3, by decide, 0, 0, fun n => UInt64.ofNat n⟩) s₀
        [some (1, ⟨0, .initDone⟩), none, some (2, ⟨5, .initDone⟩)] = some s ∧
      ∀ dest < 3, dest ≠ 0 →
        (∃ batches pending, (s.sentTo dest).mapM (createMessages dest) = some batches ∧
          readMessages (s.buffer dest).cnt ((s.buffer dest).buffer.bytes.drop batchHeader) =
            some pending ∧
          (batches.flatten ++ pending).map Message.payload = [.initDone]) ∧
        ∀ batch ∈ s.sentTo dest, batch.length ≤ msgSizeMax ∧ word batch 8 4 ≠ some 0 := by
  obtain ⟨s₀, s, hs₀, hs, hall⟩ := batching_loses_nothing ⟨3, by decide, 0, 0, fun n => UInt64.ofNat n⟩
    (fun _ => Buf.memset msgSizeMax 0)
    [some (1, ⟨0, .initDone⟩), none, some (2, ⟨5, .initDone⟩)] (by simp)
  refine ⟨s₀, s, hs₀, hs, fun dest hdest hself => ?_⟩
  obtain ⟨⟨batches, pending, hbatches, hpending, hmsgs⟩, hsendable⟩ := hall dest hdest hself
  refine ⟨⟨batches, pending, hbatches, hpending, hmsgs.trans ?_⟩, hsendable⟩
  have htwo : dest = 1 ∨ dest = 2 := by omega
  rcases htwo with rfl | rfl <;> rfl

end MessageThread

end VeriTxn
