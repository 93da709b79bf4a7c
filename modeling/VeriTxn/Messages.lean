import VeriTxn.Bytes
import VeriTxn.Types

/-!
# Messages between nodes

A message is a type, a transaction id and, for `ASYNC_HASH`, the name of an index with the
place and the hash of one of its pages.  `copy_to_buf` writes the type and the id before
the payload; `mcopy_from_buf` reads the id from the first bytes, where the type stands.
`AsyncHashMessage::init` copies the name with `strcpy` into an array of fixed length.
-/

namespace VeriTxn

open Bytes

/-- `RemReqType`. -/
inductive RemReqType where
  | asyncHash | initDone | noMsg
deriving DecidableEq, Repr

/-- The value of the enumerator. -/
def RemReqType.code : RemReqType → Nat
  | .asyncHash => 0
  | .initDone => 1
  | .noMsg => 2

theorem RemReqType.code_lt (t : RemReqType) : t.code < 256 ^ 4 := by
  cases t <;> decide

/-- `INDEX_NAME_LENGTH`. -/
def indexNameLength : Nat := 16

/-- The fields of `AsyncHashMessage` besides those of every message. -/
structure AsyncHash where
  indexName : Buf indexNameLength
  partId : Int32
  bktIdx : UInt64
  hash : UInt64
  ts : UInt64

/-- What the two classes of messages carry. -/
inductive Payload where
  | asyncHash (fields : AsyncHash)
  | initDone

/-- A message that was created for its type.  The node it came from is not part of the
    bytes. -/
structure Message where
  txnId : UInt64
  payload : Payload

def Payload.rtype : Payload → RemReqType
  | .asyncHash _ => .asyncHash
  | .initDone => .initDone

/-! ### The codec -/

/-- `Message::mget_size`. -/
def Message.mgetSize : Nat := 4 + 8

/-- `get_size` of the two classes. -/
def Payload.getSize : Payload → Nat
  | .asyncHash _ => Message.mgetSize + indexNameLength + 4 + 8 + 8 + 8
  | .initDone => Message.mgetSize

/-- The bytes after the header. -/
def Payload.bytes : Payload → List Byte
  | .asyncHash fields =>
      fields.indexName.bytes ++ (packLE 4 fields.partId.toUInt32.toNat ++
        (packLE 8 fields.bktIdx.toNat ++ (packLE 8 fields.hash.toNat ++ packLE 8 fields.ts.toNat)))
  | .initDone => []

/-- `Message::mcopy_to_buf`: the header. -/
def Message.mcopyToBuf (m : Message) : List Byte :=
  packLE 4 m.payload.rtype.code ++ packLE 8 m.txnId.toNat

/-- `copy_to_buf`: the bytes written from `buf` on. -/
def Message.copyToBuf (m : Message) : List Byte :=
  m.mcopyToBuf ++ m.payload.bytes

/-- `Message::mcopy_from_buf`: the transaction id, read at offset 0. -/
def Message.mcopyFromBuf (buf : List Byte) : Option UInt64 :=
  (word buf 0 8).map UInt64.ofNat

/-- The array `index_name` at `ptr`. -/
def nameAt (buf : List Byte) (ptr : Nat) : Option (Buf indexNameLength) :=
  if h : ptr + indexNameLength ≤ buf.length then
    some ⟨(buf.drop ptr).take indexNameLength, by
      rw [List.length_take, List.length_drop]
      omega⟩
  else none

/-- `AsyncHashMessage::copy_from_buf` after the header. -/
def AsyncHash.copyFromBuf (buf : List Byte) : Option AsyncHash := do
  let ptr := Message.mgetSize
  let indexName ← nameAt buf ptr
  let ptr := ptr + indexNameLength
  let partId ← word buf ptr 4
  let bktIdx ← word buf (ptr + 4) 8
  let hash ← word buf (ptr + 12) 8
  let ts ← word buf (ptr + 20) 8
  return ⟨indexName, (UInt32.ofNat partId).toInt32, UInt64.ofNat bktIdx, UInt64.ofNat hash,
    UInt64.ofNat ts⟩

/-- `Message::create_message(buf)`; `none` when the assertion on the type fails or the
    memory is left. -/
def Message.createMessage (buf : List Byte) : Option Message := do
  let rtype ← word buf 0 4
  if rtype = RemReqType.asyncHash.code then do
    let txnId ← mcopyFromBuf buf
    let fields ← AsyncHash.copyFromBuf buf
    return ⟨txnId, .asyncHash fields⟩
  else if rtype = RemReqType.initDone.code then do
    let txnId ← mcopyFromBuf buf
    return ⟨txnId, .initDone⟩
  else none

/-! ### What is read back -/

@[simp] theorem Payload.length_bytes (p : Payload) :
    p.bytes.length = p.getSize - Message.mgetSize := by
  cases p with
  | asyncHash fields =>
      simp only [Payload.bytes, Payload.getSize, Message.mgetSize, List.length_append,
        length_packLE, fields.indexName.size]
      omega
  | initDone => rfl

@[simp] theorem Message.length_mcopyToBuf (m : Message) : m.mcopyToBuf.length = mgetSize := by
  rw [Message.mcopyToBuf, List.length_append, length_packLE, length_packLE, mgetSize]

@[simp] theorem Message.length_copyToBuf (m : Message) :
    m.copyToBuf.length = m.payload.getSize := by
  rw [Message.copyToBuf, List.length_append, length_mcopyToBuf, Payload.length_bytes]
  cases m.payload <;> rfl

theorem nameAt_field {front : List Byte} {pos : Nat} (name : Buf indexNameLength)
    (rest : List Byte) (hpos : pos = front.length) :
    nameAt (front ++ (name.bytes ++ rest)) pos = some name := by
  have hfit : pos + indexNameLength ≤ (front ++ (name.bytes ++ rest)).length := by
    simp only [List.length_append, name.size]
    omega
  rw [nameAt, dif_pos hfit, Option.some.injEq]
  obtain ⟨bytes, hsize⟩ := name
  congr 1
  rw [hpos, List.drop_left, List.take_left' hsize]

/-- The payload of an `ASYNC_HASH` is read back behind any header. -/
theorem AsyncHash.copyFromBuf_bytes {header : List Byte} (fields : AsyncHash) (rest : List Byte)
    (hheader : header.length = Message.mgetSize) :
    AsyncHash.copyFromBuf (header ++ ((Payload.asyncHash fields).bytes ++ rest)) = some fields := by
  obtain ⟨name, partId, bktIdx, hash, ts⟩ := fields
  have hname : (header ++ name.bytes).length = Message.mgetSize + indexNameLength := by
    rw [List.length_append, hheader, name.size]
  have hpart : (header ++ name.bytes ++ packLE 4 partId.toUInt32.toNat).length =
      Message.mgetSize + indexNameLength + 4 := by
    rw [List.length_append, hname, length_packLE]
  have hbkt : (header ++ name.bytes ++ packLE 4 partId.toUInt32.toNat ++
      packLE 8 bktIdx.toNat).length = Message.mgetSize + indexNameLength + 12 := by
    rw [List.length_append, hpart, length_packLE]
  have hhash : (header ++ name.bytes ++ packLE 4 partId.toUInt32.toNat ++ packLE 8 bktIdx.toNat ++
      packLE 8 hash.toNat).length = Message.mgetSize + indexNameLength + 20 := by
    rw [List.length_append, hbkt, length_packLE]
  have hts := word_field rest hhash.symm (uint64_lt ts)
  have hh := word_field (packLE 8 ts.toNat ++ rest) hbkt.symm (uint64_lt hash)
  have hb := word_field (packLE 8 hash.toNat ++ (packLE 8 ts.toNat ++ rest)) hpart.symm
    (uint64_lt bktIdx)
  have hp := word_field (packLE 8 bktIdx.toNat ++ (packLE 8 hash.toNat ++ (packLE 8 ts.toNat ++
    rest))) hname.symm (uint32_lt partId.toUInt32)
  simp only [List.append_assoc] at hts hh hb hp
  simp only [AsyncHash.copyFromBuf, Payload.bytes, List.append_assoc,
    nameAt_field name _ hheader.symm, hp, hb, hh, hts, Option.bind_eq_bind, Option.bind_some,
    Option.pure_def, UInt64.ofNat_toNat, UInt32.ofNat_toNat, Int32.toInt32_toUInt32]

/-- The id that `mcopy_from_buf` finds: the type in its low half, the low half of the id
    that was written in its high half. -/
def Message.readTxnId (m : Message) : UInt64 :=
  UInt64.ofNat (m.payload.rtype.code + 2 ^ 32 * m.txnId.toNat)

theorem Message.mcopyFromBuf_copyToBuf (m : Message) (rest : List Byte) :
    mcopyFromBuf (m.copyToBuf ++ rest) = some m.readTxnId := by
  have hfit : 0 + 8 ≤ (m.copyToBuf ++ rest).length := by
    rw [Message.copyToBuf, List.length_append, List.length_append, length_mcopyToBuf, mgetSize]
    omega
  have hfirst : (m.copyToBuf ++ rest).take 8 =
      packLE 4 m.payload.rtype.code ++ packLE 4 m.txnId.toNat := by
    rw [Message.copyToBuf, Message.mcopyToBuf, List.append_assoc, List.append_assoc,
      List.take_append, length_packLE, List.take_of_length_le (by simp),
      List.take_append_of_le_length (by simp), take_packLE (by omega)]
  have hcode := Nat.mod_eq_of_lt (RemReqType.code_lt m.payload.rtype)
  rw [mcopyFromBuf, word, if_pos hfit, List.drop_zero, hfirst, unpackLE_append,
    unpackLE_packLE_mod, unpackLE_packLE_mod, length_packLE, hcode, Option.map_some,
    Option.some.injEq, readTxnId, ← UInt64.toNat_inj, UInt64.toNat_ofNat', UInt64.toNat_ofNat']
  omega

/-- What `create_message` makes of a message in memory. -/
theorem Message.createMessage_copyToBuf (m : Message) (rest : List Byte) :
    createMessage (m.copyToBuf ++ rest) = some ⟨m.readTxnId, m.payload⟩ := by
  have htxn := m.mcopyFromBuf_copyToBuf rest
  have htype : word (m.copyToBuf ++ rest) 0 4 = some m.payload.rtype.code := by
    rw [Message.copyToBuf, Message.mcopyToBuf, List.append_assoc, List.append_assoc]
    exact word_packLE _ (RemReqType.code_lt _)
  rw [createMessage, htype, htxn]
  obtain ⟨txnId, payload⟩ := m
  cases payload with
  | asyncHash fields =>
      have hfields : AsyncHash.copyFromBuf ((⟨txnId, .asyncHash fields⟩ : Message).copyToBuf ++
          rest) = some fields := by
        rw [Message.copyToBuf, List.append_assoc]
        exact AsyncHash.copyFromBuf_bytes fields rest (length_mcopyToBuf _)
      rw [hfields]
      rfl
  | initDone => rfl

/-! ### Index names -/

/-- The `INDEX=` entries of the schema files. -/
inductive SchemaIndex where
  | mainIndex | itemIdx | warehouseIdx | districtIdx | customerIdIdx | customerLastIdx | stockIdx
  | newOrderIdx | orderIdx | orderLineIdx
deriving DecidableEq, Repr

def SchemaIndex.text : SchemaIndex → String
  | .mainIndex => "MAIN_INDEX"
  | .itemIdx => "ITEM_IDX"
  | .warehouseIdx => "WAREHOUSE_IDX"
  | .districtIdx => "DISTRICT_IDX"
  | .customerIdIdx => "CUSTOMER_ID_IDX"
  | .customerLastIdx => "CUSTOMER_LAST_IDX"
  | .stockIdx => "STOCK_IDX"
  | .newOrderIdx => "NEW-ORDER_IDX"
  | .orderIdx => "ORDER_IDX"
  | .orderLineIdx => "ORDER-LINE_IDX"

/-- The characters of the name, all of them ASCII. -/
def SchemaIndex.bytes (name : SchemaIndex) : List Byte :=
  name.text.toList.map fun c => UInt8.ofNat c.toNat

theorem size_overwrite (array : Buf indexNameLength) (s : List Byte) :
    (overwrite array.bytes 0 s).length = indexNameLength := by
  rw [overwrite]
  have hsize := array.size
  simp only [List.length_append, List.length_take, List.length_drop]
  omega

/-- `strcpy(array, s)`: the array afterwards, and whether all bytes went into it. -/
def strcpy (array : Buf indexNameLength) (s : List Byte) : Buf indexNameLength × Bool :=
  (⟨overwrite array.bytes 0 (s ++ [0]), size_overwrite array (s ++ [0])⟩,
    decide (s.length + 1 ≤ indexNameLength))

/-- The arguments of `AsyncHashMessage::init`, or a message that has no `init`. -/
inductive Request where
  | asyncHash (name : SchemaIndex) (partId : Int32) (bktIdx hash ts : UInt64)
  | initDone

/-- `init` on a new message, whose array holds any bytes: the payload, and whether `strcpy`
    stayed inside the array. -/
def Request.init (array : Buf indexNameLength) : Request → Payload × Bool
  | .asyncHash name partId bktIdx hash ts =>
      let (indexName, within) := strcpy array name.bytes
      (.asyncHash ⟨indexName, partId, bktIdx, hash, ts⟩, within)
  | .initDone => (.initDone, true)

/-- The index a request names. -/
def Request.indexName : Request → Option SchemaIndex
  | .asyncHash name _ _ _ _ => some name
  | .initDone => none

/-- `std::string index_name = amsg->index_name` for an array with a terminating zero. -/
def Payload.indexName : Payload → Option (List Byte)
  | .asyncHash fields => slice fields.indexName.bytes 0
  | .initDone => none

/-- The message is written inside its array, and read back with the same type, id and
    fields, its name being the one that was asked for. -/
def RoundTrips (array : Buf indexNameLength) (txnId : UInt64) (req : Request)
    (rest : List Byte) : Prop :=
  (req.init array).2 = true ∧
  (req.init array).1.indexName = req.indexName.map SchemaIndex.bytes ∧
  Message.createMessage ((⟨txnId, (req.init array).1⟩ : Message).copyToBuf ++ rest) =
    some ⟨txnId, (req.init array).1⟩

/-- One name of the schemas is too long for the array. -/
theorem SchemaIndex.fits_iff (name : SchemaIndex) :
    name.bytes.length + 1 ≤ indexNameLength ↔ name ≠ .customerLastIdx := by
  cases name <;> decide

theorem SchemaIndex.zero_notMem (name : SchemaIndex) : (0 : Byte) ∉ name.bytes := by
  cases name <;> decide

/-- A string that fits is the one found in the array afterwards. -/
theorem slice_strcpy {array : Buf indexNameLength} {s : List Byte} (hzero : 0 ∉ s)
    (hfits : s.length + 1 ≤ indexNameLength) : slice (strcpy array s).1.bytes 0 = some s := by
  have hwhole : (s ++ [0]).take (array.bytes.length - 0) = s ++ [0] := by
    refine List.take_of_length_le ?_
    rw [array.size, List.length_append, List.length_singleton]
    exact hfits
  have hbytes : (strcpy array s).1.bytes =
      [] ++ (s ++ (0 :: array.bytes.drop (0 + (s ++ [0]).length))) := by
    change overwrite array.bytes 0 (s ++ [0]) = _
    rw [overwrite, hwhole, List.take_zero, List.nil_append, List.nil_append, List.append_assoc]
    rfl
  exact (slice_eq_iff hbytes rfl).mpr ⟨hzero, rfl⟩

/-- The id comes back only if it repeats the type in both halves. -/
theorem Message.readTxnId_eq_iff (m : Message) :
    m.readTxnId = m.txnId ↔ m.txnId.toNat = m.payload.rtype.code * (2 ^ 32 + 1) := by
  have hlt := m.txnId.toNat_lt
  rw [Message.readTxnId, ← UInt64.toNat_inj, UInt64.toNat_ofNat']
  cases m.payload with
  | asyncHash fields =>
      simp only [Payload.rtype, RemReqType.code]
      omega
  | initDone =>
      simp only [Payload.rtype, RemReqType.code]
      omega

/-- A message makes the round trip exactly if its id repeats its type in both halves and
    the name of its index fits. -/
theorem codec_round_trip_iff (array : Buf indexNameLength) (txnId : UInt64) (req : Request)
    (rest : List Byte) :
    RoundTrips array txnId req rest ↔
      txnId.toNat = (req.init array).1.rtype.code * (2 ^ 32 + 1) ∧
        req.indexName ≠ some .customerLastIdx := by
  have hback : Message.createMessage ((⟨txnId, (req.init array).1⟩ : Message).copyToBuf ++ rest) =
      some ⟨txnId, (req.init array).1⟩ ↔
        txnId.toNat = (req.init array).1.rtype.code * (2 ^ 32 + 1) := by
    rw [Message.createMessage_copyToBuf, Option.some.injEq, Message.mk.injEq]
    exact (and_iff_left rfl).trans (Message.readTxnId_eq_iff ⟨txnId, (req.init array).1⟩)
  rw [RoundTrips, hback]
  cases req with
  | initDone => exact ⟨fun h => ⟨h.2.2, nofun⟩, fun h => ⟨rfl, rfl, h.1⟩⟩
  | asyncHash name partId bktIdx hash ts =>
      have hwithin : (strcpy array name.bytes).2 = true ↔ name ≠ .customerLastIdx :=
        decide_eq_true_iff.trans name.fits_iff
      have hname : (Request.asyncHash name partId bktIdx hash ts).indexName ≠
          some .customerLastIdx ↔ name ≠ .customerLastIdx := by
        simp [Request.indexName]
      rw [hname]
      constructor
      · rintro ⟨hin, -, htxn⟩
        exact ⟨htxn, hwithin.mp hin⟩
      · rintro ⟨htxn, hne⟩
        refine ⟨hwithin.mpr hne, ?_, htxn⟩
        exact slice_strcpy name.zero_notMem (name.fits_iff.mpr hne)

/-- The id every new message has does not come back, and the name of the index on last
    names leaves the array. -/
theorem new_message_no_round_trip :
    ¬ RoundTrips (Buf.memset indexNameLength 0) (UInt64.ofNat (2 ^ 64 - 1))
      (.asyncHash .mainIndex 0 3 17 5) [] ∧
    ¬ RoundTrips (Buf.memset indexNameLength 0) 0 (.asyncHash .customerLastIdx 0 3 17 5) [] := by
  constructor
  · rintro ⟨-, -, hback⟩
    rw [Message.createMessage_copyToBuf, Option.some.injEq, Message.mk.injEq] at hback
    exact absurd hback.1 (by decide)
  · rintro ⟨hwithin, -, -⟩
    exact absurd hwithin (by decide)

end VeriTxn
