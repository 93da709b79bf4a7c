import VeriTxn.Bytes
import VeriTxn.Types

/-!
# Log entries: `create_log_entry` and `recover_txn`

The encoder runs inside the enclave, the decoder in the storage server, each compiled
with its own configuration.  With a hash index a record has four fields before the key,
with a B+-tree three; the decoder always reads four.  The data of a record goes to
RocksDB as a C string, so its length is decided by the bytes and not by `data_length`.

The decoder works on memory: what follows the entry is there as well.
-/

namespace VeriTxn.LogCodec

open Bytes

/-- `INDEX_STRUCT`. -/
inductive IndexStruct where
  | hash | btree
deriving DecidableEq, Repr

/-- What `create_log_entry` reads of an access: its row's page, place and contents. -/
structure LogAccess where
  type : AccessT
  part : UInt64
  page : UInt64
  commitTs : UInt64
  offset : UInt64
  key : UInt64
  data : List Byte
deriving DecidableEq, Repr

/-- `MAX_LOG_ENTRY_SIZE`. -/
def maxLogEntrySize : Nat := 16384

/-! ### The encoder -/

/-- One round of the loop: `PACK` of the fields and `PACK_SIZE` of the data. -/
def record (index : IndexStruct) (a : LogAccess) : List Byte :=
  packLE 8 a.part.toNat ++ (packLE 8 a.page.toNat ++
    ((if index = .hash then packLE 8 a.commitTs.toNat else []) ++
      (packLE 8 a.offset.toNat ++ (packLE 8 a.key.toNat ++ (packLE 4 a.data.length ++ a.data)))))

def records (index : IndexStruct) (accesses : List LogAccess) : List Byte :=
  (accesses.map (record index)).flatten

/-- The accesses that are logged. -/
def writes (accesses : List LogAccess) : List LogAccess := accesses.filter fun a => a.type = .wr

/-- `txn_man::create_log_entry`; `none` when an assertion fails. -/
def createLogEntry (index : IndexStruct) (accesses : List LogAccess) : Option (List Byte) :=
  if index = .hash ∧ ∃ a ∈ writes accesses, a.offset ≠ 0 then none
  else
    let size := 12 + (records index (writes accesses)).length
    if size < maxLogEntrySize then
      some (packLE 4 0xbeef ++ (packLE 4 size ++ (packLE 4 (writes accesses).length ++
        records index (writes accesses))))
    else none

/-! ### The decoder -/

/-- What a call of `recover_txn` did: how far it read, and what it wrote. -/
structure Recovered where
  consumed : Nat
  puts : List (String × List Byte)
deriving DecidableEq, Repr

/-- The text of a RocksDB key. -/
def keyText (part page offset : Nat) : String :=
  toString part ++ "_" ++ toString page ++ "_" ++ toString offset

/-- `sprintf` into the fifty bytes of `rockskey`. -/
def sprintf (part page offset : Nat) : Option String :=
  if (keyText part page offset).length < 50 then some (keyText part page offset) else none

/-- The loop of `recover_txn`, with `n` records to go.  An entry that turns out too short
    ends it before anything is written. -/
def recoverLoop (index : IndexStruct) (mem : List Byte) (entrysize : Nat) :
    Nat → Nat → List (String × List Byte) → Option Recovered
  | 0, offset, puts => some ⟨offset, puts⟩
  | n + 1, offset, puts => do
      let part ← word mem offset 8
      let node ← word mem (offset + 8) 8
      let _ts ← word mem (offset + 16) 8
      let pageOffset ← word mem (offset + 24) 8
      if index = .hash ∧ ¬ (part = 0 ∧ pageOffset = 0) then none
      else
        let rockskey ← sprintf part node pageOffset
        let _key ← word mem (offset + 32) 8
        let dataLength ← word mem (offset + 40) 4
        let next := (offset + 44 + dataLength) % 2 ^ 32
        if next > entrysize then some ⟨next, []⟩
        else
          let data ← slice mem (offset + 44)
          recoverLoop index mem entrysize n next (puts ++ [(rockskey, data)])

/-- `re_ycsb_txn_man::recover_txn` on the memory from `log_entry` on; `none` when an
    assertion fails or the memory is left. -/
def recoverTxn (index : IndexStruct) (mem : List Byte) : Option Recovered := do
  let checksum ← word mem 0 4
  if checksum ≠ 0xbeef then none
  else
    let entrysize ← word mem 4 4
    let numKeys ← word mem 8 4
    recoverLoop index mem entrysize numKeys 12 []

/-- The entry is consumed as a whole, and every access is put under its key with its
    data. -/
def Exact (entry : List Byte) (accesses : List LogAccess) (result : Option Recovered) : Prop :=
  result = some ⟨entry.length, (writes accesses).map fun a =>
    (keyText a.part.toNat a.page.toNat a.offset.toNat, a.data)⟩

/-! ### What the loop puts -/

theorem slice_zero_free {mem data : List Byte} {pos : Nat} (h : slice mem pos = some data) :
    0 ∉ data := by
  unfold slice at h
  split at h
  · cases h
    intro hzero
    have hall := List.all_eq_true.mp
      (List.all_takeWhile : ((mem.drop pos).takeWhile (· ≠ 0)).all (· ≠ 0) = true)
    simpa using hall 0 hzero
  · cases h

/-- What one round of the loop does. -/
theorem recoverLoop_succ {index : IndexStruct} {mem : List Byte} {entrysize n offset : Nat}
    {puts : List (String × List Byte)} {r : Recovered}
    (h : recoverLoop index mem entrysize (n + 1) offset puts = some r) :
    ∃ dataLength, word mem (offset + 40) 4 = some dataLength ∧
      ((entrysize < (offset + 44 + dataLength) % 2 ^ 32 ∧
        r = ⟨(offset + 44 + dataLength) % 2 ^ 32, []⟩) ∨
      ((offset + 44 + dataLength) % 2 ^ 32 ≤ entrysize ∧ ∃ rockskey data, 0 ∉ data ∧
        recoverLoop index mem entrysize n ((offset + 44 + dataLength) % 2 ^ 32)
          (puts ++ [(rockskey, data)]) = some r)) := by
  rw [recoverLoop] at h
  obtain ⟨part, -, h⟩ := Option.bind_eq_some_iff.mp h
  obtain ⟨node, -, h⟩ := Option.bind_eq_some_iff.mp h
  obtain ⟨ts, -, h⟩ := Option.bind_eq_some_iff.mp h
  obtain ⟨pageOffset, -, h⟩ := Option.bind_eq_some_iff.mp h
  by_cases hassert : index = .hash ∧ ¬ (part = 0 ∧ pageOffset = 0)
  · rw [if_pos hassert] at h
    cases h
  rw [if_neg hassert] at h
  obtain ⟨rockskey, -, h⟩ := Option.bind_eq_some_iff.mp h
  obtain ⟨key, -, h⟩ := Option.bind_eq_some_iff.mp h
  obtain ⟨dataLength, hlength, h⟩ := Option.bind_eq_some_iff.mp h
  refine ⟨dataLength, hlength, ?_⟩
  by_cases hshort : (offset + 44 + dataLength) % 2 ^ 32 > entrysize
  · rw [if_pos hshort] at h
    cases h
    exact Or.inl ⟨hshort, rfl⟩
  · rw [if_neg hshort] at h
    obtain ⟨data, hdata, h⟩ := Option.bind_eq_some_iff.mp h
    exact Or.inr ⟨Nat.not_lt.mp hshort, rockskey, data, slice_zero_free hdata, h⟩

/-- A loop that gets to its end adds to what it has, and no data with a zero byte. -/
theorem recoverLoop_puts {index : IndexStruct} {mem : List Byte} {entrysize n offset : Nat}
    {puts : List (String × List Byte)} {r : Recovered}
    (h : recoverLoop index mem entrysize n offset puts = some r) :
    r.puts = [] ∨ ∃ new, r.puts = puts ++ new ∧ ∀ put ∈ new, 0 ∉ put.2 := by
  induction n generalizing offset puts with
  | zero =>
      cases h
      exact Or.inr ⟨[], by simp, by simp⟩
  | succ n ih =>
      obtain ⟨dataLength, -, ⟨-, rfl⟩ | ⟨-, rockskey, data, hdata, hrest⟩⟩ := recoverLoop_succ h
      · exact Or.inl rfl
      · rcases ih hrest with hnil | ⟨new, hnew, hall⟩
        · exact Or.inl hnil
        · refine Or.inr ⟨(rockskey, data) :: new, by simp [hnew], ?_⟩
          intro put hput
          rcases List.mem_cons.mp hput with rfl | hput
          · exact hdata
          · exact hall put hput

/-! ### The hash layout -/

theorem length_record_hash (a : LogAccess) : (record .hash a).length = 44 + a.data.length := by
  simp only [record, if_true, List.length_append, length_packLE]
  omega

theorem length_record_btree (a : LogAccess) : (record .btree a).length = 36 + a.data.length := by
  simp only [record, reduceCtorEq, if_false, List.length_append, length_packLE, List.length_nil]
  omega

theorem records_cons (index : IndexStruct) (a : LogAccess) (as : List LogAccess) :
    records index (a :: as) = record index a ++ records index as := rfl

theorem sprintf_hash (page : UInt64) :
    sprintf 0 page.toNat 0 = some (keyText 0 page.toNat 0) := by
  have hdigits : (toString page.toNat).length ≤ 20 :=
    (Nat.length_repr_le_iff (by decide)).mpr (Nat.lt_trans page.toNat_lt (by decide))
  have hzero : (toString 0).length = 1 := by decide
  refine if_pos ?_
  simp only [keyText, String.length_append, hzero]
  have hbar : "_".length = 1 := by decide
  omega

/-- The fields of a record of the hash layout are where the decoder looks for them. -/
theorem word_record_hash (a : LogAccess) (rest : List Byte) (hlen : a.data.length < 2 ^ 32) :
    word (record .hash a ++ rest) 0 8 = some a.part.toNat ∧
    word (record .hash a ++ rest) 8 8 = some a.page.toNat ∧
    word (record .hash a ++ rest) 16 8 = some a.commitTs.toNat ∧
    word (record .hash a ++ rest) 24 8 = some a.offset.toNat ∧
    word (record .hash a ++ rest) 32 8 = some a.key.toNat ∧
    word (record .hash a ++ rest) 40 4 = some a.data.length := by
  have hrecord : record .hash a ++ rest = packLE 8 a.part.toNat ++ (packLE 8 a.page.toNat ++
      (packLE 8 a.commitTs.toNat ++ (packLE 8 a.offset.toNat ++ (packLE 8 a.key.toNat ++
        (packLE 4 a.data.length ++ (a.data ++ rest)))))) := by simp [record]
  have hskip : ∀ (n pos width : Nat) (rest : List Byte),
      word (packLE 8 n ++ rest) (8 + pos) width = word rest pos width := by
    intro n pos width rest
    rw [word_append_right rest width (by simp), length_packLE, Nat.add_sub_cancel_left]
  rw [hrecord]
  refine ⟨word_packLE _ a.part.toNat_lt, ?_, ?_, ?_, ?_, ?_⟩
  · exact (hskip _ 0 8 _).trans (word_packLE _ a.page.toNat_lt)
  · exact (hskip _ 8 8 _).trans ((hskip _ 0 8 _).trans (word_packLE _ a.commitTs.toNat_lt))
  · rw [show 24 = 8 + (8 + (8 + 0)) from rfl, hskip, hskip, hskip]
    exact word_packLE _ a.offset.toNat_lt
  · rw [show 32 = 8 + (8 + (8 + (8 + 0))) from rfl, hskip, hskip, hskip, hskip]
    exact word_packLE _ a.key.toNat_lt
  · rw [show 40 = 8 + (8 + (8 + (8 + (8 + 0)))) from rfl, hskip, hskip, hskip, hskip, hskip]
    exact word_packLE _ hlen

/-- One record of the hash layout. -/
theorem recoverLoop_hash_cons {front rest : List Byte} {entrysize : Nat} (n : Nat)
    (puts : List (String × List Byte)) {a : LogAccess}
    (hfits : front.length + 44 + a.data.length ≤ entrysize) (hsize : entrysize < 2 ^ 32) :
    recoverLoop .hash (front ++ (record .hash a ++ rest)) entrysize (n + 1) front.length puts =
      if a.part = 0 ∧ a.offset = 0 then
        (slice (front ++ (record .hash a ++ rest)) (front.length + 44)).bind fun data =>
          recoverLoop .hash (front ++ (record .hash a ++ rest)) entrysize n
            (front.length + 44 + a.data.length)
            (puts ++ [(keyText a.part.toNat a.page.toNat a.offset.toNat, data)])
      else none := by
  have hword : ∀ pos width, word (front ++ (record .hash a ++ rest)) (front.length + pos) width =
      word (record .hash a ++ rest) pos width := by
    intro pos width
    rw [word_append_right _ _ (Nat.le_add_right ..), Nat.add_sub_cancel_left]
  obtain ⟨h₀, h₁, h₂, h₃, h₄, h₅⟩ := word_record_hash a rest (by omega)
  have hnext : (front.length + 44 + a.data.length) % 2 ^ 32 =
      front.length + 44 + a.data.length := Nat.mod_eq_of_lt (by omega)
  have hzero : ∀ n : UInt64, n.toNat = 0 ↔ n = 0 := fun n => UInt64.toNat_inj (b := 0)
  have hfirst : word (front ++ (record .hash a ++ rest)) front.length 8 = some a.part.toNat :=
    (hword 0 8).trans h₀
  rw [recoverLoop, hfirst, hword, hword, hword, hword, hword, h₁, h₂, h₃, h₄, h₅]
  simp only [Option.bind_eq_bind, Option.bind_some, true_and, hzero]
  by_cases hassert : a.part = 0 ∧ a.offset = 0
  · obtain ⟨hpart, hoffset⟩ := hassert
    have hkey : sprintf a.part.toNat a.page.toNat a.offset.toNat =
        some (keyText a.part.toNat a.page.toNat a.offset.toNat) := by
      rw [hpart, hoffset]
      exact sprintf_hash a.page
    rw [if_neg (by simp [hpart, hoffset]), if_pos ⟨hpart, hoffset⟩, hkey, Option.bind_some, hnext,
      if_neg (Nat.not_lt.mpr hfits)]
  · rw [if_pos hassert, if_neg hassert]

/-- The puts of a list of accesses. -/
def expected (as : List LogAccess) : List (String × List Byte) :=
  as.map fun a => (keyText a.part.toNat a.page.toNat a.offset.toNat, a.data)

/-- The first byte after a record is one of the next record's part. -/
theorem head_records {as : List LogAccess} {beyond : List Byte} {a : LogAccess}
    (hpart : a.part = 0) :
    (records .hash (a :: as) ++ beyond).head? = some 0 := by
  rw [records_cons, record, hpart]
  rfl

/-- The C string at the data of a record. -/
theorem slice_record_iff {front rest : List Byte} {a : LogAccess} :
    slice (front ++ (record .hash a ++ rest)) (front.length + 44) = some a.data ↔
      0 ∉ a.data ∧ rest.head? = some 0 := by
  have hsplit : record .hash a = (packLE 8 a.part.toNat ++ packLE 8 a.page.toNat ++
      packLE 8 a.commitTs.toNat ++ packLE 8 a.offset.toNat ++ packLE 8 a.key.toNat ++
      packLE 4 a.data.length) ++ a.data := by simp [record]
  have hmem : front ++ (record .hash a ++ rest) = (front ++ (packLE 8 a.part.toNat ++
      packLE 8 a.page.toNat ++ packLE 8 a.commitTs.toNat ++ packLE 8 a.offset.toNat ++
      packLE 8 a.key.toNat ++ packLE 4 a.data.length)) ++ (a.data ++ rest) := by
    rw [hsplit]
    simp only [List.append_assoc]
  exact slice_eq_iff hmem (by simp only [List.length_append, length_packLE])

/-- The loop over the records of the hash layout does what it should exactly if every
    record is of the one partition and without a zero byte in its data, and a zero byte
    follows the last. -/
theorem recoverLoop_hash_iff {front beyond : List Byte} {entrysize : Nat}
    {as : List LogAccess} {puts : List (String × List Byte)}
    (hsize : entrysize = front.length + (records .hash as).length) (hlimit : entrysize < 2 ^ 32) :
    recoverLoop .hash (front ++ (records .hash as ++ beyond)) entrysize as.length front.length
        puts = some ⟨entrysize, puts ++ expected as⟩ ↔
      (∀ a ∈ as, a.part = 0 ∧ a.offset = 0 ∧ 0 ∉ a.data) ∧
        (as ≠ [] → beyond.head? = some 0) := by
  induction as generalizing front puts with
  | nil => simp [recoverLoop, expected, records, hsize]
  | cons a as ih =>
      have hlength := length_record_hash a
      rw [records_cons, List.length_append] at hsize
      rw [records_cons, List.append_assoc, List.length_cons,
        recoverLoop_hash_cons as.length puts (by omega) hlimit]
      by_cases hassert : a.part = 0 ∧ a.offset = 0
      case neg =>
        rw [if_neg hassert]
        refine iff_of_false (by simp) fun h => hassert ?_
        have ha := h.1 a (List.mem_cons_self ..)
        exact ⟨ha.1, ha.2.1⟩
      rw [if_pos hassert]
      have hfront : front.length + 44 + a.data.length = (front ++ record .hash a).length := by
        rw [List.length_append, hlength]
        omega
      have hmem : front ++ (record .hash a ++ (records .hash as ++ beyond)) =
          (front ++ record .hash a) ++ (records .hash as ++ beyond) := by
        rw [List.append_assoc]
      have hrest : ∀ data, recoverLoop .hash
          (front ++ (record .hash a ++ (records .hash as ++ beyond))) entrysize as.length
          (front.length + 44 + a.data.length)
          (puts ++ [(keyText a.part.toNat a.page.toNat a.offset.toNat, data)]) =
            some ⟨entrysize, (puts ++ [(keyText a.part.toNat a.page.toNat a.offset.toNat, data)]) ++
              expected as⟩ ↔
          (∀ a ∈ as, a.part = 0 ∧ a.offset = 0 ∧ 0 ∉ a.data) ∧
            (as ≠ [] → beyond.head? = some 0) := by
        intro data
        rw [hfront, hmem]
        exact ih (by rw [List.length_append]; omega)
      have hshape : puts ++ expected (a :: as) =
          (puts ++ [(keyText a.part.toNat a.page.toNat a.offset.toNat, a.data)]) ++ expected as := by
        simp [expected]
      constructor
      · intro h
        obtain ⟨data, hdata, h⟩ := Option.bind_eq_some_iff.mp h
        -- what was put first is the first access's data
        have hsame : data = a.data := by
          rcases recoverLoop_puts h with hnil | ⟨new, hnew, -⟩
          · simp [expected] at hnil
          · rw [hshape, List.append_assoc, List.append_assoc] at hnew
            have hcons := List.append_cancel_left hnew
            simpa [eq_comm] using (List.cons.inj hcons).1
        rw [hsame] at hdata h
        rw [hshape] at h
        obtain ⟨hall, hlast⟩ := (hrest a.data).mp h
        obtain ⟨hzero, hhead⟩ := slice_record_iff.mp hdata
        refine ⟨fun b hb => ?_, fun _ => ?_⟩
        · rcases List.mem_cons.mp hb with rfl | hb
          · exact ⟨hassert.1, hassert.2, hzero⟩
          · exact hall b hb
        · cases as with
          | nil => exact hhead
          | cons b as => exact hlast (by simp)
      · rintro ⟨hall, hlast⟩
        have hhead : (records .hash as ++ beyond).head? = some 0 := by
          cases as with
          | nil => exact hlast (by simp)
          | cons b as => exact head_records (hall b (by simp)).1
        have hdata : slice (front ++ (record .hash a ++ (records .hash as ++ beyond)))
            (front.length + 44) = some a.data :=
          slice_record_iff.mpr ⟨(hall a (List.mem_cons_self ..)).2.2, hhead⟩
        rw [hdata, Option.bind_some, hshape]
        exact (hrest a.data).mpr ⟨fun b hb => hall b (List.mem_cons_of_mem _ hb),
          fun _ => hlast (by simp)⟩

/-! ### The B+-tree layout -/

/-- No two adjacent bytes are 255: the decoder's 32-bit offset cannot wrap. -/
def NoPair (mem : List Byte) : Prop :=
  ∀ i : Nat, ¬ (mem[i]? = some (255 : Byte) ∧ mem[i + 1]? = some (255 : Byte))

/-- A byte of the data of a record of the B+-tree layout. -/
theorem getElem?_record_btree {front rest : List Byte} {a : LogAccess} {i : Nat}
    (hi : i < a.data.length) :
    (front ++ (record .btree a ++ rest))[front.length + (36 + i)]? = a.data[i]? := by
  have hsplit : record .btree a = (packLE 8 a.part.toNat ++ packLE 8 a.page.toNat ++
      packLE 8 a.offset.toNat ++ packLE 8 a.key.toNat ++ packLE 4 a.data.length) ++ a.data := by
    simp [record]
  have hhead : (packLE 8 a.part.toNat ++ packLE 8 a.page.toNat ++ packLE 8 a.offset.toNat ++
      packLE 8 a.key.toNat ++ packLE 4 a.data.length).length = 36 := by
    simp only [List.length_append, length_packLE]
  rw [List.getElem?_append_right (Nat.le_add_right ..), Nat.add_sub_cancel_left, hsplit,
    List.append_assoc, List.getElem?_append_right (by omega), hhead, Nat.add_sub_cancel_left,
    List.getElem?_append_left hi]

/-- Once the decoder is not before a record, it leaves the entry behind: it reads eight bytes
    more for every record, and where it takes the length from the data it gets one larger
    than any entry. -/
theorem recoverLoop_btree {mem front beyond : List Byte} {entrysize offset : Nat}
    {as : List LogAccess} {puts : List (String × List Byte)} {r : Recovered}
    (hmem : mem = front ++ (records .btree as ++ beyond)) (hpair : NoPair mem)
    (hsize : entrysize = front.length + (records .btree as).length)
    (hlimit : entrysize < maxLogEntrySize) (hfree : ∀ a ∈ as, 0 ∉ a.data) (hsome : as ≠ [])
    (hoffset : front.length ≤ offset) (hinside : offset ≤ entrysize)
    (h : recoverLoop .btree mem entrysize as.length offset puts = some r) :
    entrysize < r.consumed := by
  induction as generalizing front offset puts with
  | nil => exact absurd rfl hsome
  | cons a as ih =>
      rw [records_cons] at hmem hsize
      rw [List.length_append, length_record_btree] at hsize
      obtain ⟨dataLength, hword, hround⟩ := recoverLoop_succ h
      have hlt : dataLength < 2 ^ 32 - 2 ^ 16 := word_lt_of_last hword (hpair _)
      unfold maxLogEntrySize at hlimit
      have hnext : (offset + 44 + dataLength) % 2 ^ 32 = offset + 44 + dataLength :=
        Nat.mod_eq_of_lt (by omega)
      rw [hnext] at hround
      -- behind the record, whether or not the length was taken from its data
      have hbehind : front.length + (36 + a.data.length) < offset + 44 + dataLength := by
        by_cases hdata : offset - front.length + 7 < a.data.length
        · have hbyte : mem[front.length + (36 + (offset - front.length + 7))]? =
              some a.data[offset - front.length + 7] := by
            rw [hmem, List.append_assoc, getElem?_record_btree hdata,
              List.getElem?_eq_getElem hdata]
          have hpos : offset + 40 + 3 = front.length + (36 + (offset - front.length + 7)) := by
            omega
          have hlarge : 2 ^ 24 ≤ dataLength := by
            refine le_word_of_last hword (by rw [hpos]; exact hbyte) fun hzero => ?_
            exact hfree a (List.mem_cons_self ..) (hzero ▸ List.getElem_mem hdata)
          omega
        · omega
      rcases hround with ⟨hend, rfl⟩ | ⟨hfits, rockskey, data, -, hrest⟩
      · exact hend
      · cases as with
        | nil =>
            simp only [records, List.map_nil, List.flatten_nil, List.length_nil] at hsize
            omega
        | cons b as =>
            have hmem' : mem = (front ++ record .btree a) ++ (records .btree (b :: as) ++ beyond) := by
              rw [hmem, List.append_assoc, List.append_assoc]
            have hlength : (front ++ record .btree a).length =
                front.length + (36 + a.data.length) := by
              rw [List.length_append, length_record_btree]
            refine ih hmem' (by omega) (fun c hc => hfree c (List.mem_cons_of_mem _ hc)) (by simp)
              (by omega) hfits hrest

/-! ### Whole entries -/

/-- The layout of an entry. -/
theorem createLogEntry_some {index : IndexStruct} {accesses : List LogAccess} {entry : List Byte}
    (h : createLogEntry index accesses = some entry) :
    (index = .hash → ∀ a ∈ writes accesses, a.offset = 0) ∧
      12 + (records index (writes accesses)).length < maxLogEntrySize ∧
      entry = packLE 4 0xbeef ++ (packLE 4 (12 + (records index (writes accesses)).length) ++
        (packLE 4 (writes accesses).length ++ records index (writes accesses))) := by
  unfold createLogEntry at h
  split at h
  · cases h
  rename_i hoffset
  dsimp only at h
  split at h
  · rename_i hsize
    cases h
    refine ⟨fun hindex a ha => ?_, hsize, rfl⟩
    by_contra hne
    exact hoffset ⟨hindex, a, ha, hne⟩
  · cases h

theorem length_le_records (index : IndexStruct) (as : List LogAccess) :
    as.length ≤ (records index as).length := by
  induction as with
  | nil => exact Nat.zero_le _
  | cons a as ih =>
      have hpos : 36 ≤ (record index a).length := by
        cases index with
        | hash => rw [length_record_hash]; omega
        | btree => rw [length_record_btree]; omega
      rw [records_cons, List.length_append, List.length_cons]
      omega

/-- The header is read back, and the loop starts at the first record. -/
theorem recoverTxn_createLogEntry {index : IndexStruct} {accesses : List LogAccess}
    {entry : List Byte} (h : createLogEntry index accesses = some entry) (beyond : List Byte) :
    ∃ header : List Byte, header.length = 12 ∧
      entry = header ++ records index (writes accesses) ∧
      recoverTxn index (entry ++ beyond) =
        recoverLoop index (entry ++ beyond) entry.length (writes accesses).length 12 [] := by
  obtain ⟨-, hsize, hentry⟩ := createLogEntry_some h
  have hcount := length_le_records index (writes accesses)
  unfold maxLogEntrySize at hsize
  have hlength : entry.length = 12 + (records index (writes accesses)).length := by
    rw [hentry]
    simp only [List.length_append, length_packLE]
    omega
  have hskip : ∀ (n pos width : Nat) (rest : List Byte),
      word (packLE 4 n ++ rest) (4 + pos) width = word rest pos width := by
    intro n pos width rest
    rw [word_append_right rest width (by simp), length_packLE, Nat.add_sub_cancel_left]
  have hmem : entry ++ beyond = packLE 4 0xbeef ++ (packLE 4 entry.length ++
      (packLE 4 (writes accesses).length ++ (records index (writes accesses) ++ beyond))) := by
    rw [hlength, hentry]
    simp only [List.append_assoc]
  have hchecksum : word (entry ++ beyond) 0 4 = some 0xbeef := by
    rw [hmem]
    exact word_packLE _ (by decide)
  have hentrysize : word (entry ++ beyond) 4 4 = some entry.length := by
    rw [hmem, show 4 = 4 + 0 from rfl, hskip]
    exact word_packLE _ (by omega)
  have hnumKeys : word (entry ++ beyond) 8 4 = some (writes accesses).length := by
    rw [hmem, show 8 = 4 + (4 + 0) from rfl, hskip, hskip]
    exact word_packLE _ (by omega)
  refine ⟨packLE 4 0xbeef ++ (packLE 4 entry.length ++ packLE 4 (writes accesses).length), by simp,
    ?_, ?_⟩
  · rw [hlength, hentry]
    simp only [List.append_assoc]
  · rw [recoverTxn, hchecksum, hentrysize, hnumKeys]
    simp only [Option.bind_eq_bind, Option.bind_some, ne_eq, not_true, if_false]

theorem exact_iff {entry : List Byte} {accesses : List LogAccess} {result : Option Recovered} :
    Exact entry accesses result ↔
      result = some ⟨entry.length, [] ++ expected (writes accesses)⟩ := by
  rw [List.nil_append]
  rfl

/-- No data that was put has a zero byte. -/
theorem zero_free_of_exact {index : IndexStruct} {mem entry : List Byte}
    {accesses : List LogAccess} {n offset : Nat}
    (h : Exact entry accesses (recoverLoop index mem entry.length n offset [])) :
    ∀ a ∈ writes accesses, 0 ∉ a.data := by
  intro a ha
  rcases recoverLoop_puts h with hnil | ⟨new, hnew, hall⟩
  · exact absurd (List.map_eq_nil_iff.mp hnil) (List.ne_nil_of_mem ha)
  · rw [List.nil_append] at hnew
    subst hnew
    exact hall _ (List.mem_map_of_mem ha)

/-- When the decoder gets an entry back.  In the hash layout every record has to be of the
    first partition, without a zero byte in its data, and a zero byte has to follow the
    entry.  In the B+-tree layout the entry has to be empty; only where its 32-bit offset
    can wrap around may the decoder come back to the end of the entry by chance. -/
theorem recoverTxn_createLogEntry_exact {index : IndexStruct} {accesses : List LogAccess}
    {entry : List Byte} (h : createLogEntry index accesses = some entry) (beyond : List Byte) :
    (index = .hash →
      (Exact entry accesses (recoverTxn index (entry ++ beyond)) ↔
        writes accesses = [] ∨
          (∀ a ∈ writes accesses, a.part = 0 ∧ 0 ∉ a.data) ∧ beyond.head? = some 0)) ∧
    (index = .btree →
      (writes accesses = [] → Exact entry accesses (recoverTxn index (entry ++ beyond))) ∧
      (NoPair (entry ++ beyond) → Exact entry accesses (recoverTxn index (entry ++ beyond)) →
        writes accesses = [])) := by
  obtain ⟨hoffset, hsize, -⟩ := createLogEntry_some h
  obtain ⟨header, hheader, hentry, hrecover⟩ := recoverTxn_createLogEntry h beyond
  have hlength : entry.length = header.length + (records index (writes accesses)).length := by
    rw [hentry, List.length_append]
  have hmem : entry ++ beyond = header ++ (records index (writes accesses) ++ beyond) := by
    rw [hentry, List.append_assoc]
  unfold maxLogEntrySize at hsize
  rw [hrecover]
  refine ⟨?_, ?_⟩
  · rintro rfl
    rw [exact_iff, hmem, ← hheader, recoverLoop_hash_iff hlength (by omega)]
    constructor
    · rintro ⟨hall, hlast⟩
      by_cases hnil : writes accesses = []
      · exact Or.inl hnil
      · exact Or.inr ⟨fun a ha => ⟨(hall a ha).1, (hall a ha).2.2⟩, hlast hnil⟩
    · rintro (hnil | ⟨hall, hlast⟩)
      · rw [hnil]
        exact ⟨fun a ha => absurd ha List.not_mem_nil, fun hne => absurd rfl hne⟩
      · exact ⟨fun a ha => ⟨(hall a ha).1, hoffset rfl a ha, (hall a ha).2⟩, fun _ => hlast⟩
  · rintro rfl
    refine ⟨fun hnil => ?_, fun hpair hexact => ?_⟩
    · rw [hnil] at hlength ⊢
      rw [exact_iff, hnil, hlength, hheader]
      rfl
    · by_contra hsome
      have hbehind := recoverLoop_btree hmem hpair hlength (by unfold maxLogEntrySize; omega)
        (zero_free_of_exact hexact) hsome (Nat.le_of_eq hheader) (by omega) hexact
      exact Nat.lt_irrefl _ hbehind

/-- A write of two bytes, the second a zero. -/
def zeroByte : LogAccess :=
  { type := .wr, part := 0, page := 7, commitTs := 3, offset := 0, key := 5, data := [65, 0] }

/-- A write of one byte. -/
def oneByte : LogAccess := { zeroByte with data := [65] }

theorem recoverTxn_oneByte :
    ∃ entry, createLogEntry .hash [oneByte] = some entry ∧
      Exact entry [oneByte] (recoverTxn .hash (entry ++ [0])) := by
  refine ⟨_, rfl, ?_⟩
  refine ((recoverTxn_createLogEntry_exact rfl [0]).1 rfl).mpr (Or.inr ⟨?_, rfl⟩)
  decide

/-- With a hash index the data is cut at its zero byte; with a B+-tree even a record
    without one is not read back. -/
theorem recoverTxn_loses :
    (∃ entry, createLogEntry .hash [zeroByte] = some entry ∧
      ¬ Exact entry [zeroByte] (recoverTxn .hash (entry ++ [0]))) ∧
    (∃ entry, createLogEntry .btree [oneByte] = some entry ∧
      ¬ Exact entry [oneByte] (recoverTxn .btree (entry ++ List.replicate 64 0))) := by
  unfold Exact
  exact ⟨⟨_, rfl, by decide⟩, ⟨_, rfl, by decide⟩⟩

end VeriTxn.LogCodec
