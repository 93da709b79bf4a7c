import VeriTxn.Coder
import VeriTxn.Decimal
import Mathlib.Data.List.GetD

/-!
# Rows as strings

`row_t::encode` lists the table name, the keys and the data, every data byte as three decimal
digits with the lowest one first.  `row_t::decode` takes the list apart again; `base_row_t` outside
the enclave has a copy of both.

The decoder puts the byte that three digits write where these digits begin, and not behind the byte
before: from its second byte on the row has digits for data.
-/

namespace VeriTxn.RowCodec

open Bytes Braces Coder Decimal

/-- `table_t`, with the tuple size of its schema. -/
structure Table where
  tableName : Str
  tupleSize : Nat
deriving DecidableEq

/-- The fields of `row_t` and `base_row_t` that are encoded.  `data` is the buffer of the row. -/
structure Row where
  table : Table
  primaryKey : UInt64
  partId : UInt64
  rowId : UInt64
  data : List Byte
deriving DecidableEq

/-- As much of the buffer as the schema says. -/
def Row.tuple (row : Row) : List Byte := row.data.take row.table.tupleSize

def tens (val : Byte) : Byte := val / 10 % 10 + 48

def hundreds (val : Byte) : Byte := val / 100 % 10 + 48

/-- The three digits of a byte. -/
def digits (val : Byte) : Str := [val % 10 + 48, tens val, hundreds val]

/-- A string literal of the source. -/
def text (s : String) : Str := s.toList.map fun c => UInt8.ofNat c.toNat

/-- The pairs that `encode` lists. -/
def dataItems (row : Row) : List (Str × Str) :=
  [(text "table_name:", row.table.tableName),
    (text "primary_key:", toDecimal row.primaryKey.toNat),
    (text "part_id:", toDecimal row.partId.toNat),
    (text "row_id:", toDecimal row.rowId.toNat),
    (text "data:", row.tuple.flatMap digits)]

def encode (row : Row) : Str := encodeVec (dataItems row)

/-- The buffer after the loop over `data_s`, which was copied there before.  A string ends in a
    null; one character alone has nothing in the place of its last digit. -/
def dataLoop : Str → Option (List Byte)
  | [] => some []
  | a :: b :: c :: dataS =>
      (dataLoop dataS).map fun data => ((a - 48) + (b - 48) * 10 + (c - 48) * 100) :: b :: c :: data
  | [a, b] => some [(a - 48) + (b - 48) * 10 + (0 - 48) * 100, b]
  | [_] => none

/-- `none` when an assertion fails or a number cannot be read. -/
def decode (tables : Str → Option Table) (e : Str) : Option Row := do
  let dataItems ← decodeVec e
  if dataItems.length = 5 then
    let second := fun i => (dataItems.getD i ([], [])).2
    let table ← tables (second 0)
    let data ← dataLoop (second 4)
    let primaryKey ← stoull (second 1)
    let partId ← stoull (second 2)
    let rowId ← stoull (second 3)
    some ⟨table, UInt64.ofNat primaryKey, UInt64.ofNat partId, UInt64.ofNat rowId, data⟩
  else none

/-- `row_t::encode` -/
def rowEncode : Row → Str := encode

/-- `row_t::decode`, which looks tables up in the enclave's `tab_map`. -/
def rowDecode (tabMap : Str → Option Table) : Str → Option Row := decode tabMap

/-- `base_row_t::encode` -/
def baseRowEncode : Row → Str := encode

/-- `base_row_t::decode`, with `global_table_map`. -/
def baseRowDecode (globalTableMap : Str → Option Table) : Str → Option Row :=
  decode globalTableMap

/-! ### The strings are balanced -/

theorem not_brace_of_digit {c : Byte} (h : isDigit c = true) : c ≠ lbrace ∧ c ≠ rbrace := by
  constructor
  · rintro rfl
    cases h
  · rintro rfl
    cases h

theorem balanced_of_digits {s : Str} (h : ∀ c ∈ s, isDigit c = true) : Balanced s :=
  balanced_of_no_braces fun c hc => not_brace_of_digit (h c hc)

theorem balanced_toDecimal (n : Nat) : Balanced (toDecimal n) :=
  balanced_of_digits (isDigit_toDecimal n)

/-- A byte has three digits, and they write it. -/
theorem digits_spec (val : Byte) :
    (∀ c ∈ digits val, isDigit c = true) ∧
      (val % 10 + 48 - 48) + (tens val - 48) * 10 + (hundreds val - 48) * 100 = val := by
  have hall : ∀ n : Fin 256, (digits (UInt8.ofFin n)).all isDigit = true ∧
      (UInt8.ofFin n % 10 + 48 - 48) + (tens (UInt8.ofFin n) - 48) * 10 +
        (hundreds (UInt8.ofFin n) - 48) * 100 = UInt8.ofFin n := by
    decide +kernel
  exact ⟨List.all_eq_true.mp (hall val.toFin).1, (hall val.toFin).2⟩

theorem dataItems_balanced {row : Row} (hname : Balanced row.table.tableName) :
    ∀ t ∈ dataItems row, Balanced t.1 ∧ Balanced t.2 := by
  have hdata : Balanced (row.tuple.flatMap digits) := by
    refine balanced_of_digits fun c hc => ?_
    obtain ⟨val, -, hc⟩ := List.mem_flatMap.mp hc
    exact (digits_spec val).1 c hc
  have htext : ∀ s ∈ ["table_name:", "primary_key:", "part_id:", "row_id:", "data:"],
      Balanced (text s) := by
    intro s hs
    refine balanced_of_all ?_
    revert s
    decide
  intro t ht
  simp only [dataItems, List.mem_cons, List.not_mem_nil, or_false] at ht
  rcases ht with rfl | rfl | rfl | rfl | rfl
  · exact ⟨htext _ (by simp), hname⟩
  · exact ⟨htext _ (by simp), balanced_toDecimal _⟩
  · exact ⟨htext _ (by simp), balanced_toDecimal _⟩
  · exact ⟨htext _ (by simp), balanced_toDecimal _⟩
  · exact ⟨htext _ (by simp), hdata⟩

/-! ### What the loop leaves in the buffer -/

/-- A byte with two of its digits behind it. -/
def spread (val : Byte) : List Byte := [val, tens val, hundreds val]

theorem dataLoop_digits (tuple : List Byte) :
    dataLoop (tuple.flatMap digits) = some (tuple.flatMap spread) := by
  induction tuple with
  | nil => rfl
  | cons val tuple ih =>
      rw [List.flatMap_cons, List.flatMap_cons]
      simp only [digits, spread, List.cons_append, List.nil_append, dataLoop]
      rw [ih, Option.map_some, (digits_spec val).2]

/-- The byte of the tuple that the decoder puts at position `j`. -/
def decodedAt (tuple : List Byte) (j : Nat) : Byte :=
  let val := tuple.getD (j / 3) 0
  match j % 3 with
  | 0 => val
  | 1 => tens val
  | _ => hundreds val

theorem spread_getD (tuple : List Byte) {j : Nat} (hj : j / 3 < tuple.length) :
    (tuple.flatMap spread).getD j 0 = decodedAt tuple j := by
  induction tuple generalizing j with
  | nil => exact absurd hj (Nat.not_lt_zero _)
  | cons val tuple ih =>
      match j with
      | 0 => rfl
      | 1 => rfl
      | 2 => rfl
      | j + 3 =>
          have hdiv : (j + 3) / 3 = j / 3 + 1 := by omega
          have hmod : (j + 3) % 3 = j % 3 := by omega
          have hrest := @ih j (by rw [hdiv, List.length_cons] at hj; omega)
          have hskip : ((val :: tuple).flatMap spread).getD (j + 3) 0 =
              (tuple.flatMap spread).getD j 0 := rfl
          rw [hskip, hrest]
          simp only [decodedAt, hdiv, hmod, List.getD_cons_succ]

theorem length_spread (tuple : List Byte) : (tuple.flatMap spread).length = 3 * tuple.length := by
  induction tuple with
  | nil => rfl
  | cons val tuple ih =>
      rw [List.flatMap_cons, List.length_append, ih, List.length_cons]
      simp only [spread, List.length_cons, List.length_nil]
      omega

/-- Every byte is the one the decoder puts there: itself in the first place, and in place `j` the
    byte in place `j / 3` or one of its digits. -/
def Readable (tuple : List Byte) : Prop :=
  ∀ j < tuple.length, tuple.getD j 0 = decodedAt tuple j

instance (tuple : List Byte) : Decidable (Readable tuple) :=
  inferInstanceAs (Decidable (∀ j < tuple.length, _))

theorem take_spread_iff (tuple : List Byte) :
    (tuple.flatMap spread).take tuple.length = tuple ↔ Readable tuple := by
  have hlength : ((tuple.flatMap spread).take tuple.length).length = tuple.length := by
    rw [List.length_take, length_spread]
    omega
  have hget : ∀ j < tuple.length,
      ((tuple.flatMap spread).take tuple.length).getD j 0 = decodedAt tuple j := by
    intro j hj
    rw [List.getD_eq_getElem?_getD, List.getElem?_take_of_lt hj, ← List.getD_eq_getElem?_getD]
    exact spread_getD tuple (by omega)
  constructor
  · intro heq j hj
    rw [← hget j hj, heq]
  · intro hreadable
    refine List.ext_getElem hlength fun j hj hj' => ?_
    have hboth := (hget j hj').trans (hreadable j hj').symm
    rwa [List.getD_eq_getElem _ _ hj, List.getD_eq_getElem _ _ hj'] at hboth

/-! ### Round trip -/

/-- The row comes back with the same table, keys, ids and tuple, and is encoded as before. -/
def RoundTrips (enc : Row → Str) (dec : Str → Option Row) (row : Row) : Prop :=
  ∃ row', dec (enc row) = some row' ∧ row'.table = row.table ∧
    row'.primaryKey = row.primaryKey ∧ row'.partId = row.partId ∧ row'.rowId = row.rowId ∧
    row'.tuple = row.tuple ∧ enc row' = enc row

/-- The row that is decoded, as far as the string is short enough to be read. -/
def decoded (row : Row) : Row := { row with data := row.tuple.flatMap spread }

theorem decode_of_short {tables : Str → Option Table} {row : Row}
    (hname : Balanced row.table.tableName) (htable : tables row.table.tableName = some row.table)
    (hsize : (encode row).length < 2 ^ 31) : decode tables (encode row) = some (decoded row) := by
  unfold encode at hsize ⊢
  unfold decode
  rw [decodeVec_encodeVec (dataItems_balanced hname) hsize]
  have hkey := fun key : UInt64 => stoull_toDecimal key.toNat_lt
  simp [dataItems, htable, dataLoop_digits, hkey, decoded]

theorem decode_of_long {tables : Str → Option Table} {row : Row}
    (hname : Balanced row.table.tableName) (hsize : 2 ^ 31 ≤ (encode row).length) :
    decode tables (encode row) = none := by
  unfold encode at hsize ⊢
  unfold decode
  cases hitems : decodeVec (encodeVec (dataItems row)) with
  | none => rfl
  | some items =>
      have hfewer : items.length < 5 := decodeVec_of_long (dataItems_balanced hname) hsize hitems
      have hnot : items.length ≠ 5 := by omega
      simp [hnot]

theorem tuple_decoded_iff {row : Row} (hdata : row.table.tupleSize ≤ row.data.length) :
    (decoded row).tuple = row.tuple ↔ Readable row.tuple := by
  have hlength : row.tuple.length = row.table.tupleSize := by
    rw [Row.tuple, List.length_take, Nat.min_eq_left hdata]
  rw [← take_spread_iff, hlength]
  rfl

theorem roundTrips_iff {tables : Str → Option Table} {row : Row}
    (hname : Balanced row.table.tableName) (htable : tables row.table.tableName = some row.table)
    (hdata : row.table.tupleSize ≤ row.data.length) :
    RoundTrips encode (decode tables) row ↔
      (encode row).length < 2 ^ 31 ∧ Readable row.tuple := by
  constructor
  · rintro ⟨row', hdecode, -, -, -, -, htuple, -⟩
    have hshort : (encode row).length < 2 ^ 31 := by
      by_contra hlong
      rw [decode_of_long hname (Nat.not_lt.mp hlong)] at hdecode
      cases hdecode
    rw [decode_of_short hname htable hshort] at hdecode
    cases hdecode
    exact ⟨hshort, (tuple_decoded_iff hdata).mp htuple⟩
  · rintro ⟨hshort, hreadable⟩
    have htuple := (tuple_decoded_iff hdata).mpr hreadable
    refine ⟨decoded row, decode_of_short hname htable hshort, rfl, rfl, rfl, rfl, htuple, ?_⟩
    unfold encode dataItems
    rw [htuple]
    rfl

/-- Both codecs give a row back exactly if its encoding is below 2 GiB and every byte of the
    tuple is the one the decoder puts in its place. -/
theorem row_codec_round_trips_iff {tabMap globalTableMap : Str → Option Table} {row : Row}
    (hname : Balanced row.table.tableName)
    (htab : tabMap row.table.tableName = some row.table)
    (hglobal : globalTableMap row.table.tableName = some row.table)
    (hdata : row.table.tupleSize ≤ row.data.length) :
    (RoundTrips rowEncode (rowDecode tabMap) row ↔
      (rowEncode row).length < 2 ^ 31 ∧ Readable row.tuple) ∧
    (RoundTrips baseRowEncode (baseRowDecode globalTableMap) row ↔
      (baseRowEncode row).length < 2 ^ 31 ∧ Readable row.tuple) := by
  unfold rowEncode rowDecode baseRowEncode baseRowDecode
  exact ⟨roundTrips_iff hname htab hdata, roundTrips_iff hname hglobal hdata⟩

/-- A table with tuples of `n` bytes. -/
def sized (n : Nat) : Table := ⟨text "T", n⟩

theorem balanced_sized (n : Nat) : Balanced (sized n).tableName :=
  balanced_of_all (show (text "T").all _ = true by decide)

/-- A tuple of one byte comes back. -/
theorem row_codec_round_trips_iff_one_byte :
    RoundTrips rowEncode (rowDecode fun _ => some (sized 1)) ⟨sized 1, 7, 0, 1, [200]⟩ ∧
      RoundTrips baseRowEncode (baseRowDecode fun _ => some (sized 1)) ⟨sized 1, 7, 0, 1, [200]⟩ := by
  have hsize : (encode ⟨sized 1, 7, 0, 1, [200]⟩).length < 2 ^ 31 := by decide +kernel
  have hreadable : Readable (Row.tuple ⟨sized 1, 7, 0, 1, [200]⟩) := by decide
  have hboth := @row_codec_round_trips_iff (fun _ => some (sized 1)) (fun _ => some (sized 1))
    ⟨sized 1, 7, 0, 1, [200]⟩ (balanced_sized 1) rfl rfl (by decide)
  exact ⟨hboth.1.mpr ⟨hsize, hreadable⟩, hboth.2.mpr ⟨hsize, hreadable⟩⟩

/-- The second of two bytes is lost. -/
theorem second_byte_lost :
    ¬ ∀ (tables : Str → Option Table) (row : Row), Balanced row.table.tableName →
      tables row.table.tableName = some row.table → row.data.length = row.table.tupleSize →
      RoundTrips rowEncode (rowDecode tables) row := by
  intro h
  have htrips := h (fun _ => some (sized 2)) ⟨sized 2, 7, 0, 1, [5, 6]⟩ (balanced_sized 2) rfl rfl
  unfold rowEncode rowDecode at htrips
  obtain ⟨-, hreadable⟩ := (roundTrips_iff (balanced_sized 2) rfl (by decide)).mp htrips
  exact absurd hreadable (by decide)

end VeriTxn.RowCodec
