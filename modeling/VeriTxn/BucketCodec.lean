import VeriTxn.RowCodec

/-!
# Buckets as strings

A bucket is encoded as the list of its nodes, a node as its key followed by its rows, and every one
of these lists by `encode_vec`.  The enclave's `BucketHeader_ENC` and the `BucketHeader` outside
share the code and differ in the rows they hold; the row codec is a parameter here.

When a node is decoded, every row is read from the string of the first one, and a node without rows
is left with the item that `decode` starts with, which refers to no row.
-/

namespace VeriTxn.BucketCodec

open Bytes Braces Coder Decimal

variable {Row : Type}

/-- How rows are encoded, and the part id that stands before them. -/
structure Codec (Row : Type) where
  encode : Row → Str
  decode : Str → Option Row
  partId : Row → UInt64

/-- What the codecs of buckets ask of the codec of rows. -/
structure Codec.Lawful (codec : Codec Row) : Prop where
  balanced : ∀ row, Balanced (codec.encode row)
  roundTrip : ∀ row, codec.decode (codec.encode row) = some row

/-- A node with its items; `none` is an item with a null location. -/
structure Node (Row : Type) where
  key : UInt64
  items : List (Option Row)

/-- A node whose items all refer to rows. -/
def Node.ofRows (key : UInt64) (rows : List Row) : Node Row := ⟨key, rows.map some⟩

/-- The pairs of a node: its key, then its rows. -/
def nodeItems (codec : Codec Row) (key : UInt64) (rows : List Row) : List (Str × Str) :=
  (toDecimal key.toNat, []) ::
    rows.map fun row => (toDecimal (codec.partId row).toNat, codec.encode row)

/-- `encode` of a node; `none` when it follows a null location. -/
def encodeNode (codec : Codec Row) (node : Node Row) : Option Str := do
  let rows ← node.items.mapM id
  some (encodeVec (nodeItems codec node.key rows))

/-- `decode` of a node, into items that start with one that refers to no row. -/
def decodeNode (codec : Codec Row) (e : Str) : Option (Node Row) := do
  let data ← decodeVec e
  let head ← data.head?
  let key ← stoull head.1
  let rows ← (List.range' 1 (data.length - 1)).mapM fun _ =>
    codec.decode (data.getD 1 ([], [])).2
  some ⟨UInt64.ofNat key, if rows = [] then [none] else rows.map some⟩

/-- `encode` of a bucket. -/
def encodeBucket (codec : Codec Row) (nodes : List (Node Row)) : Option Str := do
  let data ← nodes.mapM fun node => (encodeNode codec node).map fun e =>
    (toDecimal node.key.toNat, e)
  some (encodeVec data)

/-- `decode` of a bucket. -/
def decodeBucket (codec : Codec Row) (e : Str) : Option (List (Node Row)) := do
  let data ← decodeVec e
  data.mapM fun it => do
    let _ ← stoull it.1
    decodeNode codec it.2

/-- `BucketHeader_ENC::encode` and `decode`, over `row_t`. -/
def bucketHeaderEncEncode (rowT : Codec Row) : List (Node Row) → Option Str := encodeBucket rowT

def bucketHeaderEncDecode (rowT : Codec Row) : Str → Option (List (Node Row)) := decodeBucket rowT

/-- `BucketHeader::encode` and `decode`, over `base_row_t`. -/
def bucketHeaderEncode (baseRowT : Codec Row) : List (Node Row) → Option Str := encodeBucket baseRowT

def bucketHeaderDecode (baseRowT : Codec Row) : Str → Option (List (Node Row)) :=
  decodeBucket baseRowT

/-! ### Nodes -/

variable {codec : Codec Row}

theorem mapM_eq_some_map {α β : Type} {l : List α} {f : α → Option β} {g : α → β}
    (h : ∀ a ∈ l, f a = some (g a)) : l.mapM f = some (l.map g) := by
  induction l with
  | nil => rfl
  | cons a l ih =>
      rw [List.mapM_cons, h a (List.mem_cons_self ..),
        ih fun b hb => h b (List.mem_cons_of_mem a hb)]
      rfl

theorem mapM_length {α β : Type} {l : List α} {f : α → Option β} {l' : List β}
    (h : l.mapM f = some l') : l'.length = l.length := by
  induction l generalizing l' with
  | nil =>
      cases h
      rfl
  | cons a l ih =>
      rw [List.mapM_cons] at h
      obtain ⟨b, -, h⟩ := Option.bind_eq_some_iff.mp h
      obtain ⟨rest, hrest, h⟩ := Option.bind_eq_some_iff.mp h
      cases h
      rw [List.length_cons, List.length_cons, ih hrest]

theorem encodeNode_ofRows (codec : Codec Row) (key : UInt64) (rows : List Row) :
    encodeNode codec (Node.ofRows key rows) = some (encodeVec (nodeItems codec key rows)) := by
  have hrows : (rows.map some).mapM id = some rows := by
    rw [List.mapM_map]
    exact (mapM_eq_some_map fun _ _ => rfl).trans (by rw [List.map_id'])
  unfold encodeNode Node.ofRows
  rw [hrows]
  rfl

theorem nodeItems_balanced (hcodec : codec.Lawful) (key : UInt64) (rows : List Row) :
    ∀ t ∈ nodeItems codec key rows, Balanced t.1 ∧ Balanced t.2 := by
  intro t ht
  rcases List.mem_cons.mp ht with rfl | ht
  · exact ⟨RowCodec.balanced_toDecimal _, balanced_nil⟩
  · obtain ⟨row, -, rfl⟩ := List.mem_map.mp ht
    exact ⟨RowCodec.balanced_toDecimal _, hcodec.balanced row⟩

/-- The node that comes back: as many items as before, all with the first row, and one without a row
    if there were none. -/
def decodedNode (key : UInt64) : List Row → Node Row
  | [] => ⟨key, [none]⟩
  | row :: rows => ⟨key, (row :: rows).map fun _ => some row⟩

theorem decodeNode_encodeNode (hcodec : codec.Lawful) (key : UInt64) (rows : List Row)
    (hsize : (encodeVec (nodeItems codec key rows)).length < 2 ^ 31) :
    decodeNode codec (encodeVec (nodeItems codec key rows)) = some (decodedNode key rows) := by
  unfold decodeNode
  rw [decodeVec_encodeVec (nodeItems_balanced hcodec key rows) hsize]
  cases rows with
  | nil => simp [nodeItems, stoull_toDecimal key.toNat_lt, decodedNode]
  | cons row rows =>
      have hrows : ((List.range' 1 (rows.length + 1)).mapM fun _ => some row) =
          some ((List.range' 1 (rows.length + 1)).map fun _ => row) :=
        mapM_eq_some_map fun _ _ => rfl
      simp [nodeItems, stoull_toDecimal key.toNat_lt, hcodec.roundTrip, hrows, decodedNode,
        List.replicate_succ]

theorem decodedNode_eq_iff (key : UInt64) (rows : List Row) :
    decodedNode key rows = Node.ofRows key rows ↔ ∃ row, row ∈ rows ∧ ∀ other ∈ rows, other = row := by
  cases rows with
  | nil => simp [decodedNode, Node.ofRows]
  | cons row rows =>
      rw [decodedNode, Node.ofRows, Node.mk.injEq, and_iff_right rfl, List.map_inj_left]
      constructor
      · intro h
        refine ⟨row, List.mem_cons_self .., fun other hother => ?_⟩
        exact (Option.some.inj (h other hother)).symm
      · rintro ⟨first, hfirst, hall⟩ other hother
        rw [hall other hother, hall row (List.mem_cons_self ..)]

/-! ### Buckets -/

/-- A bucket by the keys of its nodes and their rows. -/
def ofRows (bucket : List (UInt64 × List Row)) : List (Node Row) :=
  bucket.map fun node => Node.ofRows node.1 node.2

/-- The pairs of a bucket: its nodes, with their keys before them. -/
def bucketItems (codec : Codec Row) (bucket : List (UInt64 × List Row)) : List (Str × Str) :=
  bucket.map fun node => (toDecimal node.1.toNat, encodeVec (nodeItems codec node.1 node.2))

theorem encodeBucket_ofRows (codec : Codec Row) (bucket : List (UInt64 × List Row)) :
    encodeBucket codec (ofRows bucket) = some (encodeVec (bucketItems codec bucket)) := by
  have hnodes : ((ofRows bucket).mapM fun node => (encodeNode codec node).map fun e =>
      (toDecimal node.key.toNat, e)) = some (bucketItems codec bucket) := by
    unfold ofRows bucketItems
    rw [List.mapM_map]
    refine mapM_eq_some_map fun node _ => ?_
    rw [Function.comp_apply, encodeNode_ofRows]
    rfl
  unfold encodeBucket
  rw [hnodes]
  rfl

theorem bucketItems_balanced (hcodec : codec.Lawful) (bucket : List (UInt64 × List Row)) :
    ∀ t ∈ bucketItems codec bucket, Balanced t.1 ∧ Balanced t.2 := by
  intro t ht
  obtain ⟨node, -, rfl⟩ := List.mem_map.mp ht
  exact ⟨RowCodec.balanced_toDecimal _, balanced_encodeVec (nodeItems_balanced hcodec _ _)⟩

theorem length_second_le {data : List (Str × Str)} {t : Str × Str} (h : t ∈ data) :
    t.2.length ≤ (encodeVec data).length := by
  induction data with
  | nil => cases h
  | cons u data ih =>
      simp only [encodeVec, braced, List.length_append, List.length_cons]
      rcases List.mem_cons.mp h with rfl | h
      · omega
      · have hrest := ih h
        omega

theorem decodeBucket_of_short (hcodec : codec.Lawful) {bucket : List (UInt64 × List Row)}
    (hsize : (encodeVec (bucketItems codec bucket)).length < 2 ^ 31) :
    decodeBucket codec (encodeVec (bucketItems codec bucket)) =
      some (bucket.map fun node => decodedNode node.1 node.2) := by
  have hinner : ∀ node ∈ bucket, (encodeVec (nodeItems codec node.1 node.2)).length < 2 ^ 31 := by
    intro node hnode
    have hmem : (toDecimal node.1.toNat, encodeVec (nodeItems codec node.1 node.2)) ∈
        bucketItems codec bucket := List.mem_map_of_mem hnode
    exact Nat.lt_of_le_of_lt (length_second_le hmem) hsize
  unfold decodeBucket
  rw [decodeVec_encodeVec (bucketItems_balanced hcodec bucket) hsize, bucketItems]
  refine (List.mapM_map ..).trans (mapM_eq_some_map fun node hnode => ?_)
  have hkey := stoull_toDecimal node.1.toNat_lt
  have hnode := decodeNode_encodeNode hcodec node.1 node.2 (hinner node hnode)
  simp only [Function.comp_apply, hkey, hnode, Option.bind_eq_bind, Option.bind_some]

theorem decodeBucket_length {e : Str} {nodes : List (Node Row)}
    (h : decodeBucket codec e = some nodes) :
    ∃ v, decodeVec e = some v ∧ nodes.length = v.length := by
  unfold decodeBucket at h
  obtain ⟨v, hv, h⟩ := Option.bind_eq_some_iff.mp h
  exact ⟨v, hv, mapM_length h⟩

/-- The bucket comes back with the same keys and rows. -/
def RoundTrips (enc : List (Node Row) → Option Str) (dec : Str → Option (List (Node Row)))
    (bucket : List (UInt64 × List Row)) : Prop :=
  (enc (ofRows bucket)).bind dec = some (ofRows bucket)

/-- All rows under one key are the same one. -/
def OneRow (rows : List Row) : Prop := ∃ row, row ∈ rows ∧ ∀ other ∈ rows, other = row

theorem roundTrips_iff (hcodec : codec.Lawful) (bucket : List (UInt64 × List Row)) :
    RoundTrips (encodeBucket codec) (decodeBucket codec) bucket ↔
      (encodeVec (bucketItems codec bucket)).length < 2 ^ 31 ∧ ∀ node ∈ bucket, OneRow node.2 := by
  unfold RoundTrips
  rw [encodeBucket_ofRows, Option.bind_some]
  by_cases hsize : (encodeVec (bucketItems codec bucket)).length < 2 ^ 31
  · rw [and_iff_right hsize, decodeBucket_of_short hcodec hsize, Option.some.injEq, ofRows,
      List.map_inj_left]
    exact forall₂_congr fun node _ => decodedNode_eq_iff node.1 node.2
  · refine iff_of_false (fun h => ?_) fun h => hsize h.1
    obtain ⟨v, hv, hlength⟩ := decodeBucket_length h
    have hfewer := decodeVec_of_long (bucketItems_balanced hcodec bucket) (Nat.not_lt.mp hsize) hv
    rw [← hlength, ofRows, bucketItems, List.length_map, List.length_map] at hfewer
    exact Nat.lt_irrefl _ hfewer

/-- Both codecs give a bucket back exactly if its encoding is below 2 GiB and every node has rows,
    all of them the same. -/
theorem bucket_codec_round_trips_iff {RowT BaseRowT : Type} {rowT : Codec RowT}
    {baseRowT : Codec BaseRowT} (hrow : rowT.Lawful) (hbase : baseRowT.Lawful) :
    (∀ bucket, RoundTrips (bucketHeaderEncEncode rowT) (bucketHeaderEncDecode rowT) bucket ↔
      (encodeVec (bucketItems rowT bucket)).length < 2 ^ 31 ∧ ∀ node ∈ bucket, OneRow node.2) ∧
    (∀ bucket, RoundTrips (bucketHeaderEncode baseRowT) (bucketHeaderDecode baseRowT) bucket ↔
      (encodeVec (bucketItems baseRowT bucket)).length < 2 ^ 31 ∧
        ∀ node ∈ bucket, OneRow node.2) := by
  unfold bucketHeaderEncEncode bucketHeaderEncDecode bucketHeaderEncode bucketHeaderDecode
  exact ⟨roundTrips_iff hrow, roundTrips_iff hbase⟩

/-- Rows that are numbers, encoded as such. -/
def numbers : Codec UInt64 where
  encode row := toDecimal row.toNat
  decode e := (stoull e).map UInt64.ofNat
  partId row := row

theorem numbers_lawful : numbers.Lawful where
  balanced row := RowCodec.balanced_toDecimal row.toNat
  roundTrip row := by
    simp only [numbers]
    rw [stoull_toDecimal row.toNat_lt, Option.map_some, UInt64.ofNat_toNat]

/-- Two nodes with one row each come back. -/
theorem bucket_codec_round_trips_iff_two_nodes :
    RoundTrips (bucketHeaderEncEncode numbers) (bucketHeaderEncDecode numbers) [(1, [5]), (2, [6])] ∧
      RoundTrips (bucketHeaderEncode numbers) (bucketHeaderDecode numbers) [(1, [5]), (2, [6])] := by
  have hsize : (encodeVec (bucketItems numbers [(1, [5]), (2, [6])])).length < 2 ^ 31 := by
    decide +kernel
  have hrows : ∀ node ∈ ([(1, [5]), (2, [6])] : List (UInt64 × List UInt64)), OneRow node.2 := by
    intro node hnode
    simp only [List.mem_cons, List.not_mem_nil, or_false] at hnode
    rcases hnode with rfl | rfl
    · exact ⟨5, List.mem_singleton_self 5, fun other h => List.mem_singleton.mp h⟩
    · exact ⟨6, List.mem_singleton_self 6, fun other h => List.mem_singleton.mp h⟩
  have hboth := bucket_codec_round_trips_iff numbers_lawful numbers_lawful
  exact ⟨(hboth.1 _).mpr ⟨hsize, hrows⟩, (hboth.2 _).mpr ⟨hsize, hrows⟩⟩

/-- Of two rows under one key the second is lost. -/
theorem second_row_lost :
    ¬ ∀ bucket, RoundTrips (bucketHeaderEncEncode numbers) (bucketHeaderEncDecode numbers) bucket := by
  intro h
  have htrips := h [(1, [5, 6])]
  unfold bucketHeaderEncEncode bucketHeaderEncDecode at htrips
  obtain ⟨-, hrows⟩ := (roundTrips_iff numbers_lawful _).mp htrips
  obtain ⟨row, -, hall⟩ := hrows _ (List.mem_singleton_self _)
  have hfive := hall 5 (by decide)
  have hsix := hall 6 (by decide)
  exact absurd (hfive.trans hsix.symm) (by decide)

end VeriTxn.BucketCodec
