import VeriTxn.Types
import VeriTxn.Bytes
import Mathlib.Data.List.Basic

/-!
# Buckets of the hash index

The pages of the hash index: a bucket is a list of nodes, one for each key, and a
node a list of rows.  `BucketHeader` and `base_row_t` outside the enclave and
`BucketHeader_ENC` and `row_t` inside have the same contents, the same hash and
the same reading loop, so one definition serves both.  A tuple is
`get_tuple_size` bytes; the byte after it, which the copies take along, is read
by nobody.
-/

namespace VeriTxn.HashIndex

open Bytes

/-- What the index keeps of a row. -/
structure Row where
  primaryKey : UInt64
  rowId : UInt64
  data : List Byte
deriving DecidableEq, Repr

/-- `row_t::hash`, `base_row_t::hash`. -/
def Row.hash (row : Row) : UInt64 :=
  row.data.foldl (fun res val => res ^^^ val.toUInt64) (row.primaryKey ^^^ row.rowId)

/-- `BucketNode`, `BucketNode_ENC`. -/
structure BucketNode where
  key : IdxKey
  items : List Row
deriving DecidableEq, Repr

/-- `BucketNode::hash`, `BucketNode_ENC::hash`. -/
def BucketNode.hash (node : BucketNode) : UInt64 :=
  node.items.foldl (fun res row => res ^^^ row.hash) (UInt64.ofFin node.key)

/-- `BucketHeader`, `BucketHeader_ENC`: the nodes from `first_node` on. -/
abbrev Bucket := List BucketNode

/-- `BucketHeader::get_hash`, `BucketHeader_ENC::get_hash`. -/
def getHash (nodes : Bucket) : UInt64 :=
  nodes.foldl (fun res node => res ^^^ (node.hash ^^^ UInt64.ofFin node.key)) 0

/-- The items of the first node with this key; a null pointer is the empty list. -/
def readItem (key : IdxKey) : Bucket → List Row
  | [] => []
  | node :: rest => if node.key = key then node.items else readItem key rest

/-- The copy of a row, with the assertion that it has the same hash. -/
def copyRow (row : Row) : Option Row :=
  let newRow : Row := { primaryKey := row.primaryKey, rowId := row.rowId, data := row.data }
  if newRow.hash = row.hash then some newRow else none

/-- The copy of a node: each new item goes behind the last one. -/
def copyNode (node : BucketNode) : Option BucketNode := do
  let items ← node.items.mapM copyRow
  let newNode : BucketNode := { key := node.key, items := items }
  if newNode.hash = node.hash then some newNode else none

/-- The copying loop of `load_bucket` and `flush_out`, the last assertion included. -/
def copyBucket (nodes : Bucket) : Option Bucket := do
  let res ← nodes.mapM copyNode
  if getHash res = getHash nodes then some res else none

/-- `total_rec * 1024`, a 32-bit product. -/
def totalSize (nodes : Bucket) : Nat :=
  (nodes.map fun node => node.items.length).sum * 1024 % 2 ^ 32

/-- An in-place change of the `i`-th row of a key. -/
def setData (key : IdxKey) (i : Nat) (data : List Byte) : Bucket → Bucket
  | [] => []
  | node :: rest =>
      if node.key = key then
        { node with items := node.items.modify i fun row => { row with data := data } } :: rest
      else node :: setData key i data rest

/-! ### Copies are exact -/

theorem mapM_eq_some {α : Type} {f : α → Option α} (h : ∀ x, f x = some x) (xs : List α) :
    xs.mapM f = some xs := by
  induction xs with
  | nil => rfl
  | cons x xs ih => simp [List.mapM_cons, h x, ih]

@[simp] theorem copyRow_eq (row : Row) : copyRow row = some row := by
  simp [copyRow]

@[simp] theorem copyNode_eq (node : BucketNode) : copyNode node = some node := by
  simp [copyNode, mapM_eq_some copyRow_eq]

@[simp] theorem copyBucket_eq (nodes : Bucket) : copyBucket nodes = some nodes := by
  simp [copyBucket, mapM_eq_some copyNode_eq]

/-! ### Changing rows in place -/

/-- The rows of a key, without their data. -/
def identities (rows : List Row) : List (UInt64 × UInt64) :=
  rows.map fun row => (row.primaryKey, row.rowId)

theorem identities_modify (rows : List Row) (i : Nat) (data : List Byte) :
    identities (rows.modify i fun row => { row with data := data }) = identities rows := by
  induction rows generalizing i with
  | nil => cases i <;> rfl
  | cons row rows ih =>
      cases i with
      | zero => rfl
      | succ i => simpa [identities] using ih i

/-! ### The rows of a key -/

/-- The rows that a bucket has for a key: the items of the first node with the key, in their
    order. -/
def rowsOf (key : IdxKey) (nodes : Bucket) : List Row :=
  ((nodes.find? fun node => node.key = key).map BucketNode.items).getD []

theorem readItem_eq_rowsOf (key : IdxKey) (nodes : Bucket) :
    readItem key nodes = rowsOf key nodes := by
  induction nodes with
  | nil => rfl
  | cons node rest ih =>
      by_cases hkey : node.key = key
      · simp [readItem, rowsOf, hkey]
      · simpa [readItem, rowsOf, hkey] using ih

/-- A change in place is a change of one row of its own key. -/
theorem rowsOf_setData (key key' : IdxKey) (i : Nat) (data : List Byte) (nodes : Bucket) :
    rowsOf key' (setData key i data nodes) =
      if key' = key then (rowsOf key nodes).modify i fun row => { row with data := data }
      else rowsOf key' nodes := by
  induction nodes with
  | nil => simp [setData, rowsOf]
  | cons node rest ih =>
      by_cases hkey : node.key = key
      · by_cases hkey' : key' = key
        · simp [setData, rowsOf, hkey, hkey']
        · simp [setData, rowsOf, hkey, hkey', Ne.symm hkey']
      · rw [setData, if_neg hkey]
        by_cases hfound : node.key = key'
        · have hkey' : key' ≠ key := fun heq => hkey (hfound.trans heq)
          simp [rowsOf, hfound, hkey']
        · simpa [rowsOf, hkey, hfound] using ih

end VeriTxn.HashIndex
