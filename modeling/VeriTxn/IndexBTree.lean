import VeriTxn.Latch
import VeriTxn.BPlusTree
import Mathlib.Logic.Function.Basic

/-!
# The untrusted B+-tree

`index_btree` on one partition, as a heap of nodes named by `node_id`.  An array
together with `num_keys` is the list of its used entries.  A chain of `itemid_t`
is the list of items that following `next` visits; every caller passes an item
it has just initialised, so an insertion puts one item before the chain.

`none` is an assertion that fails, a null pointer followed, or the end of the
fuel of a loop.
-/

namespace VeriTxn.IndexBTree

open BPlusTree

variable {K I : Type}

/-- `BTREE_ORDER`. -/
def btreeOrder : Nat := 16

/-- `pointers`: item chains in a leaf, children in an inner node. -/
inductive Pointers (I : Type) where
  | items (chains : List (List I))
  | nodes (ids : List Nat)
deriving DecidableEq

/-- `bt_node`, less its latch. -/
structure BtNode (K I : Type) where
  keys : List K
  pointers : Pointers I
  parent : Option Nat
  next : Option Nat
deriving DecidableEq

/-- `index_btree` on one partition. -/
structure Index (K I : Type) where
  nodes : Nat → Option (BtNode K I)
  latches : Nat → Latch
  btreeNodeId : Nat
  /-- `roots[part_id]` -/
  root : Nat

namespace Index

def setNode (s : Index K I) (id : Nat) (node : BtNode K I) : Index K I :=
  { s with nodes := Function.update s.nodes id (some node) }

def setLatch (s : Index K I) (id : Nat) (l : Latch) : Index K I :=
  { s with latches := Function.update s.latches id l }

/-- `make_node`, `make_lf` and `make_nl`: the new node's id is the next one. -/
def makeNode (s : Index K I) (pointers : Pointers I) : Index K I × Nat :=
  let id := s.btreeNodeId + 1
  (({ s with btreeNodeId := id }.setNode id ⟨[], pointers, none, none⟩).setLatch id .free, id)

/-- `init`: one empty leaf. -/
def init : Index K I :=
  let s : Index K I := ⟨fun _ => none, fun _ => .free, 0, 0⟩
  { (s.makeNode (.items [])).1 with root := (s.makeNode (.items [])).2 }

def latchNode (s : Index K I) (id : Nat) (type : LatchT) : Option (Bool × Index K I) :=
  ((s.latches id).latchNode type).map fun (ok, l) => (ok, s.setLatch id l)

def upgradeLatch (s : Index K I) (id : Nat) : Option (RC × Index K I) :=
  (s.latches id).upgradeLatch.map fun (rc, l) => (rc, s.setLatch id l)

/-- `release_latch` asserts that the latch is held. -/
def releaseLatch (s : Index K I) (id : Nat) : Option (Index K I) :=
  if (s.latches id).latchType = .none then none else some (s.setLatch id (s.latches id).drop)

/-- `cleanup`: release the ancestors of `node` up to `last_ex`. -/
def cleanupLoop (lastEx : Nat) : Nat → Index K I → Nat → Option (Index K I)
  | 0, _, _ => none
  | fuel + 1, s, node => do
      let n ← s.nodes node
      let parent ← n.parent
      let s ← s.releaseLatch parent
      if parent = lastEx then some s else cleanupLoop lastEx fuel s parent

def cleanup (s : Index K I) (node : Nat) : Option Nat → Option (Index K I)
  | none => some s
  | some lastEx => cleanupLoop lastEx s.btreeNodeId s node

section Ordered

variable [LinearOrder K]

/-- `find_leaf` with INDEX_NONE: no latches. -/
def findLeafNone (key : K) : Nat → Index K I → Nat → Option Nat
  | 0, _, _ => none
  | fuel + 1, s, c => do
      let n ← s.nodes c
      match n.pointers with
      | .items _ => some c
      | .nodes ids =>
          let child ← ids[slot key n.keys]?
          findLeafNone key fuel s child

/-- What `find_leaf` leaves: the index, and unless it aborts the leaf and `last_ex`. -/
abbrev Found (K I : Type) := Index K I × Option (Nat × Option Nat)

/-- The loop of `find_leaf`; `c` is latched. -/
def findLeafLoop (key : K) (accessType : IdxAccT) :
    Nat → Index K I → Nat → Option Nat → Option (Found K I)
  | 0, _, _, _ => none
  | fuel + 1, s, c, lastEx => do
      let n ← s.nodes c
      match n.pointers with
      | .items _ =>
          if accessType = .insert then
            let (rc, s) ← s.upgradeLatch c
            if rc = .rcok then some (s, some (c, lastEx))
            else
              let s ← s.releaseLatch c
              let s ← s.cleanup c lastEx
              some (s, none)
          else some (s, some (c, lastEx))
      | .nodes ids =>
          let child ← ids[slot key n.keys]?
          let (ok, s) ← s.latchNode child .sh
          if ok then
            if accessType = .insert then
              let nchild ← s.nodes child
              if nchild.keys.length = btreeOrder - 1 then
                let (rc, s) ← s.upgradeLatch c
                if rc = .rcok then
                  findLeafLoop key accessType fuel s child (lastEx.or (some c))
                else
                  let s ← s.releaseLatch c
                  let s ← s.releaseLatch child
                  let s ← s.cleanup c lastEx
                  some (s, none)
              else
                let s ← s.cleanup c lastEx
                let s ← s.releaseLatch c
                findLeafLoop key accessType fuel s child none
            else
              let s ← s.releaseLatch c
              findLeafLoop key accessType fuel s child lastEx
          else
            let s ← s.releaseLatch c
            let s ← s.cleanup c lastEx
            some (s, none)

/-- `find_leaf`. -/
def findLeaf (s : Index K I) (key : K) (accessType : IdxAccT) : Option (Found K I) :=
  if accessType = .none then
    (findLeafNone key s.btreeNodeId s s.root).map fun leaf => (s, some (leaf, none))
  else do
    let (ok, s) ← s.latchNode s.root .sh
    if ok then findLeafLoop key accessType s.btreeNodeId s s.root none else some (s, none)

/-- `leaf_has_key`: the index of the key in the leaf. -/
def leafHasKey (keys : List K) (key : K) : Option Nat := keys.findIdx? (· = key)

/-- `insert_into_leaf`. -/
def insertIntoLeaf (s : Index K I) (leaf : Nat) (key : K) (item : I) : Option (Index K I) := do
  let n ← s.nodes leaf
  match n.pointers with
  | .nodes _ => none
  | .items chains =>
      match leafHasKey n.keys key with
      | some idx =>
          let chain ← chains[idx]?
          some (s.setNode leaf { n with pointers := .items (chains.set idx (item :: chain)) })
      | none =>
          let insertionPoint := position key n.keys
          let keys := n.keys.insertIdx insertionPoint key
          if keys.length < btreeOrder then
            some (s.setNode leaf { n with
              keys := keys
              pointers := .items (chains.insertIdx insertionPoint [item]) })
          else none

/-- `insert_into_new_root`. -/
def insertIntoNewRoot (s : Index K I) (left : Nat) (key : K) (right : Nat) :
    Option (Index K I) := do
  let (s, newRoot) := s.makeNode (.nodes [left, right])
  let s := s.setNode newRoot ⟨[key], .nodes [left, right], none, none⟩
  let nleft ← s.nodes left
  let s := s.setNode left { nleft with parent := some newRoot }
  let nright ← s.nodes right
  let s := s.setNode right { nright with parent := some newRoot }
  let nleft ← s.nodes left
  let s := s.setNode left { nleft with next := some right }
  some { s with root := newRoot }

/-- The loop of `split_nl_insert` that hands the children to the new node. -/
def setParents (parent : Nat) : Index K I → List Nat → Option (Index K I)
  | s, [] => some s
  | s, child :: children => do
      let n ← s.nodes child
      setParents parent (s.setNode child { n with parent := some parent }) children

/-- `split_nl_insert` up to the call it ends with: the separator to hand up and
    the new node. -/
def splitNl (s : Index K I) (oldNode leftIndex : Nat) (key : K) (right : Nat) :
    Option (Index K I × K × Nat) := do
  let (s, newNode) := s.makeNode (.nodes [])
  let old ← s.nodes oldNode
  match old.pointers with
  | .items _ => none
  | .nodes pointers =>
      let tempPointers := pointers.insertIdx (leftIndex + 1) right
      let tempKeys := old.keys.insertIdx leftIndex key
      let split := cut btreeOrder
      let kPrime ← tempKeys[split - 1]?
      let s := s.setNode newNode ⟨tempKeys.drop split, .nodes (tempPointers.drop split),
        old.parent, old.next⟩
      let s := s.setNode oldNode { old with
        keys := tempKeys.take (split - 1)
        pointers := .nodes (tempPointers.take split)
        next := some newNode }
      let s ← s.setParents newNode (tempPointers.drop split)
      some (s, kPrime, newNode)

/-- `split_nl_insert`; `insertIntoParent` is the call it ends with. -/
def splitNlInsert (insertIntoParent : Index K I → Nat → K → Nat → Option (Index K I))
    (s : Index K I) (oldNode leftIndex : Nat) (key : K) (right : Nat) : Option (Index K I) := do
  let (s, kPrime, newNode) ← s.splitNl oldNode leftIndex key right
  insertIntoParent s oldNode kPrime newNode

/-- `insert_into_parent`. -/
def insertIntoParent : Nat → Index K I → Nat → K → Nat → Option (Index K I)
  | 0, _, _, _, _ => none
  | fuel + 1, s, left, key, right => do
      let nleft ← s.nodes left
      match nleft.parent with
      | none => s.insertIntoNewRoot left key right
      | some parent =>
          let n ← s.nodes parent
          let insertIdx := position key n.keys
          if n.keys.length < btreeOrder - 1 then
            match n.pointers with
            | .items _ => none
            | .nodes ids =>
                some (s.setNode parent { n with
                  keys := n.keys.insertIdx insertIdx key
                  pointers := .nodes (ids.insertIdx (insertIdx + 1) right) })
          else splitNlInsert (insertIntoParent fuel) s parent insertIdx key right

/-- `split_lf_insert`. -/
def splitLfInsert (fuel : Nat) (s : Index K I) (leaf : Nat) (key : K) (item : I) :
    Option (Index K I) := do
  let (s, newLeaf) := s.makeNode (.items [])
  let n ← s.nodes leaf
  match n.pointers with
  | .nodes _ => none
  | .items chains =>
      if n.keys.length = btreeOrder - 1 then
        let insertionIndex := position key n.keys
        let tempKeys := n.keys.insertIdx insertionIndex key
        let tempPointers := chains.insertIdx insertionIndex [item]
        let split := cut (btreeOrder - 1)
        let newKey ← tempKeys[split]?
        let s := s.setNode newLeaf ⟨tempKeys.drop split, .items (tempPointers.drop split),
          n.parent, n.next⟩
        let s := s.setNode leaf { n with
          keys := tempKeys.take split
          pointers := .items (tempPointers.take split)
          next := some newLeaf }
        insertIntoParent fuel s leaf newKey newLeaf
      else none

/-- The loop of `index_insert` that collects the leaf and its ancestors up to
    `last_ex`. -/
def exListLoop (s : Index K I) (lastEx : Nat) : Nat → Nat → Option (List Nat)
  | 0, _ => none
  | fuel + 1, node =>
      if node = lastEx then some [lastEx]
      else do
        let n ← s.nodes node
        let parent ← n.parent
        let above ← s.exListLoop lastEx fuel parent
        some (node :: above)

/-- `ex_list`: the nodes `index_insert` has to release; the array has 100 places. -/
def exList (s : Index K I) (leaf : Nat) : Option Nat → Option (List Nat)
  | none => some [leaf]
  | some lastEx => s.exListLoop lastEx 100 leaf

def releaseAll : Index K I → List Nat → Option (Index K I)
  | s, [] => some s
  | s, id :: ids => do
      let s ← s.releaseLatch id
      releaseAll s ids

/-- The part of `index_insert` that changes nodes. -/
def insertAt (fuel : Nat) (s : Index K I) (leaf : Nat) (key : K) (item : I) :
    Option (Index K I) := do
  let n ← s.nodes leaf
  if n.keys.length < btreeOrder - 1 ∨ (leafHasKey n.keys key).isSome then
    s.insertIntoLeaf leaf key item
  else s.splitLfInsert fuel leaf key item

/-- `index_insert`, which asserts that `find_leaf` succeeds. -/
def indexInsert (s : Index K I) (key : K) (item : I) : Option (Index K I) := do
  let (s, found) ← s.findLeaf key .insert
  let (leaf, lastEx) ← found
  let held ← s.exList leaf lastEx
  let s ← s.insertAt s.btreeNodeId leaf key item
  s.releaseAll held

/-- `index_read`: the chain of the key; `none` when the leaf does not have it. -/
def indexRead (s : Index K I) (key : K) : Option (Index K I × List I) := do
  let (s, found) ← s.findLeaf key .read
  let (leaf, _) ← found
  let n ← s.nodes leaf
  match n.pointers with
  | .nodes _ => none
  | .items chains =>
      let idx ← leafHasKey n.keys key
      let chain ← chains[idx]?
      let s ← s.releaseLatch leaf
      some (s, chain)

end Ordered

end Index

end VeriTxn.IndexBTree
