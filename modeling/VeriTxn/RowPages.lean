import VeriTxn.IndexBTEnc

/-!
# Rows in the pages of the verified B+-tree

`IndexBTEnc` in the configuration of the verified B+-tree, as long as nothing is evicted: with the
row objects, each with its `from_page` and `offset`, and with the page objects they point to.  A
page is made once for every load of a node; without evictions a page that is in the cache stays
there, and the hash of a leaf is recorded and never compared.  `none` is a failed assertion, a null
pointer followed or the end of the fuel of a loop.
-/

namespace VeriTxn.RowPages

open Bytes BPlusTree IndexBTree HashIndex

/-- A pointer to a `BTNode`: the pages that are made for a node are counted. -/
structure PagePtr where
  id : Nat
  copy : Nat
deriving DecidableEq

/-- A pointer to a `row_t`: row `j` of the items in a slot, made with its page, or the `k`-th row
    that a caller of `index_insert` made.  The item of a row is named by it. -/
inductive RowPtr where
  | made (page : PagePtr) (slot j : Nat)
  | inserted (k : Nat)
deriving DecidableEq

/-- `row_t` with its back pointers. -/
structure RowObj where
  row : Row
  fromPage : Option PagePtr
  offset : Nat
deriving DecidableEq

/-- `BTNode`, with the items in `data` of a leaf or `child` of an inner node. -/
structure Page where
  nodeId : Nat
  keys : List IdxKey
  contents : Pointers RowPtr
  parent : Nat
  next : Nat
  origin : Nat
  latch : Latch

/-- `IndexBTEnc` with the objects it points to. -/
structure Pages where
  index : Index IdxKey Row
  /-- `roots[part_id]` -/
  root : PagePtr
  cache : Nat → Option PagePtr
  heap : PagePtr → Option Page
  copies : Nat → Nat
  rows : RowPtr → Option RowObj
  insertedCnt : Nat

namespace Pages

/-! ### Loading -/

/-- The row objects that `make_node` makes. -/
def madeRows (page : PagePtr) (chains : List (List Row)) (rows : RowPtr → Option RowObj) :
    RowPtr → Option RowObj
  | .made page' slot j =>
      if page' = page then
        (chains[slot]?.bind (·[j]?)).map fun row => ⟨row, some page, slot⟩
      else rows (.made page' slot j)
  | .inserted k => rows (.inserted k)

/-- The items that `make_node` puts into `data`. -/
def madeItems (page : PagePtr) (chains : List (List Row)) : List (List RowPtr) :=
  chains.mapIdx fun slot chain => chain.mapIdx fun j _ => .made page slot j

/-- `make_node` of a node of the untrusted tree, with the id that is assigned to it afterwards.
    Its last assertion reads `keys[0]`. -/
def makeNode (s : Pages) (out innerNodeId : Nat) : Option (Pages × PagePtr) := do
  let n ← s.index.nodes out
  if n.keys = [] then none
  else
    let page : PagePtr := ⟨innerNodeId, s.copies innerNodeId⟩
    let (contents, rows) := match n.pointers with
      | .items chains => (Pointers.items (madeItems page chains), madeRows page chains s.rows)
      | .nodes ids => (.nodes ids, s.rows)
    some ({ s with
      heap := Function.update s.heap page (some ⟨innerNodeId, n.keys, contents, n.parent.getD 0,
        n.next.getD 0, out, .free⟩)
      copies := Function.update s.copies innerNodeId (page.copy + 1)
      rows := rows }, page)

/-- `load_child` and `load_next` from `try_load` on. -/
def loadNode (s : Pages) (originNode : Option Nat) (innerNodeId : Nat) :
    Option (Pages × PagePtr) :=
  match s.cache innerNodeId with
  | some page => some (s, page)
  | none => do
      let out ← originNode
      if (s.index.latches out).latchType ≠ .none then none
      else
        let (s, page) ← s.makeNode out innerNodeId
        some ({ s with cache := Function.update s.cache innerNodeId (some page) }, page)

/-- `load_child` of a child; the pointer is null for the id 0. -/
def loadChild (s : Pages) (curNode : PagePtr) (i : Nat) : Option (Pages × Option PagePtr) := do
  let cur ← s.heap curNode
  let o ← s.index.nodes cur.origin
  match cur.contents with
  | .items _ => none
  | .nodes child =>
      let innerNodeId ← child[i]?
      if innerNodeId = 0 then some (s, none)
      else
        let (s, page) ← s.loadNode (IndexBTEnc.originChild o i) innerNodeId
        some (s, some page)

/-- `load_child` of the parent, number -1; a miss follows the null `origin_node`. -/
def loadParent (s : Pages) (curNode : PagePtr) : Option (Option PagePtr) := do
  let cur ← s.heap curNode
  let root ← s.heap s.root
  if cur.parent = root.nodeId then some (some s.root)
  else if cur.parent = 0 then some none
  else (s.cache cur.parent).map some

/-- `load_next`. -/
def loadNext (s : Pages) (curNode : PagePtr) : Option (Pages × Option PagePtr) := do
  let cur ← s.heap curNode
  let o ← s.index.nodes cur.origin
  match cur.contents with
  | .nodes _ => none
  | .items _ =>
      match o.next with
      | none => some (s, none)
      | some originNode =>
          if cur.next = 0 then some (s, none)
          else
            let (s, page) ← s.loadNode (some originNode) cur.next
            some (s, some page)

/-- `dfs`; whether there is room for another node is up to the cache. -/
def dfs (canForceLoad : Pages → Bool) : Nat → Pages → PagePtr → Option Pages
  | 0, _, _ => none
  | fuel + 1, s, c =>
      if canForceLoad s then do
        let cur ← s.heap c
        match cur.contents with
        | .items _ => some s
        | .nodes _ =>
            (List.range (cur.keys.length + 1)).foldlM (fun s i => do
              let (s, ch) ← s.loadChild c i
              dfs canForceLoad fuel s (← ch)) s
      else some s

/-- `init` and `load_all`. -/
def loadAll (canForceLoad : Pages → Bool) (index : Index IdxKey Row) : Option Pages := do
  let s : Pages := ⟨index, ⟨index.root, 0⟩, fun _ => none, fun _ => none, fun _ => 0,
    fun _ => none, 0⟩
  let (s, root) ← s.makeNode index.root index.root
  dfs canForceLoad index.btreeNodeId { s with root := root } root

/-! ### Reading -/

/-- The loop of `find_leaf` with INDEX_NONE. -/
def findLeaf (key : IdxKey) : Nat → Pages → PagePtr → Option (Pages × PagePtr)
  | 0, _, _ => none
  | fuel + 1, s, c => do
      let cur ← s.heap c
      match cur.contents with
      | .items _ => some (s, c)
      | .nodes _ =>
          let (s, child) ← s.loadChild c (slot key cur.keys)
          findLeaf key fuel s (← child)

/-- An assignment to a latch. -/
def setLatch (s : Pages) (p : PagePtr) (l : Latch) : Option Pages := do
  let page ← s.heap p
  some { s with heap := Function.update s.heap p (some { page with latch := l }) }

/-- `release_latch`. -/
def releaseLatch (s : Pages) (p : PagePtr) : Option Pages := do
  let page ← s.heap p
  s.setLatch p page.latch.drop

/-- `index_read`; the item is null when the key is not in the leaf. -/
def indexRead (s : Pages) (key : IdxKey) : Option (Pages × Option RowPtr) := do
  let (s, leaf) ← findLeaf key s.index.btreeNodeId s s.root
  let page ← s.heap leaf
  match page.contents with
  | .nodes _ => none
  | .items data =>
      match Index.leafHasKey page.keys key with
      | none => some (s, none)
      | some i =>
          let item ← data[i]?
          let s ← s.releaseLatch leaf
          some (s, item.head?)

/-- `index_next`, with `samekey` false. -/
def indexNext (s : Pages) (last : RowPtr) : Option (Pages × Option RowPtr) := do
  let old ← s.rows last
  let leaf ← old.fromPage
  let page ← s.heap leaf
  let offset := old.offset + 1
  let (s, leaf, offset) ←
    if offset ≥ page.keys.length then do
      let (s, next) ← s.loadNext leaf
      some (s, next, 0)
    else some (s, some leaf, offset)
  let s := { s with
    rows := Function.update s.rows last (some { old with fromPage := leaf, offset := offset }) }
  match leaf with
  | none => some (s, none)
  | some leaf =>
      let page ← s.heap leaf
      match page.contents with
      | .nodes _ => none
      | .items data =>
          let item ← data[offset]?
          some (s, item.head?)

/-! ### Inserting -/

/-- An assignment through a pointer to a page. -/
def setPage (s : Pages) (p : PagePtr) (page : Page) : Pages :=
  { s with heap := Function.update s.heap p (some page) }

def latchNode (s : Pages) (p : PagePtr) (type : LatchT) : Option (Bool × Pages) := do
  let page ← s.heap p
  let (ok, l) ← page.latch.latchNode type
  let s ← s.setLatch p l
  some (ok, s)

def upgradeLatch (s : Pages) (p : PagePtr) : Option (RC × Pages) := do
  let page ← s.heap p
  let (rc, l) ← page.latch.upgradeLatch
  let s ← s.setLatch p l
  some (rc, s)

/-- An assignment to `child->parent`. -/
def setParent (s : Pages) (child : PagePtr) (parent : Nat) : Option Pages := do
  let page ← s.heap child
  some (s.setPage child { page with parent := parent })

/-- `cleanup`: release the ancestors of `node` up to `last_ex`, found by their ids. -/
def cleanupLoop (lastEx : PagePtr) : Nat → Pages → PagePtr → Option Pages
  | 0, _, _ => none
  | fuel + 1, s, node => do
      let parent ← s.loadParent node
      let node ← parent
      let s ← s.releaseLatch node
      let page ← s.heap node
      let last ← s.heap lastEx
      if page.nodeId = last.nodeId then some s else cleanupLoop lastEx fuel s node

def cleanup (s : Pages) (node : PagePtr) : Option PagePtr → Option Pages
  | none => some s
  | some lastEx => cleanupLoop lastEx s.index.btreeNodeId s node

/-- The loop of `find_leaf` with INDEX_INSERT; `c` is latched.  The second part is `none` for
    Abort, or the leaf and `last_ex`. -/
def findLeafLoop (key : IdxKey) :
    Nat → Pages → PagePtr → Option PagePtr → Option (Pages × Option (PagePtr × Option PagePtr))
  | 0, _, _, _ => none
  | fuel + 1, s, c, lastEx => do
      let cur ← s.heap c
      match cur.contents with
      | .items _ =>
          let (rc, s) ← s.upgradeLatch c
          if rc = .rcok then some (s, some (c, lastEx))
          else
            let s ← s.releaseLatch c
            let s ← s.cleanup c lastEx
            some (s, none)
      | .nodes _ =>
          if cur.latch.latchType = .sh then
            let (s, child) ← s.loadChild c (slot key cur.keys)
            let child ← child
            let s ← s.setParent child cur.nodeId
            let (ok, s) ← s.latchNode child .sh
            if ok then
              let page ← s.heap child
              if page.keys.length = btreeOrder - 1 then
                let (rc, s) ← s.upgradeLatch c
                if rc = .rcok then findLeafLoop key fuel s child (lastEx.or (some c))
                else
                  let s ← s.releaseLatch c
                  let s ← s.releaseLatch child
                  let s ← s.cleanup c lastEx
                  some (s, none)
              else
                let s ← s.cleanup c lastEx
                let s ← s.releaseLatch c
                findLeafLoop key fuel s child none
            else
              let s ← s.releaseLatch c
              let s ← s.cleanup c lastEx
              some (s, none)
          else none

/-- `find_leaf` with INDEX_INSERT. -/
def findLeafInsert (s : Pages) (key : IdxKey) :
    Option (Pages × Option (PagePtr × Option PagePtr)) := do
  let (ok, s) ← s.latchNode s.root .sh
  if ok then findLeafLoop key s.index.btreeNodeId s s.root none else some (s, none)

/-- `make_node` of a new node, which takes the next id of the untrusted tree and goes to the
    cache. -/
def makeNewNode (s : Pages) (contents : Pointers RowPtr) : Option (Pages × PagePtr) := do
  let root ← s.heap s.root
  let id := s.index.btreeNodeId + 1
  let page : PagePtr := ⟨id, s.copies id⟩
  some ({ s with
    index := { s.index with btreeNodeId := id }
    cache := Function.update s.cache id (some page)
    heap := Function.update s.heap page (some ⟨id, [], contents, 0, 0, root.origin, .free⟩)
    copies := Function.update s.copies id (page.copy + 1) }, page)

/-- `insert_into_leaf`. -/
def insertIntoLeaf (s : Pages) (leaf : PagePtr) (key : IdxKey) (item : RowPtr) : Option Pages := do
  let page ← s.heap leaf
  match page.contents with
  | .nodes _ => none
  | .items data =>
      match Index.leafHasKey page.keys key with
      | some idx =>
          let chain ← data[idx]?
          some (s.setPage leaf { page with contents := .items (data.set idx (item :: chain)) })
      | none =>
          let insertionPoint := position key page.keys
          let keys := page.keys.insertIdx insertionPoint key
          if keys.length < btreeOrder then
            some (s.setPage leaf { page with
              keys := keys
              contents := .items (data.insertIdx insertionPoint [item]) })
          else none

/-- `insert_into_new_root`, with its assertion on the old root. -/
def insertIntoNewRoot (s : Pages) (left : PagePtr) (key : IdxKey) (right : PagePtr) :
    Option Pages := do
  let (s, newRoot) ← s.makeNewNode (.nodes [])
  let nroot ← s.heap newRoot
  let nleft ← s.heap left
  let nright ← s.heap right
  let s := s.setPage newRoot { nroot with
    keys := [key]
    contents := .nodes [nleft.nodeId, nright.nodeId] }
  let s ← s.setParent left nroot.nodeId
  let s ← s.setParent right nroot.nodeId
  let nleft ← s.heap left
  let s := s.setPage left { nleft with next := nright.nodeId }
  let old ← s.heap s.root
  if old.parent = nroot.nodeId then some { s with root := newRoot } else none

/-- The loop of `split_nl_insert` that hands the children to the new node. -/
def setParents (newNode : PagePtr) (id : Nat) : Pages → List Nat → Option Pages
  | s, [] => some s
  | s, i :: is => do
      let (s, child) ← s.loadChild newNode i
      let s ← s.setParent (← child) id
      setParents newNode id s is

/-- `split_nl_insert` up to the call it ends with. -/
def splitNl (s : Pages) (oldNode : PagePtr) (leftIndex : Nat) (key : IdxKey) (right : PagePtr) :
    Option (Pages × IdxKey × PagePtr) := do
  let (s, newNode) ← s.makeNewNode (.nodes [])
  let old ← s.heap oldNode
  let new ← s.heap newNode
  let nright ← s.heap right
  match old.contents with
  | .items _ => none
  | .nodes child =>
      let tempPointers := child.insertIdx (leftIndex + 1) nright.nodeId
      let tempKeys := old.keys.insertIdx leftIndex key
      let split := cut btreeOrder
      let kPrime ← tempKeys[split - 1]?
      let s := s.setPage newNode { new with
        keys := tempKeys.drop split
        contents := .nodes (tempPointers.drop split)
        parent := old.parent
        next := old.next }
      let s := s.setPage oldNode { old with
        keys := tempKeys.take (split - 1)
        contents := .nodes (tempPointers.take split)
        next := new.nodeId }
      let s ← s.setParents newNode new.nodeId (List.range ((tempKeys.drop split).length + 1))
      some (s, kPrime, newNode)

/-- `insert_into_parent` and `split_nl_insert`. -/
def insertIntoParent : Nat → Pages → PagePtr → IdxKey → PagePtr → Option Pages
  | 0, _, _, _, _ => none
  | fuel + 1, s, left, key, right => do
      match ← s.loadParent left with
      | none => s.insertIntoNewRoot left key right
      | some parent =>
          let page ← s.heap parent
          let nright ← s.heap right
          let insertIdx := position key page.keys
          if page.keys.length < btreeOrder - 1 then
            match page.contents with
            | .items _ => none
            | .nodes child =>
                some (s.setPage parent { page with
                  keys := page.keys.insertIdx insertIdx key
                  contents := .nodes (child.insertIdx (insertIdx + 1) nright.nodeId) })
          else
            let (s, kPrime, newNode) ← s.splitNl parent insertIdx key right
            insertIntoParent fuel s parent kPrime newNode

/-- `split_lf_insert`. -/
def splitLfInsert (fuel : Nat) (s : Pages) (leaf : PagePtr) (key : IdxKey) (item : RowPtr) :
    Option Pages := do
  let (s, newLeaf) ← s.makeNewNode (.items [])
  let page ← s.heap leaf
  let new ← s.heap newLeaf
  match page.contents with
  | .nodes _ => none
  | .items data =>
      if page.keys.length = btreeOrder - 1 then
        let insertionIndex := position key page.keys
        let tempKeys := page.keys.insertIdx insertionIndex key
        let tempPointers := data.insertIdx insertionIndex [item]
        let split := cut (btreeOrder - 1)
        let newKey ← tempKeys[split]?
        let s := s.setPage newLeaf { new with
          keys := tempKeys.drop split
          contents := .items (tempPointers.drop split)
          parent := page.parent
          next := page.next }
        let s := s.setPage leaf { page with
          keys := tempKeys.take split
          contents := .items (tempPointers.take split)
          next := new.nodeId }
        insertIntoParent fuel s leaf newKey newLeaf
      else none

/-- The part of `index_insert` that changes nodes. -/
def insertAt (fuel : Nat) (s : Pages) (leaf : PagePtr) (key : IdxKey) (item : RowPtr) :
    Option Pages := do
  let page ← s.heap leaf
  if page.keys.length < btreeOrder - 1 ∨ (Index.leafHasKey page.keys key).isSome then
    s.insertIntoLeaf leaf key item
  else s.splitLfInsert fuel leaf key item

/-- The loop of `index_insert` that collects the leaf and its ancestors up to `last_ex`. -/
def exListLoop (s : Pages) (lastEx : PagePtr) : Nat → PagePtr → Option (List PagePtr)
  | 0, _ => none
  | fuel + 1, node =>
      if node = lastEx then some [lastEx]
      else do
        let parent ← s.loadParent node
        let above ← s.exListLoop lastEx fuel (← parent)
        some (node :: above)

/-- `ex_list`, an array of 100 places. -/
def exList (s : Pages) (leaf : PagePtr) : Option PagePtr → Option (List PagePtr)
  | none => some [leaf]
  | some lastEx => s.exListLoop lastEx 100 leaf

/-- The loop that releases `ex_list` and asserts that each latch is exclusive. -/
def releaseAll : Pages → List PagePtr → Option Pages
  | s, [] => some s
  | s, p :: ps => do
      let page ← s.heap p
      if page.latch.latchType = .ex then
        let s ← s.releaseLatch p
        releaseAll s ps
      else none

/-- The row that a caller of `index_insert` made, with whatever back pointers it has. -/
def newRow (s : Pages) (obj : RowObj) : Pages × RowPtr :=
  ({ s with
    rows := Function.update s.rows (.inserted s.insertedCnt) (some obj)
    insertedCnt := s.insertedCnt + 1 }, .inserted s.insertedCnt)

/-- `index_insert`. -/
def indexInsert (s : Pages) (key : IdxKey) (obj : RowObj) : Option (Pages × RC) := do
  let (s, item) := s.newRow obj
  let (s, found) ← s.findLeafInsert key
  match found with
  | none => some (s, .abort)
  | some (leaf, lastEx) => do
      let held ← s.exList leaf lastEx
      let s ← s.insertAt s.index.btreeNodeId leaf key item
      let s ← s.releaseAll held
      some (s, .rcok)

end Pages

end VeriTxn.RowPages
