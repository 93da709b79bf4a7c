import VeriTxn.IndexBTreeInvariant
import VeriTxn.IndexEncCoherence

/-!
# The verified B+-tree

`IndexBTEnc` with `PAGE_VERI` on one partition: `FULL_TPCC`, `PRE_LOAD` 1,
`ENABLE_DATA_CACHE` true, `TAMPER_PERCENTAGE` 0, one thread.  Nodes are copied from the
untrusted `index_btree` into the cache when a search comes to them; the copy of a leaf goes
back when it is evicted, the copy of an inner node is dropped.  The copy of the root stays
outside the cache.

The page request of `sync_bucket_from_disk` changes nothing here.  A latch that is taken and
given back within one function shows only where it is not free.
-/

namespace VeriTxn

open Bytes BPlusTree IndexBTree HashIndex

/-- `BTNode`: `data` of a leaf or `child` of an inner node, `0` for no parent and no next
    leaf, and the `bt_node` it was copied from. -/
structure BTNode where
  nodeId : Nat
  keys : List IdxKey
  contents : Pointers Row
  parent : Nat
  next : Nat
  origin : Nat
deriving DecidableEq

/-- `bt_node::get_hash`, `BTNode::get_hash`.  The sum over the keys and the rows is computed,
    and the number of keys returned. -/
def btHash (keys : List IdxKey) (contents : Pointers Row) : UInt64 :=
  let res := keys.foldl (fun res key => res ^^^ UInt64.ofFin key) 0
  let _res := match contents with
    | .items chains => chains.foldl (fun res (chain : List Row) =>
        chain.head?.elim res fun row => res ^^^ row.hash) res
    | .nodes _ => res
  .ofNat keys.length

/-- `IndexBTEnc` with the `index_btree` it caches. -/
structure IndexBTEnc where
  index : Index IdxKey Row
  /-- `roots[part_id]` -/
  root : BTNode
  cache : LruCache BTNode
  verifyHash : Nat → UInt64
  /-- `sizeof(BTNode)` -/
  nodeBytes : Nat

namespace IndexBTEnc

/-- The cache slot of a node. -/
def place (id : Nat) : PageId := (0, id)

/-- `get_size`, as the `uint` that `load_and_swap` takes. -/
def getSize (nodeBytes : Nat) (n : BTNode) : Nat :=
  match n.contents with
  | .items _ => 1024 * n.keys.length % 2 ^ 32
  | .nodes _ => (nodeBytes + 8 * (n.keys.length + 1) + 8 * (n.keys.length + 1)) % 2 ^ 32

/-- The copying loops of `make_node` and `flush_out`, with the assertion on every row. -/
def copyItems (chains : List (List Row)) : Except Fault (List (List Row)) :=
  match chains.mapM fun chain => chain.mapM copyRow with
  | none => .error .hashMismatch
  | some chains => .ok chains

/-- `make_node`.  Its last assertion reads `keys[0]`. -/
def makeNode (index : Index IdxKey Row) (out : Nat) : Except Fault BTNode :=
  match index.nodes out with
  | none => .error .badPointer
  | some n => do
      let contents ← match n.pointers with
        | .items chains => (copyItems chains).map Pointers.items
        | .nodes ids => .ok (Pointers.nodes ids)
      if n.keys = [] then throw .badPointer
      else pure ⟨out, n.keys, contents, n.parent.getD 0, n.next.getD 0, out⟩

/-- `flush_out`. -/
def flushOut (s : IndexBTEnc) (c : BTNode) : Except Fault IndexBTEnc :=
  match c.contents, s.index.nodes c.origin with
  | .items chains, some n =>
      if (s.index.latches c.origin).latchType ≠ .none then .error .spin
      else do
        let chains ← copyItems chains
        let n := { n with
          keys := c.keys
          pointers := .items chains }
        if btHash c.keys c.contents = btHash n.keys n.pointers then
          pure { s with
            index := s.index.setNode c.origin n
            verifyHash := Function.update s.verifyHash c.nodeId (btHash c.keys c.contents) }
        else throw .hashMismatch
  | _, _ => .error .badPointer

/-- What `load_child` and `load_next` do with the node that made room. -/
def offload (s : IndexBTEnc) : Option (PageId × BTNode) → Except Fault IndexBTEnc
  | none => pure s
  | some (_, flushed) =>
      match flushed.contents with
      | .items _ => s.flushOut flushed
      | .nodes _ => pure s

/-- The check of a leaf that was just copied in; `0` is `_default_bt_veri_hash`. -/
def verify (s : IndexBTEnc) (n : BTNode) : Except Fault IndexBTEnc :=
  match n.contents with
  | .nodes _ => .ok s
  | .items _ =>
      if s.verifyHash n.nodeId = 0 then
        .ok { s with
          verifyHash := Function.update s.verifyHash n.nodeId (btHash n.keys n.contents) }
      else if s.verifyHash n.nodeId = btHash n.keys n.contents then .ok s
      else .error .hashMismatch

/-- `load_child` and `load_next` from `try_load` on.  The assertion after `make_node` assigns
    the id.  With one thread the slot is still empty at `load_and_swap`, which is refused for
    ever once it is refused. -/
def loadNode (s : IndexBTEnc) (originNode : Option Nat) (innerNodeId : Nat) :
    Except Fault (IndexBTEnc × BTNode) :=
  match s.cache.tryLoad (place innerNodeId), originNode with
  | none, _ => .error .outOfRange
  | some (cache, some cur), _ => .ok ({ s with cache := cache }, cur)
  | some (_, none), none => .error .badPointer
  | some (cache, none), some out =>
      if (s.index.latches out).latchType ≠ .none then .error .spin
      else do
        let newNode ← makeNode s.index out
        let newNode := { newNode with nodeId := innerNodeId }
        match cache.loadAndSwap (place innerNodeId) (getSize s.nodeBytes newNode) newNode with
        | none => throw .outOfRange
        | some (_, none) => throw .spin
        | some (cache, some swap) =>
            let s ← IndexBTEnc.offload { s with cache := cache } swap.swapped
            let s ← s.verify newNode
            pure (s, newNode)

/-- `origin->pointers[i]`, null unless `i <= origin->num_keys`. -/
def originChild (o : BtNode IdxKey Row) (i : Nat) : Option Nat :=
  match o.pointers with
  | .nodes ids => if i ≤ o.keys.length then ids[i]? else none
  | .items _ => none

/-- `load_child` of a child; `none` is a null pointer. -/
def loadChild (s : IndexBTEnc) (curNode : BTNode) (i : Nat) :
    Except Fault (IndexBTEnc × Option BTNode) :=
  match curNode.contents, s.index.nodes curNode.origin with
  | .nodes child, some o =>
      match child[i]? with
      | none => .error .badPointer
      | some innerNodeId =>
          if innerNodeId = 0 then .ok (s, none)
          else (s.loadNode (originChild o i) innerNodeId).map fun (s, n) => (s, some n)
  | _, _ => .error .badPointer

/-- `load_next`. -/
def loadNext (s : IndexBTEnc) (curNode : BTNode) : Except Fault (IndexBTEnc × Option BTNode) :=
  match curNode.contents, s.index.nodes curNode.origin with
  | .items _, some o =>
      match o.next with
      | none => .ok (s, none)
      | some originNode =>
          if curNode.next = 0 then .ok (s, none)
          else (s.loadNode (some originNode) curNode.next).map fun (s, n) => (s, some n)
  | _, _ => .error .badPointer

/-- `dfs`: inner nodes are loaded while half of the cache is free. -/
def dfs : Nat → IndexBTEnc → BTNode → Except Fault IndexBTEnc
  | 0, _, _ => .error .spin
  | fuel + 1, s, c =>
      if s.cache.canForceLoad then
        match c.contents with
        | .items _ => .ok { s with cache := s.cache.release (place c.nodeId) }
        | .nodes _ =>
            (List.range (c.keys.length + 1)).foldlM (fun s i => do
              let (s, ch) ← s.loadChild c i
              match ch with
              | none => throw .badPointer
              | some ch => dfs fuel s ch) s
      else .ok s

/-- `init` and `load_all`; the tree has at most `btree_node_id` levels. -/
def loadAll (index : Index IdxKey Row) (btreeNodeNum siz nodeBytes : Nat) :
    Except Fault IndexBTEnc := do
  let root ← makeNode index index.root
  dfs index.btreeNodeId ⟨index, root, LruCache.init btreeNodeNum 1 siz, fun _ => 0, nodeBytes⟩ root

/-- The loop of `find_leaf` with INDEX_NONE. -/
def findLeaf (key : IdxKey) : Nat → IndexBTEnc → BTNode → Except Fault (IndexBTEnc × BTNode)
  | 0, _, _ => .error .spin
  | fuel + 1, s, c =>
      match c.contents with
      | .items _ => .ok (s, c)
      | .nodes _ => do
          let (s, child) ← s.loadChild c (slot key c.keys)
          match child with
          | none => throw .badPointer
          | some child => findLeaf key fuel s child

/-- `index_read`; `none` is `Abort`. -/
def indexRead (s : IndexBTEnc) (key : IdxKey) : Except Fault (IndexBTEnc × Option (List Row)) := do
  let (s, leaf) ← findLeaf key s.index.btreeNodeId s s.root
  match leaf.contents with
  | .nodes _ => throw .badPointer
  | .items chains => pure (s, (Index.leafHasKey leaf.keys key).bind fun idx => chains[idx]?)

/-- A node is evicted between two operations, as `cache_free` and its caller do it. -/
def evict (s : IndexBTEnc) (id : Nat) : Except Fault IndexBTEnc :=
  match s.cache.cache (place id) with
  | none => .error .notLoaded
  | some node =>
      IndexBTEnc.offload { s with
        cache := { s.cache with
          cache := Function.update s.cache.cache (place id) none
          cachedBytes := wrap64 (s.cache.cachedBytes + 2 ^ 64 - node.size) } }
        (some (place id, node.value))

/-! ### What the parts do -/

@[simp] theorem btHash_eq (keys : List IdxKey) (contents : Pointers Row) :
    btHash keys contents = .ofNat keys.length := rfl

@[simp] theorem copyItems_eq (chains : List (List Row)) : copyItems chains = .ok chains := by
  rw [copyItems, mapM_eq_some fun chain => mapM_eq_some copyRow_eq chain]

/-- The copy of a node. -/
def copyOf (id : Nat) (n : BtNode IdxKey Row) : BTNode :=
  ⟨id, n.keys, n.pointers, n.parent.getD 0, n.next.getD 0, id⟩

theorem makeNode_eq {index : Index IdxKey Row} {out : Nat} {n : BtNode IdxKey Row}
    (hnode : index.nodes out = some n) :
    makeNode index out = if n.keys = [] then .error .badPointer else .ok (copyOf out n) := by
  rw [makeNode, hnode]
  cases hpointers : n.pointers with
  | items chains => simp [copyOf, hpointers, Except.map, bind, Except.bind, throw, throwThe,
      MonadExceptOf.throw]
  | nodes ids => simp [copyOf, hpointers, bind, Except.bind, throw, throwThe, MonadExceptOf.throw]

/-- A leaf goes back as it is, and its number of keys is recorded. -/
theorem flushOut_eq {s : IndexBTEnc} {c : BTNode} {chains : List (List Row)}
    {n : BtNode IdxKey Row} (hcontents : c.contents = .items chains)
    (hnode : s.index.nodes c.origin = some n) :
    s.flushOut c =
      if (s.index.latches c.origin).latchType ≠ .none then .error .spin
      else .ok { s with
        index := s.index.setNode c.origin { n with
          keys := c.keys
          pointers := .items chains }
        verifyHash := Function.update s.verifyHash c.nodeId (.ofNat c.keys.length) } := by
  simp [flushOut, hcontents, hnode]

/-- No assertion on a hash fails when a leaf is flushed out. -/
theorem offload_ne_hashMismatch (s : IndexBTEnc) (swapped : Option (PageId × BTNode)) :
    s.offload swapped ≠ .error .hashMismatch := by
  unfold offload
  split
  · simp
  · rename_i flushed
    cases hcontents : flushed.contents with
    | nodes ids => simp
    | items chains =>
        cases hnode : s.index.nodes flushed.origin with
        | none => simp [flushOut, hcontents, hnode]
        | some n =>
            simp only [flushOut_eq hcontents hnode]
            split <;> simp

/-- The recorded hashes change only for the node that is flushed out. -/
theorem offload_verifyHash {s s' : IndexBTEnc} {swapped : Option (PageId × BTNode)} {id : Nat}
    (h : s.offload swapped = .ok s') (hne : ∀ p c, swapped = some (p, c) → c.nodeId ≠ id) :
    s'.verifyHash id = s.verifyHash id := by
  unfold offload at h
  split at h
  · cases h
    rfl
  · rename_i p flushed
    cases hcontents : flushed.contents with
    | nodes ids =>
        rw [hcontents] at h
        cases h
        rfl
    | items chains =>
        simp only [hcontents] at h
        cases hnode : s.index.nodes flushed.origin with
        | none => simp [flushOut, hcontents, hnode] at h
        | some n =>
            rw [flushOut_eq hcontents hnode] at h
            split at h
            · cases h
            · cases h
              exact Function.update_of_ne (hne p flushed rfl).symm _ _

/-- A load of a node that is not in the cache. -/
theorem loadNode_miss {s : IndexBTEnc} {id out : Nat} {n : BtNode IdxKey Row}
    (hmiss : s.cache.value (place id) = none) (hnode : s.index.nodes out = some n) :
    s.loadNode (some out) id =
      if s.cache.InRange (place id) then
        if (s.index.latches out).latchType ≠ .none then .error .spin
        else if n.keys = [] then .error .badPointer
        else
          match s.cache.loadAndSwap (place id)
              (getSize s.nodeBytes { copyOf out n with nodeId := id })
              { copyOf out n with nodeId := id } with
          | none => .error .outOfRange
          | some (_, none) => .error .spin
          | some (cache, some swap) => do
              let s ← IndexBTEnc.offload { s with cache := cache } swap.swapped
              let s ← s.verify { copyOf out n with nodeId := id }
              pure (s, { copyOf out n with nodeId := id })
      else .error .outOfRange := by
  have hslot : s.cache.cache (place id) = none := by simpa [LruCache.value] using hmiss
  unfold loadNode
  by_cases hrange : s.cache.InRange (place id)
  case neg => simp [LruCache.tryLoad, hrange]
  rw [LruCache.tryLoad, if_pos hrange, if_pos hrange, hslot]
  simp only [makeNode_eq hnode]
  by_cases hlatch : (s.index.latches out).latchType ≠ .none
  · rw [if_pos hlatch, if_pos hlatch]
  · rw [if_neg hlatch, if_neg hlatch]
    by_cases hkeys : n.keys = []
    · rw [if_pos hkeys, if_pos hkeys]
      rfl
    · rw [if_neg hkeys, if_neg hkeys]
      rfl

/-- A load of a node that is in the cache. -/
theorem loadNode_hit {s : IndexBTEnc} {id : Nat} {c : BTNode} (originNode : Option Nat)
    (hhit : s.cache.value (place id) = some c) :
    (∃ cache, s.loadNode originNode id = .ok ({ s with cache := cache }, c) ∧
      ∀ q, cache.value q = s.cache.value q) ∨
    (¬ s.cache.InRange (place id) ∧ s.loadNode originNode id = .error .outOfRange) := by
  unfold loadNode
  cases htry : s.cache.tryLoad (place id) with
  | none =>
      refine Or.inr ⟨fun hrange => ?_, rfl⟩
      obtain ⟨cache, hload, -⟩ := LruCache.tryLoad_eq hrange
      rw [htry] at hload
      cases hload
  | some result =>
      obtain ⟨cache, found⟩ := result
      obtain ⟨rfl, hvalues⟩ := LruCache.tryLoad_values htry
      rw [hhit]
      exact Or.inl ⟨cache, rfl, hvalues⟩

end IndexBTEnc

end VeriTxn
