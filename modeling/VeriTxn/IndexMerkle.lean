import VeriTxn.RoseTree
import VeriTxn.XorFold
import VeriTxn.HashBucket
import VeriTxn.IndexBTree
import Mathlib.Data.List.Pairwise

/-!
# The Merkle hashes of the B+-tree

`index_btree` with `VERI_TYPE` MERKLE_TREE: a node has its own `merkle_hash` and the copies
`child_merkle_hash` of those of its children.  `calculate_hash` computes them all, and
`up_to_root` those above a changed leaf.  `none` is the failed assertion of `bt_node::hash`, a
null pointer followed, or the end of the fuel.
-/

namespace VeriTxn.IndexMerkle

open RoseTree
open Bytes (Byte)
open HashIndex (Row)
open IndexBTree (BtNode Pointers)

/-- `bt_node`, with the hashes. -/
structure Node extends BtNode UInt64 Row where
  merkleHash : UInt64
  childMerkleHash : Nat → UInt64

/-- `index_btree`, with the roots of its partitions. -/
structure Index where
  nodes : Nat → Option Node
  roots : List Nat

def Index.setNode (s : Index) (id : Nat) (n : Node) : Index :=
  { s with nodes := Function.update s.nodes id (some n) }

@[simp] theorem Index.setNode_self (s : Index) (id : Nat) (n : Node) :
    (s.setNode id n).nodes id = some n := Function.update_self ..

theorem Index.setNode_of_ne (s : Index) {a id : Nat} (h : a ≠ id) (n : Node) :
    (s.setNode id n).nodes a = s.nodes a := Function.update_of_ne h ..

@[simp] theorem Index.setNode_setNode (s : Index) (id : Nat) (n n' : Node) :
    (s.setNode id n).setNode id n' = s.setNode id n' := by
  simp only [Index.setNode, Function.update_idem]

/-- The keys' share of `bt_node::hash`. -/
def keysHash (keys : List UInt64) : UInt64 := keys.foldl (fun res key => res ^^^ key) 0

/-- `bt_node::hash` for a leaf. -/
def leafHash (keys : List UInt64) (chains : List (List Row)) : UInt64 :=
  chains.foldl (fun res chain => chain.foldl (fun res row => res ^^^ row.hash) res)
    (keysHash keys ^^^ (UInt32.ofNat keys.length + 1).toUInt64)

/-- The loop of `bt_node::hash` over the children, with its assertion. -/
def hashLoop (s : Index) (childMerkleHash : Nat → UInt64) : Nat → List Nat → UInt64 → Option UInt64
  | _, [], res => some res
  | i, id :: ids, res => do
      let child ← s.nodes id
      if childMerkleHash i = child.merkleHash then
        hashLoop s childMerkleHash (i + 1) ids (res ^^^ childMerkleHash i)
      else none

/-- `bt_node::hash`. -/
def hash (s : Index) (c : Node) : Option UInt64 :=
  match c.pointers with
  | .items chains => some (leafHash c.keys chains)
  | .nodes ids => hashLoop s c.childMerkleHash 0 ids (keysHash c.keys)

/-- The loop of `update_hash`. -/
def copyLoop (s : Index) : Nat → List Nat → (Nat → UInt64) → Option (Nat → UInt64)
  | _, [], childMerkleHash => some childMerkleHash
  | i, id :: ids, childMerkleHash => do
      let child ← s.nodes id
      copyLoop s (i + 1) ids (Function.update childMerkleHash i child.merkleHash)

/-- `update_hash`. -/
def updateHash (c : Nat) (s : Index) : Option Index := do
  let n ← s.nodes c
  let copies ← match n.pointers with
    | .items _ => some n.childMerkleHash
    | .nodes ids => copyLoop s 0 ids n.childMerkleHash
  let n := { n with childMerkleHash := copies }
  let s := s.setNode c n
  let res ← hash s n
  some (s.setNode c { n with merkleHash := res })

/-- `dfs`. -/
def dfs : Nat → Nat → Index → Option Index
  | 0, _, _ => none
  | fuel + 1, c, s => do
      let n ← s.nodes c
      let s ← match n.pointers with
        | .items _ => some s
        | .nodes ids => ids.foldlM (fun s id => dfs fuel id s) s
      updateHash c s

/-- `calculate_hash`. -/
def calculateHash (fuel : Nat) (s : Index) : Option Index :=
  s.roots.foldlM (fun s root => dfs fuel root s) s

/-- `up_to_root`. -/
def upToRoot : Nat → Option Nat → Index → Option Index
  | _, none, s => some s
  | 0, some _, _ => none
  | fuel + 1, some c, s => do
      let s ← updateHash c s
      let n ← s.nodes c
      upToRoot fuel n.parent s

/-! ### The tree of an index -/

/-- Keys and item chains in a leaf, keys in an inner node. -/
abbrev MTree := Tree (List UInt64 × List (List Row)) (List UInt64)

/-- The hash defined recursively from the keys and rows. -/
def treeHash (t : MTree) : UInt64 :=
  t.fold (fun _ data => leafHash data.1 data.2) fun _ keys hashes =>
    hashes.foldl (fun res h => res ^^^ h) (keysHash keys)

/-- The index holds the tree, whose root has this parent. -/
inductive Rep (nodes : Nat → Option Node) : Option Nat → MTree → Prop
  | leaf {id : Nat} {keys : List UInt64} {chains : List (List Row)} {parent : Option Nat} {n : Node} :
      nodes id = some n → n.keys = keys → n.pointers = .items chains → n.parent = parent →
      Rep nodes parent (.leaf id (keys, chains))
  | inner {id : Nat} {keys : List UInt64} {ts : List MTree} {parent : Option Nat} {n : Node} :
      nodes id = some n → n.keys = keys → n.pointers = .nodes (ts.map Tree.id) →
      n.parent = parent → (∀ t ∈ ts, Rep nodes (some id) t) →
      Rep nodes parent (.inner id keys ts)

/-- The trees of the partitions. -/
structure Holds (s : Index) (ts : List MTree) : Prop where
  roots_eq : s.roots = ts.map Tree.id
  rep : ∀ t ∈ ts, Rep s.nodes none t
  nodup : (ts.flatMap Tree.ids).Nodup

/-- Every node below has the hash of its tree, and copies of its children's. -/
inductive Hashed (nodes : Nat → Option Node) : MTree → Prop
  | leaf {id : Nat} {data : List UInt64 × List (List Row)} {n : Node} :
      nodes id = some n → n.merkleHash = treeHash (.leaf id data) → Hashed nodes (.leaf id data)
  | inner {id : Nat} {keys : List UInt64} {ts : List MTree} {n : Node} :
      nodes id = some n → n.merkleHash = treeHash (.inner id keys ts) →
      (∀ i t, ts[i]? = some t → ∃ m, nodes t.id = some m ∧ n.childMerkleHash i = m.merkleHash) →
      (∀ t ∈ ts, Hashed nodes t) → Hashed nodes (.inner id keys ts)

/-! ### One update -/

/-- The children of a node. -/
def children (n : BtNode UInt64 Row) : List Nat :=
  match n.pointers with
  | .items _ => []
  | .nodes ids => ids

/-- The hash that a node should have, by its own content. -/
def localHash (n : Node) : UInt64 :=
  match n.pointers with
  | .items chains => leafHash n.keys chains
  | .nodes ids => (List.range' 0 ids.length).foldl (fun res i => res ^^^ n.childMerkleHash i)
      (keysHash n.keys)

/-- The hashes in one node are up to date. -/
def Fresh (nodes : Nat → Option Node) (a : Nat) : Prop :=
  ∃ n, nodes a = some n ∧ n.merkleHash = localHash n ∧
    ∀ i id, (children n.toBtNode)[i]? = some id →
      ∃ m, nodes id = some m ∧ n.childMerkleHash i = m.merkleHash

/-- Only hashes differ. -/
def SameShape (nodes nodes' : Nat → Option Node) : Prop :=
  ∀ a, (nodes' a).map Node.toBtNode = (nodes a).map Node.toBtNode

theorem copyLoop_spec {s : Index} {ids : List Nat} (hids : ∀ id ∈ ids, ∃ m, s.nodes id = some m)
    (k : Nat) (copies : Nat → UInt64) :
    ∃ copies', copyLoop s k ids copies = some copies' ∧ (∀ j < k, copies' j = copies j) ∧
      ∀ i id, ids[i]? = some id → ∃ m, s.nodes id = some m ∧ copies' (k + i) = m.merkleHash := by
  induction ids generalizing k copies with
  | nil => exact ⟨copies, rfl, fun _ _ => rfl, by simp⟩
  | cons id ids ih =>
      obtain ⟨m, hm⟩ := hids id (List.mem_cons_self ..)
      obtain ⟨copies', hloop, hbefore, hcopied⟩ :=
        ih (fun id' h => hids id' (List.mem_cons_of_mem id h)) (k + 1)
          (Function.update copies k m.merkleHash)
      refine ⟨copies', ?_, fun j hj => ?_, fun i id' hi => ?_⟩
      · rw [copyLoop, hm]
        exact hloop
      · rw [hbefore j (Nat.lt_succ_of_lt hj), Function.update_of_ne (Nat.ne_of_lt hj)]
      · cases i with
        | zero =>
            cases hi
            refine ⟨m, hm, ?_⟩
            rw [Nat.add_zero, hbefore k (Nat.lt_succ_self k), Function.update_self]
        | succ i =>
            obtain ⟨m', hm', heq⟩ := hcopied i id' hi
            exact ⟨m', hm', by rw [← heq, Nat.add_assoc, Nat.add_comm 1 i]⟩

/-- With copies that are up to date the assertion holds. -/
theorem hashLoop_spec {s : Index} {copies : Nat → UInt64} {ids : List Nat} {k : Nat}
    (h : ∀ i id, ids[i]? = some id → ∃ m, s.nodes id = some m ∧ copies (k + i) = m.merkleHash)
    (res : UInt64) :
    hashLoop s copies k ids res =
      some ((List.range' k ids.length).foldl (fun res i => res ^^^ copies i) res) := by
  induction ids generalizing k res with
  | nil => rfl
  | cons id ids ih =>
      obtain ⟨m, hm, heq⟩ := h 0 id rfl
      rw [hashLoop, hm]
      simp only [Option.bind_eq_bind, Option.bind_some]
      rw [Nat.add_zero] at heq
      rw [if_pos heq, ih fun i id' hi => ?_]
      · rw [List.length_cons, List.range'_succ, List.foldl_cons]
      · obtain ⟨m', hm', heq'⟩ := h (i + 1) id' hi
        exact ⟨m', hm', by rw [← heq', Nat.add_assoc, Nat.add_comm 1 i]⟩

/-- What `update_hash` does to the heap: new hashes in one node, and they are right. -/
theorem updateHash_spec {s : Index} {c : Nat} {n : Node} (hn : s.nodes c = some n)
    (hchildren : ∀ id ∈ children n.toBtNode, id ≠ c ∧ ∃ m, s.nodes id = some m) :
    ∃ n', updateHash c s = some (s.setNode c n') ∧ n'.toBtNode = n.toBtNode ∧
      Fresh (s.setNode c n').nodes c := by
  cases hpointers : n.pointers with
  | items chains =>
      refine ⟨{ n with merkleHash := leafHash n.keys chains }, ?_, rfl, _, s.setNode_self .., ?_, ?_⟩
      · simp [updateHash, hn, hpointers, hash]
      · simp [localHash, hpointers]
      · simp [children, hpointers]
  | nodes ids =>
      have hids : ∀ id ∈ ids, id ≠ c ∧ ∃ m, s.nodes id = some m := by
        simpa only [children, hpointers] using hchildren
      obtain ⟨copies, hcopy, -, hcopied⟩ :=
        copyLoop_spec (fun id h => (hids id h).2) 0 n.childMerkleHash
      have hsame : ∀ n', ∀ i id, ids[i]? = some id →
          ∃ m, (s.setNode c n').nodes id = some m ∧ copies (0 + i) = m.merkleHash := by
        intro n' i id hi
        obtain ⟨m, hm, heq⟩ := hcopied i id hi
        have hne : id ≠ c := (hids id (List.mem_of_getElem? hi)).1
        exact ⟨m, by rw [s.setNode_of_ne hne, hm], heq⟩
      have hloop := hashLoop_spec (hsame { n with childMerkleHash := copies }) (keysHash n.keys)
      refine ⟨{ n with
        childMerkleHash := copies
        merkleHash := (List.range' 0 ids.length).foldl (fun res i => res ^^^ copies i)
          (keysHash n.keys) }, ?_, rfl, _, s.setNode_self .., ?_, ?_⟩
      · simp only [updateHash, hn, hpointers, hcopy, hash, hloop, Option.bind_eq_bind,
          Option.bind_some, Index.setNode_setNode]
      · simp [localHash, hpointers]
      · intro i id hi
        rw [children, hpointers] at hi
        obtain ⟨m, hm, heq⟩ := hsame _ i id hi
        exact ⟨m, hm, by rw [← heq, Nat.zero_add]⟩

/-! ### The nodes of a tree -/

/-- A node is judged by itself and by its children's hashes. -/
theorem Fresh.of_hashes {nodes nodes' : Nat → Option Node} {a : Nat} (h : Fresh nodes a)
    (ha : nodes' a = nodes a)
    (hsame : ∀ id m, nodes id = some m → ∃ m', nodes' id = some m' ∧ m'.merkleHash = m.merkleHash) :
    Fresh nodes' a := by
  obtain ⟨n, hn, hown, hcopies⟩ := h
  refine ⟨n, ha.trans hn, hown, fun i id hi => ?_⟩
  obtain ⟨m, hm, heq⟩ := hcopies i id hi
  obtain ⟨m', hm', heq'⟩ := hsame id m hm
  exact ⟨m', hm', heq.trans heq'.symm⟩

theorem Fresh.frame {nodes nodes' : Nat → Option Node} {a : Nat} (h : Fresh nodes a)
    (ha : nodes' a = nodes a)
    (hchildren : ∀ n, nodes a = some n → ∀ id ∈ children n.toBtNode, nodes' id = nodes id) :
    Fresh nodes' a := by
  obtain ⟨n, hn, hown, hcopies⟩ := h
  refine ⟨n, ha.trans hn, hown, fun i id hi => ?_⟩
  obtain ⟨m, hm, heq⟩ := hcopies i id hi
  exact ⟨m, (hchildren n hn id (List.mem_of_getElem? hi)).trans hm, heq⟩

theorem SameShape.node {nodes nodes' : Nat → Option Node} (h : SameShape nodes nodes') {a : Nat}
    {n : Node} (hn : nodes a = some n) :
    ∃ n', nodes' a = some n' ∧ n'.toBtNode = n.toBtNode := by
  have ha := h a
  rw [hn, Option.map_some] at ha
  exact Option.map_eq_some_iff.mp ha

theorem SameShape.trans {nodes nodes' nodes'' : Nat → Option Node} (h : SameShape nodes nodes')
    (h' : SameShape nodes' nodes'') : SameShape nodes nodes'' := fun a => (h' a).trans (h a)

theorem Rep.sameShape {nodes nodes' : Nat → Option Node} {parent : Option Nat} {t : MTree}
    (h : Rep nodes parent t) (hsame : SameShape nodes nodes') : Rep nodes' parent t := by
  induction h with
  | leaf hn hkeys hpointers hparent =>
      obtain ⟨n', hn', heq⟩ := hsame.node hn
      exact .leaf hn' (by rw [heq, hkeys]) (by rw [heq, hpointers]) (by rw [heq, hparent])
  | inner hn hkeys hpointers hparent _ ih =>
      obtain ⟨n', hn', heq⟩ := hsame.node hn
      exact .inner hn' (by rw [heq, hkeys]) (by rw [heq, hpointers]) (by rw [heq, hparent]) ih

/-- The root of a tree, and that its children are the roots of the subtrees. -/
theorem Rep.root {nodes : Nat → Option Node} {parent : Option Nat} {t : MTree}
    (h : Rep nodes parent t) : ∃ n, nodes t.id = some n ∧ n.parent = parent := by
  cases h with
  | leaf hn _ _ hparent => exact ⟨_, hn, hparent⟩
  | inner hn _ _ hparent _ => exact ⟨_, hn, hparent⟩

/-- Children are in the tree, below its root and below their parent. -/
theorem Rep.children {nodes : Nat → Option Node} {parent : Option Nat} {t : MTree}
    (h : Rep nodes parent t) (hnodup : t.ids.Nodup) {a : Nat} (ha : a ∈ t.ids) {n : Node}
    (hn : nodes a = some n) {id : Nat} (hid : id ∈ children n.toBtNode) :
    id ∈ t.ids ∧ id ≠ t.id ∧ id ≠ a ∧ ∃ m, nodes id = some m := by
  induction h generalizing a n with
  | leaf hn' _ hpointers _ =>
      rw [Tree.ids_leaf, List.mem_singleton] at ha
      rw [ha, hn'] at hn
      cases hn
      simp [IndexMerkle.children, hpointers] at hid
  | @inner root keys ts parent n' hn' hkeys hpointers _ hts ih =>
      rw [Tree.ids_inner] at ha hnodup ⊢
      obtain ⟨hroot, hbelow⟩ := List.nodup_cons.mp hnodup
      rcases List.mem_cons.mp ha with rfl | ha
      · rw [hn'] at hn
        cases hn
        rw [IndexMerkle.children, hpointers] at hid
        obtain ⟨t, ht, rfl⟩ := List.mem_map.mp hid
        have hmem : t.id ∈ ts.flatMap Tree.ids := List.mem_flatMap.mpr ⟨t, ht, t.id_mem_ids⟩
        obtain ⟨m, hm, -⟩ := (hts t ht).root
        have hne : t.id ≠ a := fun heq => hroot (heq ▸ hmem)
        exact ⟨List.mem_cons_of_mem _ hmem, hne, hne, m, hm⟩
      · obtain ⟨t, ht, hat⟩ := List.mem_flatMap.mp ha
        obtain ⟨hmem, -, hne, hm⟩ := ih t ht ((List.nodup_flatMap.mp hbelow).1 t ht) hat hn hid
        have hmem' : id ∈ ts.flatMap Tree.ids := List.mem_flatMap.mpr ⟨t, ht, hmem⟩
        have hne' : id ≠ root := fun heq => hroot (heq ▸ hmem')
        exact ⟨List.mem_cons_of_mem _ hmem', hne', hne, hm⟩

/-- The hashes of these nodes, and of no others, were computed, and they are right. -/
structure Recomputed (s s' : Index) (ids : List Nat) : Prop where
  roots_eq : s'.roots = s.roots
  shape : SameShape s.nodes s'.nodes
  others : ∀ a, a ∉ ids → s'.nodes a = s.nodes a
  fresh : ∀ a ∈ ids, Fresh s'.nodes a

/-- `update_hash` at the root completes a tree whose other nodes are up to date. -/
theorem updateHash_root {s : Index} {parent : Option Nat} {t : MTree} (h : Rep s.nodes parent t)
    (hnodup : t.ids.Nodup) (hfresh : ∀ a ∈ t.ids, a ≠ t.id → Fresh s.nodes a) :
    ∃ s', updateHash t.id s = some s' ∧ Recomputed s s' t.ids ∧
      ∀ a, a ≠ t.id → s'.nodes a = s.nodes a := by
  obtain ⟨n, hn, -⟩ := h.root
  obtain ⟨n', hrun, hshape, hroot⟩ := updateHash_spec hn fun id hid => by
    obtain ⟨-, hne, -, hm⟩ := h.children hnodup t.id_mem_ids hn hid
    exact ⟨hne, hm⟩
  have hothers : ∀ a, a ≠ t.id → (s.setNode t.id n').nodes a = s.nodes a :=
    fun a ha => s.setNode_of_ne ha n'
  refine ⟨_, hrun, ⟨rfl, fun a => ?_, fun a ha => ?_, fun a ha => ?_⟩, hothers⟩
  · by_cases heq : a = t.id
    · rw [heq, Index.setNode_self, hn, Option.map_some, Option.map_some, hshape]
    · rw [hothers a heq]
  · exact hothers a fun heq => ha (heq ▸ t.id_mem_ids)
  · by_cases heq : a = t.id
    · rw [heq]
      exact hroot
    · refine (hfresh a ha heq).frame (hothers a heq) fun m hm id hid => ?_
      exact hothers id (h.children hnodup ha hm hid).2.1

/-! ### `calculate_hash` -/

/-- Trees one after the other, when each is computed without touching the others. -/
theorem dfs_list {fuel : Nat} {s : Index} {parent : Option Nat} {ts : List MTree}
    (hrep : ∀ t ∈ ts, Rep s.nodes parent t) (hnodup : (ts.flatMap Tree.ids).Nodup)
    (hdfs : ∀ t ∈ ts, ∀ s : Index, Rep s.nodes parent t →
      ∃ s', dfs fuel t.id s = some s' ∧ Recomputed s s' t.ids) :
    ∃ s', (ts.map Tree.id).foldlM (fun s id => dfs fuel id s) s = some s' ∧
      Recomputed s s' (ts.flatMap Tree.ids) := by
  induction ts generalizing s with
  | nil => exact ⟨s, rfl, rfl, fun _ => rfl, fun _ _ => rfl, by simp⟩
  | cons t ts ih =>
      rw [List.flatMap_cons] at hnodup ⊢
      obtain ⟨hnodup₁, hnodup₂, hdisjoint⟩ := List.nodup_append.mp hnodup
      have ht := List.mem_cons_self (a := t) (l := ts)
      obtain ⟨s₁, hrun₁, h₁⟩ := hdfs t ht s (hrep t ht)
      have hrep₁ : ∀ t' ∈ ts, Rep s₁.nodes parent t' := fun t' ht' =>
        (hrep t' (List.mem_cons_of_mem t ht')).sameShape h₁.shape
      obtain ⟨s', hrun, h₂⟩ :=
        ih hrep₁ hnodup₂ fun t' ht' => hdfs t' (List.mem_cons_of_mem t ht')
      refine ⟨s', ?_, h₂.roots_eq.trans h₁.roots_eq, h₁.shape.trans h₂.shape, fun a ha => ?_,
        fun a ha => ?_⟩
      · rw [List.map_cons, List.foldlM_cons, hrun₁]
        exact hrun
      · rw [List.mem_append, not_or] at ha
        rw [h₂.others a ha.2, h₁.others a ha.1]
      · rcases List.mem_append.mp ha with ha | ha
        · have hkept : ∀ b ∈ t.ids, s'.nodes b = s₁.nodes b := fun b hb =>
            h₂.others b fun hb' => hdisjoint b hb b hb' rfl
          refine (h₁.fresh a ha).frame (hkept a ha) fun n hn id hid => hkept id ?_
          exact (((hrep t ht).sameShape h₁.shape).children hnodup₁ ha hn hid).1
        · exact h₂.fresh a ha

theorem dfs_spec (t : MTree) : ∀ {fuel : Nat} {s : Index} {parent : Option Nat},
    Rep s.nodes parent t → t.ids.Nodup → t.height < fuel →
      ∃ s', dfs fuel t.id s = some s' ∧ Recomputed s s' t.ids := by
  induction t using Tree.induction with
  | leaf id data =>
      intro fuel s parent h hnodup hfuel
      obtain ⟨fuel, rfl⟩ : ∃ k, fuel = k + 1 := ⟨fuel - 1, by omega⟩
      obtain ⟨s', hrun, hrec, -⟩ := updateHash_root h hnodup fun a ha hne =>
        absurd (List.mem_singleton.mp ha) hne
      refine ⟨s', ?_, hrec⟩
      cases h with
      | leaf hn _ hpointers _ =>
          rw [dfs, Tree.id, hn]
          simp only [Option.bind_eq_bind, Option.bind_some, hpointers]
          exact hrun
  | inner id keys ts ih =>
      intro fuel s parent h hnodup hfuel
      obtain ⟨fuel, rfl⟩ : ∃ k, fuel = k + 1 := ⟨fuel - 1, by omega⟩
      obtain ⟨hroot, hbelow⟩ := List.nodup_cons.mp (Tree.ids_inner id keys ts ▸ hnodup)
      have hparts := (List.nodup_flatMap.mp hbelow).1
      cases h with
      | inner hn hkeys hpointers hparent hts =>
          obtain ⟨s₁, hrun₁, h₁⟩ := dfs_list hts hbelow fun t ht s ht' =>
            ih t ht ht' (hparts t ht)
              (Nat.lt_of_lt_of_le (Tree.height_lt ht) (Nat.le_of_lt_succ hfuel))
          have hrep₁ := (Rep.inner hn hkeys hpointers hparent hts).sameShape h₁.shape
          have hbelow₁ : ∀ a ∈ (Tree.inner id keys ts).ids, a ≠ id → Fresh s₁.nodes a := by
            intro a ha hne
            rw [Tree.ids_inner] at ha
            exact h₁.fresh a ((List.mem_cons.mp ha).resolve_left hne)
          obtain ⟨s', hrun, h₂, hothers⟩ := updateHash_root hrep₁ hnodup hbelow₁
          refine ⟨s', ?_, h₂.roots_eq.trans h₁.roots_eq, h₁.shape.trans h₂.shape, fun a ha => ?_,
            h₂.fresh⟩
          · rw [dfs, Tree.id, hn]
            simp only [Option.bind_eq_bind, Option.bind_some, hpointers]
            rw [hrun₁]
            exact hrun
          · rw [h₂.others a ha]
            rw [Tree.ids_inner, List.mem_cons, not_or] at ha
            exact h₁.others a ha.2

theorem calculateHash_spec {fuel : Nat} {s : Index} {ts : List MTree} (h : Holds s ts)
    (hfuel : ∀ t ∈ ts, t.height < fuel) :
    ∃ s', calculateHash fuel s = some s' ∧ Holds s' ts ∧
      ∀ a ∈ ts.flatMap Tree.ids, Fresh s'.nodes a := by
  obtain ⟨s', hrun, hrec⟩ := dfs_list h.rep h.nodup fun t ht s ht' =>
    dfs_spec t ht' ((List.nodup_flatMap.mp h.nodup).1 t ht) (hfuel t ht)
  refine ⟨s', by rw [calculateHash, h.roots_eq, hrun], ⟨?_, fun t ht => ?_, h.nodup⟩, hrec.fresh⟩
  · rw [hrec.roots_eq, h.roots_eq]
  · exact (h.rep t ht).sameShape hrec.shape

/-! ### `up_to_root` -/

theorem upToRoot_root {s : Index} {parent : Option Nat} {t : MTree} (h : Rep s.nodes parent t)
    (hnodup : t.ids.Nodup) (hfresh : ∀ a ∈ t.ids, a ≠ t.id → Fresh s.nodes a) :
    ∃ s', Recomputed s s' t.ids ∧
      ∀ fuel, upToRoot (fuel + 1) (some t.id) s = upToRoot fuel parent s' := by
  obtain ⟨s', hrun, hrec, -⟩ := updateHash_root h hnodup hfresh
  obtain ⟨n, hn, hparent⟩ := (h.sameShape hrec.shape).root
  refine ⟨s', hrec, fun fuel => ?_⟩
  simp only [upToRoot, hrun, hn, hparent, Option.bind_eq_bind, Option.bind_some]

/-- Two subtrees that share a node are the same. -/
theorem eq_of_mem_ids {ts : List MTree} (hnodup : (ts.flatMap Tree.ids).Nodup) {t u : MTree}
    (ht : t ∈ ts) (hu : u ∈ ts) {a : Nat} (hat : a ∈ t.ids) (hau : a ∈ u.ids) : t = u := by
  by_contra hne
  have hpairs := (List.nodup_flatMap.mp hnodup).2
  have : Std.Symm (Function.onFun List.Disjoint (Tree.ids : MTree → List Nat)) :=
    ⟨fun _ _ h => List.Disjoint.symm h⟩
  have hdisjoint := hpairs.forall ht hu hne
  exact hdisjoint hat hau

/-- What is computed in one subtree leaves the others as they were. -/
theorem Recomputed.keeps {s s' : Index} {parent : Option Nat} {ts : List MTree} {u : MTree}
    (h : Recomputed s s' u.ids) (hrep : ∀ t ∈ ts, Rep s.nodes parent t)
    (hnodup : (ts.flatMap Tree.ids).Nodup) (hu : u ∈ ts) {a : Nat} (ha : a ∈ ts.flatMap Tree.ids)
    (hau : a ∉ u.ids) (hfresh : Fresh s.nodes a) : Fresh s'.nodes a := by
  obtain ⟨t, ht, hat⟩ := List.mem_flatMap.mp ha
  refine hfresh.frame (h.others a hau) fun n hn b hb => h.others b fun hbu => hau ?_
  have hbt := ((hrep t ht).children ((List.nodup_flatMap.mp hnodup).1 t ht) hat hn hb).1
  exact eq_of_mem_ids hnodup ht hu hbt hbu ▸ hat

/-- From a node in the tree to the root and on to its parent.  Only the hashes of the node were
    not up to date. -/
theorem climb (t : MTree) : ∀ {s : Index} {parent : Option Nat} {c : Nat},
    Rep s.nodes parent t → t.ids.Nodup → c ∈ t.ids →
    (∀ a ∈ t.ids, a ≠ c → Fresh s.nodes a) →
      ∃ s' k, k ≤ t.height + 1 ∧ Recomputed s s' t.ids ∧
        ∀ fuel, upToRoot (fuel + k) (some c) s = upToRoot fuel parent s' := by
  induction t using Tree.induction with
  | leaf id data =>
      intro s parent c h hnodup hc hfresh
      rw [Tree.ids_leaf, List.mem_singleton] at hc
      obtain ⟨s', hrec, hrun⟩ := upToRoot_root h hnodup fun a ha hne =>
        absurd (List.mem_singleton.mp ha) hne
      exact ⟨s', 1, Nat.le_add_left .., hrec, hc ▸ hrun⟩
  | inner id keys ts ih =>
      intro s parent c h hnodup hc hfresh
      by_cases hroot : c = id
      · obtain ⟨s', hrec, hrun⟩ := upToRoot_root h hnodup fun a ha hne =>
          hfresh a ha (hroot ▸ hne)
        exact ⟨s', 1, Nat.le_add_left .., hrec, hroot ▸ hrun⟩
      rw [Tree.ids_inner] at hc
      obtain ⟨u, hu, hcu⟩ := List.mem_flatMap.mp ((List.mem_cons.mp hc).resolve_left hroot)
      obtain ⟨hid, hbelow⟩ := List.nodup_cons.mp (Tree.ids_inner id keys ts ▸ hnodup)
      have hmem : ∀ t ∈ ts, ∀ a ∈ t.ids, a ∈ (Tree.inner id keys ts).ids := fun t ht a ha => by
        rw [Tree.ids_inner]
        exact List.mem_cons_of_mem _ (List.mem_flatMap.mpr ⟨t, ht, ha⟩)
      have hsub : ∀ t ∈ ts, Rep s.nodes (some id) t := by
        cases h with
        | inner _ _ _ _ hts => exact hts
      obtain ⟨s₁, k, hk, h₁, hrun₁⟩ := ih u hu (hsub u hu) ((List.nodup_flatMap.mp hbelow).1 u hu) hcu
        fun a ha => hfresh a (hmem u hu a ha)
      -- the other subtrees are as they were
      have hfresh₁ : ∀ a ∈ (Tree.inner id keys ts).ids, a ≠ id → Fresh s₁.nodes a := by
        intro a ha hne
        by_cases hau : a ∈ u.ids
        · exact h₁.fresh a hau
        have hac : a ≠ c := fun heq => hau (heq ▸ hcu)
        have hold := hfresh a ha hac
        rw [Tree.ids_inner] at ha
        exact h₁.keeps hsub hbelow hu ((List.mem_cons.mp ha).resolve_left hne) hau hold
      obtain ⟨s', h₂, hrun⟩ := upToRoot_root (h.sameShape h₁.shape) hnodup hfresh₁
      refine ⟨s', k + 1, ?_, ⟨h₂.roots_eq.trans h₁.roots_eq, h₁.shape.trans h₂.shape,
        fun a ha => ?_, h₂.fresh⟩, fun fuel => ?_⟩
      · exact Nat.succ_le_succ (Nat.le_trans hk (Tree.height_lt hu))
      · rw [h₂.others a ha, h₁.others a fun hau => ha (hmem u hu a hau)]
      · rw [Nat.add_comm k 1, ← Nat.add_assoc, hrun₁]
        exact hrun fuel

theorem upToRoot_spec {fuel c : Nat} {s : Index} {ts : List MTree} (h : Holds s ts)
    (hfuel : ∀ t ∈ ts, t.height < fuel) (hc : c ∈ ts.flatMap Tree.ids)
    (hfresh : ∀ a ∈ ts.flatMap Tree.ids, a ≠ c → Fresh s.nodes a) :
    ∃ s', upToRoot fuel (some c) s = some s' ∧ Holds s' ts ∧
      ∀ a ∈ ts.flatMap Tree.ids, Fresh s'.nodes a := by
  obtain ⟨t, ht, hct⟩ := List.mem_flatMap.mp hc
  have hparts := (List.nodup_flatMap.mp h.nodup).1
  have hmem : ∀ u ∈ ts, ∀ a ∈ u.ids, a ∈ ts.flatMap Tree.ids := fun u hu a ha =>
    List.mem_flatMap.mpr ⟨u, hu, ha⟩
  obtain ⟨s', k, hk, hrec, hrun⟩ := climb t (h.rep t ht) (hparts t ht) hct fun a ha =>
    hfresh a (hmem t ht a ha)
  have hle : k ≤ fuel := Nat.le_trans hk (hfuel t ht)
  refine ⟨s', ?_, ⟨hrec.roots_eq.trans h.roots_eq, fun u hu => (h.rep u hu).sameShape hrec.shape,
    h.nodup⟩, fun a ha => ?_⟩
  · have hlast := hrun (fuel - k)
    rw [Nat.sub_add_cancel hle] at hlast
    rw [hlast, upToRoot]
  · by_cases hat : a ∈ t.ids
    · exact hrec.fresh a hat
    have hac : a ≠ c := fun heq => hat (heq ▸ hct)
    exact hrec.keeps h.rep h.nodup ht ha hat (hfresh a ha hac)

/-! ### The hashes of a tree -/

theorem treeHash_inner (id : Nat) (keys : List UInt64) (ts : List MTree) :
    treeHash (.inner id keys ts) =
      (ts.map treeHash).foldl (fun res h => res ^^^ h) (keysHash keys) := by
  rw [treeHash, Tree.fold_inner]
  rfl

theorem foldl_copies {copies : Nat → UInt64} {hashes : List UInt64} {k : Nat}
    (h : ∀ i hash, hashes[i]? = some hash → copies (k + i) = hash) (res : UInt64) :
    (List.range' k hashes.length).foldl (fun res i => res ^^^ copies i) res =
      hashes.foldl (fun res h => res ^^^ h) res := by
  induction hashes generalizing k res with
  | nil => rfl
  | cons hash hashes ih =>
      have hfirst := h 0 hash rfl
      rw [Nat.add_zero] at hfirst
      rw [List.length_cons, List.range'_succ, List.foldl_cons, List.foldl_cons, hfirst]
      refine ih (fun i hash' hi => ?_) _
      rw [← h (i + 1) hash' hi, Nat.add_assoc, Nat.add_comm 1 i]

theorem Hashed.root {nodes : Nat → Option Node} {t : MTree} (h : Hashed nodes t) :
    ∃ n, nodes t.id = some n ∧ n.merkleHash = treeHash t := by
  cases h with
  | leaf hn heq => exact ⟨_, hn, heq⟩
  | inner hn heq _ _ => exact ⟨_, hn, heq⟩

/-- Nodes that are up to date with their children have the hashes of the recursive definition. -/
theorem hashed_of_fresh (t : MTree) : ∀ {nodes : Nat → Option Node} {parent : Option Nat},
    Rep nodes parent t → (∀ a ∈ t.ids, Fresh nodes a) → Hashed nodes t := by
  induction t using Tree.induction with
  | leaf id data =>
      intro nodes parent h hfresh
      obtain ⟨n, hn, hown, -⟩ := hfresh id (List.mem_singleton_self id)
      refine .leaf hn (hown.trans ?_)
      cases h with
      | leaf hn' hkeys hpointers _ =>
          rw [hn] at hn'
          cases hn'
          rw [localHash, hpointers, hkeys]
          rfl
  | inner id keys ts ih =>
      intro nodes parent h hfresh
      rw [Tree.ids_inner] at hfresh
      obtain ⟨n, hn, hown, hcopies⟩ := hfresh id (List.mem_cons_self ..)
      cases h with
      | inner hn' hkeys hpointers _ hts =>
          rw [hn] at hn'
          cases hn'
          have hbelow : ∀ t ∈ ts, Hashed nodes t := fun t ht => ih t ht (hts t ht) fun a ha =>
            hfresh a (List.mem_cons_of_mem _ (List.mem_flatMap.mpr ⟨t, ht, ha⟩))
          have hcopied : ∀ i t, ts[i]? = some t →
              ∃ m, nodes t.id = some m ∧ n.childMerkleHash i = m.merkleHash := by
            intro i t hi
            refine hcopies i t.id ?_
            rw [children, hpointers, List.getElem?_map, hi]
            rfl
          refine .inner hn ?_ hcopied hbelow
          have hlength : (ts.map Tree.id).length = (ts.map treeHash).length := by
            rw [List.length_map, List.length_map]
          rw [hown, localHash, hpointers, hkeys, treeHash_inner]
          simp only [hlength]
          refine foldl_copies (fun i hash hi => ?_) _
          obtain ⟨t, ht, rfl⟩ := Option.map_eq_some_iff.mp (List.getElem?_map ▸ hi)
          obtain ⟨m, hm, heq⟩ := hcopied i t ht
          obtain ⟨m', hm', hhash⟩ := (hbelow t (List.mem_of_getElem? ht)).root
          rw [hm] at hm'
          cases hm'
          rw [Nat.zero_add, heq, hhash]

/-! ### Changes of rows -/

/-- New data in the rows of a leaf, by their key and their place in its chain. -/
def rewrite (write : Nat → Nat → List Byte → List Byte) (chains : List (List Row)) :
    List (List Row) :=
  chains.mapIdx fun i chain => chain.mapIdx fun j row => { row with data := write i j row.data }

/-- A change of row data in one leaf. -/
structure Change where
  leaf : Nat
  write : Nat → Nat → List Byte → List Byte

/-- The rows of the leaf change; then `up_to_root`. -/
def Change.run (fuel : Nat) (ch : Change) (s : Index) : Option Index := do
  let n ← s.nodes ch.leaf
  match n.pointers with
  | .items chains =>
      upToRoot fuel (some ch.leaf)
        (s.setNode ch.leaf { n with pointers := .items (rewrite ch.write chains) })
  | .nodes _ => none

/-- `calculate_hash`, and then the changes. -/
def run (fuel : Nat) (changes : List Change) (s : Index) : Option Index := do
  let s ← calculateHash fuel s
  changes.foldlM (fun s ch => ch.run fuel s) s

/-- The change in the tree. -/
def Change.tree (ch : Change) (t : MTree) : MTree :=
  t.fold
    (fun id data => if id = ch.leaf then .leaf id (data.1, rewrite ch.write data.2) else .leaf id data)
    fun id keys ts => .inner id keys ts

def leaves (t : MTree) : List Nat := t.fold (fun id _ => [id]) fun _ _ idss => idss.flatten

@[simp] theorem Change.tree_inner (ch : Change) (id : Nat) (keys : List UInt64) (ts : List MTree) :
    ch.tree (.inner id keys ts) = .inner id keys (ts.map ch.tree) := by
  rw [Change.tree, Tree.fold_inner]
  rfl

@[simp] theorem Change.tree_id (ch : Change) (t : MTree) : (ch.tree t).id = t.id := by
  cases t with
  | leaf id data =>
      rw [Change.tree, Tree.fold_leaf]
      split <;> rfl
  | inner id keys ts => rw [ch.tree_inner]; rfl

/-- A change leaves the names, and whatever else is a fold that does not look at the rows. -/
theorem Change.fold_tree {α : Type} (ch : Change) {f : Nat → List UInt64 × List (List Row) → α}
    (hf : ∀ id keys chains, f id (keys, rewrite ch.write chains) = f id (keys, chains))
    (g : Nat → List UInt64 → List α → α) (t : MTree) : (ch.tree t).fold f g = t.fold f g := by
  induction t using Tree.induction with
  | leaf id data =>
      rw [Change.tree, Tree.fold_leaf]
      split
      · exact hf id data.1 data.2
      · rfl
  | inner id keys ts ih =>
      rw [ch.tree_inner, Tree.fold_inner, Tree.fold_inner, List.map_map]
      exact congrArg _ (List.map_congr_left ih)

theorem Change.ids_tree (ch : Change) (t : MTree) : (ch.tree t).ids = t.ids :=
  ch.fold_tree (fun _ _ _ => rfl) _ t

theorem Change.height_tree (ch : Change) (t : MTree) : (ch.tree t).height = t.height :=
  ch.fold_tree (fun _ _ _ => rfl) _ t

theorem Change.heights (ch : Change) {ts : List MTree} {fuel : Nat}
    (h : ∀ t ∈ ts, t.height < fuel) : ∀ t ∈ ts.map ch.tree, t.height < fuel := by
  intro t ht
  obtain ⟨u, hu, rfl⟩ := List.mem_map.mp ht
  rw [ch.height_tree]
  exact h u hu

theorem Change.leaves_tree (ch : Change) (t : MTree) : leaves (ch.tree t) = leaves t :=
  ch.fold_tree (fun _ _ _ => rfl) _ t

/-- Writing to the rows of a leaf is the change in the tree. -/
theorem Rep.change {nodes : Nat → Option Node} {parent : Option Nat} {t : MTree}
    (h : Rep nodes parent t) (ch : Change) {n : Node} {chains : List (List Row)}
    (hn : nodes ch.leaf = some n) (hpointers : n.pointers = .items chains) :
    Rep (Function.update nodes ch.leaf
      (some { n with pointers := .items (rewrite ch.write chains) })) parent (ch.tree t) := by
  induction h with
  | @leaf id keys chains' parent n' hn' hkeys hpointers' hparent =>
      rw [Change.tree, Tree.fold_leaf]
      by_cases heq : id = ch.leaf
      · rw [heq, hn] at hn'
        cases hn'
        rw [hpointers] at hpointers'
        cases hpointers'
        rw [if_pos heq, heq]
        exact .leaf (Function.update_self ..) hkeys rfl hparent
      · rw [if_neg heq]
        exact .leaf ((Function.update_of_ne heq ..).trans hn') hkeys hpointers' hparent
  | @inner id keys ts parent n' hn' hkeys hpointers' hparent hts ih =>
      have hne : id ≠ ch.leaf := by
        rintro rfl
        rw [hn] at hn'
        cases hn'
        rw [hpointers] at hpointers'
        cases hpointers'
      rw [ch.tree_inner]
      refine .inner ((Function.update_of_ne hne ..).trans hn') hkeys ?_ hparent ?_
      · rw [hpointers', List.map_map]
        exact congrArg _ (List.map_congr_left fun t _ => (ch.tree_id t).symm)
      · intro t ht
        obtain ⟨u, hu, rfl⟩ := List.mem_map.mp ht
        exact ih u hu

/-- A leaf of the tree is a leaf in the heap, and one of its nodes. -/
theorem Rep.leaf_node {nodes : Nat → Option Node} {parent : Option Nat} {t : MTree}
    (h : Rep nodes parent t) {a : Nat} (ha : a ∈ leaves t) :
    a ∈ t.ids ∧ ∃ n chains, nodes a = some n ∧ n.pointers = .items chains := by
  induction h with
  | leaf hn _ hpointers _ =>
      cases List.mem_singleton.mp ha
      exact ⟨List.mem_singleton_self _, _, _, hn, hpointers⟩
  | @inner id keys ts parent n hn _ _ _ _ ih =>
      rw [leaves, Tree.fold_inner] at ha
      obtain ⟨_, hl, ha⟩ := List.mem_flatten.mp ha
      obtain ⟨t, ht, rfl⟩ := List.mem_map.mp hl
      obtain ⟨hmem, hnode⟩ := ih t ht ha
      rw [Tree.ids_inner]
      exact ⟨List.mem_cons_of_mem _ (List.mem_flatMap.mpr ⟨t, ht, hmem⟩), hnode⟩

/-- The trees of the index after a change, all nodes up to date again. -/
theorem Change.run_spec {fuel : Nat} {s : Index} {ts : List MTree} (h : Holds s ts)
    (hfuel : ∀ t ∈ ts, t.height < fuel) (hfresh : ∀ a ∈ ts.flatMap Tree.ids, Fresh s.nodes a)
    {ch : Change} (hleaf : ch.leaf ∈ ts.flatMap leaves) :
    ∃ s', ch.run fuel s = some s' ∧ Holds s' (ts.map ch.tree) ∧
      ∀ a ∈ (ts.map ch.tree).flatMap Tree.ids, Fresh s'.nodes a := by
  obtain ⟨t, ht, hleaf⟩ := List.mem_flatMap.mp hleaf
  obtain ⟨hids, n, chains, hn, hpointers⟩ := (h.rep t ht).leaf_node hleaf
  have hids' : (ts.map ch.tree).flatMap Tree.ids = ts.flatMap Tree.ids := by
    rw [List.flatMap_map]
    exact congrArg (List.flatMap · ts) (funext ch.ids_tree)
  have hholds : Holds (s.setNode ch.leaf { n with pointers := .items (rewrite ch.write chains) })
      (ts.map ch.tree) := by
    refine ⟨?_, fun t' ht' => ?_, hids' ▸ h.nodup⟩
    · rw [List.map_map]
      exact h.roots_eq.trans (List.map_congr_left fun t _ => (ch.tree_id t).symm)
    · obtain ⟨u, hu, rfl⟩ := List.mem_map.mp ht'
      exact (h.rep u hu).change ch hn hpointers
  have hothers : ∀ a ∈ (ts.map ch.tree).flatMap Tree.ids, a ≠ ch.leaf → Fresh (s.setNode ch.leaf
      { n with pointers := .items (rewrite ch.write chains) }).nodes a := by
    intro a ha hne
    refine (hfresh a (hids' ▸ ha)).of_hashes (s.setNode_of_ne hne _) fun id m hm => ?_
    by_cases heq : id = ch.leaf
    · rw [heq, hn] at hm
      cases hm
      exact ⟨{ n with pointers := .items (rewrite ch.write chains) },
        by rw [heq]; exact s.setNode_self .., rfl⟩
    · exact ⟨m, (s.setNode_of_ne heq _).trans hm, rfl⟩
  have hmem : ch.leaf ∈ (ts.map ch.tree).flatMap Tree.ids := by
    rw [hids']
    exact List.mem_flatMap.mpr ⟨t, ht, hids⟩
  obtain ⟨s', hrun, hholds', hfresh'⟩ := upToRoot_spec hholds (ch.heights hfuel) hmem hothers
  refine ⟨s', ?_, hholds', hfresh'⟩
  simp only [Change.run, hn, hpointers, Option.bind_eq_bind, Option.bind_some]
  exact hrun

/-- The tree after some changes. -/
def after (changes : List Change) (t : MTree) : MTree := changes.foldl (fun t ch => ch.tree t) t

theorem changes_spec {fuel : Nat} (changes : List Change) : ∀ {s : Index} {ts : List MTree},
    Holds s ts → (∀ t ∈ ts, t.height < fuel) → (∀ a ∈ ts.flatMap Tree.ids, Fresh s.nodes a) →
    (∀ ch ∈ changes, ch.leaf ∈ ts.flatMap leaves) →
      ∃ s', changes.foldlM (fun s ch => ch.run fuel s) s = some s' ∧
        Holds s' (ts.map (after changes)) ∧
        ∀ a ∈ (ts.map (after changes)).flatMap Tree.ids, Fresh s'.nodes a := by
  induction changes with
  | nil =>
      intro s ts h _ hfresh _
      have hid : ts.map (after []) = ts := List.map_id' ts
      exact ⟨s, rfl, hid.symm ▸ h, hid.symm ▸ hfresh⟩
  | cons ch changes ih =>
      intro s ts h hfuel hfresh hleaves
      obtain ⟨s₁, hrun₁, h₁, hfresh₁⟩ :=
        ch.run_spec h hfuel hfresh (hleaves ch (List.mem_cons_self ..))
      have hleaves₁ : (ts.map ch.tree).flatMap leaves = ts.flatMap leaves := by
        rw [List.flatMap_map]
        exact congrArg (List.flatMap · ts) (funext ch.leaves_tree)
      obtain ⟨s', hrun, h₂, hfresh₂⟩ := ih h₁ (ch.heights hfuel) hfresh₁ fun ch' hch' =>
        hleaves₁ ▸ hleaves ch' (List.mem_cons_of_mem ch hch')
      rw [List.map_map] at h₂ hfresh₂
      refine ⟨s', ?_, h₂, hfresh₂⟩
      rw [List.foldlM_cons, hrun₁]
      exact hrun

theorem run_spec {fuel : Nat} {s : Index} {ts : List MTree} (h : Holds s ts)
    (hfuel : ∀ t ∈ ts, t.height < fuel) {changes : List Change}
    (hleaves : ∀ ch ∈ changes, ch.leaf ∈ ts.flatMap leaves) :
    ∃ s', run fuel changes s = some s' ∧ Holds s' (ts.map (after changes)) ∧
      ∀ t ∈ ts.map (after changes), Hashed s'.nodes t := by
  obtain ⟨s₁, hrun₁, h₁, hfresh₁⟩ := calculateHash_spec h hfuel
  obtain ⟨s', hrun, h', hfresh⟩ := changes_spec changes h₁ hfuel hfresh₁ hleaves
  refine ⟨s', ?_, h', fun t ht => ?_⟩
  · rw [run, hrun₁]
    exact hrun
  · exact hashed_of_fresh t (h'.rep t ht) fun a ha => hfresh a (List.mem_flatMap.mpr ⟨t, ht, ha⟩)

/-! ### One byte changed -/

/-- The tree without the names of its nodes. -/
def unnamed (t : MTree) : MTree :=
  t.fold (fun _ data => .leaf 0 data) fun _ keys ts => .inner 0 keys ts

/-- One byte differs. -/
def OneByteRow (row row' : Row) : Prop :=
  row'.primaryKey = row.primaryKey ∧ row'.rowId = row.rowId ∧
    ∃ l b b' r, b ≠ b' ∧ row.data = l ++ b :: r ∧ row'.data = l ++ b' :: r

/-- One byte of one row differs, and nothing else. -/
inductive OneByte : MTree → MTree → Prop
  | leaf {id : Nat} {keys : List UInt64} {l r : List (List Row)} {p q : List Row} {row row' : Row} :
      OneByteRow row row' →
      OneByte (.leaf id (keys, l ++ (p ++ row :: q) :: r))
        (.leaf id (keys, l ++ (p ++ row' :: q) :: r))
  | inner {id : Nat} {keys : List UInt64} {l r : List MTree} {t t' : MTree} :
      OneByte t t' → OneByte (.inner id keys (l ++ t :: r)) (.inner id keys (l ++ t' :: r))

theorem treeHash_unnamed (t : MTree) : treeHash (unnamed t) = treeHash t := by
  induction t using Tree.induction with
  | leaf id data => rfl
  | inner id keys ts ih =>
      have hunnamed : unnamed (.inner id keys ts) = .inner 0 keys (ts.map unnamed) := by
        rw [unnamed, Tree.fold_inner]
        rfl
      rw [hunnamed, treeHash_inner, treeHash_inner, List.map_map]
      exact congrArg (List.foldl _ _) (List.map_congr_left ih)

theorem OneByteRow.hash_ne {row row' : Row} (h : OneByteRow row row') : row.hash ≠ row'.hash := by
  obtain ⟨hkey, hid, l, b, b', r, hne, hdata, hdata'⟩ := h
  intro heq
  rw [Row.hash, Row.hash, hkey, hid, hdata, hdata',
    XorFold.foldl_xor_middle_eq_iff (fun val : Byte => val.toUInt64)] at heq
  exact hne (UInt8.toNat_inj.mp (by simpa using congrArg UInt64.toNat heq))

/-- The chain's share of a leaf's hash. -/
def chainHash (chain : List Row) : UInt64 := chain.foldl (fun res row => res ^^^ row.hash) 0

theorem leafHash_eq (keys : List UInt64) (chains : List (List Row)) :
    leafHash keys chains = chains.foldl (fun res chain => res ^^^ chainHash chain)
      (keysHash keys ^^^ (UInt32.ofNat keys.length + 1).toUInt64) := by
  have hchain :
      (fun (res : UInt64) chain => List.foldl (fun res row => res ^^^ Row.hash row) res chain) =
        fun res chain => res ^^^ chainHash chain := by
    funext res chain
    exact XorFold.foldl_xor Row.hash res chain
  rw [leafHash, hchain]

/-- The exclusive or carries the change of one row to the root. -/
theorem OneByte.treeHash_ne {t t' : MTree} (h : OneByte t t') : treeHash t ≠ treeHash t' := by
  induction h with
  | @leaf id keys l r p q row row' hrow =>
      intro heq
      simp only [treeHash, Tree.fold_leaf, leafHash_eq] at heq
      rw [XorFold.foldl_xor_middle_eq_iff, chainHash, chainHash,
        XorFold.foldl_xor_middle_eq_iff] at heq
      exact hrow.hash_ne heq
  | @inner id keys l r t t' _ ih =>
      intro heq
      rw [treeHash_inner, treeHash_inner, List.map_append, List.map_append, List.map_cons,
        List.map_cons, XorFold.foldl_xor_middle_eq_iff (fun h : UInt64 => h)] at heq
      exact ih heq

/-- After `calculate_hash` and any changes of row data, each followed by `up_to_root`, no assertion
    has failed, every node has the hash of the tree below it and a copy of each child's, and an
    index whose tree differs in one byte of one row has another hash at its root. -/
theorem merkle_maintained {fuel : Nat} {s : Index} {ts : List MTree} (h : Holds s ts)
    (hfuel : ∀ t ∈ ts, t.height < fuel) {changes : List Change}
    (hleaves : ∀ ch ∈ changes, ch.leaf ∈ ts.flatMap leaves) :
    ∃ s', run fuel changes s = some s' ∧ Holds s' (ts.map (after changes)) ∧
      (∀ t ∈ ts.map (after changes), Hashed s'.nodes t) ∧
      ∀ {fuel₂ : Nat} {s₂ : Index} {ts₂ : List MTree}, Holds s₂ ts₂ →
        (∀ t ∈ ts₂, t.height < fuel₂) → ∀ {changes₂ : List Change},
        (∀ ch ∈ changes₂, ch.leaf ∈ ts₂.flatMap leaves) →
        ∃ s₂', run fuel₂ changes₂ s₂ = some s₂' ∧
          ∀ t ∈ ts.map (after changes), ∀ t₂ ∈ ts₂.map (after changes₂),
            OneByte (unnamed t) (unnamed t₂) →
            ∃ root root₂, s'.nodes t.id = some root ∧ s₂'.nodes t₂.id = some root₂ ∧
              root.merkleHash ≠ root₂.merkleHash := by
  obtain ⟨s', hrun, h', hhashed⟩ := run_spec h hfuel hleaves
  refine ⟨s', hrun, h', hhashed, ?_⟩
  intro fuel₂ s₂ ts₂ h₂ hfuel₂ changes₂ hleaves₂
  obtain ⟨s₂', hrun₂, -, hhashed₂⟩ := run_spec h₂ hfuel₂ hleaves₂
  refine ⟨s₂', hrun₂, fun t ht t₂ ht₂ hone => ?_⟩
  obtain ⟨root, hroot, heq⟩ := (hhashed t ht).root
  obtain ⟨root₂, hroot₂, heq₂⟩ := (hhashed₂ t₂ ht₂).root
  refine ⟨root, root₂, hroot, hroot₂, ?_⟩
  rw [heq, heq₂, ← treeHash_unnamed t, ← treeHash_unnamed t₂]
  exact hone.treeHash_ne

/-- A root and two leaves with one row each. -/
def small : Index where
  nodes
    | 1 => some ⟨⟨[20], .nodes [2, 3], none, none⟩, 0, fun _ => 0⟩
    | 2 => some ⟨⟨[10], .items [[⟨10, 1, [7, 8]⟩]], some 1, some 3⟩, 0, fun _ => 0⟩
    | 3 => some ⟨⟨[20], .items [[⟨20, 2, [9]⟩]], some 1, none⟩, 0, fun _ => 0⟩
    | _ => none
  roots := [1]

def smallTree : MTree :=
  .inner 1 [20] [.leaf 2 ([10], [[⟨10, 1, [7, 8]⟩]]), .leaf 3 ([20], [[⟨20, 2, [9]⟩]])]

theorem small_holds : Holds small [smallTree] where
  roots_eq := rfl
  rep t ht := by
    rw [List.mem_singleton.mp ht]
    refine .inner rfl rfl rfl rfl fun u hu => ?_
    simp only [List.mem_cons, List.not_mem_nil, or_false] at hu
    rcases hu with rfl | rfl
    · exact .leaf rfl rfl rfl rfl
    · exact .leaf rfl rfl rfl rfl
  nodup := by decide

def sixth : Change := ⟨2, fun _ _ data => data.set 0 6⟩

/-- The first byte of the first row becomes 6, and the root's hash another one. -/
theorem merkle_maintained_small :
    ∃ s s' root root', run 2 [] small = some s ∧ run 2 [sixth] small = some s' ∧
      s.nodes 1 = some root ∧ s'.nodes 1 = some root' ∧ root.merkleHash ≠ root'.merkleHash := by
  have hfuel : ∀ t ∈ [smallTree], t.height < 2 := by
    intro t ht
    rw [List.mem_singleton.mp ht]
    decide
  have hleaves : ∀ ch ∈ [sixth], ch.leaf ∈ [smallTree].flatMap leaves := by
    intro ch hch
    rw [List.mem_singleton.mp hch]
    decide
  obtain ⟨s, hrun, -, -, hother⟩ :=
    @merkle_maintained 2 small [smallTree] small_holds hfuel [] (by simp)
  obtain ⟨s', hrun', hroots⟩ := hother small_holds hfuel hleaves
  have hone : OneByte (unnamed (after [] smallTree)) (unnamed (after [sixth] smallTree)) :=
    OneByte.inner (l := []) (OneByte.leaf (l := []) (p := [])
      ⟨rfl, rfl, [], 7, 6, [8], by decide, rfl, rfl⟩)
  obtain ⟨root, root', hroot, hroot', hne⟩ := hroots (after [] smallTree) (by simp)
    (after [sixth] smallTree) (by simp) hone
  exact ⟨s, s', root, root', hrun, hrun', hroot, hroot', hne⟩

end VeriTxn.IndexMerkle
