import VeriTxn.IndexBTEncCoherence
import VeriTxn.LeafTampering
import VeriTxn.PinCounts

/-!
# Pins of a transaction on the verified B+-tree

An `index_read` pins every node on its way to the leaf, and `cleanup` calls `release_up_cache` for
every access of the transaction.  `release_up_cache` releases a node twice, because it comes to it
by a load; it comes to the leaf without one, and it does so for accesses only, of which a refused
`get_row` has none.
-/

namespace VeriTxn

open Bytes BPlusTree IndexBTree HashIndex Transition

namespace IndexBTEnc

/-- `load_child` of the parent, number -1.  A miss follows the null `origin_node`. -/
def loadParent (s : IndexBTEnc) (c : BTNode) : Except Fault (IndexBTEnc × Option BTNode) :=
  if c.parent = s.root.nodeId then .ok (s, some s.root)
  else if c.parent = 0 then .ok (s, none)
  else
    match s.cache.tryLoad (place c.parent) with
    | none => .error .outOfRange
    | some (cache, some cur) => .ok ({ s with cache := cache }, some cur)
    | some (_, none) => .error .badPointer

/-- The body of the loop of `release_up_cache`, where `first` is false from the start, and whether
    a count goes below zero in it. -/
def releaseNode (s : IndexBTEnc) (c : BTNode) : IndexBTEnc × Bool :=
  if c.nodeId = s.root.nodeId then (s, false)
  else
    let cache := s.cache.release (place c.nodeId)
    ({ s with cache := cache.release (place c.nodeId) },
      s.cache.wraps (place c.nodeId) || cache.wraps (place c.nodeId))

/-- `release_up_cache`. -/
def releaseUpCache : Nat → IndexBTEnc → BTNode → Except Fault (IndexBTEnc × Bool)
  | 0, _, _ => .error .spin
  | fuel + 1, s, c => do
      let (s, wrapped) := s.releaseNode c
      let (s, parent) ← s.loadParent c
      match parent with
      | none => pure (s, wrapped)
      | some parent =>
          let (s, wrapped') ← releaseUpCache fuel s parent
          pure (s, wrapped || wrapped')

/-- The loop of `cleanup` over the pages of the accesses. -/
def cleanup : IndexBTEnc → List BTNode → Except Fault (IndexBTEnc × Bool)
  | s, [] => .ok (s, false)
  | s, page :: pages => do
      let (s, wrapped) ← releaseUpCache (s.index.btreeNodeId + 1) s page
      let (s, wrapped') ← cleanup s pages
      pure (s, wrapped || wrapped')

/-- `index_read` of a key, with `from_page` of the row it gives; without the key the null item is
    followed. -/
def readPage (s : IndexBTEnc) (key : IdxKey) : Except Fault (IndexBTEnc × BTNode) := do
  let (s, leaf) ← findLeaf key s.index.btreeNodeId s s.root
  if (Index.leafHasKey leaf.keys key).isSome then pure (s, leaf) else throw .badPointer

/-- The `index_read`s of a transaction. -/
def readPages : IndexBTEnc → List IdxKey → Except Fault (IndexBTEnc × List BTNode)
  | s, [] => .ok (s, [])
  | s, key :: keys => do
      let (s, page) ← s.readPage key
      let (s, pages) ← readPages s keys
      pure (s, page :: pages)

/-! ### Loads -/

theorem flushOut_cache {s s' : IndexBTEnc} {c : BTNode} (h : s.flushOut c = .ok s') :
    s'.cache = s.cache := by
  unfold flushOut at h
  split at h
  · split at h
    · cases h
    · simp only [copyItems_eq, ok_bind] at h
      split at h
      · cases h
        rfl
      · cases h
  · cases h

theorem offload_cache {s s' : IndexBTEnc} {swapped : Option (PageId × BTNode)}
    (h : s.offload swapped = .ok s') : s'.cache = s.cache := by
  unfold offload at h
  split at h
  · cases h
    rfl
  · split at h
    · exact flushOut_cache h
    · cases h
      rfl

theorem verify_cache {s s' : IndexBTEnc} {n : BTNode} (h : s.verify n = .ok s') :
    s'.cache = s.cache := by
  unfold verify at h
  split at h
  · cases h
    rfl
  · split at h
    · cases h
      rfl
    · split at h
      · cases h
        rfl
      · cases h

/-- A load pins its node. -/
theorem loadNode_pinned {s s' : IndexBTEnc} {origin : Option Nat} {id : Nat} {n : BTNode}
    (h : s.loadNode origin id = .ok (s', n)) : LruCache.Pinned s.cache s'.cache (place id) := by
  unfold loadNode at h
  split at h
  · cases h
  · rename_i cache cur hload
    cases h
    exact LruCache.tryLoad_pinned hload
  · cases h
  · rename_i cache out hload
    obtain ⟨hmiss, hsame⟩ : s.cache.cache (place id) = none ∧ cache = s.cache := by
      unfold LruCache.tryLoad at hload
      split at hload
      · cases hslot : s.cache.cache (place id) with
        | none =>
            rw [hslot] at hload
            cases hload
            exact ⟨rfl, rfl⟩
        | some node =>
            rw [hslot] at hload
            cases hload
      · cases hload
    have hrange : s.cache.InRange (place id) := by
      unfold LruCache.tryLoad at hload
      split at hload
      · assumption
      · cases hload
    subst hsame
    split at h
    · cases h
    · obtain ⟨newNode, -, h⟩ := bind_eq_ok h
      dsimp only at h
      split at h
      · cases h
      · cases h
      · rename_i cache swap hswap
        obtain ⟨s₁, hoff, h⟩ := bind_eq_ok h
        obtain ⟨s₂, hverify, h⟩ := bind_eq_ok h
        cases h
        rw [verify_cache hverify, offload_cache hoff]
        exact LruCache.loadAndSwap_pinned hrange hmiss hswap

theorem loadChild_pinned {s s' : IndexBTEnc} {c : BTNode} {i id : Nat} {ids : List Nat}
    {child : Option BTNode} (hcontents : c.contents = .nodes ids) (hid : ids[i]? = some id)
    (hpos : id ≠ 0) (h : s.loadChild c i = .ok (s', child)) :
    LruCache.Pinned s.cache s'.cache (place id) := by
  rw [IndexBTEnc.loadChild, hcontents] at h
  cases ho : s.index.nodes c.origin with
  | none =>
      rw [ho] at h
      cases h
  | some o =>
      rw [ho] at h
      simp only [hid, if_neg hpos] at h
      cases hload : s.loadNode (originChild o i) id with
      | error f =>
          rw [hload] at h
          cases h
      | ok r =>
          obtain ⟨s₁, n⟩ := r
          rw [hload] at h
          cases h
          exact loadNode_pinned hload

/-! ### The way to a leaf and back -/

section Ways

variable {base : Index IdxKey Row} {btreeNodeNum siz nodeBytes : Nat}
  {stored : IdxKey → List Row} {s s' : IndexBTEnc}

/-- The nodes above `id` up to the root, which is not one of them. -/
def Ascends (base : Index IdxKey Row) : Nat → List Nat → Prop
  | id, [] => ∃ n, base.nodes id = some n ∧ n.parent = some base.root
  | id, p :: above => (∃ n, base.nodes id = some n ∧ n.parent = some p) ∧
      Under base base.root p ∧ p ≠ base.root ∧ ¬ IsLeaf base p ∧ Ascends base p above

/-- There is one way up. -/
theorem Ascends.unique {id : Nat} {above above' : List Nat} (h : Ascends base id above)
    (h' : Ascends base id above') : above = above' := by
  induction above generalizing id above' with
  | nil =>
      obtain ⟨n, hn, hparent⟩ := h
      cases above' with
      | nil => rfl
      | cons p above' =>
          obtain ⟨⟨n', hn', hparent'⟩, -, hne, -⟩ := h'
          rw [hn] at hn'
          cases hn'
          rw [hparent] at hparent'
          exact absurd (Option.some.inj hparent').symm hne
  | cons p above ih =>
      obtain ⟨⟨n, hn, hparent⟩, -, hne, -, hup⟩ := h
      cases above' with
      | nil =>
          obtain ⟨n', hn', hparent'⟩ := h'
          rw [hn] at hn'
          cases hn'
          rw [hparent] at hparent'
          exact absurd (Option.some.inj hparent') hne
      | cons p' above' =>
          obtain ⟨⟨n', hn', hparent'⟩, -, -, -, hup'⟩ := h'
          rw [hn] at hn'
          cases hn'
          rw [hparent] at hparent'
          cases hparent'
          rw [ih hup hup']

theorem Ascends.inner {id : Nat} {above : List Nat} (h : Ascends base id above) :
    ∀ p ∈ above, ¬ IsLeaf base p := by
  induction above generalizing id with
  | nil => simp
  | cons q above ih =>
      obtain ⟨-, -, -, hinner, hup⟩ := h
      intro p hp
      rcases List.mem_cons.mp hp with rfl | hp
      · exact hinner
      · exact ih hup p hp

/-- The leaf of a key and the nodes above it, from a node with the nodes `above` it. -/
def ascend (key : IdxKey) : (d : Nat) → Tree IdxKey (List Row) d → List Nat → List Nat
  | 0, t, above => Tree.id 0 t :: above
  | d + 1, t, above => ascend key d (route key (Branch.first t) (Branch.rest t))
      (Tree.id (d + 1) t :: above)

/-- The nodes that a search pins: the leaf and the nodes above it without the root. -/
def trail (key : IdxKey) : (d : Nat) → Tree IdxKey (List Row) d → List Nat
  | 0, _ => []
  | d + 1, t => ascend key d (route key (Branch.first t) (Branch.rest t)) []

/-- The child that a search takes. -/
theorem route_below (tree : StaticTree base) {d : Nat} {parent succ : Option Nat}
    {t : Tree IdxKey (List Row) (d + 1)} (hrep : Rep base.nodes (d + 1) parent succ t)
    (hunder : Under base base.root (t.id (d + 1))) (key : IdxKey) :
    ∃ n ids succ', base.nodes (t.id (d + 1)) = some n ∧ n.pointers = .nodes ids ∧
      ids[slot key n.keys]? = some ((route key (Branch.first t) (Branch.rest t)).id d) ∧
      Rep base.nodes d (some (t.id (d + 1))) succ' (route key (Branch.first t) (Branch.rest t)) ∧
      Under base base.root ((route key (Branch.first t) (Branch.rest t)).id d) ∧
      (route key (Branch.first t) (Branch.rest t)).id d ≠ base.root := by
  obtain ⟨n, ids, succ', hn, hids, hslot, hroute⟩ := Index.Rep.onRoute hrep key
  have hchild : Child base (t.id (d + 1)) ((route key (Branch.first t) (Branch.rest t)).id d) :=
    ⟨n, ids, hn, hids, List.mem_of_getElem? hslot⟩
  exact ⟨n, ids, succ', hn, hids, hslot, hroute, hunder.tail hchild,
    tree.below _ _ hunder hchild⟩

theorem ascend_spec (tree : StaticTree base) (key : IdxKey) : ∀ {d : Nat}
    {parent succ : Option Nat} {t : Tree IdxKey (List Row) d} {above : List Nat},
      Rep base.nodes d parent succ t → Under base base.root (t.id d) → t.id d ≠ base.root →
      Ascends base (t.id d) above →
      ∃ up, ascend key d t above = (t.leafOf key d).id :: up ∧
        Ascends base (t.leafOf key d).id up ∧ up.length = above.length + d ∧
        (t.leafOf key d).id ≠ base.root ∧ IsLeaf base (t.leafOf key d).id ∧
        Under base base.root (t.leafOf key d).id
  | 0, _, _, t, above, hrep, hunder, hroot, hup =>
      ⟨above, rfl, hup, rfl, hroot, ⟨_, _, hrep, rfl⟩, hunder⟩
  | d + 1, _, _, t, above, hrep, hunder, hroot, hup => by
      obtain ⟨n, ids, succ', hn, hids, -, hroute, hbelow, hne⟩ := route_below tree hrep hunder key
      obtain ⟨child, hchild, hparent⟩ := hroute.root
      have hinner : ¬ IsLeaf base (t.id (d + 1)) := by
        rintro ⟨n', chains, hn', hchains⟩
        rw [hn] at hn'
        cases hn'
        rw [hids] at hchains
        cases hchains
      have hup₁ : Ascends base ((route key (Branch.first t) (Branch.rest t)).id d)
          (t.id (d + 1) :: above) := ⟨⟨child, hchild, hparent⟩, hunder, hroot, hinner, hup⟩
      obtain ⟨up, heq, hup', hlen, hrest⟩ := ascend_spec tree key hroute hbelow hne hup₁
      refine ⟨up, heq, hup', ?_, hrest⟩
      rw [hlen, List.length_cons]
      omega

/-- The search from the root. -/
theorem trail_spec (tree : StaticTree base) {d : Nat} {t : Tree IdxKey (List Row) (d + 1)}
    (hbase : base.Represents t) (key : IdxKey) :
    ∃ up, trail key (d + 1) t = (t.leafOf key (d + 1)).id :: up ∧
      Ascends base (t.leafOf key (d + 1)).id up ∧ up.length = d ∧
      (t.leafOf key (d + 1)).id ≠ base.root ∧ IsLeaf base (t.leafOf key (d + 1)).id ∧
      Under base base.root (t.leafOf key (d + 1)).id := by
  have hunder : Under base base.root (t.id (d + 1)) := hbase.root ▸ Relation.ReflTransGen.refl
  obtain ⟨n, ids, succ', hn, hids, -, hroute, hbelow, hne⟩ := route_below tree hbase.rep hunder key
  obtain ⟨child, hchild, hparent⟩ := hroute.root
  have hup₁ : Ascends base ((route key (Branch.first t) (Branch.rest t)).id d) [] :=
    ⟨child, hchild, hparent.trans (congrArg some hbase.root.symm)⟩
  obtain ⟨up, heq, hup, hlen, hrest⟩ := ascend_spec tree key hroute hbelow hne hup₁
  refine ⟨up, heq, hup, ?_, hrest⟩
  rw [hlen]
  exact Nat.zero_add d

theorem length_trail (tree : StaticTree base) {d : Nat} {t : Tree IdxKey (List Row) d}
    (hbase : base.Represents t) (key : IdxKey) : (trail key d t).length = d := by
  cases d with
  | zero => rfl
  | succ d =>
      obtain ⟨up, htrail, -, hlen, -⟩ := trail_spec tree hbase key
      rw [htrail, List.length_cons, hlen]

/-- A search goes from an inner node to the child of the key, which it pins. -/
theorem Coherent.findLeaf_below (tree : StaticTree base) {key : IdxKey} {d fuel : Nat}
    {parent succ : Option Nat} {t : Tree IdxKey (List Row) (d + 1)} {n : BtNode IdxKey Row}
    {r : IndexBTEnc × BTNode} (h : Coherent base btreeNodeNum siz nodeBytes stored none s)
    (hrep : Rep base.nodes (d + 1) parent succ t) (hunder : Under base base.root (t.id (d + 1)))
    (hn : base.nodes (t.id (d + 1)) = some n)
    (hfind : IndexBTEnc.findLeaf key fuel s (copyOf (t.id (d + 1)) (current stored n)) = .ok r) :
    ∃ s₁ child fuel', Coherent base btreeNodeNum siz nodeBytes stored none s₁ ∧
      base.nodes ((route key (Branch.first t) (Branch.rest t)).id d) = some child ∧
      LruCache.Pinned s.cache s₁.cache
        (place ((route key (Branch.first t) (Branch.rest t)).id d)) ∧
      IndexBTEnc.findLeaf key fuel' s₁
        (copyOf ((route key (Branch.first t) (Branch.rest t)).id d) (current stored child)) =
          .ok r := by
  obtain ⟨n', ids, succ', hn', hids, hslot, hroute, hbelow, hne⟩ := route_below tree hrep hunder key
  rw [hn] at hn'
  cases hn'
  obtain ⟨child, hchild, -⟩ := hroute.root
  cases fuel with
  | zero => cases hfind
  | succ fuel =>
      have hload := h.loadChild tree hunder hn hids hslot hchild
      have hcontents : (copyOf (t.id (d + 1)) (current stored n)).contents = .nodes ids := by
        rw [current_nodes hids]
        exact hids
      have hkeys : (copyOf (t.id (d + 1)) (current stored n)).keys = n.keys :=
        current_keys stored n
      rw [IndexBTEnc.findLeaf] at hfind
      simp only [hcontents, hkeys] at hfind
      obtain ⟨⟨s₁, c⟩, hok, hfind⟩ := bind_eq_ok hfind
      rw [hok] at hload
      obtain ⟨hs₁, rfl⟩ := hload
      have hpos : (route key (Branch.first t) (Branch.rest t)).id d ≠ 0 :=
        Nat.pos_iff_ne_zero.mp (tree.bound _ hbelow).1
      exact ⟨s₁, child, fuel, hs₁, hchild, loadChild_pinned hcontents hslot hpos hok, hfind⟩

/-- The search below a node that is pinned pins the rest of the way. -/
theorem Coherent.findLeaf_loaded (tree : StaticTree base) (key : IdxKey)
    {c₀ : LruCache BTNode} {loaded : List PageId} : ∀ {d fuel : Nat} {s : IndexBTEnc}
    {parent succ : Option Nat} {t : Tree IdxKey (List Row) d} {n : BtNode IdxKey Row}
    {above : List Nat} {r : IndexBTEnc × BTNode},
      Coherent base btreeNodeNum siz nodeBytes stored none s →
      Rep base.nodes d parent succ t → Under base base.root (t.id d) →
      base.nodes (t.id d) = some n →
      LruCache.Loaded c₀ s.cache (loaded ++ (t.id d :: above).reverse.map place) →
      c₀.timestamp + loaded.length + above.length + 1 + d < 2 ^ 64 →
      IndexBTEnc.findLeaf key fuel s (copyOf (t.id d) (current stored n)) = .ok r →
      LruCache.Loaded c₀ r.1.cache (loaded ++ (ascend key d t above).reverse.map place)
  | 0, fuel, s, _, _, t, n, above, r, h, hrep, _, hn, hloaded, _, hfind => by
      have hnode : base.nodes (t.id 0) = _ := hrep
      rw [hnode] at hn
      cases hn
      rw [current_items rfl] at hfind
      cases fuel with
      | zero => cases hfind
      | succ fuel =>
          cases hfind
          exact hloaded
  | d + 1, fuel, s, _, _, t, n, above, r, h, hrep, hunder, hn, hloaded, hclock, hfind => by
      obtain ⟨s₁, child, fuel', hs₁, hchild, hpin, hrest⟩ :=
        h.findLeaf_below tree hrep hunder hn hfind
      obtain ⟨-, -, succ', -, -, -, hroute, hbelow, -⟩ := route_below tree hrep hunder key
      have hsnoc := hloaded.snoc hpin (by simp; omega)
      rw [List.append_assoc, ← List.map_singleton, ← List.map_append, ← List.reverse_cons] at hsnoc
      have hclock' : c₀.timestamp + loaded.length + (t.id (d + 1) :: above).length + 1 + d <
          2 ^ 64 := by
        rw [List.length_cons]
        omega
      have hmain := Coherent.findLeaf_loaded tree key hs₁ hroute hbelow hchild hsnoc hclock' hrest
      exact hmain

/-- A search pins the nodes of its way. -/
theorem Coherent.readPage_loaded (tree : StaticTree base) {d : Nat}
    {t : Tree IdxKey (List Row) d} (hbase : base.Represents t) {key : IdxKey}
    {c₀ : LruCache BTNode} {loaded : List PageId} {page : BTNode}
    (h : Coherent base btreeNodeNum siz nodeBytes stored none s)
    (hloaded : LruCache.Loaded c₀ s.cache loaded)
    (hclock : c₀.timestamp + loaded.length + d < 2 ^ 64)
    (hread : s.readPage key = .ok (s', page)) :
    Coherent base btreeNodeNum siz nodeBytes stored none s' ∧
      (∃ leaf, base.nodes (t.leafOf key d).id = some leaf ∧
        page = copyOf (t.leafOf key d).id (current stored leaf)) ∧
      LruCache.Loaded c₀ s'.cache (loaded ++ (trail key d t).reverse.map place) := by
  obtain ⟨n, hn, hroot⟩ := h.root
  have hunder : Under base base.root (t.id d) := hbase.root ▸ Relation.ReflTransGen.refl
  have hn' : base.nodes (t.id d) = some n := by
    rw [← hbase.root]
    exact hn
  have hroot' : s.root = copyOf (t.id d) (current stored n) := by
    rw [← hbase.root]
    exact hroot
  have hdepth : d < s.index.btreeNodeId := h.count ▸ hbase.depth_lt
  obtain ⟨⟨s₁, leaf⟩, hfind, hread⟩ := bind_eq_ok hread
  rw [hroot'] at hfind
  have hspec := h.findLeaf tree key hbase.rep hunder hn' hdepth
  rw [hfind] at hspec
  dsimp only at hread
  split at hread
  · cases hread
    refine ⟨hspec.1, hspec.2, ?_⟩
    cases d with
    | zero =>
        have hnode : base.nodes (t.id 0) = _ := hbase.rep
        rw [hnode] at hn'
        cases hn'
        rw [current_items rfl] at hfind
        cases hfuel : s.index.btreeNodeId with
        | zero => omega
        | succ fuel =>
            rw [hfuel] at hfind
            cases hfind
            simpa [trail] using hloaded
    | succ d =>
        obtain ⟨s₁, child, fuel', hs₁, hchild, hpin, hrest⟩ :=
          h.findLeaf_below tree hbase.rep hunder hn' hfind
        obtain ⟨-, -, succ', -, -, -, hroute, hbelow, -⟩ := route_below tree hbase.rep hunder key
        have hsnoc := hloaded.snoc hpin (by omega)
        have hclock' : c₀.timestamp + loaded.length + ([] : List Nat).length + 1 + d < 2 ^ 64 := by
          rw [List.length_nil]
          omega
        exact Coherent.findLeaf_loaded tree key hs₁ hroute hbelow hchild hsnoc hclock' hrest
  · cases hread

/-- The copy of the leaf of a key. -/
def leafCopy (base : Index IdxKey Row) (stored : IdxKey → List Row) {d : Nat}
    (t : Tree IdxKey (List Row) d) (key : IdxKey) : BTNode :=
  copyOf (t.leafOf key d).id
    (current stored ((base.nodes (t.leafOf key d).id).getD ⟨[], .items [], none, none⟩))

/-- The reads of a transaction. -/
theorem Coherent.readPages_loaded (tree : StaticTree base) {d : Nat}
    {t : Tree IdxKey (List Row) d} (hbase : base.Represents t) {c₀ : LruCache BTNode} :
    ∀ {keys : List IdxKey} {loaded : List PageId} {pages : List BTNode} {s s' : IndexBTEnc},
      Coherent base btreeNodeNum siz nodeBytes stored none s →
      LruCache.Loaded c₀ s.cache loaded →
      c₀.timestamp + loaded.length + keys.length * d < 2 ^ 64 →
      s.readPages keys = .ok (s', pages) →
      Coherent base btreeNodeNum siz nodeBytes stored none s' ∧
        pages = keys.map (leafCopy base stored t) ∧
        LruCache.Loaded c₀ s'.cache
          (loaded ++ keys.flatMap fun key => (trail key d t).reverse.map place)
  | [], loaded, pages, s, s', h, hloaded, _, hread => by
      cases hread
      exact ⟨h, rfl, by simpa using hloaded⟩
  | key :: keys, loaded, pages, s, s', h, hloaded, hclock, hread => by
      obtain ⟨⟨s₁, page⟩, hpage, hread⟩ := bind_eq_ok hread
      obtain ⟨⟨s₂, rest⟩, hrest, hread⟩ := bind_eq_ok hread
      cases hread
      rw [List.length_cons, Nat.add_mul, Nat.one_mul] at hclock
      obtain ⟨hs₁, ⟨leaf, hleaf, rfl⟩, hloaded₁⟩ :=
        h.readPage_loaded tree hbase hloaded (by omega) hpage
      have hlen : ((trail key d t).reverse.map place).length = d := by
        rw [List.length_map, List.length_reverse, length_trail tree hbase]
      have hclock₁ : c₀.timestamp + (loaded ++ (trail key d t).reverse.map place).length +
          keys.length * d < 2 ^ 64 := by
        rw [List.length_append, hlen]
        omega
      obtain ⟨hs₂, hpages, hloaded₂⟩ :=
        Coherent.readPages_loaded tree hbase hs₁ hloaded₁ hclock₁ hrest
      refine ⟨hs₂, ?_, ?_⟩
      · rw [List.map_cons, hpages, leafCopy, hleaf]
        rfl
      · rw [List.flatMap_cons, ← List.append_assoc]
        exact hloaded₂

/-! ### The way up -/

theorem current_parent (stored : IdxKey → List Row) (n : BtNode IdxKey Row) :
    (current stored n).parent = n.parent := by
  unfold current
  split <;> rfl

/-- `release_up_cache` after the body of its first round. -/
def releaseAbove (fuel : Nat) (s : IndexBTEnc) (c : BTNode) : Except Fault (IndexBTEnc × Bool) := do
  let (s, parent) ← s.loadParent c
  match parent with
  | none => pure (s, false)
  | some parent => releaseUpCache fuel s parent

theorem releaseUpCache_succ (fuel : Nat) (s : IndexBTEnc) (c : BTNode) :
    releaseUpCache (fuel + 1) s c = (releaseAbove fuel (s.releaseNode c).1 c).map fun r =>
      (r.1, (s.releaseNode c).2 || r.2) := by
  rw [releaseUpCache, releaseAbove]
  obtain ⟨s₁, wrapped⟩ := s.releaseNode c
  simp only
  cases hload : s₁.loadParent c with
  | error f => rfl
  | ok r =>
      obtain ⟨s₂, parent⟩ := r
      simp only [ok_bind]
      cases parent with
      | none => simp [Except.map, pure, Except.pure]
      | some parent =>
          simp only
          cases releaseUpCache fuel s₂ parent with
          | error f => rfl
          | ok r => rfl

theorem Coherent.root_nodeId (h : Coherent base btreeNodeNum siz nodeBytes stored none s) :
    s.root.nodeId = base.root := by
  obtain ⟨n, -, hroot⟩ := h.root
  rw [hroot]
  rfl

/-- Two releases of a node below the root. -/
theorem Coherent.releaseNode (h : Coherent base btreeNodeNum siz nodeBytes stored none s) {c : BTNode}
    (hroot : c.nodeId ≠ base.root) :
    s.releaseNode c = ({ s with
      cache := (s.cache.release (place c.nodeId)).release (place c.nodeId) },
      s.cache.wraps (place c.nodeId) || (s.cache.release (place c.nodeId)).wraps (place c.nodeId)) ∧
    Coherent base btreeNodeNum siz nodeBytes stored none { s with
      cache := (s.cache.release (place c.nodeId)).release (place c.nodeId) } := by
  constructor
  · rw [IndexBTEnc.releaseNode, h.root_nodeId, if_neg hroot]
  · refine h.cache (fun q => ?_) fun hroom => ((h.room hroom).release _).release _
    rw [LruCache.value_release, LruCache.value_release]

/-- At the root the way up ends. -/
theorem Coherent.releaseAbove_root (tree : StaticTree base)
    (hparent : ∀ n, base.nodes base.root = some n → n.parent = none)
    (h : Coherent base btreeNodeNum siz nodeBytes stored none s) (fuel : Nat) :
    releaseAbove fuel s s.root = .ok (s, false) := by
  obtain ⟨n, hn, hroot⟩ := h.root
  have hzero : s.root.parent = 0 := by
    rw [hroot, copyOf, current_parent, hparent n hn]
    rfl
  have hpos : base.root ≠ 0 :=
    Nat.pos_iff_ne_zero.mp (tree.bound _ Relation.ReflTransGen.refl).1
  rw [releaseAbove, IndexBTEnc.loadParent, hzero, h.root_nodeId, if_neg hpos.symm, if_pos rfl]
  rfl

theorem Coherent.releaseUpCache_root (tree : StaticTree base)
    (hparent : ∀ n, base.nodes base.root = some n → n.parent = none)
    (h : Coherent base btreeNodeNum siz nodeBytes stored none s) (fuel : Nat) :
    releaseUpCache (fuel + 1) s s.root = .ok (s, false) := by
  have hnode : s.releaseNode s.root = (s, false) := by
    rw [IndexBTEnc.releaseNode, if_pos rfl]
  rw [releaseUpCache_succ, hnode, h.releaseAbove_root tree hparent]
  rfl

/-- Every node above is loaded and released twice. -/
theorem Coherent.releaseAbove (tree : StaticTree base)
    (hparent : ∀ n, base.nodes base.root = some n → n.parent = none) {c₁ : LruCache BTNode}
    {twice : List PageId} : ∀ {above : List Nat} {id fuel : Nat} {n : BtNode IdxKey Row}
    {s : IndexBTEnc} {once : List PageId} {wrapped : Bool},
      Coherent base btreeNodeNum siz nodeBytes stored none s → base.nodes id = some n →
      Ascends base id above → above.length < fuel →
      (∀ p ∈ above, c₁.InRange (place p) ∧ (c₁.value (place p)).isSome) →
      LruCache.Unloaded c₁ s.cache twice once wrapped →
      ∃ s' wrapped', IndexBTEnc.releaseAbove fuel s (copyOf id (current stored n)) =
          .ok (s', wrapped') ∧ Coherent base btreeNodeNum siz nodeBytes stored none s' ∧
        LruCache.Unloaded c₁ s'.cache twice (once ++ above.map place) (wrapped || wrapped')
  | [], id, fuel, n, s, once, wrapped, h, hn, hup, hfuel, _, hun => by
      obtain ⟨fuel, rfl⟩ := Nat.exists_eq_succ_of_ne_zero (by omega : fuel ≠ 0)
      obtain ⟨n', hn', hparent'⟩ := hup
      rw [hn] at hn'
      cases hn'
      have hroot : (copyOf id (current stored n)).parent = base.root := by
        rw [copyOf, current_parent, hparent']
        rfl
      refine ⟨s, false, ?_, h, by simpa using hun⟩
      rw [IndexBTEnc.releaseAbove, IndexBTEnc.loadParent, hroot, if_pos h.root_nodeId.symm]
      exact h.releaseUpCache_root tree hparent fuel
  | p :: above, id, fuel, n, s, once, wrapped, h, hn, hup, hfuel, hin, hun => by
      obtain ⟨fuel, rfl⟩ := Nat.exists_eq_succ_of_ne_zero (by omega : fuel ≠ 0)
      obtain ⟨⟨n', hn', hparent'⟩, hunder, hroot, -, hup⟩ := hup
      rw [hn] at hn'
      cases hn'
      have hid : (copyOf id (current stored n)).parent = p := by
        rw [copyOf, current_parent, hparent']
        rfl
      have hpos : p ≠ 0 := Nat.pos_iff_ne_zero.mp (tree.bound p hunder).1
      obtain ⟨hrange, hsome⟩ := hin p (List.mem_cons_self ..)
      have hrange' : s.cache.InRange (place p) := by
        rw [LruCache.InRange, hun.params.1, hun.params.2]
        exact hrange
      obtain ⟨c, hvalue⟩ := Option.isSome_iff_exists.mp hsome
      rw [← hun.value] at hvalue
      obtain ⟨id', np, hplace, -, -, hnp, rfl⟩ := h.loaded _ c hvalue
      cases place_injective hplace
      obtain ⟨cache, hload, hothers⟩ := LruCache.tryLoad_hit hrange' hvalue
      have hvalues := (LruCache.tryLoad_values hload).2
      have h₁ := h.cache hvalues fun hroom => (h.room hroom).tryLoad hload
      have hne : (copyOf p (current stored np)).nodeId ≠ base.root := hroot
      obtain ⟨hnode, h₂⟩ := h₁.releaseNode hne
      have hun₂ := hun.once (LruCache.tryLoad_pinned hload) hvalues hothers
      have hfuel' : above.length < fuel := by
        rw [List.length_cons] at hfuel
        omega
      obtain ⟨s', wrapped', hrest, h', hun'⟩ := Coherent.releaseAbove tree hparent h₂ hnp hup hfuel'
        (fun q hq => hin q (List.mem_cons_of_mem _ hq)) hun₂
      refine ⟨s', (cache.wraps (place p) || (cache.release (place p)).wraps (place p)) || wrapped',
        ?_, h', ?_⟩
      · rw [IndexBTEnc.releaseAbove, IndexBTEnc.loadParent, hid, h.root_nodeId, if_neg hroot,
          if_neg hpos, hload]
        simp only [ok_bind]
        rw [releaseUpCache_succ, hnode, hrest]
        rfl
      · rw [List.map_cons, List.append_cons, ← Bool.or_assoc]
        exact hun'

/-- `release_up_cache` of a leaf below the root. -/
theorem Coherent.releaseUpCache (tree : StaticTree base)
    (hparent : ∀ n, base.nodes base.root = some n → n.parent = none) {c₁ : LruCache BTNode}
    {twice once : List PageId} {wrapped : Bool} {leaf fuel : Nat} {above : List Nat}
    {n : BtNode IdxKey Row} (h : Coherent base btreeNodeNum siz nodeBytes stored none s)
    (hn : base.nodes leaf = some n) (hroot : leaf ≠ base.root) (hup : Ascends base leaf above)
    (hfuel : above.length < fuel)
    (hin : ∀ p ∈ leaf :: above, c₁.InRange (place p) ∧ (c₁.value (place p)).isSome)
    (hout : place leaf ∉ once) (hun : LruCache.Unloaded c₁ s.cache twice once wrapped) :
    ∃ s' wrapped', IndexBTEnc.releaseUpCache (fuel + 1) s (copyOf leaf (current stored n)) =
        .ok (s', wrapped') ∧ Coherent base btreeNodeNum siz nodeBytes stored none s' ∧
      LruCache.Unloaded c₁ s'.cache (twice ++ [place leaf]) (once ++ above.map place)
        (wrapped || wrapped') := by
  have hne : (copyOf leaf (current stored n)).nodeId ≠ base.root := hroot
  obtain ⟨hnode, h₁⟩ := h.releaseNode hne
  have hsome : (s.cache.cache (place leaf)).isSome := by
    have hvalue := (hin leaf (List.mem_cons_self ..)).2
    rwa [← hun.value, LruCache.value, Option.isSome_map] at hvalue
  have hun₁ := hun.twice hsome hout
  obtain ⟨s', wrapped', hrest, h', hun'⟩ := h₁.releaseAbove tree hparent hn hup hfuel
    (fun p hp => hin p (List.mem_cons_of_mem _ hp)) hun₁
  refine ⟨s', (s.cache.wraps (place leaf) || (s.cache.release (place leaf)).wraps (place leaf)) ||
    wrapped', ?_, h', ?_⟩
  · rw [releaseUpCache_succ, hnode, hrest]
    rfl
  · rw [← Bool.or_assoc]
    exact hun'

/-- The loop of `cleanup` over leaves below the root. -/
theorem Coherent.cleanup (tree : StaticTree base) {d : Nat} {t : Tree IdxKey (List Row) (d + 1)}
    (hbase : base.Represents t) {c₁ : LruCache BTNode} :
    ∀ {keys : List IdxKey} {twice once : List PageId} {wrapped : Bool} {s : IndexBTEnc},
      Coherent base btreeNodeNum siz nodeBytes stored none s →
      (∀ key ∈ keys, ∀ p ∈ trail key (d + 1) t,
        c₁.InRange (place p) ∧ (c₁.value (place p)).isSome) →
      (∀ p, IsLeaf base p → place p ∉ once) →
      LruCache.Unloaded c₁ s.cache twice once wrapped →
      ∃ s' wrapped', s.cleanup (keys.map (leafCopy base stored t)) = .ok (s', wrapped') ∧
        LruCache.Unloaded c₁ s'.cache
          (twice ++ keys.map fun key => place (t.leafOf key (d + 1)).id)
          (once ++ keys.flatMap fun key => (trail key (d + 1) t).tail.map place)
          (wrapped || wrapped')
  | [], twice, once, wrapped, s, h, _, _, hun => ⟨s, false, rfl, by simpa using hun⟩
  | key :: keys, twice, once, wrapped, s, h, hin, hout, hun => by
      have hparent : ∀ n, base.nodes base.root = some n → n.parent = none := by
        intro n hn
        obtain ⟨n', hn', hparent⟩ := hbase.rep.root
        rw [← hbase.root, hn] at hn'
        cases hn'
        exact hparent
      obtain ⟨up, htrail, hup, hlen, hroot, hleaf, -⟩ := trail_spec tree hbase key
      obtain ⟨n, chains, hn, hitems⟩ := hleaf
      have hfuel : up.length < s.index.btreeNodeId := by
        rw [h.count, hlen]
        exact Nat.lt_of_succ_lt hbase.depth_lt
      have hin₁ := hin key (List.mem_cons_self ..)
      rw [htrail] at hin₁
      obtain ⟨s₁, wrapped₁, hrelease, h₁, hun₁⟩ := h.releaseUpCache tree hparent hn hroot hup hfuel
        hin₁ (hout _ ⟨n, chains, hn, hitems⟩) hun
      have hout₁ : ∀ p, IsLeaf base p → place p ∉ once ++ up.map place := by
        intro p hp hmem
        rcases List.mem_append.mp hmem with hmem | hmem
        · exact hout p hp hmem
        · obtain ⟨q, hq, hplace⟩ := List.mem_map.mp hmem
          cases place_injective hplace
          exact hup.inner p hq hp
      obtain ⟨s', wrapped', hrest, hun'⟩ := Coherent.cleanup tree hbase h₁
        (fun key' hkey' => hin key' (List.mem_cons_of_mem _ hkey')) hout₁ hun₁
      refine ⟨s', wrapped₁ || wrapped', ?_, ?_⟩
      · rw [List.map_cons, IndexBTEnc.cleanup, leafCopy, hn, Option.getD_some, hrelease]
        simp only [ok_bind]
        rw [hrest]
        rfl
      · rw [List.map_cons, List.flatMap_cons, List.append_cons, ← List.append_assoc, htrail,
          List.tail_cons, ← Bool.or_assoc]
        exact hun'

end Ways

/-! ### The balance -/

/-- Every node in the cache has as many pins as before. -/
def Balanced (s s' : IndexBTEnc) : Prop :=
  ∀ id node, s'.cache.cache (place id) = some node → node.readCnt = s.cache.pins (place id)

/-- One access and a refused one on the same leaf, a child of the root. -/
def Paired (index : Index IdxKey Row) (s : IndexBTEnc) (granted : List IdxKey)
    (refused : Option IdxKey) : Prop :=
  ∃ k k' leaf n, granted = [k] ∧ refused = some k' ∧
    Index.findLeafNone k index.btreeNodeId index index.root = some leaf ∧
    Index.findLeafNone k' index.btreeNodeId index index.root = some leaf ∧
    index.nodes leaf = some n ∧ n.parent = some index.root ∧ s.cache.pins (place leaf) + 2 < 2 ^ 64

theorem findLeafNone_eq {base : Index IdxKey Row} (key : IdxKey) : ∀ {d fuel : Nat}
    {parent succ : Option Nat} {t : Tree IdxKey (List Row) d}, Rep base.nodes d parent succ t →
      d < fuel → Index.findLeafNone key fuel base (t.id d) = some (t.leafOf key d).id
  | 0, fuel, _, _, t, hrep, hfuel => by
      obtain ⟨fuel, rfl⟩ := Nat.exists_eq_succ_of_ne_zero (by omega : fuel ≠ 0)
      have hnode : base.nodes (t.id 0) = _ := hrep
      rw [Index.findLeafNone]
      simp only [hnode, Option.bind_eq_bind, Option.bind_some]
      rfl
  | d + 1, fuel, _, _, t, hrep, hfuel => by
      obtain ⟨fuel, rfl⟩ := Nat.exists_eq_succ_of_ne_zero (by omega : fuel ≠ 0)
      obtain ⟨n, ids, succ', hn, hids, hslot, hroute⟩ := Index.Rep.onRoute hrep key
      have hn' : base.nodes (t.id (d + 1)) = some n := hn
      rw [Index.findLeafNone]
      simp only [hn', hids, hslot, Option.bind_eq_bind, Option.bind_some]
      exact findLeafNone_eq key hroute (by omega)

/-- A list of images in another order is a list of images. -/
theorem exists_perm_map {α β : Type} {f : α → β} {l : List α} {m : List β}
    (h : m.Perm (l.map f)) : ∃ l' : List α, l'.Perm l ∧ l'.map f = m := by
  induction m generalizing l with
  | nil =>
      have hnil : l = [] := List.map_eq_nil_iff.mp h.symm.eq_nil
      exact ⟨[], hnil ▸ List.Perm.refl _, rfl⟩
  | cons b m ih =>
      obtain ⟨a, ha, rfl⟩ := List.mem_map.mp (h.subset (List.mem_cons_self ..))
      obtain ⟨front, back, rfl⟩ := List.append_of_mem ha
      have hrest : m.Perm ((front ++ back).map f) := by
        refine List.Perm.cons_inv (a := f a) (h.trans ?_)
        rw [← List.map_cons]
        exact (List.perm_middle).map f
      obtain ⟨l', hl', rfl⟩ := ih hrest
      exact ⟨a :: l', (hl'.cons a).trans List.perm_middle.symm, rfl⟩

section Balance

variable {index : Index IdxKey Row} {btreeNodeNum siz nodeBytes : Nat}
  {stored : IdxKey → List Row} {s s₁ s' : IndexBTEnc} {d : Nat}

/-- In a tree of one leaf no page is pinned. -/
theorem Coherent.cleanup_leaf (tree : StaticTree index) {t : Tree IdxKey (List Row) 0}
    (hbase : index.Represents t) (h : Coherent index btreeNodeNum siz nodeBytes stored none s)
    (keys : List IdxKey) : s.cleanup (keys.map (leafCopy index stored t)) = .ok (s, false) := by
  obtain ⟨n, hn, hroot⟩ := h.root
  have hnode : index.nodes (t.id 0) = _ := hbase.rep
  rw [← hbase.root, hn] at hnode
  have hparent : ∀ n, index.nodes index.root = some n → n.parent = none := by
    intro n' hn'
    rw [hn] at hn'
    cases hn'
    cases hnode
    rfl
  have hpage : ∀ key, leafCopy index stored t key = s.root := by
    intro key
    have hid : (t.leafOf key 0).id = index.root := hbase.root.symm
    rw [leafCopy, hid, hn, hroot]
    rfl
  induction keys with
  | nil => rfl
  | cons key keys ih =>
      rw [List.map_cons, IndexBTEnc.cleanup, hpage, h.releaseUpCache_root tree hparent]
      simp only [ok_bind]
      rw [ih]
      rfl

/-- How often a leaf is loaded. -/
theorem count_loaded (tree : StaticTree index) {t : Tree IdxKey (List Row) (d + 1)}
    (hbase : index.Represents t) {leaf : Nat} (hleaf : IsLeaf index leaf) (keys : List IdxKey) :
    (keys.flatMap fun key => (trail key (d + 1) t).reverse.map place).count (place leaf) =
      (keys.map fun key => place (t.leafOf key (d + 1)).id).count (place leaf) := by
  induction keys with
  | nil => rfl
  | cons key keys ih =>
      obtain ⟨up, htrail, hup, -⟩ := trail_spec tree hbase key
      have hout : place leaf ∉ up.reverse.map place := by
        intro hmem
        obtain ⟨p, hp, hplace⟩ := List.mem_map.mp hmem
        cases place_injective hplace
        exact hup.inner leaf (List.mem_reverse.mp hp) hleaf
      rw [List.flatMap_cons, List.count_append, ih, htrail, List.reverse_cons, List.map_append,
        List.count_append, List.count_eq_zero_of_not_mem hout, Nat.zero_add, List.map_singleton,
        List.count_singleton, List.map_cons, List.count_cons, Nat.add_comm]

/-- Leaves are not above other leaves. -/
theorem leaf_not_above (tree : StaticTree index) {t : Tree IdxKey (List Row) (d + 1)}
    (hbase : index.Represents t) {leaf : Nat} (hleaf : IsLeaf index leaf) (keys : List IdxKey) :
    place leaf ∉ keys.flatMap fun key => (trail key (d + 1) t).tail.map place := by
  intro hmem
  obtain ⟨key, -, hmem⟩ := List.mem_flatMap.mp hmem
  obtain ⟨up, htrail, hup, -⟩ := trail_spec tree hbase key
  rw [htrail, List.tail_cons] at hmem
  obtain ⟨p, hp, hplace⟩ := List.mem_map.mp hmem
  cases place_injective hplace
  exact hup.inner leaf hp hleaf

/-- The nodes that the reads pinned are still there after `cleanup`. -/
theorem isSome_of_loaded {c₀ c₁ c' : LruCache BTNode} {loaded twice once : List PageId}
    {wrapped : Bool} (hl : LruCache.Loaded c₀ c₁ loaded)
    (hun : LruCache.Unloaded c₁ c' twice once wrapped) {p : PageId} (hp : p ∈ loaded) :
    (c'.cache p).isSome := by
  obtain ⟨node, hnode, -⟩ := hl.kept p hp
  rw [LruCache.isSome_of_value (hun.value p), hnode]
  rfl

theorem Balanced.pins_eq (h : Balanced s s') {id : Nat} (hsome : (s'.cache.cache (place id)).isSome) :
    s'.cache.pins (place id) = s.cache.pins (place id) := by
  obtain ⟨node, hnode⟩ := Option.isSome_iff_exists.mp hsome
  rw [LruCache.pins_of_some hnode]
  exact h id node hnode

/-- A balanced leaf has at least two loads for every release. -/
theorem Balanced.two_loads {loaded twice once : List PageId} (h : Balanced s s')
    (hl : LruCache.Loaded s.cache s₁.cache loaded)
    (hun : LruCache.Unloaded s₁.cache s'.cache twice once false) {leaf : Nat}
    (hin : place leaf ∈ loaded) (hout : place leaf ∉ once) :
    2 * twice.count (place leaf) ≤ loaded.count (place leaf) := by
  have hsome := isSome_of_loaded hl hun hin
  have hexact := hun.exact rfl _ hsome hout
  have hsame := h.pins_eq hsome
  obtain ⟨b, hb, hcount⟩ := hl.counts _ hin
  have hle : s₁.cache.pins (place leaf) ≤ b + loaded.count (place leaf) := by
    rw [hcount]
    exact Nat.mod_le _ _
  omega

/-- What is loaded first and is not a leaf is not balanced after a refused read. -/
theorem not_balanced_above {loaded twice once : List PageId} {wrapped : Bool}
    (hl : LruCache.Loaded s.cache s₁.cache loaded)
    (hun : LruCache.Unloaded s₁.cache s'.cache twice once wrapped) {p m : Nat}
    (hfirst : loaded.head? = some (place p)) (htwice : place p ∉ twice)
    (hcount : loaded.count (place p) = once.count (place p) + m) (hpos : 0 < m)
    (hlt : m < 2 ^ 64) : ¬ Balanced s s' := by
  intro h
  have hin : place p ∈ loaded := List.mem_of_mem_head? hfirst
  have hsome := isSome_of_loaded hl hun hin
  have hsame := h.pins_eq hsome
  have hpins := hl.first _ hfirst
  have hafter := hun.counts _ hsome
  rw [List.count_eq_zero_of_not_mem htwice, hsame, hpins, hcount] at hafter
  simp only [wrap64] at hafter
  omega

theorem count_flatMap_const {α β : Type} [BEq β] {f : α → List β} {c : List β} {l : List α}
    (h : ∀ a ∈ l, f a = c) (x : β) : (l.flatMap f).count x = l.length * c.count x := by
  induction l with
  | nil => simp
  | cons a l ih =>
      rw [List.flatMap_cons, List.count_append, h a (List.mem_cons_self ..),
        ih fun b hb => h b (List.mem_cons_of_mem _ hb), List.length_cons, Nat.add_mul, Nat.one_mul,
        Nat.add_comm]

/-- What the reads and `cleanup` do to the counts in a tree of more than one node. -/
theorem Coherent.transaction (tree : StaticTree index) {t : Tree IdxKey (List Row) (d + 1)}
    (hbase : index.Represents t) (h : Coherent index btreeNodeNum siz nodeBytes stored none s)
    {granted : List IdxKey} {refused : Option IdxKey}
    (hstamped : s.cache.Stamped ((granted ++ refused.toList).length * index.btreeNodeId))
    {pages : List BTNode} (hread : s.readPages (granted ++ refused.toList) = .ok (s₁, pages))
    {order : List BTNode} (horder : order.Perm (pages.take granted.length)) :
    ∃ (s' : IndexBTEnc) (wrapped : Bool) (ks : List IdxKey), ks.Perm granted ∧
      s₁.cleanup order = .ok (s', wrapped) ∧
      LruCache.Loaded s.cache s₁.cache
        ((granted ++ refused.toList).flatMap fun key => (trail key (d + 1) t).reverse.map place) ∧
      LruCache.Unloaded s₁.cache s'.cache (ks.map fun key => place (t.leafOf key (d + 1)).id)
        (ks.flatMap fun key => (trail key (d + 1) t).tail.map place) wrapped := by
  have hclock : s.cache.timestamp + ([] : List PageId).length +
      (granted ++ refused.toList).length * (d + 1) < 2 ^ 64 := by
    have hle : (granted ++ refused.toList).length * (d + 1) ≤
        (granted ++ refused.toList).length * index.btreeNodeId :=
      Nat.mul_le_mul_left _ (Nat.le_of_lt hbase.depth_lt)
    have hlt := hstamped.clock
    rw [List.length_nil]
    omega
  obtain ⟨h₁, rfl, hl⟩ := h.readPages_loaded tree hbase hstamped.loaded hclock hread
  rw [List.nil_append] at hl
  rw [List.map_append, List.take_left' (List.length_map _)] at horder
  obtain ⟨ks, hks, rfl⟩ := exists_perm_map horder
  have hin : ∀ key ∈ ks, ∀ p ∈ trail key (d + 1) t,
      s₁.cache.InRange (place p) ∧ (s₁.cache.value (place p)).isSome := by
    intro key hkey p hp
    have hmem : place p ∈ (granted ++ refused.toList).flatMap fun key =>
        (trail key (d + 1) t).reverse.map place :=
      List.mem_flatMap.mpr ⟨key, List.mem_append_left _ (hks.subset hkey),
        List.mem_map_of_mem (List.mem_reverse.mpr hp)⟩
    obtain ⟨node, hnode, -⟩ := hl.kept _ hmem
    exact ⟨hl.range _ hmem, by rw [LruCache.value, hnode]; rfl⟩
  obtain ⟨s', wrapped, hclean, hun⟩ := h₁.cleanup tree hbase hin (fun p _ => List.not_mem_nil)
    (LruCache.Unloaded.refl hl.small)
  refine ⟨s', wrapped, ks, hks, hclean, hl, ?_⟩
  simpa using hun

/-- A leaf has no more accesses than refused reads. -/
theorem refused_of_balanced (tree : StaticTree index) {t : Tree IdxKey (List Row) (d + 1)}
    (hbase : index.Represents t) {granted ks : List IdxKey} {refused : Option IdxKey}
    (hks : ks.Perm granted)
    (hl : LruCache.Loaded s.cache s₁.cache
      ((granted ++ refused.toList).flatMap fun key => (trail key (d + 1) t).reverse.map place))
    (hun : LruCache.Unloaded s₁.cache s'.cache (ks.map fun key => place (t.leafOf key (d + 1)).id)
      (ks.flatMap fun key => (trail key (d + 1) t).tail.map place) false)
    (hbalanced : Balanced s s') {key : IdxKey} (hkey : key ∈ granted) :
    ∃ k', refused = some k' ∧ (t.leafOf k' (d + 1)).id = (t.leafOf key (d + 1)).id ∧
      (granted.map fun key => place (t.leafOf key (d + 1)).id).count
        (place (t.leafOf key (d + 1)).id) ≤ 1 := by
  obtain ⟨up, htrail, -, -, -, hisLeaf, -⟩ := trail_spec tree hbase key
  have hin : place (t.leafOf key (d + 1)).id ∈ (granted ++ refused.toList).flatMap fun key =>
      (trail key (d + 1) t).reverse.map place := by
    refine List.mem_flatMap.mpr ⟨key, List.mem_append_left _ hkey, List.mem_map_of_mem ?_⟩
    rw [htrail]
    exact List.mem_reverse.mpr (List.mem_cons_self ..)
  have htwo := hbalanced.two_loads hl hun hin (leaf_not_above tree hbase hisLeaf ks)
  rw [count_loaded tree hbase hisLeaf, List.map_append, List.count_append,
    (hks.map _).count_eq] at htwo
  have hpos : 0 < (granted.map fun key => place (t.leafOf key (d + 1)).id).count
      (place (t.leafOf key (d + 1)).id) :=
    List.count_pos_iff.mpr (List.mem_map.mpr ⟨key, hkey, rfl⟩)
  cases refused with
  | none =>
      simp only [Option.toList_none, List.map_nil, List.count_nil] at htwo
      omega
  | some k' =>
      simp only [Option.toList_some, List.map_singleton, List.count_singleton, beq_iff_eq] at htwo
      split at htwo
      · rename_i hsame
        exact ⟨k', rfl, place_injective hsame, by omega⟩
      · omega

/-- All reads go one way, to the leaf of `k'`. -/
structure OneWay (t : Tree IdxKey (List Row) (d + 1)) (granted : List IdxKey) (k' : IdxKey)
    (up : List Nat) : Prop where
  leaf : ∀ key ∈ granted, (t.leafOf key (d + 1)).id = (t.leafOf k' (d + 1)).id
  way : ∀ key ∈ granted ++ (some k').toList, trail key (d + 1) t = (t.leafOf k' (d + 1)).id :: up
  short : granted.length ≤ 1

theorem one_way_of_balanced (tree : StaticTree index) {t : Tree IdxKey (List Row) (d + 1)}
    (hbase : index.Represents t) {granted ks : List IdxKey} {refused : Option IdxKey}
    (hne : granted ++ refused.toList ≠ []) (hks : ks.Perm granted)
    (hl : LruCache.Loaded s.cache s₁.cache
      ((granted ++ refused.toList).flatMap fun key => (trail key (d + 1) t).reverse.map place))
    (hun : LruCache.Unloaded s₁.cache s'.cache (ks.map fun key => place (t.leafOf key (d + 1)).id)
      (ks.flatMap fun key => (trail key (d + 1) t).tail.map place) false)
    (hbalanced : Balanced s s') :
    ∃ k' up, refused = some k' ∧ OneWay t granted k' up ∧
      Ascends index (t.leafOf k' (d + 1)).id up ∧ up.length = d ∧
      IsLeaf index (t.leafOf k' (d + 1)).id := by
  have hleaf := fun (key : IdxKey) (hkey : key ∈ granted) =>
    refused_of_balanced tree hbase hks hl hun hbalanced hkey
  obtain ⟨k', rfl⟩ : ∃ k', refused = some k' := by
    cases granted with
    | nil =>
        cases refused with
        | none => exact absurd rfl hne
        | some k' => exact ⟨k', rfl⟩
    | cons key rest =>
        obtain ⟨k', hk', -⟩ := hleaf key (List.mem_cons_self ..)
        exact ⟨k', hk'⟩
  obtain ⟨up, htrail', hup, hlen, -, hisLeaf, -⟩ := trail_spec tree hbase k'
  have htrail : ∀ key ∈ granted, (t.leafOf key (d + 1)).id = (t.leafOf k' (d + 1)).id ∧
      trail key (d + 1) t = (t.leafOf k' (d + 1)).id :: up := by
    intro key hkey
    obtain ⟨k'', hk'', hsame, -⟩ := hleaf key hkey
    cases hk''
    obtain ⟨up', heq, hup', -⟩ := trail_spec tree hbase key
    rw [← hsame] at heq hup'
    exact ⟨hsame.symm, by rw [heq, hup'.unique hup]⟩
  refine ⟨k', up, rfl, ⟨fun key hkey => (htrail key hkey).1, ?_, ?_⟩, hup, hlen, hisLeaf⟩
  · intro key hkey
    rcases List.mem_append.mp hkey with hkey | hkey
    · exact (htrail key hkey).2
    · rw [List.mem_singleton.mp hkey]
      exact htrail'
  · cases granted with
    | nil => exact Nat.zero_le _
    | cons key rest =>
        obtain ⟨-, -, -, hone⟩ := hleaf key (List.mem_cons_self ..)
        have hall : ∀ x ∈ (key :: rest).map fun key => place (t.leafOf key (d + 1)).id,
            place (t.leafOf key (d + 1)).id = x := by
          intro x hx
          obtain ⟨key', hkey', rfl⟩ := List.mem_map.mp hx
          rw [(htrail key (List.mem_cons_self ..)).1, (htrail key' hkey').1]
        rwa [List.count_eq_length.mpr hall, List.length_map] at hone

section OneWay

variable {t : Tree IdxKey (List Row) (d + 1)} {granted ks : List IdxKey} {k' : IdxKey}
  {up : List Nat}

theorem OneWay.path (h : OneWay t granted k' up) {key : IdxKey}
    (hkey : key ∈ granted ++ (some k').toList) :
    (trail key (d + 1) t).reverse.map place =
      ((t.leafOf k' (d + 1)).id :: up).reverse.map place := by
  rw [h.way key hkey]

/-- How often the reads load a node. -/
theorem OneWay.loads (h : OneWay t granted k' up) (p : Nat) :
    ((granted ++ (some k').toList).flatMap fun key =>
      (trail key (d + 1) t).reverse.map place).count (place p) = (granted.length + 1) *
        (((t.leafOf k' (d + 1)).id :: up).reverse.map place).count (place p) := by
  rw [count_flatMap_const fun key hkey => h.path hkey, List.length_append]
  rfl

/-- How often `cleanup` releases a node above the leaf. -/
theorem OneWay.releases (h : OneWay t granted k' up) (hks : ks.Perm granted) (p : Nat) :
    (ks.flatMap fun key => (trail key (d + 1) t).tail.map place).count (place p) =
      granted.length * (up.map place).count (place p) := by
  have habove : ∀ key ∈ ks, (trail key (d + 1) t).tail.map place = up.map place := by
    intro key hkey
    rw [h.way key (List.mem_append_left _ (hks.subset hkey)), List.tail_cons]
  rw [count_flatMap_const habove, hks.length_eq]

theorem OneWay.head (h : OneWay t granted k' up) :
    ((granted ++ (some k').toList).flatMap fun key =>
      (trail key (d + 1) t).reverse.map place).head? =
        (((t.leafOf k' (d + 1)).id :: up).reverse.map place).head? := by
  have hreads : granted ++ (some k').toList ≠ [] :=
    List.append_ne_nil_of_right_ne_nil _ (List.cons_ne_nil k' [])
  obtain ⟨key, rest, heq⟩ := List.exists_cons_of_ne_nil hreads
  have hkey := h.path (heq ▸ List.mem_cons_self ..)
  rw [heq, List.flatMap_cons, hkey]
  simp

/-- The leaf is a child of the root. -/
theorem OneWay.paired (tree : StaticTree index) (hbase : index.Represents t)
    (h : OneWay t granted k' []) (hup : Ascends index (t.leafOf k' (d + 1)).id [])
    (hisLeaf : IsLeaf index (t.leafOf k' (d + 1)).id) (hks : ks.Perm granted)
    (hl : LruCache.Loaded s.cache s₁.cache ((granted ++ (some k').toList).flatMap fun key =>
      (trail key (d + 1) t).reverse.map place))
    (hun : LruCache.Unloaded s₁.cache s'.cache (ks.map fun key => place (t.leafOf key (d + 1)).id)
      (ks.flatMap fun key => (trail key (d + 1) t).tail.map place) false)
    (hbalanced : Balanced s s') : Paired index s granted (some k') := by
  have hself : (([(t.leafOf k' (d + 1)).id].reverse).map place).count
      (place (t.leafOf k' (d + 1)).id) = 1 := by simp
  have hfirst : ((granted ++ (some k').toList).flatMap fun key =>
      (trail key (d + 1) t).reverse.map place).head? = some (place (t.leafOf k' (d + 1)).id) := by
    rw [h.head]
    rfl
  have hloads := h.loads (t.leafOf k' (d + 1)).id
  rw [hself, Nat.mul_one] at hloads
  have habove := h.releases hks (t.leafOf k' (d + 1)).id
  rw [List.map_nil, List.count_nil, Nat.mul_zero] at habove
  cases granted with
  | nil =>
      have hnil : ks = [] := hks.eq_nil
      subst hnil
      refine absurd hbalanced (not_balanced_above hl hun hfirst (by simp) ?_ Nat.one_pos
        (by decide))
      rw [hloads]
      rfl
  | cons k rest =>
      have hnone : rest.length ≤ 0 := Nat.le_of_succ_le_succ h.short
      obtain rfl : rest = [] := List.length_eq_zero_iff.mp (Nat.le_zero.mp hnone)
      have hone : ks = [k] := List.perm_singleton.mp hks
      subst hone
      obtain ⟨n, hn, hparent⟩ := hup
      have hk := h.leaf k (List.mem_singleton_self k)
      have hin := List.mem_of_mem_head? hfirst
      have hsome := isSome_of_loaded hl hun hin
      have hexact := hun.exact rfl _ hsome (leaf_not_above tree hbase hisLeaf _)
      have hsame := hbalanced.pins_eq hsome
      have hpins := hl.first _ hfirst
      rw [hloads] at hpins
      rw [List.map_singleton, hk, List.count_singleton_self, hsame, hpins] at hexact
      refine ⟨k, k', (t.leafOf k' (d + 1)).id, n, rfl, rfl, ?_, ?_, hn, hparent, ?_⟩
      · rw [hbase.root, findLeafNone_eq k hbase.rep hbase.depth_lt, hk]
      · rw [hbase.root, findLeafNone_eq k' hbase.rep hbase.depth_lt]
      · have hlt : wrap64 (s.cache.pins (place (t.leafOf k' (d + 1)).id) + ([k].length + 1)) <
            2 ^ 64 := Nat.mod_lt _ (by decide)
        omega

/-- The child `p` of the root on the way is an inner node, and one load of it stays. -/
theorem OneWay.not_balanced {ups : List Nat} {p : Nat} (h : OneWay t granted k' (ups.concat p))
    (hinner : ¬ IsLeaf index p) (hisLeaf : IsLeaf index (t.leafOf k' (d + 1)).id)
    (hshort : (ups.concat p).length < 2 ^ 64) (hks : ks.Perm granted) {wrapped : Bool}
    (hl : LruCache.Loaded s.cache s₁.cache ((granted ++ (some k').toList).flatMap fun key =>
      (trail key (d + 1) t).reverse.map place))
    (hun : LruCache.Unloaded s₁.cache s'.cache (ks.map fun key => place (t.leafOf key (d + 1)).id)
      (ks.flatMap fun key => (trail key (d + 1) t).tail.map place) wrapped) : ¬ Balanced s s' := by
  have hne : (t.leafOf k' (d + 1)).id ≠ p := by
    rintro rfl
    exact hinner hisLeaf
  have hfirst : ((granted ++ (some k').toList).flatMap fun key =>
      (trail key (d + 1) t).reverse.map place).head? = some (place p) := by
    rw [h.head]
    simp
  have hsame : (((t.leafOf k' (d + 1)).id :: (ups.concat p)).reverse.map place).count (place p) =
      ((ups.concat p).map place).count (place p) := by
    have hplace : place (t.leafOf k' (d + 1)).id ≠ place p := fun heq => hne (place_injective heq)
    rw [List.map_reverse, List.count_reverse, List.map_cons, List.count_cons_of_ne hplace]
  have hpos : 0 < ((ups.concat p).map place).count (place p) :=
    List.count_pos_iff.mpr (List.mem_map_of_mem (by simp))
  have hlt : ((ups.concat p).map place).count (place p) < 2 ^ 64 := by
    have hle := List.count_le_length (a := place p) (l := (ups.concat p).map place)
    rw [List.length_map] at hle
    exact Nat.lt_of_le_of_lt hle hshort
  refine not_balanced_above hl hun hfirst ?_ ?_ hpos hlt
  · intro hmem
    obtain ⟨key, hkey, hplace⟩ := List.mem_map.mp hmem
    rw [h.leaf key (hks.subset hkey)] at hplace
    exact hne (place_injective hplace)
  · rw [h.loads, h.releases hks, hsame, Nat.add_mul, Nat.one_mul]

end OneWay

/-- Only a pair of an access and a refused one on one leaf is balanced. -/
theorem paired_of_balanced (tree : StaticTree index) {t : Tree IdxKey (List Row) (d + 1)}
    (hbase : index.Represents t) {granted ks : List IdxKey} {refused : Option IdxKey}
    (hne : granted ++ refused.toList ≠ [])
    (hstamped : s.cache.Stamped ((granted ++ refused.toList).length * index.btreeNodeId))
    (hks : ks.Perm granted)
    (hl : LruCache.Loaded s.cache s₁.cache
      ((granted ++ refused.toList).flatMap fun key => (trail key (d + 1) t).reverse.map place))
    (hun : LruCache.Unloaded s₁.cache s'.cache (ks.map fun key => place (t.leafOf key (d + 1)).id)
      (ks.flatMap fun key => (trail key (d + 1) t).tail.map place) false)
    (hbalanced : Balanced s s') : Paired index s granted refused := by
  obtain ⟨k', up, rfl, hway, hup, hlen, hisLeaf⟩ :=
    one_way_of_balanced tree hbase hne hks hl hun hbalanced
  rcases List.eq_nil_or_concat up with rfl | ⟨ups, p, rfl⟩
  · exact hway.paired tree hbase hup hisLeaf hks hl hun hbalanced
  · have hshort : (ups.concat p).length < 2 ^ 64 := by
      have hdepth := hbase.depth_lt
      have hclock := hstamped.clock
      have hone : 1 ≤ (granted ++ (some k').toList).length := List.length_pos_iff.mpr hne
      have hmul : 1 * index.btreeNodeId ≤
          (granted ++ (some k').toList).length * index.btreeNodeId := Nat.mul_le_mul_right _ hone
      omega
    exact absurd hbalanced
      (hway.not_balanced (hup.inner p (by simp)) hisLeaf hshort hks hl hun)

/-- A pair of an access and a refused one on one leaf is balanced. -/
theorem balanced_of_paired (tree : StaticTree index) {t : Tree IdxKey (List Row) (d + 1)}
    (hbase : index.Represents t) {granted ks : List IdxKey} {refused : Option IdxKey}
    {wrapped : Bool} (hks : ks.Perm granted)
    (hl : LruCache.Loaded s.cache s₁.cache
      ((granted ++ refused.toList).flatMap fun key => (trail key (d + 1) t).reverse.map place))
    (hun : LruCache.Unloaded s₁.cache s'.cache (ks.map fun key => place (t.leafOf key (d + 1)).id)
      (ks.flatMap fun key => (trail key (d + 1) t).tail.map place) wrapped)
    (hpaired : Paired index s granted refused) : Balanced s s' ∧ wrapped = false := by
  obtain ⟨k, k', leaf, n, rfl, rfl, hk, hk', hn, hparent, hlt⟩ := hpaired
  have hone : ks = [k] := List.perm_singleton.mp hks
  subst hone
  rw [hbase.root, findLeafNone_eq k hbase.rep hbase.depth_lt, Option.some.injEq] at hk
  rw [hbase.root, findLeafNone_eq k' hbase.rep hbase.depth_lt, Option.some.injEq] at hk'
  obtain ⟨up, htrail, hup, -⟩ := trail_spec tree hbase k
  obtain ⟨up', htrail', hup', -⟩ := trail_spec tree hbase k'
  have hroot : Ascends index leaf [] := ⟨n, hn, hparent⟩
  rw [hk] at htrail hup
  rw [hk'] at htrail' hup'
  rw [hup.unique hroot] at htrail
  rw [hup'.unique hroot] at htrail'
  simp only [Option.toList_some, List.cons_append, List.nil_append, List.flatMap_cons,
    List.flatMap_nil, htrail, htrail', List.reverse_singleton, List.map_singleton,
    List.append_nil] at hl
  simp only [List.flatMap_cons, List.flatMap_nil, htrail, List.tail_cons, List.map_nil,
    List.append_nil, List.map_singleton, hk] at hun
  have hpins := hl.first _ rfl
  simp only [List.count_cons_self, List.count_nil, Nat.zero_add] at hpins
  rw [wrap64, Nat.mod_eq_of_lt (by omega)] at hpins
  constructor
  · intro id node hnode
    have hsome : (s'.cache.cache (place id)).isSome := Option.isSome_of_eq_some hnode
    have hcounts := hun.counts _ hsome
    have hsmall := hun.small (place id)
    rw [← LruCache.pins_of_some hnode]
    by_cases hid : id = leaf
    · subst hid
      rw [List.count_singleton_self, List.count_nil, hpins] at hcounts
      simp only [wrap64] at hcounts
      omega
    · have hout : place id ∉ [place leaf] := by
        intro hmem
        exact hid (place_injective (List.mem_singleton.mp hmem))
      rw [List.count_eq_zero_of_not_mem hout, List.count_nil, wrap64, Nat.mod_eq_of_lt (by omega)]
        at hcounts
      have hout' : place id ∉ [place leaf, place leaf] := by
        intro hmem
        refine hid (place_injective ?_)
        simpa using hmem
      rcases hl.others _ hout' with hsame | ⟨hnone, -⟩
      · rw [← LruCache.pins_congr hsame]
        omega
      · rw [LruCache.isSome_of_value (hun.value _), hnone] at hsome
        cases hsome
  · refine hun.calm rfl fun p hp => ?_
    rw [List.mem_singleton.mp hp, List.count_singleton_self, hpins]
    omega

end Balance

/-- **Pins are balanced exactly in these cases.**  For every tree, every state of the cache over it
    and every transaction that reads some keys, the last of them perhaps refused: `cleanup`, in any
    order of the pages, leaves every count as it was and takes none below zero if and only if there
    was no read, or the tree is a single leaf, or the transaction was one access and a refused one
    on the same child of the root. -/
theorem pins_balanced_iff {ops : List (IdxKey × Row)} (hops : ops ≠ []) {index : Index IdxKey Row}
    (hindex : runs (fun s op => s.indexInsert op.1 op.2) Index.init ops = some index)
    {btreeNodeNum siz nodeBytes : Nat} {stored : IdxKey → List Row} {s s₁ : IndexBTEnc}
    (hs : Coherent index btreeNodeNum siz nodeBytes stored none s) {granted : List IdxKey}
    {refused : Option IdxKey}
    (hstamped : s.cache.Stamped ((granted ++ refused.toList).length * index.btreeNodeId))
    {pages : List BTNode} (hread : s.readPages (granted ++ refused.toList) = .ok (s₁, pages))
    {order : List BTNode} (horder : order.Perm (pages.take granted.length)) :
    ∃ s' wrapped, s₁.cleanup order = .ok (s', wrapped) ∧
      (Balanced s s' ∧ wrapped = false ↔
        granted ++ refused.toList = [] ∨ IsLeaf index index.root ∨
          Paired index s granted refused) := by
  obtain ⟨index', hrun, d, t, hbase, hholds⟩ := runs_indexInsert_represents ops
  rw [hindex] at hrun
  cases hrun
  have tree := StaticTree.of_represents hbase hholds hops
  have hself : Balanced s s := fun id node hnode => (LruCache.pins_of_some hnode).symm
  cases d with
  | zero =>
      have hleaf : IsLeaf index index.root := by
        rw [hbase.root]
        exact ⟨_, _, hbase.rep, rfl⟩
      have hclock : s.cache.timestamp + ([] : List PageId).length +
          (granted ++ refused.toList).length * 0 < 2 ^ 64 := by
        have hlt := hstamped.clock
        rw [List.length_nil]
        omega
      obtain ⟨hs₁, rfl, hl⟩ := hs.readPages_loaded tree hbase hstamped.loaded hclock hread
      rw [List.map_append, List.take_left' (List.length_map _)] at horder
      obtain ⟨ks, -, rfl⟩ := exists_perm_map horder
      refine ⟨s₁, false, hs₁.cleanup_leaf tree hbase ks, fun _ => .inr (.inl hleaf), fun _ => ?_⟩
      refine ⟨fun id node hnode => ?_, rfl⟩
      have hnone : ([] : List PageId) ++ (granted ++ refused.toList).flatMap
          (fun key => (trail key 0 t).reverse.map place) = [] := by simp [trail]
      rw [hnone] at hl
      rcases hl.others (place id) (by simp) with hsame | ⟨-, hne⟩
      · rw [← LruCache.pins_congr hsame, LruCache.pins_of_some hnode]
      · exact absurd rfl hne
  | succ d =>
      obtain ⟨s', wrapped, ks, hks, hclean, hl, hun⟩ :=
        hs.transaction tree hbase hstamped hread horder
      refine ⟨s', wrapped, hclean, ?_⟩
      constructor
      · rintro ⟨hbalanced, rfl⟩
        by_cases hne : granted ++ refused.toList = []
        · exact .inl hne
        · exact .inr (.inr (paired_of_balanced tree hbase hne hstamped hks hl hun hbalanced))
      · rintro (hnone | hleaf | hpaired)
        · obtain ⟨rfl, hrefused⟩ := List.append_eq_nil_iff.mp hnone
          rw [hnone] at hread
          cases hread
          have hempty : order = [] := horder.eq_nil
          subst hempty
          cases hclean
          exact ⟨hself, rfl⟩
        · obtain ⟨n, chains, hn, hchains⟩ := hleaf
          obtain ⟨⟨next, hnode⟩, -⟩ := hbase.rep
          have hnode' : index.nodes index.root = _ := (congrArg index.nodes hbase.root).trans hnode
          rw [hn] at hnode'
          cases hnode'
          cases hchains
        · exact balanced_of_paired tree hbase hks hl hun hpaired

/-! ### A tree of two leaves -/

/-- The tree of sixteen keys with nothing loaded but the root. -/
def cold16 : Option (Index IdxKey Row × IndexBTEnc) := do
  let index ← inserted16
  let n ← index.nodes index.root
  pure (index, ⟨index, copyOf index.root n, LruCache.init 100 1 65536, fun _ => 0, 200⟩)

/-- Its keys 0 and 1 are in one leaf, a child of the root. -/
theorem cold16_leaf : ∀ x ∈ cold16, (Index.findLeafNone 0 x.1.btreeNodeId x.1 x.1.root = some 1 ∧
    Index.findLeafNone 1 x.1.btreeNodeId x.1 x.1.root = some 1 ∧
    (x.1.nodes 1).bind BtNode.parent = some x.1.root ∧ x.1.btreeNodeId = 3) ∧
    (x.2.readPages [0, 1]).toOption.isSome := by
  decide +kernel

/-- An access and a refused read on one leaf. -/
theorem pins_balanced_iff_pair :
    ∃ index s s₁ pages s' wrapped, cold16 = some (index, s) ∧
      s.readPages [0, 1] = .ok (s₁, pages) ∧ s₁.cleanup (pages.take 1) = .ok (s', wrapped) ∧
      Balanced s s' ∧ wrapped = false := by
  have hsome : cold16.isSome := by decide +kernel
  obtain ⟨⟨index, s⟩, hcold⟩ := Option.isSome_iff_exists.mp hsome
  obtain ⟨⟨hk, hk', hparent, hcount⟩, hread⟩ := cold16_leaf _ hcold
  obtain ⟨n₁, hn₁, hparent⟩ := Option.bind_eq_some_iff.mp hparent
  obtain ⟨s₁, pages, hpages⟩ : ∃ s₁ pages, s.readPages [0, 1] = .ok (s₁, pages) := by
    cases hok : s.readPages [0, 1] with
    | error f =>
        rw [hok] at hread
        cases hread
    | ok r => exact ⟨r.1, r.2, rfl⟩
  have hstart := hcold
  rw [cold16, Option.bind_eq_bind, Option.bind_eq_some_iff] at hstart
  obtain ⟨index', hindex, hstart⟩ := hstart
  rw [Option.bind_eq_bind, Option.bind_eq_some_iff] at hstart
  obtain ⟨n, hn, heq⟩ := hstart
  obtain ⟨rfl, rfl⟩ := Prod.mk.inj (Option.some.inj heq)
  rw [inserted16] at hindex
  obtain ⟨index'', hrun, d, t, hbase, hholds⟩ := runs_indexInsert_represents sixteen
  rw [hindex] at hrun
  obtain rfl := Option.some.inj hrun
  have hcoherent := coherent_init hbase hholds 100 65536 200 hn
  have hstamped : (LruCache.init 100 1 65536 : LruCache BTNode).Stamped
      (([0] ++ (some (1 : IdxKey)).toList).length * index'.btreeNodeId) := by
    refine ⟨fun p node hnode => (nomatch hnode), fun e he => (nomatch he), ?_⟩
    rw [hcount]
    decide
  have hne : sixteen ≠ [] := by decide
  have hpins : (LruCache.init 100 1 65536 : LruCache BTNode).pins (place 1) + 2 < 2 ^ 64 := by
    decide
  have hpaired : Paired index' ⟨index', copyOf index'.root n, LruCache.init 100 1 65536, fun _ => 0,
      200⟩ [0] (some 1) :=
    ⟨0, 1, 1, n₁, rfl, rfl, hk, hk', hn₁, hparent, hpins⟩
  obtain ⟨s', wrapped, hclean, hiff⟩ :=
    pins_balanced_iff hne hindex hcoherent hstamped hpages (List.Perm.refl _)
  exact ⟨index', _, s₁, pages, s', wrapped, hcold, hpages, hclean, hiff.mpr (.inr (.inr hpaired))⟩

/-- One access to a leaf takes its count below zero. -/
theorem leaf_count_wraps :
    (cold16.bind fun x => do
      let (s₁, pages) ← (x.2.readPages [0]).toOption
      let (s', wrapped) ← (s₁.cleanup pages).toOption
      pure (x.2.cache.pins (place 1), s'.cache.pins (place 1), wrapped)) =
        some (0, 2 ^ 64 - 1, true) := by
  decide +kernel

end IndexBTEnc

end VeriTxn
