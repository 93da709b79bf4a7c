import VeriTxn.IndexBTEnc
import Mathlib.Algebra.BigOperators.Group.Finset.Basic
import Mathlib.Algebra.Order.BigOperators.Group.Finset

/-!
# A static tree under the verified B+-tree

No insertion happens any more, rows are changed in place in the copies of their leaves, and
copies come and go.  The shape of the tree is the one it had when it was loaded, and the
contents are a map from keys to rows.
-/

namespace VeriTxn

open Bytes BPlusTree IndexBTree HashIndex

/-! ### The shape of the tree -/

/-- What is used of the shape of the tree under the root. -/
structure StaticTree (base : Index IdxKey Row) : Prop where
  bound : ∀ id, Under base base.root id → 0 < id ∧ id ≤ base.btreeNodeId
  node : ∀ id, Under base base.root id → ∃ n, base.nodes id = some n ∧ n.keys ≠ []
  width : ∀ id n ids, Under base base.root id → base.nodes id = some n → n.pointers = .nodes ids →
    ids.length = n.keys.length + 1
  below : ∀ id c, Under base base.root id → Child base id c → c ≠ base.root
  parent : ∀ id c n, Under base base.root id → Child base id c → base.nodes c = some n →
    n.parent = some id
  next : ∀ id n chains y, Under base base.root id → base.nodes id = some n →
    n.pointers = .items chains → n.next = some y →
      Under base base.root y ∧ IsLeaf base y ∧ ¬ IsLeaf base base.root
  keys : ∀ id n chains, Under base base.root id → base.nodes id = some n →
    n.pointers = .items chains → n.keys.Nodup
  apart : ∀ id id' n n' chains chains' k, Under base base.root id → Under base base.root id' →
    base.nodes id = some n → base.nodes id' = some n' → n.pointers = .items chains →
    n'.pointers = .items chains' → k ∈ n.keys → k ∈ n'.keys → id = id'

theorem followNext_next {s : Index IdxKey Row} {fuel : Nat} {start : Option Nat}
    {leaves : List Nat} (h : followNext s fuel start = some leaves) :
    ∀ x ∈ leaves, ∀ n y, s.nodes x = some n → n.next = some y →
      ∃ front back, leaves = front ++ x :: y :: back := by
  induction fuel generalizing start leaves with
  | zero =>
      cases start with
      | none =>
          cases h
          simp
      | some a => cases h
  | succ fuel ih =>
      cases start with
      | none =>
          cases h
          simp
      | some a =>
          rw [followNext] at h
          obtain ⟨node, hnode, h⟩ := Option.bind_eq_some_iff.mp h
          obtain ⟨rest, hrest, rfl⟩ := Option.map_eq_some_iff.mp h
          intro x hx n y hn hy
          rcases List.mem_cons.mp hx with rfl | hx
          · rw [hnode] at hn
            cases hn
            rw [hy] at hrest
            cases fuel with
            | zero => cases hrest
            | succ fuel =>
                rw [followNext] at hrest
                obtain ⟨node', -, hrest⟩ := Option.bind_eq_some_iff.mp hrest
                obtain ⟨back, -, rfl⟩ := Option.map_eq_some_iff.mp hrest
                exact ⟨[], back, rfl⟩
          · obtain ⟨front, back, rfl⟩ := ih hrest x hx n y hn hy
            exact ⟨a :: front, back, rfl⟩

/-- The nodes under the root of a represented tree are its nodes. -/
theorem mem_ids_of_child {s : Index IdxKey Row} : ∀ {d : Nat} {parent succ : Option Nat}
    {t : Tree IdxKey (List Row) d}, Rep s.nodes d parent succ t → ∀ p ∈ t.ids d, ∀ c, Child s p c →
      c ∈ t.ids d
  | 0, _, _, t, h, p, hp, c, hchild => by
      rw [List.mem_singleton.mp hp] at hchild
      exact absurd hchild (Rep.not_child h c)
  | d + 1, _, _, t, h, p, hp, c, hchild => by
      rcases List.mem_cons.mp hp with rfl | hp
      · obtain ⟨t', ht', rfl⟩ := (Rep.child_iff h).mp hchild
        exact List.mem_cons_of_mem _ (mem_under.mpr ⟨t', ht', Tree.id_mem_ids t'⟩)
      · obtain ⟨t', ht', hp⟩ := mem_under.mp hp
        obtain ⟨succ', hrep⟩ := Rep.child h t' ht'
        exact List.mem_cons_of_mem _ (mem_under.mpr ⟨t', ht', mem_ids_of_child hrep p hp c hchild⟩)

/-- Nothing is under a leaf. -/
theorem eq_of_under_leaf {s : Index IdxKey Row} {m z : Nat} (hleaf : IsLeaf s m)
    (hunder : Under s m z) : z = m := by
  rcases hunder.cases_head with rfl | ⟨c, ⟨n, ids, hn, hids, -⟩, -⟩
  · rfl
  · obtain ⟨n', chains, hn', hchains⟩ := hleaf
    rw [hn] at hn'
    cases hn'
    rw [hids] at hchains
    cases hchains

/-- The root of a tree with an entry has a key. -/
theorem root_keys_ne_nil {base : Index IdxKey Row} : ∀ {d : Nat} {t : Tree IdxKey (List Row) d}
    {ops : List (IdxKey × Row)}, base.Represents t → Holds t ops → ops ≠ [] →
      ∃ n, base.nodes base.root = some n ∧ n.keys ≠ []
  | 0, t, ops, h, hholds, hops => by
      have hnode : base.nodes (t.id 0) = _ := h.rep
      refine ⟨_, (congrArg base.nodes h.root).trans hnode, ?_⟩
      obtain ⟨op, rest, rfl⟩ := List.exists_cons_of_ne_nil hops
      have hsome : inserted (op :: rest) op.1 ≠ [] := by simp [inserted]
      have hfind := hholds op.1
      rw [if_neg hsome] at hfind
      exact List.ne_nil_of_mem (mem_keys_of_find hfind)
  | d + 1, t, ops, h, _, _ => by
      obtain ⟨⟨next, hnode⟩, -⟩ := h.rep
      refine ⟨_, (congrArg base.nodes h.root).trans hnode, ?_⟩
      have hone : 1 ≤ (Branch.rest t).length := by
        have hleast := h.occupied.1
        omega
      intro hnil
      have hrest : Branch.rest t = [] := List.map_eq_nil_iff.mp hnil
      rw [hrest] at hone
      exact absurd hone (by simp)

theorem StaticTree.of_represents {base : Index IdxKey Row} {d : Nat}
    {t : Tree IdxKey (List Row) d} {ops : List (IdxKey × Row)} (h : base.Represents t)
    (hholds : Holds t ops) (hops : ops ≠ []) : StaticTree base := by
  have hinv := h.invariant hholds
  obtain ⟨first, leaves, -, hfollow, hnodup, hmem, hsorted⟩ := hinv.next_chain
  have hdistinct : (leaves.flatMap (keysOf base)).Nodup := hsorted.imp fun hlt => ne_of_lt hlt
  have hids : ∀ id, Under base base.root id → id ∈ t.ids d := by
    intro id hunder
    induction hunder with
    | refl => exact h.root ▸ Tree.id_mem_ids t
    | tail _ hchild ih => exact mem_ids_of_child h.rep _ ih _ hchild
  have hleaves : ∀ id n chains, Under base base.root id → base.nodes id = some n →
      n.pointers = .items chains → id ∈ leaves :=
    fun id n chains hunder hn hchains => (hmem id).mpr ⟨hunder, n, chains, hn, hchains⟩
  have hkeys : ∀ id n, base.nodes id = some n → keysOf base id = n.keys := by
    intro id n hn
    rw [keysOf, hn]
  refine ⟨?_, ?_, ?_, ?_, ?_, ?_, ?_, ?_⟩
  · intro id hunder
    exact h.bound id (hids id hunder)
  · intro id hunder
    by_cases hroot : id = base.root
    · rw [hroot]
      exact root_keys_ne_nil h hholds hops
    · obtain ⟨d', least, parent, succ, lo, hi, t', rfl, hrep, -⟩ := h.subtree hunder
      obtain ⟨n, hn, -⟩ := hrep.root
      refine ⟨n, hn, fun hnil => ?_⟩
      have hleast := (hinv.occupancy _ n hunder hn).2 hroot
      rw [hnil] at hleast
      exact absurd hleast (by decide)
  · intro id n ids hunder hn hpointers
    exact (hinv.separators id n ids hunder hn hpointers).1
  · rintro id c hunder hchild rfl
    obtain ⟨n, hn, hparent⟩ := hinv.parents id _ hunder hchild
    obtain ⟨n', hn', hnone⟩ := h.rep.root
    rw [← h.root, hn] at hn'
    cases hn'
    rw [hparent] at hnone
    cases hnone
  · intro id c n hunder hchild hn
    obtain ⟨n', hn', hparent⟩ := hinv.parents id c hunder hchild
    rw [hn] at hn'
    cases hn'
    exact hparent
  · intro id n chains y hunder hn hchains hy
    obtain ⟨front, back, hsplit⟩ := followNext_next hfollow id (hleaves id n chains hunder hn hchains)
      n y hn hy
    have hmemy : y ∈ leaves := by simp [hsplit]
    obtain ⟨hundery, hleafy⟩ := (hmem y).mp hmemy
    refine ⟨hundery, hleafy, fun hroot => ?_⟩
    -- a root that is a leaf is the only node, and it has no next leaf
    have hid := eq_of_under_leaf hroot hunder
    have hiy := eq_of_under_leaf hroot hundery
    rw [hsplit] at hnodup
    have htwo := (List.nodup_append.mp hnodup).2.1
    exact (List.nodup_cons.mp htwo).1 (by simp [hid, hiy])
  · intro id n chains hunder hn _
    exact (hinv.keys_increasing id n hunder hn).imp fun hlt => ne_of_lt hlt
  · intro id id' n n' chains chains' k hunder hunder' hn hn' hchains hchains' hk hk'
    by_contra hne
    have hdisjoint := (List.nodup_flatMap.mp hdistinct).2
    have : Std.Symm (Function.onFun List.Disjoint (keysOf base)) := ⟨fun _ _ hd => hd.symm⟩
    have hapart : List.Disjoint (keysOf base id) (keysOf base id') :=
      hdisjoint.forall (hleaves id n chains hunder hn hchains)
        (hleaves id' n' chains' hunder' hn' hchains') hne
    rw [hkeys id n hn, hkeys id' n' hn'] at hapart
    exact hapart hk hk'

/-! ### What a client and the cache do to the index -/

/-- A row of a cached value is changed through a pointer. -/
def LruCache.setValue {V : Type} (c : LruCache V) (p : PageId) (v : V) : LruCache V :=
  { c with cache := Function.update c.cache p ((c.cache p).map fun node => { node with value := v }) }

theorem LruCache.value_setValue {V : Type} (c : LruCache V) (p q : PageId) (v : V) :
    (c.setValue p v).value q = if q = p then (c.value p).map fun _ => v else c.value q := by
  by_cases hq : q = p
  · subst hq
    simp [setValue, value, Function.comp_def]
  · simp [setValue, value, hq]

/-- An in-place change of row `j` of the key at `idx`. -/
def BTNode.setData (idx j : Nat) (data : List Byte) (n : BTNode) : BTNode :=
  match n.contents with
  | .items chains => { n with
      contents := .items (chains.modify idx fun chain =>
        chain.modify j fun row => { row with data := data }) }
  | .nodes _ => n

namespace IndexBTEnc

/-- In the copy of the leaf `id`, which may be the root. -/
def writeRow (s : IndexBTEnc) (id idx j : Nat) (data : List Byte) : Except Fault IndexBTEnc :=
  if id = s.root.nodeId then .ok { s with root := s.root.setData idx j data }
  else
    match s.cache.value (place id) with
    | none => .error .notLoaded
    | some c => .ok { s with cache := s.cache.setValue (place id) (c.setData idx j data) }

/-- `load_next` of a leaf in the cache. -/
def nextOf (s : IndexBTEnc) (id : Nat) : Except Fault (IndexBTEnc × Option BTNode) :=
  match s.cache.value (place id) with
  | none => .error .notLoaded
  | some c =>
      match c.contents with
      | .nodes _ => .error .notLoaded
      | .items _ => s.loadNext c

inductive Action where
  | indexRead (key : IdxKey)
  | loadNext (id : Nat)
  | writeRow (id idx j : Nat) (data : List Byte)
  | evict (id : Nat)

def step (s : IndexBTEnc) : Action → Except Fault IndexBTEnc
  | .indexRead key => (s.indexRead key).map Prod.fst
  | .loadNext id => (s.nextOf id).map Prod.fst
  | .writeRow id idx j data => s.writeRow id idx j data
  | .evict id => s.evict id

def run (s : IndexBTEnc) : List Action → Except Fault IndexBTEnc
  | [] => .ok s
  | action :: actions => do
      let s ← s.step action
      run s actions

/-! ### The contents -/

/-- The rows of every key, as the changes leave them. -/
def store (base : Index IdxKey Row) (stored : IdxKey → List Row) : Action → IdxKey → List Row
  | .writeRow id idx j data =>
      match base.nodes id with
      | none => stored
      | some n =>
          match n.pointers, n.keys[idx]? with
          | .items _, some key => Function.update stored key
              ((stored key).modify j fun row => { row with data := data })
          | _, _ => stored
  | _ => stored

def storeAll (base : Index IdxKey Row) (stored : IdxKey → List Row) (actions : List Action) :
    IdxKey → List Row :=
  actions.foldl (store base) stored

/-- A node of the tree with the contents of its keys. -/
def current (stored : IdxKey → List Row) (n : BtNode IdxKey Row) : BtNode IdxKey Row :=
  match n.pointers with
  | .items _ => { n with pointers := .items (n.keys.map stored) }
  | .nodes _ => n

theorem current_items {n : BtNode IdxKey Row} {chains : List (List Row)}
    (h : n.pointers = .items chains) (stored : IdxKey → List Row) :
    current stored n = { n with pointers := .items (n.keys.map stored) } := by
  rw [current, h]

theorem current_nodes {n : BtNode IdxKey Row} {ids : List Nat} (h : n.pointers = .nodes ids)
    (stored : IdxKey → List Row) : current stored n = n := by
  rw [current, h]

@[simp] theorem current_keys (stored : IdxKey → List Row) (n : BtNode IdxKey Row) :
    (current stored n).keys = n.keys := by
  unfold current
  split <;> rfl

@[simp] theorem current_next (stored : IdxKey → List Row) (n : BtNode IdxKey Row) :
    (current stored n).next = n.next := by
  unfold current
  split <;> rfl

/-- The leaves of a tree hold what was inserted. -/
theorem current_inserted {base : Index IdxKey Row} {d : Nat} {t : Tree IdxKey (List Row) d}
    {ops : List (IdxKey × Row)} (h : base.Represents t) (hholds : Holds t ops) {id : Nat}
    {n : BtNode IdxKey Row} (hunder : Under base base.root id) (hn : base.nodes id = some n) :
    current (inserted ops) n = n := by
  cases hpointers : n.pointers with
  | nodes ids => exact current_nodes hpointers _
  | items chains =>
      have hleaf : IsLeaf base id := ⟨n, chains, hn, hpointers⟩
      rw [h.root] at hunder
      obtain ⟨leaf, hmem, rfl⟩ := List.mem_map.mp ((Rep.mem_leaves h.rep).mpr ⟨hunder, hleaf⟩)
      obtain ⟨parent, succ, hnode⟩ := Rep.leaf_node h.rep leaf hmem
      rw [hnode] at hn
      cases hn
      have hchain : ∀ e ∈ leaf.entries, inserted ops e.1 = e.2 := by
        intro e he
        have hentry : e ∈ t.entries d := by
          rw [← Tree.flatMap_leaves]
          exact List.mem_flatMap.mpr ⟨leaf, hmem, he⟩
        have hfind := h.ordered.sorted.find_of_mem hentry
        rw [hholds e.1] at hfind
        split at hfind
        · cases hfind
        · exact Option.some.inj hfind
      have hchains : (leaf.entries.map Prod.fst).map (inserted ops) = leaf.entries.map Prod.snd := by
        rw [List.map_map]
        exact List.map_congr_left hchain
      rw [current_items rfl, hchains]

theorem getSize_current (nodeBytes id : Nat) (stored : IdxKey → List Row)
    (n : BtNode IdxKey Row) :
    getSize nodeBytes (copyOf id (current stored n)) = getSize nodeBytes (copyOf id n) := by
  cases h : n.pointers with
  | items chains => simp [current_items h, getSize, copyOf, h]
  | nodes ids => rw [current_nodes h]

/-- Changing the value at the only place of a key. -/
theorem map_update_eq_modify {α β : Type} [DecidableEq α] {l : List α} (hnodup : l.Nodup)
    {idx : Nat} {a : α} (ha : l[idx]? = some a) (g : α → β) (f : β → β) :
    l.map (Function.update g a (f (g a))) = (l.map g).modify idx f := by
  refine List.ext_getElem? fun i => ?_
  rw [List.getElem?_modify, List.getElem?_map, List.getElem?_map]
  cases hb : l[i]? with
  | none => rfl
  | some b =>
      by_cases hi : idx = i
      · subst hi
        rw [ha] at hb
        cases hb
        simp
      · have hne : b ≠ a := by
          rintro rfl
          have hlt := (List.getElem?_eq_some_iff.mp ha).1
          exact hi ((List.getElem?_inj hlt hnodup).mp (ha.trans hb.symm))
        simp [hi, hne]

/-- A write changes a copy as it changes the contents. -/
theorem setData_copyOf {base : Index IdxKey Row} (tree : StaticTree base)
    (stored : IdxKey → List Row) {id : Nat} {n : BtNode IdxKey Row}
    (hunder : Under base base.root id) (hn : base.nodes id = some n) (idx j : Nat)
    (data : List Byte) :
    (copyOf id (current stored n)).setData idx j data =
      copyOf id (current (store base stored (.writeRow id idx j data)) n) := by
  cases hpointers : n.pointers with
  | nodes ids =>
      rw [current_nodes hpointers, current_nodes hpointers, BTNode.setData]
      simp only [copyOf, hpointers]
  | items chains =>
      rw [current_items hpointers, current_items hpointers, BTNode.setData]
      simp only [copyOf, store, hn, hpointers]
      cases hidx : n.keys[idx]? with
      | none =>
          have hlen : (n.keys.map stored).length ≤ idx := by
            rw [List.length_map]
            exact List.getElem?_eq_none_iff.mp hidx
          simp only [List.modify_eq_self hlen]
      | some key =>
          simp only
          rw [map_update_eq_modify (tree.keys id n chains hunder hn hpointers) hidx stored
            (List.modify · j fun row => { row with data := data })]

/-- A write to one leaf changes no other. -/
theorem current_store_of_ne {base : Index IdxKey Row} (tree : StaticTree base)
    (stored : IdxKey → List Row) {id id' : Nat} {n' : BtNode IdxKey Row}
    (hunder : Under base base.root id) (hunder' : Under base base.root id')
    (hn' : base.nodes id' = some n') (hne : id' ≠ id) (idx j : Nat) (data : List Byte) :
    current (store base stored (.writeRow id idx j data)) n' = current stored n' := by
  cases hpointers' : n'.pointers with
  | nodes ids => rw [current_nodes hpointers', current_nodes hpointers']
  | items chains' =>
      obtain ⟨n, hn, -⟩ := tree.node id hunder
      have hsame : ∀ k ∈ n'.keys, store base stored (.writeRow id idx j data) k = stored k := by
        intro k hk
        cases hpointers : n.pointers with
        | nodes ids => simp only [store, hn, hpointers]
        | items chains =>
            cases hidx : n.keys[idx]? with
            | none => simp only [store, hn, hpointers, hidx]
            | some key =>
                simp only [store, hn, hpointers, hidx]
                refine Function.update_of_ne (fun hkey => ?_) _ _
                subst hkey
                exact hne (tree.apart id' id n' n chains' chains k hunder' hunder hn' hn hpointers'
                  hpointers hk (List.mem_of_getElem? hidx))
      rw [current_items hpointers', current_items hpointers', List.map_congr_left hsame]

/-! ### The room in the cache -/

theorem place_injective {id id' : Nat} (h : place id = place id') : id = id' := (Prod.mk.inj h).2

/-- The bytes that the cache counts for a node. -/
def bytesOf (base : Index IdxKey Row) (nodeBytes id : Nat) : Nat :=
  match base.nodes id with
  | none => 0
  | some n => getSize nodeBytes (copyOf id n)

/-- There are slots and room for the nodes up to `last` when a node takes at most its cost. -/
def Room (cost : Nat → Nat) (last slots siz : Nat) : Prop :=
  last < slots ∧ siz < 2 ^ 64 ∧ ∑ id ∈ Finset.range (last + 1), cost id ≤ siz

/-- The cache has slots and room for the whole tree. -/
def HasRoom (base : Index IdxKey Row) (btreeNodeNum siz nodeBytes : Nat) : Prop :=
  Room (bytesOf base nodeBytes) base.btreeNodeId btreeNodeNum siz

def sizeAt (c : LruCache BTNode) (id : Nat) : Option Nat :=
  (c.cache (place id)).map CacheNode.size

/-- The cache counts the bytes of the nodes in it, and none takes more than its cost. -/
structure Fits (cost : Nat → Nat) (last slots siz : Nat) (c : LruCache BTNode) : Prop where
  parts : c.n = 1
  slots : c.m = slots
  limit : c.limit = siz
  sizes : ∀ id size, sizeAt c id = some size → size ≤ cost id ∧ id ≤ last
  bytes : c.cachedBytes = ∑ id ∈ Finset.range (last + 1), (sizeAt c id).getD 0

section Room

variable {cost : Nat → Nat} {last slots siz : Nat} {c c' : LruCache BTNode}

theorem fits_init (cost : Nat → Nat) (last slots siz : Nat) :
    Fits cost last slots siz (LruCache.init slots 1 siz) where
  parts := rfl
  slots := Nat.div_one _
  limit := rfl
  sizes := by
    intro id size h
    cases h
  bytes := by
    simp [sizeAt, LruCache.init]

/-- What does not change the sizes does not change the room. -/
theorem Fits.congr (h : Fits cost last slots siz c) (hn : c'.n = c.n)
    (hm : c'.m = c.m) (hlimit : c'.limit = c.limit) (hbytes : c'.cachedBytes = c.cachedBytes)
    (hsizes : ∀ id, sizeAt c' id = sizeAt c id) : Fits cost last slots siz c' where
  parts := hn.trans h.parts
  slots := hm.trans h.slots
  limit := hlimit.trans h.limit
  sizes := fun id size hid => h.sizes id size (hsizes id ▸ hid)
  bytes := by
    simp only [hsizes, hbytes, h.bytes]

theorem sizeAt_update {p : PageId} {node node' : CacheNode BTNode} (hp : c.cache p = some node)
    (hcache : c'.cache = Function.update c.cache p (some node')) (hsize : node'.size = node.size)
    (id : Nat) : sizeAt c' id = sizeAt c id := by
  unfold sizeAt
  rw [hcache]
  by_cases hid : place id = p
  · subst hid
    simp [hp, hsize]
  · simp [hid]

theorem Fits.tryLoad {p : PageId} {r : Option BTNode}
    (h : Fits cost last slots siz c) (hload : c.tryLoad p = some (c', r)) :
    Fits cost last slots siz c' := by
  unfold LruCache.tryLoad at hload
  split at hload
  case isFalse => cases hload
  cases hp : c.cache p with
  | none =>
      rw [hp] at hload
      cases hload
      exact h
  | some node =>
      rw [hp] at hload
      cases hload
      refine h.congr rfl rfl rfl rfl (sizeAt_update hp rfl ?_)
      rfl

theorem Fits.release (h : Fits cost last slots siz c) (p : PageId) :
    Fits cost last slots siz (c.release p) := by
  obtain ⟨hn, hm, hlimit, hbytes⟩ := LruCache.release_params c p
  refine h.congr hn hm hlimit hbytes fun id => ?_
  unfold LruCache.release
  cases hp : c.cache p with
  | none => rfl
  | some node =>
      refine sizeAt_update hp rfl ?_ id
      rfl

theorem Fits.setValue (h : Fits cost last slots siz c) (p : PageId) (v : BTNode) :
    Fits cost last slots siz (c.setValue p v) := by
  refine h.congr rfl rfl rfl rfl fun id => ?_
  cases hp : c.cache p with
  | none =>
      unfold LruCache.setValue
      rw [hp, Option.map_none, ← hp, Function.update_eq_self]
  | some node =>
      have hcache : (c.setValue p v).cache =
          Function.update c.cache p (some { node with value := v }) := by
        rw [LruCache.setValue, hp, Option.map_some]
      refine sizeAt_update hp hcache ?_ id
      rfl

theorem Fits.getD_le (h : Fits cost last slots siz c) (id : Nat) :
    (sizeAt c id).getD 0 ≤ cost id := by
  cases hsize : sizeAt c id with
  | none => exact Nat.zero_le _
  | some size => exact (h.sizes id size hsize).1

/-- There is room for a node that is not in the cache. -/
theorem Fits.room (h : Fits cost last slots siz c)
    (hroom : Room cost last slots siz) {id : Nat} (hid : id ≤ last)
    (hmiss : c.value (place id) = none) {size : Nat} (hsize : size ≤ cost id) :
    c.cachedBytes + size ≤ c.limit := by
  obtain ⟨-, -, hbytes⟩ := hroom
  have hmem : id ∈ Finset.range (last + 1) :=
    Finset.mem_range.mpr (Nat.lt_succ_of_le hid)
  have hzero : (sizeAt c id).getD 0 = 0 := by
    have hslot : c.cache (place id) = none := by simpa [LruCache.value] using hmiss
    simp [sizeAt, hslot]
  have hle : ∀ i ∈ (Finset.range (last + 1)).erase id,
      (sizeAt c i).getD 0 ≤ cost i := fun i _ => h.getD_le i
  have hsum := Finset.sum_le_sum hle
  have hheld := Finset.add_sum_erase _ (fun i => (sizeAt c i).getD 0) hmem
  have hall := Finset.add_sum_erase _ (cost) hmem
  rw [h.limit, h.bytes]
  omega

theorem Fits.inRange (h : Fits cost last slots siz c)
    (hroom : Room cost last slots siz) {id : Nat} (hid : id ≤ last) :
    c.InRange (place id) := by
  refine ⟨?_, ?_⟩
  · rw [h.parts]
    exact Nat.one_pos
  · rw [h.slots]
    exact Nat.lt_of_le_of_lt hid hroom.1

/-- A node that was not in the cache is put there. -/
theorem Fits.insert (h : Fits cost last slots siz c) {id : Nat}
    (hid : id ≤ last) (hmiss : c.value (place id) = none) (node : CacheNode BTNode)
    (hsize : node.size ≤ cost id) (hn : c'.n = c.n) (hm : c'.m = c.m)
    (hlimit : c'.limit = c.limit) (hbytes : c'.cachedBytes = c.cachedBytes + node.size)
    (hcache : c'.cache = Function.update c.cache (place id) (some node)) :
    Fits cost last slots siz c' := by
  have hslot : sizeAt c id = none := by
    have hempty : c.cache (place id) = none := by simpa [LruCache.value] using hmiss
    simp [sizeAt, hempty]
  have hself : sizeAt c' id = some node.size := by
    simp [sizeAt, hcache]
  have hother : ∀ i, i ≠ id → sizeAt c' i = sizeAt c i := by
    intro i hi
    have hne : place i ≠ place id := fun heq => hi (Prod.mk.inj heq).2
    simp [sizeAt, hcache, hne]
  refine ⟨hn.trans h.parts, hm.trans h.slots, hlimit.trans h.limit, ?_, ?_⟩
  · intro i size hi
    by_cases hii : i = id
    · subst hii
      rw [hself] at hi
      cases hi
      exact ⟨hsize, hid⟩
    · rw [hother i hii] at hi
      exact h.sizes i size hi
  · have hmem : id ∈ Finset.range (last + 1) :=
      Finset.mem_range.mpr (Nat.lt_succ_of_le hid)
    have hrest : ∑ i ∈ (Finset.range (last + 1)).erase id, (sizeAt c' i).getD 0 =
        ∑ i ∈ (Finset.range (last + 1)).erase id, (sizeAt c i).getD 0 :=
      Finset.sum_congr rfl fun i hi => by rw [hother i (Finset.ne_of_mem_erase hi)]
    have hafter := Finset.add_sum_erase _ (fun i => (sizeAt c' i).getD 0) hmem
    have hbefore := Finset.add_sum_erase _ (fun i => (sizeAt c i).getD 0) hmem
    simp only [hself, hslot, Option.getD_some, Option.getD_none] at hafter hbefore
    rw [hbytes, h.bytes, ← hafter, ← hbefore, hrest]
    omega

/-- With room for the whole tree a node that is not in the cache is put there, and none makes
    room for it. -/
theorem Fits.loadAndSwap (h : Fits cost last slots siz c)
    (hroom : Room cost last slots siz) {id size : Nat} (hid : id ≤ last)
    (hmiss : c.value (place id) = none) (hsize : size ≤ cost id) {v : BTNode}
    {r : Option (Swap BTNode)} (hload : c.loadAndSwap (place id) size v = some (c', r)) :
    r = some ⟨none, v⟩ ∧ Fits cost last slots siz c' := by
  have hlimit : c.limit < 2 ^ 64 := h.limit ▸ hroom.2.1
  have hfits := h.room hroom hid hmiss hsize
  obtain ⟨c₁, hload₁, -⟩ :=
    LruCache.loadAndSwap_room v (h.inRange hroom hid) hmiss hfits hlimit
  rw [hload] at hload₁
  cases hload₁
  refine ⟨rfl, ?_⟩
  rcases LruCache.loadAndSwap_cases hload with ⟨node, hnode, -⟩ | ⟨-, hr, -⟩ | ⟨-, -, rfl⟩ |
    ⟨e, victim, rest, -, -, -, -, -, hr, -⟩
  · have hslot : c.cache (place id) = none := by simpa [LruCache.value] using hmiss
    rw [hslot] at hnode
    cases hnode
  · cases hr
  · have hbytes : wrap64 (c.cachedBytes + size) = c.cachedBytes + size :=
      Nat.mod_eq_of_lt (Nat.lt_of_le_of_lt hfits hlimit)
    exact h.insert hid hmiss ⟨wrap64 (c.timestamp + 1), 1, v, size⟩ hsize rfl rfl rfl hbytes rfl
  · cases hr

theorem Fits.cachedBytes_le (h : Fits cost last slots siz c)
    (hroom : Room cost last slots siz) : c.cachedBytes ≤ siz := by
  have hle : ∀ id ∈ Finset.range (last + 1),
      (sizeAt c id).getD 0 ≤ cost id := fun id _ => h.getD_le id
  rw [h.bytes]
  exact (Finset.sum_le_sum hle).trans hroom.2.2

/-- A node in the cache is taken out. -/
theorem Fits.remove (h : Fits cost last slots siz c)
    (hroom : Room cost last slots siz) {id : Nat} {node : CacheNode BTNode}
    (hnode : c.cache (place id) = some node) :
    Fits cost last slots siz { c with
      cache := Function.update c.cache (place id) none
      cachedBytes := wrap64 (c.cachedBytes + 2 ^ 64 - node.size) } := by
  have hall := h.cachedBytes_le hroom
  have hsiz := hroom.2.1
  have hslot : sizeAt c id = some node.size := by simp [sizeAt, hnode]
  have hother : ∀ i, i ≠ id → sizeAt { c with
      cache := Function.update c.cache (place id) none
      cachedBytes := wrap64 (c.cachedBytes + 2 ^ 64 - node.size) } i = sizeAt c i := by
    intro i hi
    have hne : place i ≠ place id := fun heq => hi (Prod.mk.inj heq).2
    simp [sizeAt, hne]
  refine ⟨h.parts, h.slots, h.limit, ?_, ?_⟩
  · intro i size hi
    by_cases hii : i = id
    · subst hii
      simp [sizeAt] at hi
    · rw [hother i hii] at hi
      exact h.sizes i size hi
  · have hmem : id ∈ Finset.range (last + 1) :=
      Finset.mem_range.mpr (Nat.lt_succ_of_le (h.sizes id _ hslot).2)
    have hrest : ∑ i ∈ (Finset.range (last + 1)).erase id, (sizeAt { c with
        cache := Function.update c.cache (place id) none
        cachedBytes := wrap64 (c.cachedBytes + 2 ^ 64 - node.size) } i).getD 0 =
        ∑ i ∈ (Finset.range (last + 1)).erase id, (sizeAt c i).getD 0 :=
      Finset.sum_congr rfl fun i hi => by rw [hother i (Finset.ne_of_mem_erase hi)]
    have hbefore := Finset.add_sum_erase _ (fun i => (sizeAt c i).getD 0) hmem
    rw [← Finset.add_sum_erase _ _ hmem, hrest]
    simp only [hslot, Option.getD_some] at hbefore
    have hbytes := h.bytes
    have hgone : (sizeAt { c with
        cache := Function.update c.cache (place id) none
        cachedBytes := wrap64 (c.cachedBytes + 2 ^ 64 - node.size) } id).getD 0 = 0 := by
      simp [sizeAt]
    rw [hgone]
    show wrap64 (c.cachedBytes + 2 ^ 64 - node.size) = _
    rw [wrap64]
    omega

end Room

end IndexBTEnc

end VeriTxn
