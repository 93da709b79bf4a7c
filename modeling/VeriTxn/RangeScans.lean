import VeriTxn.Cursors
import VeriTxn.IndexBTEncStatic
import VeriTxn.RowPages

/-!
# Range scans

A tree that is loaded and no longer changed, and scans over it.  The items in the leaves are a list
in the order of their keys, and the `from_page` and `offset` in a row are a position in this list:
`index_next` finds the next item from the position in the row of the last one, which it moves on.
-/

namespace VeriTxn.RowPages

open Bytes BPlusTree IndexBTree HashIndex

namespace Pages

/-- `n` calls of `index_next` on the item last returned, up to a null item. -/
def nexts : Nat → Pages → RowPtr → Option (Pages × List (Option RowPtr))
  | 0, s, _ => some (s, [])
  | n + 1, s, last => do
      let (s, item) ← s.indexNext last
      match item with
      | none => some (s, [none])
      | some item => do
          let (s, rest) ← nexts n s item
          some (s, some item :: rest)

/-- A scan: `index_read` of a key and `n` calls of `index_next`. -/
def scan (s : Pages) (key : IdxKey) (n : Nat) : Option (Pages × List (Option RowPtr)) := do
  let (s, item) ← s.indexRead key
  match item with
  | none => some (s, [none])
  | some item => do
      let (s, rest) ← nexts n s item
      some (s, some item :: rest)

/-- The key in whose slot an item was made. -/
def keyOf (s : Pages) : RowPtr → Option IdxKey
  | .made page slot _ => (s.heap page).bind fun p => p.keys[slot]?
  | .inserted _ => none

/-- Scans one after another, each with the keys of the items it returns. -/
def scans : Pages → List (IdxKey × Nat) → Option (List (List (Option (Option IdxKey))))
  | _, [] => some []
  | s, (key, n) :: rest => do
      let (s, items) ← s.scan key n
      let results ← scans s rest
      some (items.map (Option.map s.keyOf) :: results)

end Pages

/-! ### Where the items are -/

/-- The slots of the leaves, one leaf after the other. -/
def spots (base : Index IdxKey Row) (leaves : List Nat) : List (Nat × Nat) :=
  leaves.flatMap fun id => (List.range (keysOf base id).length).map (Prod.mk id)

section Spots

variable {base : Index IdxKey Row}

theorem getElem?_spots_cons (id : Nat) (leaves : List Nat) (m : Nat) :
    (spots base (id :: leaves))[m]? =
      if m < (keysOf base id).length then some (id, m)
      else (spots base leaves)[m - (keysOf base id).length]? := by
  rw [spots, List.flatMap_cons]
  by_cases hm : m < (keysOf base id).length
  · rw [if_pos hm, List.getElem?_append_left (by simpa using hm), List.getElem?_map,
      List.getElem?_range hm]
    rfl
  · rw [if_neg hm, List.getElem?_append_right (by simpa using hm), List.length_map,
      List.length_range]
    rfl

/-- The key of an item, by its place in the list of all keys. -/
theorem spots_key {leaves : List Nat} {m id i : Nat} (h : (spots base leaves)[m]? = some (id, i)) :
    id ∈ leaves ∧ i < (keysOf base id).length ∧
      (leaves.flatMap (keysOf base))[m]? = (keysOf base id)[i]? := by
  induction leaves generalizing m with
  | nil => cases h
  | cons a leaves ih =>
      rw [getElem?_spots_cons] at h
      rw [List.flatMap_cons]
      split at h
      · rename_i hm
        cases h
        exact ⟨List.mem_cons_self .., hm, List.getElem?_append_left hm⟩
      · rename_i hm
        obtain ⟨hmem, hlt, hkey⟩ := ih h
        refine ⟨List.mem_cons_of_mem _ hmem, hlt, ?_⟩
        rw [List.getElem?_append_right (Nat.le_of_not_lt hm), hkey]

theorem length_spots (leaves : List Nat) :
    (spots base leaves).length = (leaves.flatMap (keysOf base)).length := by
  induction leaves with
  | nil => rfl
  | cons a leaves ih =>
      rw [spots, List.flatMap_cons, List.flatMap_cons, List.length_append, List.length_append,
        List.length_map, List.length_range]
      exact congrArg _ ih

/-- Every slot of a leaf is a spot. -/
theorem exists_spot {leaves : List Nat} {id i : Nat} (hid : id ∈ leaves)
    (hi : i < (keysOf base id).length) : ∃ m : Nat, (spots base leaves)[m]? = some (id, i) := by
  refine List.mem_iff_getElem?.mp (List.mem_flatMap.mpr ⟨id, hid, ?_⟩)
  exact List.mem_map.mpr ⟨i, List.mem_range.mpr hi, rfl⟩

theorem spots_nodup {leaves : List Nat} (h : leaves.Nodup) : (spots base leaves).Nodup := by
  refine List.nodup_flatMap.mpr ⟨fun id _ => ?_, h.imp fun {id id'} hne => ?_⟩
  · exact List.nodup_range.map fun i j heq => (Prod.mk.inj heq).2
  · intro spot hspot hspot'
    obtain ⟨i, -, rfl⟩ := List.mem_map.mp hspot
    obtain ⟨j, -, heq⟩ := List.mem_map.mp hspot'
    exact hne (Prod.mk.inj heq).1.symm

/-- A slot is found at one place. -/
theorem spots_inj {leaves : List Nat} (h : leaves.Nodup) {m m' : Nat} {spot : Nat × Nat}
    (hm : (spots base leaves)[m]? = some spot) (hm' : (spots base leaves)[m']? = some spot) :
    m = m' := by
  have hlt := (List.getElem?_eq_some_iff.mp hm).1
  exact (List.getElem?_inj hlt (spots_nodup h)).mp (hm.trans hm'.symm)

theorem followNext_first {fuel : Nat} {start : Option Nat} {leaves : List Nat}
    (h : followNext base fuel start = some leaves) : start = leaves.head? := by
  cases fuel with
  | zero =>
      cases start with
      | none =>
          cases h
          rfl
      | some a => cases h
  | succ fuel =>
      cases start with
      | none =>
          cases h
          rfl
      | some a =>
          rw [followNext] at h
          obtain ⟨node, -, h⟩ := Option.bind_eq_some_iff.mp h
          obtain ⟨rest, -, rfl⟩ := Option.map_eq_some_iff.mp h
          rfl

/-- The first item of the leaves. -/
theorem spots_first {leaves : List Nat} (hkeys : ∀ id ∈ leaves, keysOf base id ≠ []) :
    (spots base leaves)[0]? = leaves.head?.map fun id => (id, 0) := by
  cases leaves with
  | nil => rfl
  | cons a leaves =>
      rw [getElem?_spots_cons, if_pos (List.length_pos_iff.mpr (hkeys a (List.mem_cons_self ..)))]
      rfl

/-- The item after an item is in the next slot, or in the first one of the next leaf. -/
theorem spots_next {fuel : Nat} {start : Option Nat} {leaves : List Nat}
    (hfollow : followNext base fuel start = some leaves)
    (hkeys : ∀ id ∈ leaves, keysOf base id ≠ []) {m id i : Nat} {n : BtNode IdxKey Row}
    (hm : (spots base leaves)[m]? = some (id, i)) (hn : base.nodes id = some n) :
    (spots base leaves)[m + 1]? =
      if i + 1 < n.keys.length then some (id, i + 1) else n.next.map fun id' => (id', 0) := by
  induction fuel generalizing start leaves m with
  | zero =>
      cases start with
      | none =>
          cases hfollow
          cases hm
      | some a => cases hfollow
  | succ fuel ih =>
      cases start with
      | none =>
          cases hfollow
          cases hm
      | some a =>
          rw [followNext] at hfollow
          obtain ⟨node, hnode, hfollow⟩ := Option.bind_eq_some_iff.mp hfollow
          obtain ⟨rest, hrest, rfl⟩ := Option.map_eq_some_iff.mp hfollow
          have hkeysa : keysOf base a = node.keys := by rw [keysOf, hnode]
          have hkeysr : ∀ id ∈ rest, keysOf base id ≠ [] :=
            fun id hid => hkeys id (List.mem_cons_of_mem _ hid)
          rw [getElem?_spots_cons] at hm ⊢
          by_cases hlt : m < (keysOf base a).length
          · rw [if_pos hlt] at hm
            obtain ⟨hid, hi⟩ := Prod.mk.inj (Option.some.inj hm)
            subst hid hi
            rw [hnode] at hn
            have hsame := Option.some.inj hn
            subst hsame
            rw [hkeysa] at hlt ⊢
            by_cases hin : m + 1 < node.keys.length
            · rw [if_pos hin, if_pos hin]
            · have hend : m + 1 - node.keys.length = 0 := by omega
              rw [if_neg hin, if_neg hin, hend, spots_first hkeysr, followNext_first hrest]
          · rw [if_neg hlt] at hm
            have hlt' : ¬ m + 1 < (keysOf base a).length := by omega
            have hsub : m + 1 - (keysOf base a).length = m - (keysOf base a).length + 1 := by omega
            rw [if_neg hlt', hsub]
            exact ih hrest hkeysr hm

end Spots

/-! ### The pages that are loaded -/

/-- What is used of the tree: its leaves in their order, and their items. -/
structure Chained (base : Index IdxKey Row) (leaves : List Nat) : Prop where
  tree : StaticTree base
  follow : ∃ fuel start, followNext base fuel start = some leaves
  mem : ∀ m, m ∈ leaves ↔ Under base base.root m ∧ IsLeaf base m
  nodup : leaves.Nodup
  latches : ∀ id, (base.latches id).latchType = .none
  items : ∀ id n chains, Under base base.root id → base.nodes id = some n →
    n.pointers = .items chains → chains.length = n.keys.length ∧ ∀ chain ∈ chains, chain ≠ []

/-- The only page of a node. -/
def only (id : Nat) : PagePtr := ⟨id, 0⟩

/-- The page that `make_node` makes. -/
def pageOf (id : Nat) (n : BtNode IdxKey Row) : Page :=
  ⟨id, n.keys, match n.pointers with
    | .items chains => .items (Pages.madeItems (only id) chains)
    | .nodes ids => .nodes ids, n.parent.getD 0, n.next.getD 0, id, .free⟩

/-- The back pointers that stand for a position in the list of items. -/
def backPointers : Option (Nat × Nat) → Option PagePtr × Nat
  | some (id, i) => (some (only id), i)
  | none => (none, 0)

/-- The root or a node in the cache. -/
def Loaded (base : Index IdxKey Row) (s : Pages) (id : Nat) : Prop :=
  id = base.root ∨ s.cache id = some (only id)

/-- The pages are copies of the nodes, and the rows of the items in them keep the positions `pos`. -/
structure View (base : Index IdxKey Row) (leaves : List Nat) (pos : Nat → Nat) (s : Pages) :
    Prop where
  index : s.index = base
  root : s.root = only base.root
  cached : ∀ id p, s.cache id = some p → p = only id ∧ Under base base.root id
  copies : ∀ id, ¬ Loaded base s id → s.copies id = 0
  heap : ∀ id n, Under base base.root id → Loaded base s id → base.nodes id = some n →
    s.heap (only id) = some (pageOf id n)
  rows : ∀ m id i, (spots base leaves)[m]? = some (id, i) → Loaded base s id →
    ∃ row, s.rows (.made (only id) i 0) =
      some ⟨row, (backPointers (spots base leaves)[pos m]?).1,
        (backPointers (spots base leaves)[pos m]?).2⟩
  fresh : ∀ m id i, (spots base leaves)[m]? = some (id, i) → ¬ Loaded base s id → pos m = m
  target : ∀ m id i id' i', (spots base leaves)[m]? = some (id, i) → Loaded base s id →
    (spots base leaves)[pos m]? = some (id', i') → Loaded base s id'

section Loads

variable {base : Index IdxKey Row} {leaves : List Nat} {pos : Nat → Nat} {s : Pages}

theorem head_madeItems (page : PagePtr) {chains : List (List Row)} {i : Nat} {chain : List Row}
    (h : chains[i]? = some chain) (hne : chain ≠ []) :
    ∃ item, (Pages.madeItems page chains)[i]? = some item ∧
      item.head? = some (RowPtr.made page i 0) := by
  obtain ⟨row, chain, rfl⟩ := List.exists_cons_of_ne_nil hne
  refine ⟨_, by rw [Pages.madeItems, List.getElem?_mapIdx, h]; rfl, ?_⟩
  simp [List.mapIdx_cons]

/-- What `make_node` does with a node that has no page yet. -/
theorem makeNode_eq {out : Nat} {n : BtNode IdxKey Row} (hn : s.index.nodes out = some n)
    (hkeys : n.keys ≠ []) (hcopies : s.copies out = 0) :
    s.makeNode out out = some ({ s with
      heap := Function.update s.heap (only out) (some (pageOf out n))
      copies := Function.update s.copies out 1
      rows := match n.pointers with
        | .items chains => Pages.madeRows (only out) chains s.rows
        | .nodes _ => s.rows }, only out) := by
  rw [Pages.makeNode]
  simp only [hn, Option.bind_eq_bind, Option.bind_some, if_neg hkeys, hcopies]
  cases hpointers : n.pointers with
  | items chains => simp [pageOf, hpointers, only]
  | nodes ids => simp [pageOf, hpointers, only]

/-- The rows of a page that is made have their own place. -/
theorem madeRows_self {page : PagePtr} {chains : List (List Row)} {i : Nat} {chain : List Row}
    (h : chains[i]? = some chain) (hne : chain ≠ []) (rows : RowPtr → Option RowObj) :
    ∃ row, Pages.madeRows page chains rows (.made page i 0) = some ⟨row, some page, i⟩ := by
  obtain ⟨row, chain, rfl⟩ := List.exists_cons_of_ne_nil hne
  exact ⟨row, by simp [Pages.madeRows, h]⟩

theorem madeRows_of_ne {page page' : PagePtr} (hne : page' ≠ page) (chains : List (List Row))
    (rows : RowPtr → Option RowObj) (i j : Nat) :
    Pages.madeRows page chains rows (.made page' i j) = rows (.made page' i j) := by
  simp [Pages.madeRows, hne]

/-- A slot of a leaf has an item. -/
theorem Chained.item (hchain : Chained base leaves) {m id i : Nat}
    (hm : (spots base leaves)[m]? = some (id, i)) :
    ∃ n chains chain, Under base base.root id ∧ base.nodes id = some n ∧
      n.pointers = .items chains ∧ i < n.keys.length ∧ chains[i]? = some chain ∧ chain ≠ [] := by
  obtain ⟨hid, hi, -⟩ := spots_key hm
  obtain ⟨hunder, n, chains, hn, hpointers⟩ := (hchain.mem id).mp hid
  obtain ⟨hlen, hne⟩ := hchain.items id n chains hunder hn hpointers
  rw [keysOf, hn] at hi
  have hlt : i < chains.length := hlen ▸ hi
  exact ⟨n, chains, chains[i], hunder, hn, hpointers, hi, List.getElem?_eq_getElem hlt,
    hne _ (List.getElem_mem hlt)⟩

/-- The item in the slot of a page. -/
theorem Chained.head_item (hchain : Chained base leaves) {m id i : Nat}
    (hm : (spots base leaves)[m]? = some (id, i)) {n : BtNode IdxKey Row}
    (hn : base.nodes id = some n) :
    ∃ data item, (pageOf id n).contents = .items data ∧ data[i]? = some item ∧
      item.head? = some (RowPtr.made (only id) i 0) := by
  obtain ⟨n', chains, chain, -, hn', hpointers, -, hchains, hne⟩ := hchain.item hm
  rw [hn] at hn'
  cases hn'
  obtain ⟨item, hitem, hhead⟩ := head_madeItems (only id) hchains hne
  exact ⟨_, item, by simp only [pageOf, hpointers], hitem, hhead⟩

/-- The page of a node that was not loaded before. -/
theorem View.make (hchain : Chained base leaves) (h : View base leaves pos s) {id : Nat}
    {n : BtNode IdxKey Row} (hunder : Under base base.root id) (hn : base.nodes id = some n)
    (hout : ¬ Loaded base s id) :
    View base leaves pos { s with
      cache := Function.update s.cache id (some (only id))
      heap := Function.update s.heap (only id) (some (pageOf id n))
      copies := Function.update s.copies id 1
      rows := match n.pointers with
        | .items chains => Pages.madeRows (only id) chains s.rows
        | .nodes _ => s.rows } := by
  have hother : ∀ id', id' ≠ id → (Loaded base { s with
      cache := Function.update s.cache id (some (only id)) } id' ↔ Loaded base s id') := by
    intro id' hne
    simp only [Loaded, Function.update_of_ne hne]
  have honly : ∀ {id'}, id' ≠ id → only id' ≠ only id := fun hne heq =>
    hne (congrArg PagePtr.id heq)
  refine ⟨h.index, h.root, ?_, ?_, ?_, ?_, ?_, ?_⟩
  · intro id' p hp
    by_cases hid : id' = id
    · subst hid
      simp only [Function.update_self, Option.some.injEq] at hp
      exact ⟨hp.symm, hunder⟩
    · simp only [Function.update_of_ne hid] at hp
      exact h.cached id' p hp
  · intro id' hout'
    by_cases hid : id' = id
    · subst hid
      exact absurd (Or.inr (Function.update_self ..)) hout'
    · simp only [Function.update_of_ne hid]
      exact h.copies id' fun hin => hout' ((hother id' hid).mpr hin)
  · intro id' n' hunder' hloaded hn'
    by_cases hid : id' = id
    · subst hid
      rw [hn] at hn'
      cases hn'
      exact Function.update_self ..
    · simp only [Function.update_of_ne (honly hid)]
      exact h.heap id' n' hunder' ((hother id' hid).mp hloaded) hn'
  · intro m id' i hm hloaded
    by_cases hid : id' = id
    · subst hid
      obtain ⟨n', chains, chain, -, hn', hpointers, -, hchains, hne⟩ := hchain.item hm
      rw [hn] at hn'
      cases hn'
      rw [h.fresh m id' i hm hout, hm]
      simp only [hpointers]
      exact madeRows_self hchains hne s.rows
    · obtain ⟨row, hrow⟩ := h.rows m id' i hm ((hother id' hid).mp hloaded)
      refine ⟨row, ?_⟩
      rw [← hrow]
      cases n.pointers with
      | items chains => exact madeRows_of_ne (honly hid) chains s.rows i 0
      | nodes ids => rfl
  · intro m id' i hm hout'
    by_cases hid : id' = id
    · subst hid
      exact h.fresh m id' i hm hout
    · exact h.fresh m id' i hm fun hin => hout' ((hother id' hid).mpr hin)
  · intro m id' i id'' i'' hm hloaded htarget
    by_cases hid : id' = id
    · subst hid
      rw [h.fresh m id' i hm hout, hm] at htarget
      cases htarget
      exact hloaded
    · have hin := h.target m id' i id'' i'' hm ((hother id' hid).mp hloaded) htarget
      by_cases hid' : id'' = id
      · exact absurd (hid' ▸ hin) hout
      · exact (hother id'' hid').mpr hin

/-- The load of a node below the root. -/
theorem View.loadNode (hchain : Chained base leaves) (h : View base leaves pos s) {id : Nat}
    (hunder : Under base base.root id) (hroot : id ≠ base.root) :
    ∃ s', s.loadNode (some id) id = some (s', only id) ∧ View base leaves pos s' ∧
      Loaded base s' id ∧ ∀ id', Loaded base s id' → Loaded base s' id' := by
  obtain ⟨n, hn, hkeys⟩ := hchain.tree.node id hunder
  cases hcache : s.cache id with
  | some p =>
      obtain ⟨rfl, -⟩ := h.cached id p hcache
      exact ⟨s, by rw [Pages.loadNode, hcache], h, .inr hcache, fun _ hin => hin⟩
  | none =>
      have hout : ¬ Loaded base s id := by
        rintro (heq | hin)
        · exact hroot heq
        · rw [hcache] at hin
          cases hin
      have hn' : s.index.nodes id = some n := by rw [h.index, hn]
      have hlatch : ¬ (s.index.latches id).latchType ≠ .none := by
        rw [h.index, hchain.latches]
        simp
      refine ⟨_, ?_, h.make hchain hunder hn hout, .inr (Function.update_self ..), ?_⟩
      · rw [Pages.loadNode, hcache]
        simp only [Option.bind_eq_bind, Option.bind_some, if_neg hlatch,
          makeNode_eq hn' hkeys (h.copies id hout)]
      · rintro id' (heq | hin)
        · exact .inl heq
        · refine .inr ?_
          have hne : id' ≠ id := by
            rintro rfl
            rw [hcache] at hin
            cases hin
          rw [← hin]
          exact Function.update_of_ne hne ..

theorem View.loadChild (hchain : Chained base leaves) (h : View base leaves pos s) {c i id : Nat}
    {n : BtNode IdxKey Row} {ids : List Nat} (hunder : Under base base.root c)
    (hloaded : Loaded base s c) (hn : base.nodes c = some n) (hids : n.pointers = .nodes ids)
    (hid : ids[i]? = some id) :
    ∃ s', s.loadChild (only c) i = some (s', some (only id)) ∧ View base leaves pos s' ∧
      Loaded base s' id ∧ ∀ id', Loaded base s id' → Loaded base s' id' := by
  have hstep : Child base c id := ⟨n, ids, hn, hids, List.mem_of_getElem? hid⟩
  have hbelow : Under base base.root id := hunder.tail hstep
  have hpos : id ≠ 0 := Nat.pos_iff_ne_zero.mp (hchain.tree.bound id hbelow).1
  have hle : i ≤ n.keys.length := by
    have hlt := (List.getElem?_eq_some_iff.mp hid).1
    rw [hchain.tree.width c n ids hunder hn hids] at hlt
    omega
  have horigin : IndexBTEnc.originChild n i = some id := by
    rw [IndexBTEnc.originChild, hids]
    simp only
    rw [if_pos hle, hid]
  obtain ⟨s', hload, hview⟩ := h.loadNode hchain hbelow (hchain.tree.below c id hunder hstep)
  refine ⟨s', ?_, hview⟩
  have hpage := h.heap c n hunder hloaded hn
  have hnode : s.index.nodes (pageOf c n).origin = some n := by
    rw [h.index]
    exact hn
  rw [Pages.loadChild]
  simp only [hpage, hnode, Option.bind_eq_bind, Option.bind_some]
  simp only [pageOf, hids, hid, Option.bind_some, if_neg hpos, horigin, hload]

/-- `load_next` of a leaf. -/
theorem View.loadNext (hchain : Chained base leaves) (h : View base leaves pos s) {id : Nat}
    {n : BtNode IdxKey Row} {chains : List (List Row)} (hunder : Under base base.root id)
    (hloaded : Loaded base s id) (hn : base.nodes id = some n) (hchains : n.pointers = .items chains) :
    ∃ s', s.loadNext (only id) = some (s', n.next.map only) ∧ View base leaves pos s' ∧
      (∀ y, n.next = some y → Loaded base s' y) ∧ ∀ id', Loaded base s id' → Loaded base s' id' := by
  have hpage := h.heap id n hunder hloaded hn
  have hnode : s.index.nodes (pageOf id n).origin = some n := by
    rw [h.index]
    exact hn
  rw [Pages.loadNext]
  simp only [hpage, hnode, Option.bind_eq_bind, Option.bind_some]
  simp only [pageOf, hchains]
  cases hnext : n.next with
  | none => exact ⟨s, rfl, h, by simp, fun _ hin => hin⟩
  | some y =>
      obtain ⟨hundery, hleafy, hleafroot⟩ := hchain.tree.next id n chains y hunder hn hchains hnext
      have hpos : y ≠ 0 := Nat.pos_iff_ne_zero.mp (hchain.tree.bound y hundery).1
      have hroot : y ≠ base.root := by
        rintro rfl
        exact hleafroot hleafy
      obtain ⟨s', hload, hview, hin, hmono⟩ := h.loadNode hchain hundery hroot
      refine ⟨s', ?_, hview, ?_, hmono⟩
      · simp only [Option.getD_some, if_neg hpos, hload, Option.bind_some]
        rfl
      · intro y' hy'
        cases hy'
        exact hin

/-- The search of a key ends at its leaf. -/
theorem View.findLeaf (hchain : Chained base leaves) (key : IdxKey) : ∀ {d fuel : Nat} {s : Pages}
    {parent succ : Option Nat} {t : Tree IdxKey (List Row) d}, View base leaves pos s →
      Rep base.nodes d parent succ t → Under base base.root (t.id d) → Loaded base s (t.id d) →
      d < fuel →
      ∃ s', Pages.findLeaf key fuel s (only (t.id d)) = some (s', only (t.leafOf key d).id) ∧
        View base leaves pos s' ∧ Under base base.root (t.leafOf key d).id ∧
        Loaded base s' (t.leafOf key d).id
  | 0, fuel, s, _, _, t, h, hrep, hunder, hloaded, hfuel => by
      obtain ⟨fuel, rfl⟩ := Nat.exists_eq_succ_of_ne_zero (by omega : fuel ≠ 0)
      have hpage := h.heap (t.id 0) _ hunder hloaded hrep
      refine ⟨s, ?_, h, hunder, hloaded⟩
      rw [Pages.findLeaf]
      simp only [hpage, Option.bind_eq_bind, Option.bind_some, pageOf]
      rfl
  | d + 1, fuel, s, _, _, t, h, hrep, hunder, hloaded, hfuel => by
      obtain ⟨fuel, rfl⟩ := Nat.exists_eq_succ_of_ne_zero (by omega : fuel ≠ 0)
      obtain ⟨n, ids, succ', hn, hids, hslot, hroute⟩ := Index.Rep.onRoute hrep key
      have hpage := h.heap (t.id (d + 1)) n hunder hloaded hn
      have hbelow := hunder.tail ⟨n, ids, hn, hids, List.mem_of_getElem? hslot⟩
      obtain ⟨s₁, hload, h₁, hin, -⟩ := h.loadChild hchain hunder hloaded hn hids hslot
      obtain ⟨s', hfind, hview⟩ := View.findLeaf hchain key h₁ hroute hbelow hin
        (by omega : d < fuel)
      refine ⟨s', ?_, hview⟩
      rw [Pages.findLeaf]
      simp only [hpage, Option.bind_eq_bind, Option.bind_some]
      simp only [pageOf, hids, hload, Option.bind_some]
      exact hfind

/-- `dfs` loads what there is room for. -/
theorem View.dfs (hchain : Chained base leaves) (canForceLoad : Pages → Bool) : ∀ {d fuel : Nat}
    {s : Pages} {parent succ : Option Nat} {t : Tree IdxKey (List Row) d}, View base leaves pos s →
      Rep base.nodes d parent succ t → Under base base.root (t.id d) → Loaded base s (t.id d) →
      d < fuel →
      ∃ s', Pages.dfs canForceLoad fuel s (only (t.id d)) = some s' ∧ View base leaves pos s' ∧
        ∀ id', Loaded base s id' → Loaded base s' id'
  | 0, fuel, s, _, _, t, h, hrep, hunder, hloaded, hfuel => by
      obtain ⟨fuel, rfl⟩ := Nat.exists_eq_succ_of_ne_zero (by omega : fuel ≠ 0)
      have hpage := h.heap (t.id 0) _ hunder hloaded hrep
      refine ⟨s, ?_, h, fun _ hin => hin⟩
      rw [Pages.dfs]
      split
      · simp only [hpage, Option.bind_eq_bind, Option.bind_some, pageOf]
      · rfl
  | d + 1, fuel, s, _, _, t, h, hrep, hunder, hloaded, hfuel => by
      obtain ⟨fuel, rfl⟩ := Nat.exists_eq_succ_of_ne_zero (by omega : fuel ≠ 0)
      obtain ⟨next, hn⟩ := hrep.1
      have hpage := h.heap (t.id (d + 1)) _ hunder hloaded hn
      rw [Pages.dfs]
      split
      case isFalse => exact ⟨s, rfl, h, fun _ hin => hin⟩
      simp only [hpage, Option.bind_eq_bind, Option.bind_some]
      simp only [pageOf]
      refine Transition.foldlM_eq_some (P := fun s' => View base leaves pos s' ∧
        ∀ id', Loaded base s id' → Loaded base s' id') ?_ ⟨h, fun _ hin => hin⟩
      rintro s₁ i hi ⟨h₁, hmono₁⟩
      have hwidth := hchain.tree.width _ _ _ hunder hn rfl
      rw [List.length_map] at hwidth
      have hlt : i < (Branch.children t).length := hwidth ▸ List.mem_range.mp hi
      have hid : ((Branch.children t).map (Tree.id d))[i]? =
          some ((Branch.children t)[i].id d) := by
        rw [List.getElem?_map, List.getElem?_eq_getElem hlt]
        rfl
      obtain ⟨succ', hchildRep⟩ := Rep.child hrep _ (List.getElem_mem hlt)
      have hbelow := hunder.tail ⟨_, _, hn, rfl, List.mem_of_getElem? hid⟩
      obtain ⟨s₂, hload, h₂, hin, hmono₂⟩ :=
        h₁.loadChild hchain hunder (hmono₁ _ hloaded) hn rfl hid
      obtain ⟨s₃, hdfs, h₃, hmono₃⟩ :=
        View.dfs hchain canForceLoad h₂ hchildRep hbelow hin (by omega : d < fuel)
      refine ⟨s₃, ?_, h₃, fun id' hid' => hmono₃ _ (hmono₂ _ (hmono₁ _ hid'))⟩
      simp only [hload, Option.bind_some]
      exact hdfs

/-- `index_read` of a key of the tree returns the item of the key. -/
theorem View.indexRead {d : Nat} {t : Tree IdxKey (List Row) d} (hbase : base.Represents t)
    (hchain : Chained base leaves) (h : View base leaves pos s) {key : IdxKey}
    (hkey : key ∈ (t.entries d).map Prod.fst) :
    ∃ (s' : Pages) (m id i : Nat), s.indexRead key = some (s', some (.made (only id) i 0)) ∧
      View base leaves pos s' ∧ Loaded base s' id ∧ (spots base leaves)[m]? = some (id, i) ∧
      (leaves.flatMap (keysOf base))[m]? = some key := by
  have hdepth : d < s.index.btreeNodeId := h.index ▸ hbase.depth_lt
  have hself : Under base base.root (t.id d) := hbase.root ▸ Relation.ReflTransGen.refl
  obtain ⟨s₁, hfind, h₁, hunder, hloaded⟩ :=
    h.findLeaf hchain key hbase.rep hself (.inl hbase.root.symm) hdepth
  obtain ⟨parent, succ, hleaf⟩ := Index.Rep.leafOf key hbase.rep
  generalize hid : (t.leafOf key d).id = id at *
  generalize hes : (t.leafOf key d).entries = es at *
  have hmem : key ∈ es.map Prod.fst := by
    obtain ⟨e, he, rfl⟩ := List.mem_map.mp hkey
    have hsome := hbase.ordered.sorted.find_of_mem he
    rw [← hbase.ordered.find_leafOf e.1, hes] at hsome
    exact mem_keys_of_find hsome
  have hleafId : id ∈ leaves := (hchain.mem id).mpr ⟨hunder, _, _, hleaf, rfl⟩
  cases hidx : Index.leafHasKey (es.map Prod.fst) key with
  | none => exact absurd hmem (Index.leafHasKey_eq_none.mp hidx)
  | some i =>
      obtain ⟨hi, hkeyi, -⟩ := List.findIdx?_eq_some_iff_getElem.mp hidx
      have hkeys : keysOf base id = es.map Prod.fst := by rw [keysOf, hleaf]
      obtain ⟨m, hm⟩ := exists_spot hleafId (hkeys ▸ hi)
      obtain ⟨n, chains, chain, -, hn, hpointers, -, hchains, hne⟩ := hchain.item hm
      rw [hleaf] at hn
      cases hn
      cases hpointers
      obtain ⟨item, hitem, hhead⟩ := head_madeItems (only id) hchains hne
      have hpage := h₁.heap id _ hunder hloaded hleaf
      refine ⟨s₁, m, id, i, ?_, h₁, hloaded, hm, ?_⟩
      · have hrelease : s₁.releaseLatch (only id) = some s₁ := by
          rw [Pages.releaseLatch]
          simp only [hpage, Option.bind_eq_bind, Option.bind_some, Pages.setLatch]
          rw [Function.update_eq_self_iff.mpr (by rw [hpage]; rfl)]
        have hroot : s.root = only (t.id d) := by rw [h.root, hbase.root]
        rw [Pages.indexRead, hroot]
        simp only [hfind, hpage, Option.bind_eq_bind, Option.bind_some]
        simp only [pageOf, hidx, hitem, Option.bind_some, hrelease, hhead]
      · rw [(spots_key hm).2.2, hkeys, List.getElem?_eq_getElem hi]
        simpa using hkeyi

/-- The row of an item gets another position. -/
theorem View.setRow (hchain : Chained base leaves) (h : View base leaves pos s) {m id i q : Nat}
    (hm : (spots base leaves)[m]? = some (id, i)) (hloaded : Loaded base s id)
    (hq : ∀ id' i', (spots base leaves)[q]? = some (id', i') → Loaded base s id') (row : Row) :
    View base leaves (Function.update pos m q) { s with
      rows := Function.update s.rows (.made (only id) i 0)
        (some ⟨row, (backPointers (spots base leaves)[q]?).1,
          (backPointers (spots base leaves)[q]?).2⟩) } := by
  refine ⟨h.index, h.root, h.cached, h.copies, h.heap, ?_, ?_, ?_⟩
  · intro m' id' i' hm' hloaded'
    by_cases heq : m' = m
    · subst heq
      rw [hm] at hm'
      cases hm'
      simp only [Function.update_self]
      exact ⟨row, rfl⟩
    · have hne : RowPtr.made (only id') i' 0 ≠ .made (only id) i 0 := by
        intro hptr
        obtain ⟨hpage, hslot, -⟩ := RowPtr.made.inj hptr
        have hid : id' = id := congrArg PagePtr.id hpage
        rw [hid, hslot] at hm'
        exact heq (spots_inj hchain.nodup hm' hm)
      simp only [Function.update_of_ne heq, Function.update_of_ne hne]
      exact h.rows m' id' i' hm' hloaded'
  · intro m' id' i' hm' hout
    by_cases heq : m' = m
    · subst heq
      rw [hm] at hm'
      cases hm'
      exact absurd hloaded hout
    · rw [Function.update_of_ne heq]
      exact h.fresh m' id' i' hm' hout
  · intro m' id' i' id'' i'' hm' hloaded' htarget
    by_cases heq : m' = m
    · rw [heq, Function.update_self] at htarget
      exact hq id'' i'' htarget
    · rw [Function.update_of_ne heq] at htarget
      exact h.target m' id' i' id'' i'' hm' hloaded' htarget

/-- A row whose position is beyond the last item has no page. -/
theorem View.indexNext_end (h : View base leaves pos s) {m id i : Nat}
    (hm : (spots base leaves)[m]? = some (id, i)) (hloaded : Loaded base s id)
    (hend : (spots base leaves)[pos m]? = none) : s.indexNext (.made (only id) i 0) = none := by
  obtain ⟨row, hrow⟩ := h.rows m id i hm hloaded
  rw [hend] at hrow
  rw [Pages.indexNext]
  simp only [hrow, Option.bind_eq_bind, Option.bind_some]
  rfl

/-- `index_next` follows the position in the row and moves it on. -/
theorem View.indexNext (hchain : Chained base leaves) (h : View base leaves pos s) {m id i : Nat}
    (hm : (spots base leaves)[m]? = some (id, i)) (hloaded : Loaded base s id) {a j : Nat}
    (hpos : (spots base leaves)[pos m]? = some (a, j)) :
    ∃ s', s.indexNext (.made (only id) i 0) =
        some (s', (spots base leaves)[pos m + 1]?.map fun spot => .made (only spot.1) spot.2 0) ∧
      View base leaves (Function.update pos m (pos m + 1)) s' ∧
      (∀ id' i', (spots base leaves)[pos m + 1]? = some (id', i') → Loaded base s' id') ∧
      ∀ id', Loaded base s id' → Loaded base s' id' := by
  obtain ⟨row, hrow⟩ := h.rows m id i hm hloaded
  have hin := h.target m id i a j hm hloaded hpos
  obtain ⟨n, chains, chain, hunder, hn, hpointers, -, -, -⟩ := hchain.item hpos
  have hpage := h.heap a n hunder hin hn
  obtain ⟨fuel, start, hfollow⟩ := hchain.follow
  have hkeys : ∀ id ∈ leaves, keysOf base id ≠ [] := by
    intro id' hid'
    obtain ⟨n', hn', hne⟩ := hchain.tree.node id' ((hchain.mem id').mp hid').1
    rwa [keysOf, hn']
  have hnext := spots_next hfollow hkeys hpos hn
  rw [hpos] at hrow
  rw [Pages.indexNext]
  simp only [hrow, backPointers, hpage, Option.bind_eq_bind, Option.bind_some]
  simp only [show (pageOf a n).keys = n.keys from rfl]
  by_cases hlt : j + 1 < n.keys.length
  · rw [if_pos hlt] at hnext
    rw [if_neg (Nat.not_le.mpr hlt)]
    have hview := h.setRow hchain (q := pos m + 1) hm hloaded (by
      intro id' i' hspot
      rw [hnext] at hspot
      cases hspot
      exact hin) row
    rw [hnext] at hview ⊢
    refine ⟨_, ?_, hview, ?_, fun _ hin => hin⟩
    · obtain ⟨data, item, hdata, hitem, hhead⟩ := hchain.head_item hnext hn
      simp only [Option.bind_some, hdata, hitem, hhead, Option.map_some]
      rfl
    · intro id' i' hspot
      cases hspot
      exact hin
  · rw [if_neg hlt] at hnext
    rw [if_pos (Nat.le_of_not_lt hlt)]
    obtain ⟨s₁, hload, h₁, hloaded₁, hmono⟩ := h.loadNext hchain hunder hin hn hpointers
    have hnextLoaded : ∀ id' i', (spots base leaves)[pos m + 1]? = some (id', i') →
        Loaded base s₁ id' := by
      intro id' i' hspot
      rw [hnext] at hspot
      obtain ⟨y, hy, heq⟩ := Option.map_eq_some_iff.mp hspot
      obtain ⟨rfl, -⟩ := Prod.mk.inj heq
      exact hloaded₁ y hy
    have hview := h₁.setRow hchain hm (hmono id hloaded) hnextLoaded row
    cases hy : n.next with
    | none =>
        rw [hy] at hnext hload
        rw [hnext] at hview ⊢
        refine ⟨_, ?_, hview, by simp, hmono⟩
        simp only [hload, Option.bind_some]
        rfl
    | some y =>
        rw [hy] at hnext hload
        rw [hnext] at hview ⊢
        have hyin := hloaded₁ y hy
        obtain ⟨n', -, -, hundery, hny, -⟩ := hchain.item hnext
        have hpagey := h₁.heap y n' hundery hyin hny
        obtain ⟨data, item, hdata, hitem, hhead⟩ := hchain.head_item hnext hny
        refine ⟨_, ?_, hview, ?_, hmono⟩
        · simp only [hload, Option.map_some, Option.bind_some, hpagey, hdata, hitem, hhead]
          rfl
        · intro id' i' hspot
          cases hspot
          exact hyin

end Loads

/-! ### Scans -/

section Scans

variable {base : Index IdxKey Row} {leaves : List Nat} {pos : Nat → Nat} {s : Pages}

/-- The item at a place in the list of all items. -/
def itemAt (base : Index IdxKey Row) (leaves : List Nat) (m : Nat) : Option RowPtr :=
  (spots base leaves)[m]?.map fun spot => .made (only spot.1) spot.2 0

theorem View.nexts (hchain : Chained base leaves) (n : Nat) (h : View base leaves pos s)
    {m id i : Nat} (hm : (spots base leaves)[m]? = some (id, i)) (hloaded : Loaded base s id) :
    match Cursors.nexts (spots base leaves).length n pos m with
    | none => s.nexts n (.made (only id) i 0) = none
    | some (pos', items) => ∃ s', View base leaves pos' s' ∧
        s.nexts n (.made (only id) i 0) = some (s', items.map (·.bind (itemAt base leaves))) ∧
        (∀ q ∈ items, ∀ m' id' i', q = some m' → (spots base leaves)[m']? = some (id', i') →
          Loaded base s' id') ∧ ∀ id', Loaded base s id' → Loaded base s' id' := by
  induction n generalizing pos s m id i with
  | zero => exact ⟨s, h, rfl, by simp, fun _ hin => hin⟩
  | succ n ih =>
      rw [Cursors.nexts, Cursors.next, Pages.nexts]
      by_cases hin : pos m < (spots base leaves).length
      · obtain ⟨s₁, hnext, h₁, hloaded₁, hmono₁⟩ :=
          h.indexNext hchain hm hloaded (List.getElem?_eq_getElem hin)
        simp only [if_pos hin, Option.bind_eq_bind, Option.bind_some, hnext]
        by_cases hlast : pos m + 1 < (spots base leaves).length
        · obtain ⟨⟨a, j⟩, hspot⟩ : ∃ spot, (spots base leaves)[pos m + 1]? = some spot :=
            ⟨_, List.getElem?_eq_getElem hlast⟩
          have hrest := ih h₁ hspot (hloaded₁ _ _ hspot)
          simp only [if_pos hlast, hspot, Option.map_some]
          cases hnexts : Cursors.nexts (spots base leaves).length n
              (Function.update pos m (pos m + 1)) (pos m + 1) with
          | none =>
              rw [hnexts] at hrest
              simp only at hrest
              simp only [hrest, Option.bind_none]
          | some result =>
              obtain ⟨pos', items⟩ := result
              rw [hnexts] at hrest
              obtain ⟨s', h', hnexts', hitems, hmono⟩ := hrest
              refine ⟨s', h', ?_, ?_, fun id' hid' => hmono id' (hmono₁ id' hid')⟩
              · simp only [hnexts', Option.bind_some, List.map_cons, itemAt, hspot, Option.map_some]
              · intro q hq m' id' i' hqm hspot'
                rcases List.mem_cons.mp hq with rfl | hq
                · cases hqm
                  exact hmono _ (hloaded₁ _ _ hspot')
                · exact hitems q hq m' id' i' hqm hspot'
        · have hspot : (spots base leaves)[pos m + 1]? = none :=
            List.getElem?_eq_none_iff.mpr (Nat.le_of_not_lt hlast)
          simp only [if_neg hlast, hspot, Option.map_none]
          refine ⟨s₁, h₁, rfl, ?_, hmono₁⟩
          intro q hq m' id' i' hqm
          rw [List.mem_singleton.mp hq] at hqm
          cases hqm
      · have hend : (spots base leaves)[pos m]? = none :=
          List.getElem?_eq_none_iff.mpr (Nat.le_of_not_lt hin)
        simp only [if_neg hin, Option.bind_eq_bind, Option.bind_none,
          h.indexNext_end hm hloaded hend]

/-- The key of a loaded item. -/
theorem View.keyOf (hchain : Chained base leaves) (h : View base leaves pos s) {m id i : Nat}
    (hm : (spots base leaves)[m]? = some (id, i)) (hloaded : Loaded base s id) :
    s.keyOf (.made (only id) i 0) = (leaves.flatMap (keysOf base))[m]? := by
  obtain ⟨n, -, -, hunder, hn, -⟩ := hchain.item hm
  rw [Pages.keyOf, h.heap id n hunder hloaded hn, (spots_key hm).2.2, keysOf, hn]
  rfl

/-- The scans are scans over the list of keys with the positions in the rows as cursors. -/
theorem View.scans {d : Nat} {t : Tree IdxKey (List Row) d} (hbase : base.Represents t)
    (hchain : Chained base leaves) {ks : List IdxKey} (hks : leaves.flatMap (keysOf base) = ks)
    (hnodup : ks.Nodup) {list : List (IdxKey × Nat)}
    (hlist : ∀ scan ∈ list, scan.1 ∈ (t.entries d).map Prod.fst) (h : View base leaves pos s) :
    s.scans list =
      (Cursors.scans ks.length pos (list.map fun scan => (ks.idxOf scan.1, scan.2))).map
        (List.map (List.map (Option.map fun q => ks[q]?))) := by
  have hlen : (spots base leaves).length = ks.length := by rw [length_spots, hks]
  induction list generalizing pos s with
  | nil => rfl
  | cons scan list ih =>
      obtain ⟨key, n⟩ := scan
      obtain ⟨s₁, m, id, i, hread, h₁, hloaded, hm, hkey⟩ :=
        h.indexRead hbase hchain (hlist (key, n) (List.mem_cons_self ..))
      rw [hks] at hkey
      have hidx : ks.idxOf key = m := by
        obtain ⟨hlt, rfl⟩ := List.getElem?_eq_some_iff.mp hkey
        exact hnodup.idxOf_getElem m hlt
      have hnexts := h₁.nexts hchain n hm hloaded
      rw [hlen] at hnexts
      rw [Pages.scans, Pages.scan, List.map_cons, Cursors.scans]
      simp only [hread, hidx, Option.bind_eq_bind, Option.bind_some]
      cases hcursor : Cursors.nexts ks.length n pos m with
      | none =>
          rw [hcursor] at hnexts
          simp only at hnexts
          simp only [hnexts, Option.bind_none, Option.map_none]
      | some result =>
          obtain ⟨pos', items⟩ := result
          rw [hcursor] at hnexts
          obtain ⟨s₂, h₂, hnexts, hitems, hmono⟩ := hnexts
          simp only [hnexts, Option.bind_some]
          rw [ih (fun scan hs => hlist scan (List.mem_cons_of_mem _ hs)) h₂]
          have hself : s₂.keyOf (.made (only id) i 0) = ks[m]? := by
            rw [h₂.keyOf hchain hm (hmono id hloaded), hks]
          have hkeys : (items.map (·.bind (itemAt base leaves))).map (Option.map s₂.keyOf) =
              items.map (Option.map fun q => ks[q]?) := by
            rw [List.map_map]
            refine List.map_congr_left fun item hitem => ?_
            cases item with
            | none => rfl
            | some q =>
                have hlt : q < (spots base leaves).length := hlen ▸ Cursors.nexts_lt hcursor q hitem
                obtain ⟨⟨a, j⟩, hspot⟩ : ∃ spot, (spots base leaves)[q]? = some spot :=
                  ⟨_, List.getElem?_eq_getElem hlt⟩
                have hin := hitems (some q) hitem q a j rfl hspot
                simp only [Function.comp, Option.bind_some, itemAt, hspot, Option.map_some,
                  h₂.keyOf hchain hspot hin, hks]
          cases Cursors.scans ks.length pos' (list.map fun scan => (ks.idxOf scan.1, scan.2)) with
          | none => rfl
          | some results =>
              simp only [Option.map_some, Option.bind_some, List.map_cons, hself, hkeys]

/-- The leaves of a tree that was filled by insertions. -/
theorem Chained.of_represents {d : Nat} {t : Tree IdxKey (List Row) d} {ops : List (IdxKey × Row)}
    (hbase : base.Represents t) (hholds : Holds t ops) (hops : ops ≠ []) :
    Chained base ((t.leaves d).map Leaf.id) := by
  refine ⟨StaticTree.of_represents hbase hholds hops, ?_, fun m => ?_,
    hbase.nodup.sublist (Tree.leaves_sublist t), ?_, ?_⟩
  · refine ⟨_, _, (Rep.followNext hbase.rep 0).trans ?_⟩
    simp [followNext]
  · rw [hbase.root]
    exact Rep.mem_leaves hbase.rep
  · intro id
    rw [hbase.latches]
    rfl
  · intro id n chains hunder hn hpointers
    have hleaf : IsLeaf base id := ⟨n, chains, hn, hpointers⟩
    rw [hbase.root] at hunder
    obtain ⟨leaf, hin, rfl⟩ := List.mem_map.mp ((Rep.mem_leaves hbase.rep).mpr ⟨hunder, hleaf⟩)
    obtain ⟨parent, succ, hnode⟩ := Rep.leaf_node hbase.rep leaf hin
    rw [hnode] at hn
    cases hn
    cases hpointers
    refine ⟨by rw [List.length_map, List.length_map], fun chain hchain => ?_⟩
    obtain ⟨e, he, rfl⟩ := List.mem_map.mp hchain
    have hentry : e ∈ t.entries d := by
      rw [← Tree.flatMap_leaves]
      exact List.mem_flatMap.mpr ⟨leaf, hin, he⟩
    have hfind := hbase.ordered.sorted.find_of_mem hentry
    rw [hholds e.1] at hfind
    split at hfind
    · cases hfind
    · rename_i hne
      rw [← Option.some.inj hfind]
      exact hne

/-- After `load_all` every row has its own place. -/
theorem loadAll_view {d : Nat} {t : Tree IdxKey (List Row) d} (hbase : base.Represents t)
    (hchain : Chained base leaves) (canForceLoad : Pages → Bool) :
    ∃ s, Pages.loadAll canForceLoad base = some s ∧ View base leaves id s := by
  have hself : Under base base.root base.root := Relation.ReflTransGen.refl
  obtain ⟨n, hn, hkeys⟩ := hchain.tree.node base.root hself
  have hinit : View base leaves id ⟨base, only base.root, fun _ => none,
      Function.update (fun _ => none) (only base.root) (some (pageOf base.root n)),
      Function.update (fun _ => 0) base.root 1, (match n.pointers with
        | .items chains => Pages.madeRows (only base.root) chains fun _ => none
        | .nodes _ => fun _ => none), 0⟩ := by
    refine ⟨rfl, rfl, ?_, ?_, ?_, ?_, ?_, ?_⟩
    · intro id p hp
      cases hp
    · intro id hout
      simp only [Function.update_of_ne fun heq => hout (.inl heq)]
    · rintro id n' - (rfl | hin) hn'
      · rw [hn] at hn'
        cases hn'
        simp only [Function.update_self]
      · cases hin
    · rintro m id i hm (rfl | hin)
      · obtain ⟨n', chains, chain, -, hn', hpointers, -, hchains, hne⟩ := hchain.item hm
        rw [hn] at hn'
        cases hn'
        simp only [id_eq, hm, hpointers]
        exact madeRows_self hchains hne _
      · cases hin
    · intro m id i _ _
      rfl
    · intro m id i id' i' hm hloaded htarget
      rw [id_eq, hm] at htarget
      cases htarget
      exact hloaded
  have hdfs := hinit.dfs hchain canForceLoad hbase.rep (hbase.root ▸ hself) (.inl hbase.root.symm)
    hbase.depth_lt
  obtain ⟨s, hdfs, hview, -⟩ := hdfs
  refine ⟨s, ?_, hview⟩
  rw [Pages.loadAll]
  simp only [Option.bind_eq_bind]
  rw [makeNode_eq hn hkeys rfl]
  rw [← hbase.root] at hdfs
  exact hdfs

end Scans

/-! ### The order of the keys -/

/-- What a scan is to return: the items of the `n + 1` smallest keys from `key` on, and a null item
    after the last one. -/
def wanted (ks : List IdxKey) (scan : IdxKey × Nat) : List (Option (Option IdxKey)) :=
  ((ks.filter (scan.1 ≤ ·)).take (scan.2 + 1)).map (fun k => some (some k)) ++
    if (ks.filter (scan.1 ≤ ·)).length ≤ scan.2 then [none] else []

/-- The keys of the items on which a scan calls `index_next`. -/
def asked (ks : List IdxKey) (scan : IdxKey × Nat) : List IdxKey :=
  (ks.filter (scan.1 ≤ ·)).take scan.2

section Keys

variable {ks : List IdxKey}

theorem filter_eq_drop (hsorted : ks.Pairwise (· < ·)) {m : Nat} {key : IdxKey}
    (hkey : ks[m]? = some key) : ks.filter (key ≤ ·) = ks.drop m := by
  induction ks generalizing m with
  | nil => cases hkey
  | cons k ks ih =>
      obtain ⟨hfirst, hrest⟩ := List.pairwise_cons.mp hsorted
      cases m with
      | zero =>
          cases hkey
          refine List.filter_eq_self.mpr fun k' hk' => decide_eq_true ?_
          rcases List.mem_cons.mp hk' with rfl | hk'
          · exact le_refl _
          · exact le_of_lt (hfirst k' hk')
      | succ m =>
          rw [List.getElem?_cons_succ] at hkey
          have hlt := hfirst key (List.mem_of_getElem? hkey)
          rw [List.filter_cons_of_neg (by simpa using hlt), ih hrest hkey]
          rfl

theorem wanted_eq (hsorted : ks.Pairwise (· < ·)) {m n : Nat} {key : IdxKey}
    (hkey : ks[m]? = some key) :
    wanted ks (key, n) =
      (some m :: Cursors.after ks.length n m).map (Option.map fun q => ks[q]?) := by
  have hlt := (List.getElem?_eq_some_iff.mp hkey).1
  rw [wanted, filter_eq_drop hsorted hkey, List.length_drop]
  clear hkey
  induction n generalizing m with
  | zero =>
      have hne : ¬ ks.length - m ≤ 0 := by omega
      rw [if_neg hne, List.drop_eq_getElem_cons hlt, List.take_succ_cons, List.take_zero]
      simp [Cursors.after, List.getElem?_eq_getElem hlt]
  | succ n ih =>
      rw [List.drop_eq_getElem_cons hlt, List.take_succ_cons, List.map_cons, List.cons_append,
        List.map_cons, Option.map_some, List.getElem?_eq_getElem hlt, Cursors.after]
      congr 1
      by_cases hlast : m + 1 < ks.length
      · have hrest := ih hlast
        have hiff : ks.length - m ≤ n + 1 ↔ ks.length - (m + 1) ≤ n := by omega
        rw [if_pos hlast]
        simp only [hiff]
        exact hrest
      · have hend : ks.length - m ≤ n + 1 := by omega
        have hnil : ks.drop (m + 1) = [] := List.drop_eq_nil_iff.mpr (by omega)
        rw [if_neg hlast, if_pos hend, hnil]
        rfl

theorem mem_asked (hsorted : ks.Pairwise (· < ·)) {m n : Nat} {key : IdxKey}
    (hkey : ks[m]? = some key) {k : IdxKey} :
    k ∈ asked ks (key, n) ↔ ∃ q ∈ Cursors.called ks.length (m, n), ks[q]? = some k := by
  have hlt := (List.getElem?_eq_some_iff.mp hkey).1
  rw [asked, filter_eq_drop hsorted hkey, List.mem_iff_getElem?]
  constructor
  · rintro ⟨j, hj⟩
    rw [List.getElem?_take] at hj
    split at hj
    · rename_i hjn
      rw [List.getElem?_drop] at hj
      have hin := (List.getElem?_eq_some_iff.mp hj).1
      exact ⟨m + j, Cursors.mem_called.mpr (by omega), hj⟩
    · cases hj
  · rintro ⟨q, hq, hkq⟩
    rw [Cursors.mem_called] at hq
    refine ⟨q - m, ?_⟩
    rw [List.getElem?_take, if_pos (by omega), List.getElem?_drop, Nat.add_sub_cancel' hq.1]
    exact hkq

/-- The keys of items tell where the items are. -/
theorem map_keys_inj (hnodup : ks.Nodup) {results results' : List (List (Option Nat))}
    (hin : ∀ items ∈ results, ∀ q, some q ∈ items → q < ks.length)
    (hin' : ∀ items ∈ results', ∀ q, some q ∈ items → q < ks.length)
    (h : results.map (List.map (Option.map fun q => ks[q]?)) =
      results'.map (List.map (Option.map fun q => ks[q]?))) : results = results' := by
  have hback : ∀ rs : List (List (Option Nat)), (∀ items ∈ rs, ∀ q, some q ∈ items → q < ks.length) →
      (rs.map (List.map (Option.map fun q => ks[q]?))).map
        (List.map (Option.map fun o => o.elim 0 ks.idxOf)) = rs := by
    intro rs hrs
    rw [List.map_map]
    refine (List.map_congr_left fun items hitems => ?_).trans (List.map_id rs)
    rw [Function.comp, List.map_map]
    refine (List.map_congr_left fun item hitem => ?_).trans (List.map_id items)
    cases item with
    | none => rfl
    | some q =>
        have hlt := hrs items hitems q hitem
        simp [List.getElem?_eq_getElem hlt, hnodup.idxOf_getElem]
  rw [← hback results hin, ← hback results' hin', h]

/-- The keys of the tree are the keys that were inserted. -/
theorem entries_keys {d : Nat} {t : Tree IdxKey (List Row) d} {ops : List (IdxKey × Row)}
    (hordered : BPlusTree.Sorted (t.entries d)) (hholds : Holds t ops)
    (hsorted : ks.Pairwise (· < ·)) (hmem : ∀ k, k ∈ ks ↔ inserted ops k ≠ []) :
    (t.entries d).map Prod.fst = ks := by
  have hkeys : ((t.entries d).map Prod.fst).Pairwise (· < ·) := List.pairwise_map.mpr hordered
  refine hkeys.eq_of_mem_iff hsorted fun k => ?_
  rw [hmem]
  constructor
  · intro hk
    obtain ⟨e, he, rfl⟩ := List.mem_map.mp hk
    have hfind := hordered.find_of_mem he
    rw [hholds] at hfind
    intro hnil
    rw [if_pos hnil] at hfind
    cases hfind
  · intro hne
    have hfind := hholds k
    rw [if_neg hne] at hfind
    exact mem_keys_of_find hfind

/-- The items that are asked have the keys that are asked. -/
theorem asked_disjoint_iff (hsorted : ks.Pairwise (· < ·)) (hnodup : ks.Nodup) {m m' n n' : Nat}
    {key key' : IdxKey} (hkey : ks[m]? = some key) (hkey' : ks[m']? = some key') :
    (asked ks (key, n)).Disjoint (asked ks (key', n')) ↔
      (Cursors.called ks.length (m, n)).Disjoint (Cursors.called ks.length (m', n')) := by
  constructor
  · intro hdisjoint q hq hq'
    have hlt := (Cursors.mem_called.mp hq).2.2
    exact hdisjoint ((mem_asked hsorted hkey).mpr ⟨q, hq, List.getElem?_eq_getElem hlt⟩)
      ((mem_asked hsorted hkey').mpr ⟨q, hq', List.getElem?_eq_getElem hlt⟩)
  · intro hdisjoint k hk hk'
    obtain ⟨q, hq, hkq⟩ := (mem_asked hsorted hkey).mp hk
    obtain ⟨q', hq', hkq'⟩ := (mem_asked hsorted hkey').mp hk'
    have hlt := (List.getElem?_eq_some_iff.mp hkq).1
    have hsame : q = q' := (List.getElem?_inj hlt hnodup).mp (hkq.trans hkq'.symm)
    subst hsame
    exact hdisjoint hq hq'

/-- Over the list of keys, the scans return what they are to return exactly if no two of them ask
    one item. -/
theorem cursor_scans_iff (hsorted : ks.Pairwise (· < ·)) (hnodup : ks.Nodup)
    {list : List (IdxKey × Nat)} (hlist : ∀ scan ∈ list, scan.1 ∈ ks) :
    (Cursors.scans ks.length id (list.map fun scan => (ks.idxOf scan.1, scan.2))).map
        (List.map (List.map (Option.map fun q => ks[q]?))) = some (list.map (wanted ks)) ↔
      list.Pairwise fun scan scan' => (asked ks scan).Disjoint (asked ks scan') := by
  have hidx : ∀ scan ∈ list, ks.idxOf scan.1 < ks.length ∧ ks[ks.idxOf scan.1]? = some scan.1 := by
    intro scan hs
    have hlt := List.idxOf_lt_length_of_mem (hlist scan hs)
    exact ⟨hlt, by rw [List.getElem?_eq_getElem hlt, List.getElem_idxOf]⟩
  have hin : ∀ scan ∈ list.map fun scan => (ks.idxOf scan.1, scan.2), scan.1 < ks.length := by
    intro scan hs
    obtain ⟨scan, hscan, rfl⟩ := List.mem_map.mp hs
    exact (hidx scan hscan).1
  have hwanted : list.map (wanted ks) = ((list.map fun scan => (ks.idxOf scan.1, scan.2)).map
      fun scan => some scan.1 :: Cursors.after ks.length scan.2 scan.1).map
        (List.map (Option.map fun q => ks[q]?)) := by
    rw [List.map_map, List.map_map]
    exact List.map_congr_left fun scan hs => wanted_eq hsorted (hidx scan hs).2
  have hcursor := Cursors.scans_iff (fun q : Nat => le_refl (id q)) hin
  rw [hwanted]
  constructor
  · intro h
    obtain ⟨results, hresults, hmap⟩ := Option.map_eq_some_iff.mp h
    have hafter : ∀ items ∈ (list.map fun scan => (ks.idxOf scan.1, scan.2)).map
        fun scan => some scan.1 :: Cursors.after ks.length scan.2 scan.1,
        ∀ q, some q ∈ items → q < ks.length := by
      intro items hitems q hq
      obtain ⟨scan, hs, rfl⟩ := List.mem_map.mp hitems
      rcases List.mem_cons.mp hq with heq | hq
      · cases heq
        exact hin scan hs
      · exact Cursors.after_lt q hq
    rw [map_keys_inj hnodup (Cursors.scans_lt hin hresults) hafter hmap] at hresults
    have hpair := List.pairwise_map.mp (hcursor.mp hresults).2
    refine hpair.imp_of_mem fun {scan scan'} hs hs' hdisjoint => ?_
    exact (asked_disjoint_iff hsorted hnodup (hidx scan hs).2 (hidx scan' hs').2).mpr hdisjoint
  · intro hpair
    have hcalled : (list.map fun scan => (ks.idxOf scan.1, scan.2)).Pairwise fun scan scan' =>
        (Cursors.called ks.length scan).Disjoint (Cursors.called ks.length scan') := by
      refine List.pairwise_map.mpr (hpair.imp_of_mem fun {scan scan'} hs hs' hdisjoint => ?_)
      exact (asked_disjoint_iff hsorted hnodup (hidx scan hs).2 (hidx scan' hs').2).mp hdisjoint
    rw [hcursor.mpr ⟨fun _ _ _ _ => rfl, hcalled⟩]
    rfl

end Keys

/-- **Scans return the keys in order exactly if they ask different items.**  The tree of any
    insertions is loaded and scanned from keys that it has. -/
theorem scans_ordered_iff {ops : List (IdxKey × Row)} (hops : ops ≠ []) {ks : List IdxKey}
    (hsorted : ks.Pairwise (· < ·)) (hmem : ∀ k, k ∈ ks ↔ inserted ops k ≠ [])
    (canForceLoad : Pages → Bool) {list : List (IdxKey × Nat)} (hlist : ∀ scan ∈ list, scan.1 ∈ ks) :
    ∃ index s, Transition.runs (fun s op => s.indexInsert op.1 op.2) Index.init ops = some index ∧
      Pages.loadAll canForceLoad index = some s ∧
      (s.scans list = some (list.map (wanted ks)) ↔
        list.Pairwise fun scan scan' => (asked ks scan).Disjoint (asked ks scan')) := by
  obtain ⟨index, hrun, d, t, hbase, hholds⟩ := runs_indexInsert_represents ops
  have hchain := Chained.of_represents hbase hholds hops
  obtain ⟨s, hload, hview⟩ := loadAll_view hbase hchain canForceLoad
  refine ⟨index, s, hrun, hload, ?_⟩
  have hentries := entries_keys hbase.ordered.sorted hholds hsorted hmem
  have hks := (Rep.flatMap_keysOf hbase.rep).trans hentries
  have hnodup : ks.Nodup := hsorted.imp fun hlt => ne_of_lt hlt
  rw [hview.scans hbase hchain hks hnodup fun scan hs => hentries ▸ hlist scan hs]
  exact cursor_scans_iff hsorted hnodup hlist

/-- Rows of one byte under the keys 1, 2 and 3. -/
def threeKeys : List (IdxKey × Row) := [(1, ⟨1, 1, [0]⟩), (2, ⟨2, 2, [0]⟩), (3, ⟨3, 3, [0]⟩)]

/-- Two scans that ask different items. -/
theorem scans_ordered_iff_three_keys :
    ∃ index s, Transition.runs (fun s op => s.indexInsert op.1 op.2) Index.init threeKeys =
        some index ∧
      Pages.loadAll (fun _ => true) index = some s ∧
      s.scans [(1, 1), (2, 2)] =
        some [[some (some 1), some (some 2)], [some (some 2), some (some 3), none]] := by
  have hmem : ∀ k, k ∈ ([1, 2, 3] : List IdxKey) ↔ inserted threeKeys k ≠ [] := by
    intro k
    rw [Ne, inserted, List.reverse_eq_nil_iff, List.map_eq_nil_iff, List.filter_eq_nil_iff]
    constructor
    · intro hk hnone
      have hall : ∀ k ∈ ([1, 2, 3] : List IdxKey), ∃ op ∈ threeKeys, op.1 = k := by
        simp [threeKeys]
      obtain ⟨op, hop, hkey⟩ := hall k hk
      exact hnone op hop (decide_eq_true hkey)
    · intro hsome
      by_contra hk
      refine hsome fun op hop hkey => hk ?_
      have hall : ∀ op ∈ threeKeys, op.1 ∈ ([1, 2, 3] : List IdxKey) := by decide
      exact of_decide_eq_true hkey ▸ hall op hop
  have hlist : ∀ scan ∈ ([(1, 1), (2, 2)] : List (IdxKey × Nat)),
      scan.1 ∈ ([1, 2, 3] : List IdxKey) := by
    decide
  have hne : threeKeys ≠ [] := by decide
  obtain ⟨index, s, hrun, hload, hiff⟩ :=
    scans_ordered_iff hne (by decide) hmem (fun _ => true) hlist
  refine ⟨index, s, hrun, hload, hiff.mpr ?_⟩
  simp [asked, List.Disjoint]

/-- The second scan from one key leaves out the key 2. -/
theorem second_scan_skips :
    (do
      let index ← Transition.runs (fun s op => s.indexInsert op.1 op.2) Index.init threeKeys
      let s ← Pages.loadAll (fun _ => true) index
      s.scans [(1, 1), (1, 1)]) =
        some [[some (some 1), some (some 2)], [some (some 1), some (some 3)]] ∧
      [(1, 1), (1, 1)].map (wanted [1, 2, 3]) =
        [[some (some 1), some (some 2)], [some (some 1), some (some 2)]] := by
  decide +kernel

end VeriTxn.RowPages
