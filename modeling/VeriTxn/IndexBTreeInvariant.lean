import VeriTxn.IndexBTreeRun
import VeriTxn.Transition
import Mathlib.Logic.Relation

/-!
# The invariant of the untrusted B+-tree

The properties of the node heap after any sequence of insertions, stated on the
heap alone: nodes are reached through `pointers`, leaves through `next`.  They
follow from the tree that the heap represents.
-/

namespace VeriTxn.IndexBTree

open BPlusTree Transition

variable {K I : Type}

/-! ### Properties of the node heap -/

/-- `c` is one of the `pointers` of the inner node `p`. -/
def Child (s : Index K I) (p c : Nat) : Prop :=
  ∃ n ids, s.nodes p = some n ∧ n.pointers = .nodes ids ∧ c ∈ ids

/-- `m` is reached from `n` through `pointers`. -/
def Under (s : Index K I) : Nat → Nat → Prop := Relation.ReflTransGen (Child s)

def IsLeaf (s : Index K I) (m : Nat) : Prop :=
  ∃ n chains, s.nodes m = some n ∧ n.pointers = .items chains

/-- A leaf under `n` has the key. -/
def KeyUnder (s : Index K I) (n : Nat) (k : K) : Prop :=
  ∃ m node chains, Under s n m ∧ s.nodes m = some node ∧ node.pointers = .items chains ∧
    k ∈ node.keys

/-- `m` is reached from `n` by following `len` pointers. -/
def PathOf (s : Index K I) : Nat → Nat → Nat → Prop
  | 0, n, m => n = m
  | len + 1, n, m => ∃ c, Child s n c ∧ PathOf s len c m

/-- The leaf reached through `pointers[0]`. -/
def leftmostLeaf (s : Index K I) : Nat → Nat → Option Nat
  | 0, _ => none
  | fuel + 1, n =>
      match s.nodes n with
      | none => none
      | some node =>
          match node.pointers with
          | .items _ => some n
          | .nodes ids => ids[0]?.bind (leftmostLeaf s fuel)

/-- The nodes that following `next` visits. -/
def followNext (s : Index K I) : Nat → Option Nat → Option (List Nat)
  | _, none => some []
  | 0, some _ => none
  | fuel + 1, some n => (s.nodes n).bind fun node =>
      (followNext s fuel node.next).map (n :: ·)

def keysOf (s : Index K I) (n : Nat) : List K :=
  match s.nodes n with
  | none => []
  | some node => node.keys

/-! ### From the represented tree to the heap -/

section Heap

variable {s : Index K I}

theorem Rep.child_iff {d : Nat} {parent succ : Option Nat} {t : Tree K (List I) (d + 1)}
    (h : Rep s.nodes (d + 1) parent succ t) {c : Nat} :
    Child s (t.id (d + 1)) c ↔ ∃ t' ∈ Branch.children t, t'.id d = c := by
  obtain ⟨⟨next, hnode⟩, -⟩ := h
  have hnode' : s.nodes (t.id (d + 1)) = _ := hnode
  constructor
  · rintro ⟨n, ids, hn, hids, hc⟩
    rw [hnode'] at hn
    cases hn
    cases hids
    exact List.mem_map.mp hc
  · rintro ⟨t', ht', rfl⟩
    exact ⟨_, _, hnode', rfl, List.mem_map_of_mem ht'⟩

theorem Rep.not_child {parent succ : Option Nat} {t : Tree K (List I) 0}
    (h : Rep s.nodes 0 parent succ t) (c : Nat) : ¬ Child s (t.id 0) c := by
  rintro ⟨n, ids, hn, hids, -⟩
  rw [show s.nodes (t.id 0) = _ from h] at hn
  cases hn
  cases hids

theorem Rep.isLeaf {parent succ : Option Nat} {t : Tree K (List I) 0}
    (h : Rep s.nodes 0 parent succ t) : IsLeaf s (t.id 0) := ⟨_, _, h, rfl⟩

theorem Rep.not_isLeaf {d : Nat} {parent succ : Option Nat} {t : Tree K (List I) (d + 1)}
    (h : Rep s.nodes (d + 1) parent succ t) : ¬ IsLeaf s (t.id (d + 1)) := by
  rintro ⟨n, chains, hn, hchains⟩
  obtain ⟨⟨next, hnode⟩, -⟩ := h
  rw [show s.nodes (t.id (d + 1)) = _ from hnode] at hn
  cases hn
  cases hchains

theorem Rep.child {d : Nat} {parent succ : Option Nat} {t : Tree K (List I) (d + 1)}
    (h : Rep s.nodes (d + 1) parent succ t) : ∀ t' ∈ Branch.children t,
      ∃ succ', Rep s.nodes d (some (t.id (d + 1))) succ' t' := h.2.exists

/-- Keys found under a node are keys of the tree there. -/
theorem Rep.mem_of_keyUnder {k : K} : ∀ {d : Nat} {parent succ : Option Nat}
    {t : Tree K (List I) d}, Rep s.nodes d parent succ t → KeyUnder s (t.id d) k →
      ∃ e ∈ t.entries d, e.1 = k
  | 0, _, _, t, h, ⟨m, node, chains, hunder, hm, _, hk⟩ => by
      rcases Relation.ReflTransGen.cases_head hunder with rfl | ⟨c, hc, -⟩
      · rw [show s.nodes (t.id 0) = _ from h] at hm
        cases hm
        obtain ⟨e, he, rfl⟩ := List.mem_map.mp hk
        exact ⟨e, he, rfl⟩
      · exact absurd hc (Rep.not_child h c)
  | d + 1, _, _, t, h, ⟨m, node, chains, hunder, hm, hchains, hk⟩ => by
      rcases Relation.ReflTransGen.cases_head hunder with rfl | ⟨c, hc, hrest⟩
      · exact absurd ⟨node, chains, hm, hchains⟩ (Rep.not_isLeaf h)
      · obtain ⟨t', ht', rfl⟩ := (Rep.child_iff h).mp hc
        obtain ⟨succ', hrep⟩ := Rep.child h t' ht'
        obtain ⟨e, he, rfl⟩ := Rep.mem_of_keyUnder hrep ⟨m, node, chains, hrest, hm, hchains, hk⟩
        exact ⟨e, mem_under.mpr ⟨t', ht', he⟩, rfl⟩

theorem Rep.length_path : ∀ {d : Nat} {parent succ : Option Nat} {t : Tree K (List I) d},
    Rep s.nodes d parent succ t → ∀ {len leaf : Nat}, IsLeaf s leaf →
      PathOf s len (t.id d) leaf → len = d
  | 0, _, _, _, h, len, leaf, _, hpath => by
      cases len with
      | zero => rfl
      | succ len =>
          obtain ⟨c, hc, -⟩ := hpath
          exact absurd hc (Rep.not_child h c)
  | d + 1, _, _, _, h, len, leaf, hleaf, hpath => by
      cases len with
      | zero => exact absurd (hpath ▸ hleaf) (Rep.not_isLeaf h)
      | succ len =>
          obtain ⟨c, hc, hrest⟩ := hpath
          obtain ⟨t', ht', rfl⟩ := (Rep.child_iff h).mp hc
          obtain ⟨succ', hrep⟩ := Rep.child h t' ht'
          rw [Rep.length_path hrep hleaf hrest]

/-- The leaves of the tree are the leaves reached from its root. -/
theorem Rep.mem_leaves {m : Nat} : ∀ {d : Nat} {parent succ : Option Nat} {t : Tree K (List I) d},
    Rep s.nodes d parent succ t →
      (m ∈ (t.leaves d).map Leaf.id ↔ Under s (t.id d) m ∧ IsLeaf s m)
  | 0, _, _, t, h => by
      constructor
      · intro hm
        have hm' : m = t.id 0 := List.mem_singleton.mp hm
        subst hm'
        exact ⟨Relation.ReflTransGen.refl, Rep.isLeaf h⟩
      · rintro ⟨hunder, -⟩
        rcases Relation.ReflTransGen.cases_head hunder with rfl | ⟨c, hc, -⟩
        · exact List.mem_singleton.mpr rfl
        · exact absurd hc (Rep.not_child h c)
  | d + 1, _, _, t, h => by
      constructor
      · intro hm
        obtain ⟨leaf, hleaf, rfl⟩ := List.mem_map.mp hm
        obtain ⟨t', ht', hleaf'⟩ := mem_under.mp hleaf
        obtain ⟨succ', hrep⟩ := Rep.child h t' ht'
        obtain ⟨hunder, hleaf''⟩ := (Rep.mem_leaves hrep).mp (List.mem_map_of_mem hleaf')
        exact ⟨hunder.head ((Rep.child_iff h).mpr ⟨t', ht', rfl⟩), hleaf''⟩
      · rintro ⟨hunder, hleaf⟩
        rcases Relation.ReflTransGen.cases_head hunder with rfl | ⟨c, hc, hrest⟩
        · exact absurd hleaf (Rep.not_isLeaf h)
        · obtain ⟨t', ht', rfl⟩ := (Rep.child_iff h).mp hc
          obtain ⟨succ', hrep⟩ := Rep.child h t' ht'
          obtain ⟨leaf, hleaf', rfl⟩ := List.mem_map.mp ((Rep.mem_leaves hrep).mpr ⟨hrest, hleaf⟩)
          exact List.mem_map_of_mem (mem_under.mpr ⟨t', ht', hleaf'⟩)

theorem Rep.leftmostLeaf : ∀ {d : Nat} {parent succ : Option Nat} {t : Tree K (List I) d}
    {fuel : Nat}, Rep s.nodes d parent succ t → d < fuel →
      leftmostLeaf s fuel (t.id d) = some (t.firstLeaf d)
  | 0, _, _, t, fuel, h, hfuel => by
      obtain ⟨fuel, rfl⟩ := Nat.exists_eq_succ_of_ne_zero (by omega : fuel ≠ 0)
      simp only [IndexBTree.leftmostLeaf, show s.nodes (t.id 0) = _ from h]
      rfl
  | d + 1, _, _, t, fuel, h, hfuel => by
      obtain ⟨fuel, rfl⟩ := Nat.exists_eq_succ_of_ne_zero (by omega : fuel ≠ 0)
      obtain ⟨succ', hrep⟩ := Rep.child h (Branch.first t) (List.mem_cons_self ..)
      obtain ⟨⟨next, hnode⟩, -⟩ := h
      simp only [IndexBTree.leftmostLeaf, show s.nodes (t.id (d + 1)) = _ from hnode,
        Branch.children, List.map_cons, List.getElem?_cons_zero, Option.bind_some]
      exact Rep.leftmostLeaf hrep (by omega)

/-- `next` leads through the leaves of the tree to the leaf after it. -/
theorem Rep.followNext : ∀ {d : Nat} {parent succ : Option Nat} {t : Tree K (List I) d},
    Rep s.nodes d parent succ t → ∀ fuel,
      followNext s (fuel + (t.leaves d).length) (some (t.firstLeaf d)) =
        (followNext s fuel succ).map ((t.leaves d).map Leaf.id ++ ·)
  | 0, _, _, t, h, fuel => by
      change (s.nodes (Leaf.id t)).bind _ = _
      rw [show s.nodes (Leaf.id t) = _ from h]
      rfl
  | d + 1, parent, succ, t, h, fuel => by
      have hlinked : ∀ (rest : List (K × Tree K (List I) d)) (c : Tree K (List I) d),
          Linked (Rep s.nodes d (some (Branch.id t))) (Tree.firstLeaf d) succ c rest →
          IndexBTree.followNext s (fuel + (under (Tree.leaves d) c rest).length)
            (some (c.firstLeaf d)) = (IndexBTree.followNext s fuel succ).map
              ((under (Tree.leaves d) c rest).map Leaf.id ++ ·) := by
        intro rest
        induction rest with
        | nil => exact fun c hc => Rep.followNext hc fuel
        | cons p rest ih =>
            rintro c ⟨hc, hrest⟩
            have hfirst := Rep.followNext hc (fuel + (under (Tree.leaves d) p.2 rest).length)
            rw [under, List.length_append, Nat.add_comm (c.leaves d).length, ← Nat.add_assoc,
              hfirst, ih p.2 hrest, Option.map_map, List.map_append]
            congr 1
            funext leaves
            simp
      exact hlinked (Branch.rest t) (Branch.first t) h.2

theorem Rep.leaf_node : ∀ {d : Nat} {parent succ : Option Nat} {t : Tree K (List I) d},
    Rep s.nodes d parent succ t → ∀ leaf ∈ t.leaves d, ∃ parent' succ',
      s.nodes leaf.id = some ⟨leaf.entries.map Prod.fst, .items (leaf.entries.map Prod.snd),
        parent', succ'⟩
  | 0, parent, succ, t, h, leaf, hleaf => by
      rw [List.mem_singleton.mp hleaf]
      exact ⟨parent, succ, h⟩
  | d + 1, _, _, t, h, leaf, hleaf => by
      obtain ⟨t', ht', hleaf'⟩ := mem_under.mp hleaf
      obtain ⟨succ', hrep⟩ := Rep.child h t' ht'
      exact Rep.leaf_node hrep leaf hleaf'

theorem Rep.keysOf_leaf {d : Nat} {parent succ : Option Nat} {t : Tree K (List I) d}
    (h : Rep s.nodes d parent succ t) : ∀ leaf ∈ t.leaves d,
      keysOf s leaf.id = leaf.entries.map Prod.fst := by
  intro leaf hleaf
  obtain ⟨parent', succ', hnode⟩ := Rep.leaf_node h leaf hleaf
  rw [keysOf, hnode]

theorem Rep.flatMap_keysOf {d : Nat} {parent succ : Option Nat} {t : Tree K (List I) d}
    (h : Rep s.nodes d parent succ t) :
    ((t.leaves d).map Leaf.id).flatMap (keysOf s) = (t.entries d).map Prod.fst := by
  rw [← Tree.flatMap_leaves, List.map_flatMap, List.flatMap_map]
  exact List.flatMap_congr fun leaf hleaf => Rep.keysOf_leaf h leaf hleaf

end Heap

section Invariant

variable [LinearOrder K]

/-- The items inserted under a key, newest first. -/
def inserted (ops : List (K × I)) (k : K) : List I :=
  ((ops.filter fun op => op.1 = k).map Prod.snd).reverse

/-- What holds of the index after the insertions `ops`. -/
structure Invariant (s : Index K I) (ops : List (K × I)) : Prop where
  /-- keys in each node are strictly increasing -/
  keys_increasing : ∀ n node, Under s s.root n → s.nodes n = some node →
    node.keys.Pairwise (· < ·)
  /-- keys left of a separator are below it, keys right of it are not -/
  separators : ∀ n node ids, Under s s.root n → s.nodes n = some node → node.pointers = .nodes ids →
    ids.length = node.keys.length + 1 ∧
    ∀ (i : Nat) (sep : K) (l r : Nat), node.keys[i]? = some sep → ids[i]? = some l →
      ids[i + 1]? = some r →
        (∀ k, KeyUnder s l k → k < sep) ∧ ∀ k, KeyUnder s r k → sep ≤ k
  /-- all leaves are at one depth -/
  equal_depth : ∃ depth, ∀ leaf len, IsLeaf s leaf → PathOf s len s.root leaf → len = depth
  /-- nodes are neither too full nor, below the root, too empty -/
  occupancy : ∀ n node, Under s s.root n → s.nodes n = some node →
    node.keys.length ≤ btreeOrder - 1 ∧ (n ≠ s.root → btreeOrder / 2 - 1 ≤ node.keys.length)
  /-- children exist and their parent pointers name their parents -/
  parents : ∀ n c, Under s s.root n → Child s n c →
    ∃ node, s.nodes c = some node ∧ node.parent = some n
  /-- following `next` visits every leaf once, in key order -/
  next_chain : ∃ first leaves, leftmostLeaf s s.btreeNodeId s.root = some first ∧
    followNext s s.btreeNodeId (some first) = some leaves ∧ leaves.Nodup ∧
    (∀ m, m ∈ leaves ↔ Under s s.root m ∧ IsLeaf s m) ∧
    (leaves.flatMap (keysOf s)).Pairwise (· < ·)
  /-- reading a key returns exactly the items inserted under it, newest first -/
  read : ∀ k, s.indexRead k =
    if inserted ops k = [] then none else some (s, inserted ops k)

theorem inserted_snoc (ops : List (K × I)) (op : K × I) (k : K) :
    inserted (ops ++ [op]) k = if op.1 = k then op.2 :: inserted ops k else inserted ops k := by
  by_cases h : op.1 = k <;> simp [inserted, h]

/-- The tree holds the items inserted so far. -/
def Holds {d : Nat} (t : Tree K (List I) d) (ops : List (K × I)) : Prop :=
  ∀ k, find k (t.entries d) = if inserted ops k = [] then none else some (inserted ops k)

theorem Holds.snoc {d d' : Nat} {t : Tree K (List I) d} {t' : Tree K (List I) d'}
    {ops : List (K × I)} (h : Holds t ops) (hsorted : Sorted (t.entries d)) (op : K × I)
    (hentries : t'.entries d' = upsert op.1 (Index.push op.2) (t.entries d)) :
    Holds t' (ops ++ [op]) := by
  intro k
  rw [hentries, find_upsert hsorted, inserted_snoc]
  by_cases hk : k = op.1
  · subst hk
    rw [if_pos rfl, if_pos rfl, h op.1]
    split
    · rename_i hnil
      simp [Index.push, hnil]
    · simp [Index.push]
  · rw [if_neg hk, if_neg (Ne.symm hk)]
    exact h k

/-- A node reached from the root is the root of a represented B+-tree. -/
theorem Index.Represents.subtree {s : Index K I} {d : Nat} {t : Tree K (List I) d}
    (h : s.Represents t) {n : Nat} (hunder : Under s s.root n) :
    ∃ d' least parent succ lo hi, ∃ t' : Tree K (List I) d', t'.id d' = n ∧
      Rep s.nodes d' parent succ t' ∧ t'.Ordered d' lo hi ∧ t'.Occupied btreeOrder least d' ∧
      (n ≠ s.root → least = btreeOrder / 2 - 1) := by
  induction hunder with
  | refl =>
      exact ⟨d, _, _, _, _, _, t, h.root.symm, h.rep, h.ordered, h.occupied, fun hne =>
        absurd rfl hne⟩
  | tail _ hchild ih =>
      obtain ⟨d', least, parent, succ, lo, hi, t', rfl, hrep, hordered, hoccupied, -⟩ := ih
      cases d' with
      | zero => exact absurd hchild (Rep.not_child hrep _)
      | succ d' =>
          obtain ⟨t'', ht'', rfl⟩ := (Rep.child_iff hrep).mp hchild
          obtain ⟨succ', hrep'⟩ := Rep.child hrep t'' ht''
          obtain ⟨lo', hi', hordered'⟩ := Between.exists hordered t'' ht''
          exact ⟨d', _, _, succ', lo', hi', t'', rfl, hrep', hordered', hoccupied.2.2 t'' ht'',
            fun _ => rfl⟩

/-- The tree's invariant on the heap that represents it. -/
theorem Index.Represents.invariant {s : Index K I} {d : Nat} {t : Tree K (List I) d}
    (h : s.Represents t) {ops : List (K × I)} (hholds : Holds t ops) : Invariant s ops where
  keys_increasing := by
    intro n node hunder hnode
    obtain ⟨d', least, parent, succ, lo, hi, t', rfl, hrep, hordered, -, -⟩ := h.subtree hunder
    cases d' with
    | zero =>
        rw [show s.nodes (t'.id 0) = _ from hrep] at hnode
        cases hnode
        exact List.pairwise_map.mpr hordered.1
    | succ d' =>
        rw [show s.nodes (t'.id (d' + 1)) = _ from hrep.1.choose_spec] at hnode
        cases hnode
        exact Between.keys_pairwise hordered
  separators := by
    intro n node ids hunder hnode hids
    obtain ⟨d', least, parent, succ, lo, hi, t', rfl, hrep, hordered, -, -⟩ := h.subtree hunder
    cases d' with
    | zero =>
        rw [show s.nodes (t'.id 0) = _ from hrep] at hnode
        cases hnode
        cases hids
    | succ d' =>
        rw [show s.nodes (t'.id (d' + 1)) = _ from hrep.1.choose_spec] at hnode
        cases hnode
        cases hids
        refine ⟨by simp [Branch.children, Branch.keys], fun i sep l r hsep hl hr => ?_⟩
        obtain ⟨p, hp, rfl⟩ : ∃ p, (Branch.rest t')[i]? = some p ∧ p.1 = sep := by
          simpa only [Branch.keys, List.getElem?_map, Option.map_eq_some_iff] using hsep
        obtain ⟨tl, lo', hi', htl, hltl, hltr⟩ := Between.sides hordered hp
        have htr : (Branch.children t')[i + 1]? = some p.2 := by
          simp only [Branch.children, List.getElem?_cons_succ, List.getElem?_map, hp,
            Option.map_some]
        rw [List.getElem?_map, show (Branch.children t')[i]? = some tl from htl,
          Option.map_some, Option.some.injEq] at hl
        rw [List.getElem?_map, htr, Option.map_some, Option.some.injEq] at hr
        obtain ⟨succl, hrepl⟩ := Rep.child hrep tl (List.mem_of_getElem? htl)
        obtain ⟨succr, hrepr⟩ := Rep.child hrep p.2 (List.mem_of_getElem? htr)
        subst hl
        subst hr
        refine ⟨fun k hk => ?_, fun k hk => ?_⟩
        · obtain ⟨e, he, rfl⟩ := Rep.mem_of_keyUnder hrepl hk
          exact WithTop.coe_lt_coe.mp (hltl.bounds e he).2
        · obtain ⟨e, he, rfl⟩ := Rep.mem_of_keyUnder hrepr hk
          exact WithBot.coe_le_coe.mp (hltr.bounds e he).1
  equal_depth := ⟨d, fun leaf len hleaf hpath => Rep.length_path h.rep hleaf (h.root ▸ hpath)⟩
  occupancy := by
    intro n node hunder hnode
    obtain ⟨d', least, parent, succ, lo, hi, t', rfl, hrep, -, hoccupied, hleast⟩ :=
      h.subtree hunder
    have hbounds : least ≤ node.keys.length ∧ node.keys.length < btreeOrder := by
      cases d' with
      | zero =>
          rw [show s.nodes (t'.id 0) = _ from hrep] at hnode
          cases hnode
          rw [List.length_map]
          exact hoccupied
      | succ d' =>
          rw [show s.nodes (t'.id (d' + 1)) = _ from hrep.1.choose_spec] at hnode
          cases hnode
          simp only [Branch.keys, List.length_map]
          exact ⟨hoccupied.1, hoccupied.2.1⟩
    exact ⟨Nat.le_pred_of_lt hbounds.2, fun hne => hleast hne ▸ hbounds.1⟩
  parents := by
    intro n c hunder hchild
    obtain ⟨d', least, parent, succ, lo, hi, t', rfl, hrep, -, -, -⟩ := h.subtree hunder
    cases d' with
    | zero => exact absurd hchild (Rep.not_child hrep c)
    | succ d' =>
        obtain ⟨t'', ht'', rfl⟩ := (Rep.child_iff hrep).mp hchild
        obtain ⟨succ', hrep'⟩ := Rep.child hrep t'' ht''
        exact hrep'.root
  next_chain := by
    have hids : ((t.leaves d).map Leaf.id).Nodup := h.nodup.sublist (Tree.leaves_sublist t)
    have hlen : (t.leaves d).length ≤ s.btreeNodeId := by
      have hsub : (t.leaves d).map Leaf.id ⊆ List.range' 1 s.btreeNodeId := by
        intro i hi
        obtain ⟨hpos, hle⟩ := h.bound i ((Tree.leaves_sublist t).subset hi)
        exact List.mem_range'_1.mpr ⟨hpos, by omega⟩
      have hle := (List.subperm_of_subset hids hsub).length_le
      rwa [List.length_map, List.length_range'] at hle
    obtain ⟨fuel, hfuel⟩ := Nat.exists_eq_add_of_le' hlen
    refine ⟨t.firstLeaf d, (t.leaves d).map Leaf.id, ?_, ?_, hids, fun m => ?_, ?_⟩
    · rw [h.root]
      exact Rep.leftmostLeaf h.rep h.depth_lt
    · rw [hfuel, Rep.followNext h.rep]
      cases fuel <;> simp [followNext]
    · rw [h.root]
      exact Rep.mem_leaves h.rep
    · rw [Rep.flatMap_keysOf h.rep]
      exact List.pairwise_map.mpr h.ordered.sorted
  read := by
    intro k
    rw [h.indexRead k, hholds k]
    split <;> rfl

end Invariant

/-! ### Every sequence of insertions -/

/-- 64-bit keys keep the tree far below the depth that `index_insert` asserts. -/
theorem Index.Shape.depth_lt_ninety_nine {s : Index IdxKey I} {d : Nat}
    {t : Tree IdxKey (List I) d} (h : s.Shape t) : d < 99 := by
  cases d with
  | zero => decide
  | succ d =>
      have hfirst := Tree.Occupied.le_length (by decide : 4 ≤ btreeOrder)
        (h.occupied.2.2 _ (List.mem_cons_self ..))
      have hle : ((Branch.first t).entries d).length ≤ (t.entries (d + 1)).length := by
        rw [Tree.entries]
        cases Branch.rest t with
        | nil => exact le_refl _
        | cons p rest =>
            rw [under, List.length_append]
            exact Nat.le_add_right _ _
      have hnodup : ((t.entries (d + 1)).map Prod.fst).Nodup :=
        (List.pairwise_map.mpr h.ordered.sorted).imp fun hlt => ne_of_lt hlt
      have hcard := hnodup.length_le_card
      rw [List.length_map, Fintype.card_fin] at hcard
      have hpow : 2 ^ d ≤ 2 ^ 64 := hfirst.trans (hle.trans hcard)
      have := (Nat.pow_le_pow_iff_right (by decide : 1 < 2)).mp hpow
      omega

theorem init_represents : (Index.init : Index IdxKey I).Represents
    (d := 0) (⟨1, []⟩ : Leaf IdxKey (List I)) where
  rep := rfl
  root := rfl
  nodup := List.nodup_singleton _
  bound := by
    intro i hi
    rw [List.mem_singleton.mp hi]
    exact ⟨Nat.one_pos, le_refl _⟩
  ordered := ⟨List.Pairwise.nil, by simp⟩
  occupied := ⟨Nat.zero_le _, (by decide : 0 < btreeOrder)⟩
  latches := by
    funext i
    by_cases hi : i = 1 <;> simp [Index.init, Index.makeNode, Index.setLatch, Index.setNode,
      Index.held, hi]

/-- Every sequence of insertions into the empty tree of `init` succeeds and leaves a B+-tree
    that holds what was inserted. -/
theorem runs_indexInsert_represents (ops : List (IdxKey × I)) :
    ∃ s : Index IdxKey I, runs (fun s op => s.indexInsert op.1 op.2) Index.init ops = some s ∧
      ∃ d, ∃ t : Tree IdxKey (List I) d, s.Represents t ∧ Holds t ops := by
  induction ops using List.reverseRecOn with
  | nil => exact ⟨_, rfl, 0, _, init_represents, fun k => rfl⟩
  | append_singleton ops op ih =>
      obtain ⟨s, hrun, d, t, hrep, hholds⟩ := ih
      obtain ⟨s', d', t', hinsert, hrep', hentries⟩ :=
        hrep.indexInsert hrep.toShape.depth_lt_ninety_nine op.1 op.2
      exact ⟨s', runs_snoc hrun hinsert, d', t', hrep',
        hholds.snoc hrep.ordered.sorted op hentries⟩

/-- **The untrusted B+-tree's invariant.**  Every sequence of insertions into the
    empty tree of `init` succeeds and leaves a node heap with all the properties
    of `Invariant`: order, separators, depth, occupancy, parent and next
    pointers, and reads that return what was inserted. -/
theorem index_insert_invariant (ops : List (IdxKey × I)) :
    ∃ s : Index IdxKey I,
      runs (fun s op => s.indexInsert op.1 op.2) Index.init ops = some s ∧ Invariant s ops := by
  obtain ⟨s, hrun, d, t, hrep, hholds⟩ := runs_indexInsert_represents ops
  exact ⟨s, hrun, hrep.invariant hholds⟩

/-! ### Latches among other operations -/

/-- **Latch balance.**  Whatever latches other operations hold on the nodes of a B+-tree,
    `find_leaf` for an insertion aborts and leaves every latch as it was, or it holds exactly
    the leaf and its ancestors up to `last_ex` exclusively, which are full below `last_ex`; then
    `index_insert` completes.  When it has, every latch is as it was. -/
theorem latch_balance {s : Index IdxKey I} {d : Nat} {t : Tree IdxKey (List I) d} (h : s.Shape t)
    (hvalid : ∀ i, (s.latches i).Valid) (hfresh : s.FreshLatches) (key : IdxKey) (item : I) :
    (s.findLeaf key .insert = some (s, none) ∨
      ∃ s' lastEx exs,
        s.findLeaf key .insert = some (s', some ((t.leafOf key d).id, lastEx)) ∧
        lastEx = exs.getLast? ∧
        Index.Latched s.nodes s.latches s'.latches (t.leafOf key d).id exs ∧
        (s.indexInsert key item).isSome) ∧
    ∀ s', s.indexInsert key item = some s' → s'.latches = s.latches := by
  constructor
  · rcases h.findLeaf_insert hvalid key with ⟨habort, -⟩ | ⟨exs, latches', hfind, hlatched, -⟩
    · exact Or.inl habort
    · refine Or.inr ⟨_, _, exs, hfind, rfl, hlatched, ?_⟩
      rcases h.indexInsert hvalid hfresh h.depth_lt_ninety_nine key item with ⟨habort, -⟩ |
        ⟨s', d', t', hinsert, -⟩
      · rw [hfind] at habort
        simp at habort
      · rw [hinsert]
        rfl
  · intro s' hs'
    rcases h.indexInsert hvalid hfresh h.depth_lt_ninety_nine key item with ⟨-, hnone, -⟩ |
      ⟨s'', d', t', hinsert, -, hlatches, -⟩
    · rw [hnone] at hs'
      cases hs'
    · rw [hinsert] at hs'
      cases hs'
      exact hlatches

/-- The keys from 0 to 22. -/
def fullRight : List (IdxKey × Nat) := (List.range 23).map fun i => (Fin.ofNat _ i, i)

def rootShared (i : Nat) : Latch := if i = 3 then .shared else .free

/-- Under the root 3 the right leaf is full.  An insertion into it holds the leaf and the root; while
    another operation shares the root it aborts there. -/
theorem latch_balance_full_right :
    ∃ s : Index IdxKey Nat,
      runs (fun s op => s.indexInsert op.1 op.2) Index.init fullRight = some s ∧
      (∃ s' exs, s.findLeaf 23 .insert = some (s', some (2, some 3)) ∧ exs.getLast? = some 3 ∧
        Index.Latched s.nodes s.latches s'.latches 2 exs ∧
        ∃ s'', s.indexInsert 23 23 = some s'' ∧ s''.latches = s.latches) ∧
      (s.withLatches rootShared).findLeaf 23 .insert = some (s.withLatches rootShared, none) := by
  obtain ⟨s, hrun, d, t, hrep, -⟩ := runs_indexInsert_represents fullRight
  have hsome : (runs (fun s op => s.indexInsert op.1 op.2) Index.init fullRight).map (fun s =>
      (s.btreeNodeId, (s.findLeaf 23 .insert).bind Prod.snd,
        ((s.withLatches rootShared).findLeaf 23 .insert).bind Prod.snd)) =
      some (3, some (2, some 3), none) := by
    decide +kernel
  rw [hrun, Option.map_some, Option.some.injEq, Prod.mk.injEq, Prod.mk.injEq] at hsome
  obtain ⟨hcount, hheld, hrefused⟩ := hsome
  have hfree : ∀ i, s.latches i = .free := fun i => by simp [hrep.latches, Index.held]
  refine ⟨s, hrun, ?_, ?_⟩
  · obtain ⟨habort | ⟨s', lastEx, exs, hfind, hlast, hlatched, hinsert⟩, hkept⟩ :=
      latch_balance hrep.toShape (fun i => hfree i ▸ Latch.valid_free) (fun i _ => hfree i) 23 23
    · rw [habort] at hheld
      cases hheld
    · rw [hfind, Option.bind_some, Option.some.injEq, Prod.mk.injEq] at hheld
      obtain ⟨hleaf, rfl⟩ := hheld
      rw [hleaf] at hfind hlatched
      obtain ⟨s'', hs''⟩ := Option.isSome_iff_exists.mp hinsert
      exact ⟨s', exs, hfind, hlast.symm, hlatched, s'', hs'', hkept s'' hs''⟩
  · have hshape : (s.withLatches rootShared).Shape t :=
      ⟨hrep.rep, hrep.root, hrep.nodup, hrep.bound, hrep.ordered, hrep.occupied⟩
    have hvalid : ∀ i, ((s.withLatches rootShared).latches i).Valid := by
      intro i
      by_cases hi : i = 3
      · simp [Index.withLatches, rootShared, hi, Latch.Valid, Latch.shared]
      · simp [Index.withLatches, rootShared, hi, Latch.valid_free]
    have hfresh : (s.withLatches rootShared).FreshLatches := by
      intro i hi
      have hne : i ≠ 3 := Nat.ne_of_gt (Nat.lt_of_le_of_lt (Nat.le_of_eq hcount.symm) hi)
      simp [Index.withLatches, rootShared, hne]
    obtain ⟨habort | ⟨s', lastEx, exs, hfind, -⟩, -⟩ := latch_balance hshape hvalid hfresh 23 23
    · exact habort
    · rw [hfind] at hrefused
      cases hrefused

end VeriTxn.IndexBTree
